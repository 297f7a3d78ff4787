import MarloweAgent.Library.Trace
import MarloweAgent.Loop.Execution
import MarloweAgent.Loop.Script

/-! Privilege over spawn trees. What a child may do is a part of what its parent
might, and by composition of what any run above it might; only a human's approval
adds to it, and then only hosts. -/

namespace MarloweAgent.Loop
open Contract Library Tools Permission

variable {σ : Type} {sys : Outside σ}

/-- The run of a quarantined read. -/
structure Run.IsReader (r : Run) : Prop where
  tools : r.profile.exposedTools = .empty
  level : r.profile.level = .toolSpawned
  reads : r.profile.readsUntrusted = true

/-- `r` holds a part of what `a` held and had left: in depth and in the counted
dimensions too, unless `r` is a reader, which has no depth and one of each count. -/
structure Narrower (a r : Run) : Prop where
  tools : ∀ t, r.profile.exposedTools.contains t = true → a.profile.exposedTools.contains t = true
  memory : r.profile.mayWriteMemory = true → a.profile.mayWriteMemory = true
  floor : r.trustFloor ≤ a.trustFloor
  tokens : r.budget.tokens ≤ (a.budget.remaining a.spent).tokens
  wallMs : r.budget.wallMs ≤ (a.budget.remaining a.spent).wallMs
  microsUsd : r.budget.microsUsd ≤ (a.budget.remaining a.spent).microsUsd
  counted : r.IsReader ∧ r.budget.depth = 0 ∧ r.budget.toolCalls = 1 ∧ r.budget.subagents = 1 ∨
    r.budget.depth < a.budget.depth ∧
      r.budget.toolCalls ≤ (a.budget.remaining a.spent).toolCalls ∧
      r.budget.subagents ≤ (a.budget.remaining a.spent).subagents

/-- The run may reach the host. -/
def Run.Reaches (r : Run) (host : Host) : Prop := r.profile.egress.grants host = true

/-! ## One spawn -/

theorem remaining_le (budget spent : Budget) :
    (budget.remaining spent).tokens ≤ budget.tokens ∧
      (budget.remaining spent).wallMs ≤ budget.wallMs ∧
      (budget.remaining spent).toolCalls ≤ budget.toolCalls ∧
      (budget.remaining spent).subagents ≤ budget.subagents ∧
      (budget.remaining spent).microsUsd ≤ budget.microsUsd := by
  refine ⟨?_, ?_, ?_, ?_, ?_⟩ <;> exact Nat.sub_le _ _

/-- The profile of a spawned child, field by field. -/
theorem childProfile_ok {run : Run} {req : SpawnRequest} {level : AgentLevel}
    {profile : CapabilityProfile} (h : childProfile run req level = .ok profile) :
    profile.exposedTools.tools = req.tools ∧
      profile.egress = (if req.readsUntrusted then .denyAll else run.profile.egress) ∧
      profile.mayWriteMemory = (!req.readsUntrusted && run.profile.mayWriteMemory) := by
  unfold childProfile at h
  split at h
  · cases h
  rename_i tools htools
  split at h
  · cases h
  rename_i built hbuilt
  cases h
  obtain ⟨hexposed, hegress, -, hmemory, -⟩ := CapabilityProfile.new_ok hbuilt
  exact ⟨by rw [hexposed, ExposedSet.new_tools htools], hegress, hmemory⟩

theorem ChildOf.narrower {a r : Run} (h : ChildOf a r) (hfloor : r.trustFloor = a.trustFloor) :
    Narrower a r := by
  cases h with
  | reader hprofile hbudget =>
    obtain ⟨htokens, hwall, hmicros, hcalls, hagents, hdepth⟩ := Budget.slice_spec hbudget
    refine ⟨?_, ?_, hfloor.le, htokens, hwall, hmicros, .inl ⟨⟨?_, ?_, ?_⟩, hdepth, hcalls, hagents⟩⟩ <;>
      rw [hprofile]
    · intro t ht
      cases ht
    · intro hm
      cases hm
    all_goals rfl
  | spawned req hadmit =>
    obtain ⟨-, hgrant, -, htools, level, -, hprofile⟩ := admitSpawn_ok hadmit
    obtain ⟨hfits, hdepth⟩ := Budget.grant_fits hgrant
    obtain ⟨hexposed, -, hmemory⟩ := childProfile_ok hprofile
    refine ⟨?_, ?_, hfloor.le, hfits.tokens, hfits.wallMs, hfits.microsUsd,
      .inr ⟨hdepth, hfits.toolCalls, hfits.subagents⟩⟩
    · intro t ht
      refine htools t ?_
      rw [← hexposed]
      exact List.contains_iff_mem.mp ht
    · intro hm
      rw [hmemory, Bool.and_eq_true] at hm
      exact hm.2

/-- At its spawn a child reaches no host its parent did not. -/
theorem ChildOf.reaches {a r : Run} (h : ChildOf a r) {host : Host} (hr : r.Reaches host) :
    a.Reaches host := by
  unfold Run.Reaches at *
  cases h with
  | reader hprofile hbudget =>
    rw [hprofile] at hr
    cases hr
  | spawned req hadmit =>
    obtain ⟨-, -, -, -, level, -, hprofile⟩ := admitSpawn_ok hadmit
    obtain ⟨-, hegress, -⟩ := childProfile_ok hprofile
    rw [hegress] at hr
    split at hr
    · cases hr
    · exact hr

/-- A run that can nest another is not a reader. -/
theorem not_isReader_of_nesting {r : Run} (h : 0 < nesting r) : ¬ r.IsReader := by
  intro hreader
  unfold nesting at h
  rw [hreader.tools] at h
  cases h

theorem Narrower.trans {b a r : Run} (hab : Narrower b a) (har : Narrower a r)
    (ha : ¬ a.IsReader) : Narrower b r := by
  obtain ⟨htokens, hwall, hcalls, hagents, hmicros⟩ := remaining_le a.budget a.spent
  refine ⟨fun t ht => hab.tools t (har.tools t ht), fun hm => hab.memory (har.memory hm),
    har.floor.trans hab.floor, (har.tokens.trans htokens).trans hab.tokens,
    (har.wallMs.trans hwall).trans hab.wallMs, (har.microsUsd.trans hmicros).trans hab.microsUsd, ?_⟩
  rcases har.counted with hreader | ⟨hdepth, hcalls', hagents'⟩
  · exact .inl hreader
  · obtain ⟨hdepth', hcalls'', hagents''⟩ := hab.counted.resolve_left fun h => ha h.1
    exact .inr ⟨hdepth.trans hdepth', (hcalls'.trans hcalls).trans hcalls'',
      (hagents'.trans hagents).trans hagents''⟩

/-! ## Approvals -/

/-- A person approved this host for the run. -/
def ApprovedFor (trace : List Effect) (run : RunId) (host : Host) : Prop :=
  ∃ decision, .asked run decision true ∈ trace ∧
    ∃ reason ∈ decision.reasons, ∃ asked, askedHost reason = some asked ∧
      patternAdmits asked.text host = true

theorem ApprovedFor.mono {trace trace' : List Effect} {run : RunId} {host : Host}
    (h : ApprovedFor trace run host) (hpre : trace <+: trace') : ApprovedFor trace' run host := by
  obtain ⟨decision, hmem, hreason⟩ := h
  exact ⟨decision, hpre.subset hmem, hreason⟩

theorem grants_of_grant {policy : EgressPolicy} {asked host : Host}
    (h : (policy.grant asked).grants host = true) :
    policy.grants host = true ∨ patternAdmits asked.text host = true := by
  cases policy with
  | denyAll | allow | allowAnyHost => exact .inl h
  | allowApproved granted =>
    simp only [EgressPolicy.grant] at h
    split at h
    · exact .inl h
    · simpa [EgressPolicy.grants, List.any_append, or_comm] using h

theorem grants_of_widen {reasons : List Reason} {profile : CapabilityProfile} {host : Host}
    (h : (widen reasons profile).1.egress.grants host = true) :
    profile.egress.grants host = true ∨
      ∃ reason ∈ reasons, ∃ asked, askedHost reason = some asked ∧
        patternAdmits asked.text host = true := by
  induction reasons generalizing profile with
  | nil => exact .inl h
  | cons reason rest ih =>
    have hlater : (∃ r ∈ rest, ∃ asked, askedHost r = some asked ∧ patternAdmits asked.text host = true) →
        ∃ r ∈ reason :: rest, ∃ asked, askedHost r = some asked ∧ patternAdmits asked.text host = true := by
      rintro ⟨r, hr, hrest⟩
      exact ⟨r, List.mem_cons_of_mem _ hr, hrest⟩
    simp only [widen] at h
    cases hasked : askedHost reason with
    | none =>
      simp only [hasked] at h
      exact (ih h).imp_right hlater
    | some asked =>
      simp only [hasked] at h
      split at h
      · exact (ih h).imp_right hlater
      · rcases ih h with hgranted | ⟨r, hr, hrest⟩
        · exact (grants_of_grant hgranted).imp_right fun hadmits =>
            ⟨reason, List.mem_cons_self, asked, hasked, hadmits⟩
        · exact .inr ⟨r, List.mem_cons_of_mem _ hr, hrest⟩

theorem Run.Same.reaches {r r' : Run} (h : r.Same r') {host : Host} (hr : r'.Reaches host) :
    r.Reaches host := by
  obtain ⟨_, _, _, rfl⟩ := h
  exact hr

/-- In one step a run comes to reach only what a person approved for it in that step. -/
theorem Act.reaches {m m' : Machine σ} (h : Act sys m m') {host : Host} (hr : m'.run.Reaches host) :
    m.run.Reaches host ∨ ApprovedFor m'.trace m.run.id host := by
  cases h with
  | tell es h => exact .inl (h.run.reaches hr)
  | compaction child summary p q first second fn sn h => exact .inl (h.run.reaches hr)
  | latch observed =>
    rw [Run.latchTrustFloor_eq] at hr
    exact .inl hr
  | asked decision granted =>
    cases granted with
    | false => exact .inl hr
    | true =>
      refine (grants_of_widen hr).imp_right fun ⟨reason, hreason, hasked⟩ => ?_
      exact ⟨decision, List.mem_append_right _ List.mem_cons_self, reason, hreason, hasked⟩
  | host items wallMs h =>
    split at hr <;> exact .inl hr
  | _ => exact .inl hr

/-! ## Spawn trees -/

/-- `r` is narrower than the run `a` above it, and reaches nothing `a` did not but
what a person approved for one of the runs in between. -/
structure Descends (trace : List Effect) (between : List RunId) (a r : Run) : Prop where
  narrower : Narrower a r
  reaches : ∀ host, r.Reaches host → a.Reaches host ∨ ∃ id ∈ between, ApprovedFor trace id host

/-- Every run above `r`, as it was when it created the next one down. -/
def Lineage (trace : List Effect) (r : Run) (ancestors : List Run) : Prop :=
  ∀ nearer a further, ancestors = nearer ++ a :: further →
    Descends trace (r.id :: nearer.map Run.id) a r

/-- The run has changed in what `Narrower` does not look at, lowered its floor, and
come to reach what was approved for it at most. -/
theorem Lineage.step {trace trace' : List Effect} {r r' : Run} {ancestors : List Run}
    (h : Lineage trace r ancestors) (hpre : trace <+: trace') (id : r'.id = r.id)
    (rights : SameRights r.profile r'.profile) (budget : r'.budget = r.budget)
    (floor : r'.trustFloor ≤ r.trustFloor)
    (reaches : ∀ host, r'.Reaches host → r.Reaches host ∨ ApprovedFor trace' r.id host) :
    Lineage trace' r' ancestors := by
  intro nearer a further hsplit
  obtain ⟨hn, hreach⟩ := h nearer a further hsplit
  refine ⟨⟨?_, ?_, floor.trans hn.floor, ?_, ?_, ?_, ?_⟩, ?_⟩
  · rw [rights.exposedTools]
    exact hn.tools
  · rw [rights.mayWriteMemory]
    exact hn.memory
  · rw [budget]
    exact hn.tokens
  · rw [budget]
    exact hn.wallMs
  · rw [budget]
    exact hn.microsUsd
  · rw [budget]
    refine hn.counted.imp_left fun ⟨hreader, hrest⟩ => ⟨⟨?_, ?_, ?_⟩, hrest⟩
    · rw [rights.exposedTools]
      exact hreader.tools
    · rw [rights.level]
      exact hreader.level
    · rw [rights.readsUntrusted]
      exact hreader.reads
  · intro host hhost
    rw [id]
    rcases reaches host hhost with hr | happroved
    · exact (hreach host hr).imp_right fun ⟨run, hrun, ha⟩ => ⟨run, hrun, ha.mono hpre⟩
    · exact .inr ⟨r.id, List.mem_cons_self, happroved⟩

/-- What is below a run with a lineage has that run on top of it. -/
theorem Lineage.child {trace : List Effect} {parent child : Run} {ancestors : List Run}
    (h : Lineage trace parent ancestors) (hn : Narrower parent child)
    (hreach : ∀ host, child.Reaches host → parent.Reaches host) (hparent : ¬ parent.IsReader) :
    Lineage trace child (parent :: ancestors) := by
  intro nearer a further hsplit
  cases nearer with
  | nil =>
    obtain ⟨rfl, -⟩ := List.cons.inj hsplit
    exact ⟨hn, fun host hhost => .inl (hreach host hhost)⟩
  | cons first nearer =>
    obtain ⟨rfl, hrest⟩ := List.cons.inj hsplit
    obtain ⟨hn', hreach'⟩ := h nearer a further hrest
    refine ⟨hn'.trans hn hparent, fun host hhost => ?_⟩
    refine (hreach' host (hreach host hhost)).imp_right fun ⟨id, hid, ha⟩ => ⟨id, ?_, ha⟩
    exact List.mem_cons_of_mem _ hid

/-- **What a spawn must keep**: the child is narrower than its parent and reaches no
host its parent did not; if it reads untrusted content it holds nothing; and it is
narrower than every run above, reaching beyond it only what was approved in between. -/
def Effect.NarrowsAfter (before : List Effect) : Effect → Prop
  | .spawned ancestors parent child =>
    Narrower parent child ∧ (∀ host, child.Reaches host → parent.Reaches host) ∧
      (child.profile.readsUntrusted = true → child.profile.exposedTools.tools = [] ∧
        child.profile.mayWriteMemory = false ∧ child.profile.egress = .denyAll) ∧
      Lineage before child (parent :: ancestors)
  | _ => True

theorem Effect.PlainOf.narrowsAfter {run : RunId} {e : Effect} (h : e.PlainOf run)
    (before : List Effect) : e.NarrowsAfter before := by
  cases e <;> first | trivial | cases h.plain

/-- The acting run has its lineage, and every spawn so far kept what it must. -/
structure Narrowing (m : Machine σ) : Prop where
  lineage : Lineage m.trace m.run m.frame.ancestors
  spawns : Throughout Effect.NarrowsAfter m.trace

theorem Act.narrowing {m m' : Machine σ} (h : Act sys m m') (hm : Narrowing m) : Narrowing m' := by
  have hkept := h.kept
  refine ⟨?_, ?_⟩
  · rw [hkept.ancestors]
    exact hm.lineage.step hkept.trace hkept.id hkept.rights hkept.budget hkept.floor
      fun host => h.reaches
  · cases h with
    | tell es h =>
      rw [h.trace]
      exact hm.spawns.append fun e he => (h.plain e he).narrowsAfter
    | push | clear | latch | enlist => exact hm.spawns
    | «begin» | violation | call | took | used | adjudicated | groupStart | checkpoint | asked =>
      exact hm.spawns.concat trivial
    | answer => refine Throughout.concat (Throughout.concat hm.spawns ?_) ?_ <;> trivial
    | compaction child summary p q first second fn sn h hf hs seen offered answer locals children cps state trace =>
      rw [trace]
      refine hm.spawns.append (forall_compactionEffects hf hs (fun e he => he.narrowsAfter) ?_ ?_)
      · exact fun _ _ _ _ => trivial
      · exact fun _ => trivial
    | host items wallMs h =>
      have hcalled : Throughout Effect.NarrowsAfter
          (if items.isEmpty then m else m.note (.hostCalled m.run items)).trace := by
        split
        · exact hm.spawns
        · exact hm.spawns.concat trivial
      exact hcalled.concat trivial

theorem Born.narrowsAfter {m : Machine σ} {child : Run} (h : Born m child) (hm : Narrowing m) :
    Effect.NarrowsAfter m.trace (.spawned m.frame.ancestors m.run child) := by
  have hn := h.how.narrower h.floor
  have hparent : ¬ m.run.IsReader := not_isReader_of_nesting (Nat.zero_lt_of_lt h.nests)
  exact ⟨hn, fun host => h.how.reaches, child.profile.quarantined,
    hm.lineage.child hn (fun host => h.how.reaches) hparent⟩

/-- **Privilege never grows with depth, over whole runs.** -/
theorem Runs.narrowing {m m' : Machine σ} (h : Runs sys m m') (hm : Narrowing m) : Narrowing m' := by
  refine Calls.keeps (fun _ _ => Act.narrowing) ?_ ?_ h hm
  · rintro m c ⟨child, state, hborn, rfl⟩ hm
    have hspawn := hborn.narrowsAfter hm
    refine ⟨?_, hm.spawns.concat hspawn⟩
    exact hspawn.2.2.2.step (List.prefix_append _ _) rfl (.refl _) rfl (le_refl _) fun _ h => .inl h
  · rintro m c d m' ⟨child, state, -, rfl⟩ hbody ⟨fin, outcome, hfin, rfl⟩ hm hd
    obtain ⟨es, htrace, hes⟩ := hfin.trace
    have hended : Throughout Effect.NarrowsAfter fin.trace := by
      rw [htrace]
      exact hd.spawns.append fun e he => (hes e he).narrowsAfter
    have hpre : m.trace <+: fin.trace :=
      ((List.prefix_append _ _).trans (Runs.kept hbody).trace).trans (htrace ▸ List.prefix_append _ _)
    refine ⟨?_, ?_⟩
    · refine hm.lineage.step (hpre.trans ?_) rfl (.refl _) rfl (le_refl _) fun _ h => .inl h
      exact ((List.prefix_append _ _).trans (List.prefix_append _ _)).trans (List.prefix_append _ _)
    · refine Throughout.concat (Throughout.concat (Throughout.concat hended ?_) ?_) ?_ <;> trivial

/-- **Every spawn of a run, at any depth, narrows.** -/
theorem spawns_narrow (sys : Outside σ) (ports : Ports σ) (engine : Engine) (run : Run)
    (state : SessionState) (provenance : Provenance) (env : σ) (fresh steps retries : Nat) :
    Throughout Effect.NarrowsAfter
      ((runDriveInner sys ports steps retries).run
        (.start engine run state provenance env fresh steps retries)).2.trace := by
  have hstart : Narrowing (Machine.start engine run state provenance env fresh steps retries) := by
    refine ⟨fun nearer a further hsplit => ?_, .nil⟩
    simp [Machine.start] at hsplit
  exact ((runDriveInner_runs ports _).narrowing hstart).spawns

/-! ## Where a child has more -/

/-- A budget of one tool call and no depth. -/
def Script.oneCall : Budget :=
  { tokens := 100000, wallMs := 100000, toolCalls := 1, subagents := 5, microsUsd := 100 }

/-- A child that may create, is given a host by a person, and spawns in its turn. -/
def Script.approvedTree : Machine Script :=
  start 100000 (secretary ⟨[⟨"run"⟩, web], by decide, by decide⟩ (.allowApproved []))
    { tokens := 100000, wallMs := 100000, toolCalls := 10, subagents := 9, depth := 5
      microsUsd := 100 }
    { answers := [spawning [⟨"run"⟩, web] .manage,
        call [⟨"a", web, Args.empty.withText "url" "https://h.example/"⟩],
        spawning [web] .work, say "leaf", say "child", say "root"]
      outcomes := [[result .agentObserved "ok"]]
      approves := true }

/-- A child can nest as deep as its parent, and can call tools more often than its parent still can. -/
def Effect.outdoes : Effect → Bool
  | .spawned _ parent child =>
    decide (¬ child.budget.depth < parent.budget.depth ∧
      ¬ child.budget.toolCalls ≤ (parent.budget.remaining parent.spent).toolCalls)
  | _ => false

/-- A child reaches a host that its nearest ancestor does not. -/
def Effect.outreaches (host : Host) : Effect → Bool
  | .spawned (a :: _) _ child => child.profile.egress.grants host && !a.profile.egress.grants host
  | _ => false

/-- A reader is no deeper than its parent and may be given a call its parent has not
left; and a grandchild reaches a host its grandparent did not, when a person
approved it for the run between them. -/
theorem privilege_grows_in_places :
    (∃ ancestors parent child, Effect.spawned ancestors parent child ∈
        (Script.played (Script.fetching Script.oneCall)).trace ∧
      ¬ child.budget.depth < parent.budget.depth ∧
      ¬ child.budget.toolCalls ≤ (parent.budget.remaining parent.spent).toolCalls) ∧
    ∃ a ancestors parent child host, Effect.spawned (a :: ancestors) parent child ∈
        (Script.played Script.approvedTree).trace ∧
      child.Reaches host ∧ ¬ a.Reaches host := by
  constructor
  · have hcheck : (Script.played (Script.fetching Script.oneCall)).trace.any Effect.outdoes = true := by
      decide +kernel
    obtain ⟨e, he, hholds⟩ := List.any_eq_true.mp hcheck
    cases e with
    | spawned ancestors parent child => exact ⟨ancestors, parent, child, he, of_decide_eq_true hholds⟩
    | _ => cases hholds
  · let host : Host := ⟨"h.example", by decide⟩
    have hcheck : (Script.played Script.approvedTree).trace.any (Effect.outreaches host) = true := by decide +kernel
    obtain ⟨e, he, hholds⟩ := List.any_eq_true.mp hcheck
    cases e with
    | spawned ancestors parent child =>
      cases ancestors with
      | nil => cases hholds
      | cons a ancestors =>
        simp only [Effect.outreaches, Bool.and_eq_true, Bool.not_eq_true'] at hholds
        refine ⟨a, ancestors, parent, child, host, he, hholds.1, ?_⟩
        unfold Run.Reaches
        rw [hholds.2]
        exact Bool.false_ne_true
    | _ => cases hholds

end MarloweAgent.Loop
