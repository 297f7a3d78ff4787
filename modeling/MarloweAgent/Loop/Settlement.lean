import MarloweAgent.EventLog.Journal
import MarloweAgent.Library.KeyedLog
import MarloweAgent.Loop.Refinement

/-! Orphans. The checkpoint log is read for the last checkpoint of one run or of
every run, and settling the children of a run that ends writes one more checkpoint
for each child that has not ended. -/

namespace MarloweAgent.Loop
open Contract Library Library.KeyedLog EventLog

/-! ## The checkpoint log -/

/-- How a checkpoint is written as a payload and read back. Another payload need
not read back at all. -/
structure CheckpointCodec (P : Type) where
  encode : Checkpoint → P
  decode : P → Option Checkpoint
  decode_encode : ∀ cp, decode (encode cp) = some cp

structure JournalCheckpoints (P : Type) where
  journal : Journal P
  codec : CheckpointCodec P

namespace JournalCheckpoints

variable {P : Type}

/-- The payloads of the checkpoint rows, in seq order. -/
def payloads (store : JournalCheckpoints P) : List P :=
  (store.journal.replay (some .checkpointed)).map (·.2.2)

def decodeAll (store : JournalCheckpoints P) : List Checkpoint :=
  store.payloads.filterMap store.codec.decode

def latestPerRun (store : JournalCheckpoints P) : List Checkpoint :=
  (lastPerKey Checkpoint.run store.decodeAll).values

def latest (store : JournalCheckpoints P) (run : RunId) : Option Checkpoint :=
  (store.payloads.reverse.filterMap store.codec.decode).find? (·.run = run)

def write (store : JournalCheckpoints P) (cp : Checkpoint) (clock : Clock) :
    Except JournalError Seq × JournalCheckpoints P :=
  match store.journal.append clock
      { traceId := cp.traceId, sessionId := some (toString cp.session), runId := some (toString cp.run)
        actor := .harness, kind := .checkpointed, payload := store.codec.encode cp } with
  | (.ok event, journal) => (.ok event.seq, { store with journal })
  | (.error e, journal) => (.error e, { store with journal })

/-- `settle_orphan_in`: read, decide and write; nothing is reported when the write fails. -/
def settleOrphanIn (store : JournalCheckpoints P) (child : RunId) (policy : OrphanPolicy)
    (clock : Clock) : Option OrphanOutcome × JournalCheckpoints P :=
  match store.latest child with
  | none => (none, store)
  | some cp =>
    match settleOrphan cp policy with
    | none => (none, store)
    | some (amended, outcome) =>
      match store.write amended clock with
      | (.ok _, store) => (some outcome, store)
      | (.error _, store) => (none, store)

theorem latest_eq_lastOf (store : JournalCheckpoints P) (run : RunId) :
    store.latest run = lastOf Checkpoint.run run store.decodeAll := by
  simp [latest, decodeAll, lastOf, List.filterMap_reverse]

/-- The one run's reader and the whole tree's reader agree on every log. -/
theorem latest_eq_latestPerRun (store : JournalCheckpoints P) (run : RunId) :
    store.latest run = store.latestPerRun.find? (·.run = run) := by
  rw [latest_eq_lastOf]
  exact find?_values_lastPerKey.symm

/-- A write that succeeds adds its checkpoint to the log, and one that fails adds nothing. -/
theorem write_cases (store : JournalCheckpoints P) (cp : Checkpoint) (clock : Clock) :
    (∃ seq after, store.write cp clock = (.ok seq, after) ∧
      after.decodeAll = store.decodeAll ++ [cp]) ∨
    ∃ error after, store.write cp clock = (.error error, after) ∧
      after.decodeAll = store.decodeAll := by
  unfold write
  rcases store.journal.append_cases clock
      { traceId := cp.traceId, sessionId := some (toString cp.session), runId := some (toString cp.run)
        actor := .harness, kind := .checkpointed, payload := store.codec.encode cp } with
    ⟨event, after, happend, _, _, hreplay⟩ | ⟨error, after, happend, hrows, _⟩
  · refine .inl ⟨event.seq, { store with journal := after }, by rw [happend], ?_⟩
    simp [decodeAll, payloads, Journal.replay_some, hreplay, store.codec.decode_encode]
  · refine .inr ⟨error, { store with journal := after }, by rw [happend], ?_⟩
    simp [decodeAll, payloads, Journal.replay_of_rows_eq hrows]

end JournalCheckpoints

/-! ## What a policy makes of a child -/

/-- The child's last checkpoint once it is settled. -/
def settled (policy : OrphanPolicy) (cp : Checkpoint) : Checkpoint :=
  match settleOrphan cp policy with
  | some (amended, _) => amended
  | none => cp

theorem settled_of_terminal {policy : OrphanPolicy} {cp : Checkpoint} (h : cp.isTerminal = true) :
    settled policy cp = cp := by
  simp [settled, settleOrphan, h]

/-- What each policy names, of a child that has not ended. -/
theorem settled_of_live {policy : OrphanPolicy} {cp : Checkpoint} (h : cp.isTerminal = false) :
    settled policy cp = match policy with
      | .terminate => { cp with status := .cancelled }
      | .detach => { cp with parent := none }
      | .adopt by_ => { cp with parent := some by_ } := by
  cases policy <;> simp [settled, settleOrphan, h]

@[simp] theorem settled_run {policy : OrphanPolicy} {cp : Checkpoint} :
    (settled policy cp).run = cp.run := by
  cases h : cp.isTerminal with
  | true => rw [settled_of_terminal h]
  | false =>
    rw [settled_of_live h]
    cases policy <;> rfl

/-- A child that is settled is settled. -/
@[simp] theorem settled_settled {policy : OrphanPolicy} {cp : Checkpoint} :
    settled policy (settled policy cp) = settled policy cp := by
  cases h : cp.isTerminal with
  | true => rw [settled_of_terminal h, settled_of_terminal h]
  | false =>
    rw [settled_of_live h]
    cases policy with
    | terminate => exact settled_of_terminal rfl
    | detach => exact settled_of_live (by simpa [Checkpoint.isTerminal] using h)
    | adopt by_ => exact settled_of_live (by simpa [Checkpoint.isTerminal] using h)

/-! ## Settling through the store -/

namespace JournalCheckpoints

variable {P : Type}

/-- Settling one child through the store settles it or, when the write fails, does
nothing; every other run is as it was. -/
theorem settleOrphanIn_latest (store : JournalCheckpoints P) (child : RunId) (policy : OrphanPolicy)
    (clock : Clock) (run : RunId) :
    (store.settleOrphanIn child policy clock).2.latest run = store.latest run ∨
      run = child ∧ (store.settleOrphanIn child policy clock).2.latest run =
        (store.latest run).map (settled policy) := by
  unfold settleOrphanIn
  cases hlast : store.latest child with
  | none => exact .inl rfl
  | some cp =>
    dsimp only
    cases hsettle : settleOrphan cp policy with
    | none => exact .inl rfl
    | some amendment =>
      obtain ⟨amended, outcome⟩ := amendment
      dsimp only
      have hamended : settled policy cp = amended := by simp [settled, hsettle]
      rw [latest_eq_lastOf] at hlast
      have hrun : amended.run = child := by
        rw [← hamended, settled_run]
        exact key_of_lastOf hlast
      rcases store.write_cases amended clock with ⟨seq, after, hw, hlog⟩ | ⟨error, after, hw, hlog⟩
      · rw [hw]
        simp only [latest_eq_lastOf, hlog]
        by_cases h : run = child
        · subst h
          exact .inr ⟨rfl, by rw [lastOf_snoc_self hrun, hlast, ← hamended]; rfl⟩
        · exact .inl (lastOf_snoc_ne (by rw [hrun]; exact Ne.symm h))
      · rw [hw]
        exact .inl (by simp only [latest_eq_lastOf, hlog])

end JournalCheckpoints

/-! ## Settling the children of a run -/

section Children

variable {σ : Type}

/-- The children a run has when it ends, with the policy each was spawned under. -/
def Machine.kids (m : Machine σ) : List (RunId × OrphanPolicy) :=
  (m.engine.children.get? m.run.id).getD []

/-- The last checkpoint the engine took of a run. -/
def Machine.last (m : Machine σ) (run : RunId) : Option Checkpoint :=
  m.engine.lastCheckpoints.get? run

/-- Every checkpoint is held under the run it is of. -/
def Machine.Filed (m : Machine σ) : Prop := ∀ run cp, m.last run = some cp → cp.run = run

/-- The checkpoint an effect put in the log, when it is a record of one that was taken. -/
def Effect.checkpointRow : Effect → Option Checkpoint
  | .recorded _ _ .checkpointed (.checkpoint cp) true => some cp
  | _ => none

/-- The checkpoints the recorder took among these effects, in order. -/
def checkpointRows (es : List Effect) : List Checkpoint := es.filterMap Effect.checkpointRow

/-- No checkpoint among these effects was refused by the recorder. -/
def AllAccepted (es : List Effect) : Prop :=
  ∀ run session cp, .recorded run session .checkpointed (.checkpoint cp) false ∉ es

@[simp] theorem checkpointRows_append (es es' : List Effect) :
    checkpointRows (es ++ es') = checkpointRows es ++ checkpointRows es' :=
  List.filterMap_append

/-- A record and the notice that may follow it are one row at most. -/
theorem checkpointRows_record {run : RunId} {e : Effect} {notice : List Effect}
    (h : ∀ e ∈ notice, e = Effect.refusedAppend run) :
    checkpointRows (e :: notice) = e.checkpointRow.toList := by
  have hnotice : checkpointRows notice = [] := by
    refine List.filterMap_eq_nil_iff.mpr fun e he => ?_
    rw [h e he]
    rfl
  unfold checkpointRows at hnotice ⊢
  cases hrow : e.checkpointRow with
  | none => rw [List.filterMap_cons_none hrow, hnotice, Option.toList_none]
  | some cp => rw [List.filterMap_cons_some hrow, hnotice, Option.toList_some]

/-- What the log reads for each run once these effects have reached it. -/
def readAfter (log : List Checkpoint) (es : List Effect) (run : RunId) : Option Checkpoint :=
  lastOf Checkpoint.run run (log ++ checkpointRows es)

/-- A run's last checkpoint once these children are settled, in order. -/
def settledIn (run : RunId) (last : Option Checkpoint) (kids : List (RunId × OrphanPolicy)) :
    Option Checkpoint :=
  kids.foldl (fun last kid => if run = kid.1 then last.map (settled kid.2) else last) last

/-- What settling these children does: to the engine's own view, and to any log. -/
structure Settles (kids : List (RunId × OrphanPolicy)) (m m' : Machine σ) : Prop where
  frame : m'.frame = m.frame
  last : ∀ run, m'.last run = settledIn run (m.last run) kids
  children : m'.engine.children = m.engine.children
  log : m.Filed → ∃ es, m'.trace = m.trace ++ es ∧ ∀ log : List Checkpoint,
    (∀ run, (∀ kid ∈ kids, run ≠ kid.1) → readAfter log es run = lastOf Checkpoint.run run log) ∧
    (AllAccepted es → ∀ run, lastOf Checkpoint.run run log = m.last run →
      readAfter log es run = m'.last run)

theorem settledIn_filed {run : RunId} {last : Option Checkpoint} {kids : List (RunId × OrphanPolicy)}
    {cp : Checkpoint} (h : ∀ cp, last = some cp → cp.run = run)
    (hcp : settledIn run last kids = some cp) : cp.run = run := by
  induction kids generalizing last with
  | nil => exact h cp hcp
  | cons kid rest ih =>
    refine ih (fun cp' h' => ?_) hcp
    dsimp only at h'
    split at h'
    · obtain ⟨cp₀, hlast, rfl⟩ := Option.map_eq_some_iff.mp h'
      rw [settled_run]
      exact h cp₀ hlast
    · exact h cp' h'

theorem Settles.filed {kids : List (RunId × OrphanPolicy)} {m m' : Machine σ}
    (h : Settles kids m m') (hm : m.Filed) : m'.Filed := fun run _ hcp =>
  settledIn_filed (hm run) ((h.last run).symm.trans hcp)

theorem Settles.nil (m : Machine σ) : Settles [] m m :=
  ⟨rfl, fun _ => rfl, rfl, fun _ => ⟨[], (List.append_nil _).symm, fun log =>
    ⟨fun run _ => by simp [readAfter, checkpointRows], fun _ run h => by
      simpa [readAfter, checkpointRows] using h⟩⟩⟩

theorem Settles.cons {kid : RunId × OrphanPolicy} {rest : List (RunId × OrphanPolicy)}
    {m m' m'' : Machine σ} (h : Settles [kid] m m') (h' : Settles rest m' m'') :
    Settles (kid :: rest) m m'' := by
  refine ⟨h'.frame.trans h.frame, fun run => ?_, h'.children.trans h.children, fun hfiled => ?_⟩
  · rw [h'.last, h.last]
    rfl
  · obtain ⟨es, htrace, hlog⟩ := h.log hfiled
    obtain ⟨es', htrace', hlog'⟩ := h'.log (h.filed hfiled)
    refine ⟨es ++ es', by rw [htrace', htrace, List.append_assoc], fun log => ?_⟩
    have hread : ∀ run, readAfter log (es ++ es') run =
        readAfter (log ++ checkpointRows es) es' run := fun run => by
      simp [readAfter]
    obtain ⟨hothers, hown⟩ := hlog log
    obtain ⟨hothers', hown'⟩ := hlog' (log ++ checkpointRows es)
    constructor
    · intro run hrun
      rw [hread, hothers' run fun k hk => hrun k (List.mem_cons_of_mem _ hk)]
      exact hothers run fun k hk => hrun k (List.mem_singleton.mp hk ▸ List.mem_cons_self)
    · intro hall run hagrees
      rw [hread]
      refine hown' (fun r s cp hmem => hall r s cp (List.mem_append_right _ hmem)) run ?_
      exact hown (fun r s cp hmem => hall r s cp (List.mem_append_left _ hmem)) run hagrees

theorem settles_nothing {child : RunId × OrphanPolicy} {m m' : Machine σ} {es : List Effect}
    (hsame : ∀ cp, m.last child.1 = some cp → settled child.2 cp = cp)
    (hframe : m'.frame = m.frame) (hengine : m'.engine = m.engine) (htrace : m'.trace = m.trace ++ es)
    (hrows : checkpointRows es = []) : Settles [child] m m' := by
  have hlast : ∀ run, m'.last run = m.last run := fun run => by unfold Machine.last; rw [hengine]
  refine ⟨hframe, fun run => ?_, by rw [hengine], fun _ =>
    ⟨es, htrace, fun log => ⟨fun run _ => ?_, ?_⟩⟩⟩
  · rw [hlast]
    simp only [settledIn, List.foldl_cons, List.foldl_nil]
    split
    · rename_i h
      subst h
      cases hm : m.last child.1 with
      | none => rfl
      | some cp => rw [Option.map_some, hsame cp hm]
    · rfl
  · simp [readAfter, hrows]
  · intro _ run hagrees
    simpa [readAfter, hrows, hlast] using hagrees

theorem settleChild_settles (ports : Ports σ) (child : RunId × OrphanPolicy) (m : Machine σ) :
    Settles [child] m ((settleChild ports child).run m).2 := by
  unfold settleChild
  rw [Stateful.run_bind, Stateful.run_read]
  cases hlast : m.engine.lastCheckpoints.get? child.1 with
  | none =>
    obtain ⟨env, accepted, notice, hrun, hnotice⟩ :=
      record_run ports .runCompleted (.childFate child.1 "no_checkpoint" none) m
    dsimp only
    rw [Stateful.run_bind, Stateful.run_pure, hrun]
    refine settles_nothing (fun cp h => ?_) rfl rfl rfl ?_
    · rw [Machine.last, hlast] at h
      cases h
    · exact checkpointRows_record hnotice
  | some cp =>
    dsimp only
    cases hsettle : settleOrphan cp child.2 with
    | none =>
      refine settles_nothing (fun cp' h => ?_) rfl rfl (List.append_nil m.trace).symm rfl
      rw [Machine.last, hlast] at h
      cases h
      simp [settled, hsettle]
    | some amendment =>
      obtain ⟨amended, fate⟩ := amendment
      have hamended : settled child.2 cp = amended := by simp [settled, hsettle]
      obtain ⟨env, accepted, notice, hrun, hnotice⟩ :=
        record_run ports .checkpointed (.checkpoint amended) m
      dsimp only
      rw [Stateful.run_bind, hrun, Stateful.run_bind]
      generalize hm₁ : ({ m with
        env
        trace := m.trace ++ .recorded m.run.id m.state.session .checkpointed (.checkpoint amended)
          accepted :: notice } : Machine σ) = m₁
      obtain ⟨env', accepted', notice', hrun', hnotice'⟩ :=
        record_run ports .runCompleted (.childFate child.1 fate.verb (some child.2)) m₁
      rw [hrun']
      subst hm₁
      refine ⟨rfl, fun run => ?_, rfl, fun hfiled => ?_⟩
      · change (m.engine.lastCheckpoints.insert child.1 amended).get? run = _
        rw [OrderedMap.get?_insert]
        simp only [settledIn, List.foldl_cons, List.foldl_nil]
        by_cases h : run = child.1
        · subst h
          rw [if_pos rfl, if_pos rfl, Machine.last, hlast, Option.map_some, hamended]
        · rw [if_neg (Ne.symm h), if_neg h, Machine.last]
      · have hown : amended.run = child.1 := by
          rw [← hamended, settled_run]
          exact hfiled child.1 cp hlast
        refine ⟨_, List.append_assoc _ _ _, fun log => ?_⟩
        have hrows : ∀ run session, checkpointRows
            ((.recorded m.run.id m.state.session .checkpointed (.checkpoint amended) accepted ::
              notice) ++ .recorded run session .runCompleted
                (.childFate child.1 fate.verb (some child.2)) accepted' :: notice') =
            if accepted then [amended] else [] := by
          intro run session
          rw [checkpointRows_append, checkpointRows_record hnotice, checkpointRows_record hnotice']
          cases accepted <;> rfl
        unfold readAfter
        rw [hrows]
        constructor
        · intro run hrun
          have hne : run ≠ child.1 := hrun child List.mem_cons_self
          cases accepted with
          | false => rw [if_neg Bool.false_ne_true, List.append_nil]
          | true => exact lastOf_snoc_ne (by rw [hown]; exact Ne.symm hne)
        · intro hall run hagrees
          cases accepted with
          | false => exact absurd List.mem_cons_self (hall _ _ _)
          | true =>
            rw [if_pos rfl]
            change _ = (m.engine.lastCheckpoints.insert child.1 amended).get? run
            rw [OrderedMap.get?_insert]
            by_cases h : child.1 = run
            · rw [if_pos h, lastOf_snoc_self (hown.trans h)]
            · rw [if_neg h, lastOf_snoc_ne (by rw [hown]; exact h), hagrees, Machine.last]

theorem each_settles (ports : Ports σ) (kids : List (RunId × OrphanPolicy)) (m : Machine σ) :
    Settles kids m ((Stateful.each (settleChild ports) kids).run m).2 := by
  induction kids generalizing m with
  | nil => exact .nil m
  | cons kid rest ih => exact .cons (settleChild_settles ports kid m) (ih _)

/-! ## Orphan settlement -/

theorem settledIn_none {run : RunId} (kids : List (RunId × OrphanPolicy)) :
    settledIn run none kids = none := by
  induction kids with
  | nil => rfl
  | cons kid rest ih =>
    change settledIn run (if run = kid.1 then none else none) rest = none
    rw [ite_self]
    exact ih

/-- A run that is nobody's child here is left alone. -/
theorem settledIn_other {run : RunId} {last : Option Checkpoint}
    {kids : List (RunId × OrphanPolicy)} (h : ∀ kid ∈ kids, run ≠ kid.1) :
    settledIn run last kids = last := by
  induction kids generalizing last with
  | nil => rfl
  | cons kid rest ih =>
    change settledIn run (if run = kid.1 then _ else last) rest = last
    rw [if_neg (h kid List.mem_cons_self)]
    exact ih fun k hk => h k (List.mem_cons_of_mem _ hk)

/-- A run that ended keeps its last checkpoint whatever is asked of it. -/
theorem settledIn_ended {run : RunId} {cp : Checkpoint} {kids : List (RunId × OrphanPolicy)}
    (h : cp.isTerminal = true) : settledIn run (some cp) kids = some cp := by
  induction kids with
  | nil => rfl
  | cons kid rest ih =>
    change settledIn run (if run = kid.1 then some (settled kid.2 cp) else some cp) rest = _
    rw [settled_of_terminal h, ite_self]
    exact ih

/-- A child under one policy is settled by it, however often it is listed. -/
theorem settledIn_own {run : RunId} {last : Option Checkpoint} {policy : OrphanPolicy}
    {kids : List (RunId × OrphanPolicy)} (hmem : (run, policy) ∈ kids)
    (hown : ∀ p, (run, p) ∈ kids → p = policy) :
    settledIn run last kids = last.map (settled policy) := by
  induction kids generalizing last with
  | nil => cases hmem
  | cons kid rest ih =>
    have hrest : ∀ p, (run, p) ∈ rest → p = policy := fun p hp => hown p (List.mem_cons_of_mem _ hp)
    change settledIn run (if run = kid.1 then last.map (settled kid.2) else last) rest = _
    by_cases hkid : run = kid.1
    · have hpolicy : kid.2 = policy := hown kid.2 (by rw [hkid]; exact List.mem_cons_self)
      rw [if_pos hkid, hpolicy]
      by_cases hmore : (run, policy) ∈ rest
      · rw [ih hmore hrest]
        cases last <;> simp
      · refine settledIn_other fun k hk heq => hmore ?_
        have hk' : (run, k.2) ∈ rest := by rw [heq]; exact hk
        exact hrest k.2 hk' ▸ hk'
    · rw [if_neg hkid]
      refine ih ?_ hrest
      rcases List.mem_cons.mp hmem with rfl | h
      · exact absurd rfl hkid
      · exact h

/-- The run was spawned by the run in the frame, under this policy. -/
def Machine.SpawnedUnder (m : Machine σ) (child : RunId) (policy : OrphanPolicy) : Prop :=
  (child, policy) ∈ m.kids ∧ ∀ p, (child, p) ∈ m.kids → p = policy

/-- **What settling the children of a run does.** -/
structure Settlement (m m' : Machine σ) : Prop where
  /-- A child that ended is left exactly as it was. -/
  ended : ∀ child cp, m.last child = some cp → cp.isTerminal = true → m'.last child = some cp
  /-- Any other child becomes what its policy names, and nothing else of it changes. -/
  live : ∀ child policy cp, m.SpawnedUnder child policy → m.last child = some cp →
    cp.isTerminal = false → m'.last child = some (match policy with
      | .terminate => { cp with status := .cancelled }
      | .detach => { cp with parent := none }
      | .adopt by_ => { cp with parent := some by_ })
  /-- A child with no checkpoint is given none. -/
  unsaved : ∀ child, m.last child = none → m'.last child = none
  /-- A run that is not a child of this one is untouched. -/
  others : ∀ run, (∀ policy, (run, policy) ∉ m.kids) → m'.last run = m.last run
  /-- In any log the rows land in, a run that is not a child reads as before, and a run
  whose last checkpoint the log held reads as settled once every row is taken. -/
  log : m.Filed → ∃ es, m'.trace = m.trace ++ es ∧ ∀ log : List Checkpoint,
    (∀ run, (∀ policy, (run, policy) ∉ m.kids) →
      readAfter log es run = lastOf Checkpoint.run run log) ∧
    (AllAccepted es → ∀ run, lastOf Checkpoint.run run log = m.last run →
      readAfter log es run = m'.last run)

theorem settleChildren_run (ports : Ports σ) (m : Machine σ) :
    (settleChildren ports).run m =
      (Stateful.each (settleChild ports) m.kids).run
        (m.withEngine { m.engine with children := m.engine.children.erase m.run.id }) := rfl

theorem settleChildren_settles (ports : Ports σ) (m : Machine σ) :
    Settlement m ((settleChildren ports).run m).2 := by
  rw [settleChildren_run]
  have h := each_settles ports m.kids
    (m.withEngine { m.engine with children := m.engine.children.erase m.run.id })
  generalize ((Stateful.each (settleChild ports) m.kids).run _).2 = m' at h ⊢
  have hlast : ∀ run, m'.last run = settledIn run (m.last run) m.kids := h.last
  have hne : ∀ run, (∀ policy, (run, policy) ∉ m.kids) → ∀ kid ∈ m.kids, run ≠ kid.1 := by
    rintro run hrun kid hkid rfl
    exact hrun kid.2 hkid
  refine ⟨fun child cp hcp hend => ?_, fun child policy cp hspawned hcp hlive => ?_,
    fun child hnone => ?_, fun run hrun => ?_, fun hfiled => ?_⟩
  · rw [hlast, hcp, settledIn_ended hend]
  · rw [hlast, hcp, settledIn_own hspawned.1 hspawned.2, Option.map_some, settled_of_live hlive]
  · rw [hlast, hnone, settledIn_none]
  · rw [hlast, settledIn_other (hne run hrun)]
  · obtain ⟨es, htrace, hlog⟩ := h.log hfiled
    exact ⟨es, htrace, fun log => ⟨fun run hrun => (hlog log).1 run (hne run hrun), (hlog log).2⟩⟩

/-- Settling again finds no child left to settle. -/
theorem settleChildren_twice (ports : Ports σ) (m : Machine σ) :
    (settleChildren ports).run ((settleChildren ports).run m).2 = (settleChildren ports).run m := by
  have h := each_settles ports m.kids
    (m.withEngine { m.engine with children := m.engine.children.erase m.run.id })
  rw [settleChildren_run ports m]
  generalize (Stateful.each (settleChild ports) m.kids).run _ = after at h ⊢
  obtain ⟨⟨⟩, m'⟩ := after
  have hid : m'.run.id = m.run.id := congrArg (·.run.id) h.frame
  have hchildren : m'.engine.children = m.engine.children.erase m.run.id := h.children
  have hkids : m'.kids = [] := by
    rw [Machine.kids, hchildren, hid, OrderedMap.get?_erase_self, Option.getD_none]
  have hsame : m'.engine.children.erase m'.run.id = m'.engine.children := by
    rw [hchildren, hid, OrderedMap.erase_erase]
  rw [settleChildren_run, hkids, hsame]
  rfl

/-- **Orphan settlement.** -/
theorem orphan_settlement {P : Type} (store : JournalCheckpoints P) (ports : Ports σ) (m : Machine σ) :
    (∀ run, store.latest run = store.latestPerRun.find? (·.run = run)) ∧
      Settlement m ((settleChildren ports).run m).2 ∧
      (settleChildren ports).run ((settleChildren ports).run m).2 = (settleChildren ports).run m :=
  ⟨store.latest_eq_latestPerRun, settleChildren_settles ports m, settleChildren_twice ports m⟩

end Children

end MarloweAgent.Loop
