import MarloweAgent.Library.Lineage
import MarloweAgent.Library.Trace
import MarloweAgent.Memory.Overwrite

/-! Trust over lineages: what a write may claim, and what a supersession may lower. -/

namespace MarloweAgent.Memory
open Contract EventLog Library

/-- The lineage of every belief of a store. -/
def lineages (b : BeliefStore) : Lineage MemoryId TrustClass := lineage b

/-- Every belief records the full closure of its derivation, and is trusted no more than
anything in it. -/
abbrev WorstCaseTrust (b : BeliefStore) : Prop := (lineages b).WorstCase

/-- What a write has to satisfy: with each source it names all that the source was derived
from, and what was derived from a belief it replaces stays below it. -/
structure Lineal (b : BeliefStore) (p : MemoryWrittenPayload) : Prop where
  closed : ∀ source ∈ p.derivation, source ≠ p.id → ∀ e, b.get source = some e →
    e.derivation ⊆ p.derivation
  heirs : ∀ id e, b.get id = some e → id ≠ p.id → p.id ∈ e.derivation →
    e.effectiveTrust ≤ p.effectiveTrust ∧ p.derivation ⊆ e.derivation

/-- Each accepted write of the history is lineal at the store it is written to. -/
def LinealHistory : List Step → MemoryState → Prop
  | [], _ => True
  | step :: rest, m =>
    (accepted m (step.run m) = true → ∀ p, step.payload? m = some p → Lineal m.beliefs p) ∧
      LinealHistory rest (step.run m)

theorem lineages_some {b : BeliefStore} {id : MemoryId} {n : List MemoryId × TrustClass} :
    lineages b id = some n ↔ ∃ e, b.get id = some e ∧ (e.derivation, e.effectiveTrust) = n :=
  Option.map_eq_some_iff

/-! ## One write -/

theorem mem_parentTrusts {b : BeliefStore} {ids : List MemoryId} {id : MemoryId} {e : MemoryEntry}
    (h : id ∈ ids) (he : b.get id = some e) : e.effectiveTrust ∈ parentTrusts b ids :=
  List.mem_filterMap.mpr ⟨id, h, by rw [he]; rfl⟩

/-- What a step writes is trusted no more than any source it names. -/
theorem Step.payload_le_source {step : Step} {m : MemoryState} {p : MemoryWrittenPayload}
    (hp : step.payload? m = some p) {source : MemoryId} (h : source ∈ p.derivation)
    {e : MemoryEntry} (he : m.beliefs.get source = some e) :
    p.effectiveTrust ≤ e.effectiveTrust := by
  cases step with
  | turn request index turn =>
    cases hp
    cases h
  | remember clock write | correct clock write target =>
    cases hp
    exact effectiveTrust_le_parent _ (mem_parentTrusts h he)
  | _ => cases hp

/-- A write fits the lineages of the store exactly when it is lineal. -/
theorem fits_iff_lineal {step : Step} {m : MemoryState} {p : MemoryWrittenPayload}
    (hp : step.payload? m = some p) :
    (lineages m.beliefs).Fits p.id (p.derivation, p.effectiveTrust) ↔ Lineal m.beliefs p := by
  constructor
  · intro h
    constructor
    · intro source hsource hne e he
      exact (h.sources source _ hsource hne (lineages_some.mpr ⟨e, he, rfl⟩)).2
    · intro id e he hne hmem
      exact h.heirs id _ (lineages_some.mpr ⟨e, he, rfl⟩) hne hmem
  · intro h
    constructor
    · intro source n hsource hne hn
      obtain ⟨e, he, rfl⟩ := lineages_some.mp hn
      exact ⟨step.payload_le_source hp hsource he, h.closed source hsource hne e he⟩
    · intro id n hn hne hmem
      obtain ⟨e, he, rfl⟩ := lineages_some.mp hn
      exact h.heirs id e he hne hmem

/-- **One step** keeps the law exactly when what it writes, if anything, is lineal. -/
theorem Step.worstCase_iff (step : Step) (m : MemoryState) (h : WorstCaseTrust m.beliefs) :
    WorstCaseTrust (step.run m).beliefs ↔
      (accepted m (step.run m) = true → ∀ p, step.payload? m = some p → Lineal m.beliefs p) := by
  rcases step.run_files m with hquiet | ⟨p, hp, hfiled⟩
  · have hno : accepted m (step.run m) = false := by simp [accepted, hquiet.silent.writtenIds_eq]
    have hsame : lineages (step.run m).beliefs = lineages m.beliefs := hquiet.lineage
    rw [WorstCaseTrust, hsame, hno]
    simpa using h
  · have hyes : accepted m (step.run m) = true := by simp [accepted, hfiled.logs.writtenIds_eq]
    have hnew : lineages (step.run m).beliefs =
        Function.update (lineages m.beliefs) p.id (some (p.derivation, p.effectiveTrust)) :=
      hfiled.lineage
    rw [WorstCaseTrust, Lineage.worstCase_iff_edges] at h ⊢
    rw [hnew, Lineage.edgesBelow_update_iff h, fits_iff_lineal hp, hyes, hp]
    simp

/-! ## Histories -/

theorem worstCase_empty : WorstCaseTrust BeliefStore.empty := by
  rw [WorstCaseTrust, Lineage.worstCase_iff_edges]
  intro x n a m hx
  cases hx

/-- From a store where the law holds: it holds at every point of a history exactly when the
history is lineal. -/
theorem worstCase_throughout_iff (steps : List Step) (m : MemoryState)
    (h : WorstCaseTrust m.beliefs) :
    (∀ before, before <+: steps → WorstCaseTrust (runSteps before m).beliefs) ↔
      LinealHistory steps m := by
  induction steps generalizing m with
  | nil => simpa [LinealHistory, runSteps] using h
  | cons step rest ih =>
    rw [LinealHistory, ← step.worstCase_iff m h]
    constructor
    · intro hall
      have hstep : WorstCaseTrust (step.run m).beliefs := hall [step] ⟨rest, rfl⟩
      refine ⟨hstep, (ih (step.run m) hstep).mp fun before hpre => ?_⟩
      exact hall (step :: before) ((List.prefix_cons_inj step).mpr hpre)
    · rintro ⟨hstep, hrest⟩ before hpre
      cases before with
      | nil => exact h
      | cons first others =>
        obtain ⟨rfl, hothers⟩ := List.cons_prefix_cons.mp hpre
        exact (ih _ hstep).mpr hrest others hothers

/-- **Worst-case trust over full lineage.** In every store a history of a profile reaches,
each belief records the full closure of its derivation and is trusted no more than
anything in it, exactly when every accepted write of the history is lineal. -/
theorem worstCase_iff_lineal (key : SigningKey Payload) (inserts : List Bool)
    (steps : List Step) :
    (∀ before, before <+: steps →
      WorstCaseTrust (runSteps before (MemoryState.create key inserts)).beliefs) ↔
      LinealHistory steps (MemoryState.create key inserts) :=
  worstCase_throughout_iff steps _ worstCase_empty

def deployClaim (derivedFrom : List MemoryId) : ClaimWrite :=
  { sessionId := "s", runId := "r", text := "the deploy job runs on Fridays"
    payloadKind := .fact, derivedFrom, runFloor := .userAsserted }

/-- A claim from a claim from a claim: the last records only the one it names. -/
theorem grandparent_missing :
    let m := runSteps
      [.remember ⟨0⟩ (deployClaim []), .remember ⟨1⟩ (deployClaim ["m-s-claim-0"]),
        .remember ⟨2⟩ (deployClaim ["m-s-claim-1"])]
      (MemoryState.create ⟨fun _ => ""⟩ [])
    (lineages m.beliefs).Descends "m-s-claim-2" "m-s-claim-0" ∧
      (m.beliefs.get "m-s-claim-2").map (·.derivation) = some ["m-s-claim-1"] ∧
      ¬ WorstCaseTrust m.beliefs := by
  intro m
  have hlast : lineages m.beliefs "m-s-claim-2" = some (["m-s-claim-1"], .agentInferred) := by decide
  have hmiddle : lineages m.beliefs "m-s-claim-1" = some (["m-s-claim-0"], .agentInferred) := by decide
  have hdescends : (lineages m.beliefs).Descends "m-s-claim-2" "m-s-claim-0" :=
    .tail (.single ⟨_, hlast, List.mem_singleton.mpr rfl⟩)
      ⟨_, hmiddle, List.mem_singleton.mpr rfl⟩
  refine ⟨hdescends, by decide, fun h => ?_⟩
  exact absurd ((h.full _ _ hlast _).mpr hdescends) (by decide)

end MarloweAgent.Memory

/-! ## Supersession

When a supersession lowers no trust. A correction is checked against the trust of
its target before it is written; consolidation elects the latest member of a cluster
and checks nothing. A history lowers no trust as long as every cluster it applies
elects a member at least as trusted as the ones it merges. -/

namespace MarloweAgent.Memory
open Contract EventLog Library

/-- Both beliefs are there, and the second is trusted at least as much as the first. -/
def rises (b : BeliefStore) (loser winner : MemoryId) : Bool :=
  match b.get loser, b.get winner with
  | some e, some w => e.effectiveTrust ≤ w.effectiveTrust
  | _, _ => false

/-- A supersession applied to the store its log replays to lowers no trust. -/
def Rises (before : List LogEvent) : LogEvent → Prop
  | (_, .superseded, .superseded p) =>
    ∀ b, BeliefStore.view.derive before = .ok b → rises b p.id p.by_ = true
  | _ => True

/-- No supersession of the log lowers trust. -/
abbrev NoLowering (events : List LogEvent) : Prop := Throughout Rises events

/-- Every cluster elects a member at least as trusted as those it merges. -/
def ElectsTrusted (b : BeliefStore) (clusters : List Cluster) : Prop :=
  ∀ c ∈ clusters, ∀ id ∈ c.merged, rises b id c.representative = true

instance (b : BeliefStore) (clusters : List Cluster) : Decidable (ElectsTrusted b clusters) :=
  inferInstanceAs (Decidable (∀ c ∈ clusters, ∀ id ∈ c.merged, rises b id c.representative = true))

/-- Each consolidation of the history that is applied elects trusted members, at the store it
plans from. -/
def ElectsTrustedThroughout : List Step → MemoryState → Prop
  | [], _ => True
  | step :: rest, m =>
    (match step with
      | .consolidate sessionId _ vectors policy =>
        policy ≠ .dryRun → ElectsTrusted m.beliefs (plan m.beliefs sessionId vectors policy).clusters
      | _ => True) ∧
      ElectsTrustedThroughout rest (step.run m)

theorem rises_of_lineage {b b' : BeliefStore} (h : lineage b' = lineage b) (loser winner : MemoryId) :
    rises b' loser winner = rises b loser winner := by
  have hl := congrFun h loser
  have hw := congrFun h winner
  unfold lineage at hl hw
  unfold rises
  cases hbl : b.get loser <;> cases hbl' : b'.get loser <;> cases hbw : b.get winner <;>
    cases hbw' : b'.get winner <;> simp_all

/-! ## What every writer upholds -/

/-- Agreement with the log, and no lowering in it. -/
structure Upholds (m m' : MemoryState) : Prop extends Keeps m m' where
  rising : Agrees m → NoLowering (log m) → NoLowering (log m')

theorem Upholds.refl (m : MemoryState) : Upholds m m := ⟨.refl m, fun _ h => h⟩

theorem Upholds.trans (a b c : MemoryState) (hab : Upholds a b) (hbc : Upholds b c) :
    Upholds a c :=
  ⟨hab.toKeeps.trans _ _ _ hbc.toKeeps,
    fun ha h => hbc.rising (hab.agrees ha) (hab.rising ha h)⟩

/-- An appended event that is no supersession. -/
theorem append_rising (clock : Clock) (req : AppendRequest Payload) (m : MemoryState)
    (h : req.kind ≠ .superseded) (hm : NoLowering (log m)) :
    NoLowering (log ((append clock req).run m).2) := by
  rcases append_run clock req m with ⟨event, journal, hrun, hr⟩ | ⟨error, journal, hrun, hr⟩
  · rw [hrun, log, hr]
    refine Throughout.concat hm ?_
    unfold Rises
    split
    · rename_i heq
      simp only [Prod.mk.injEq] at heq
      exact absurd heq.2.1 h
    · trivial
  · rw [hrun, log, hr]
    exact hm

/-- A supersession appended to a log the live store agrees with. -/
theorem append_superseded_rising (clock : Clock) (req : AppendRequest Payload) (m : MemoryState)
    (loser winner : MemoryId) (hkind : req.kind = .superseded)
    (hpayload : req.payload = .superseded { id := loser, by_ := winner })
    (hrises : rises m.beliefs loser winner = true) (hm : Agrees m) (hlog : NoLowering (log m)) :
    NoLowering (log ((append clock req).run m).2) := by
  rcases append_run clock req m with ⟨event, journal, hrun, hr⟩ | ⟨error, journal, hrun, hr⟩
  · rw [hrun, log, hr]
    refine Throughout.concat hlog ?_
    rw [hkind, hpayload]
    intro b hb
    have hlive : b = m.beliefs := Except.ok.inj (hb.symm.trans hm)
    rw [hlive]
    exact hrises
  · rw [hrun, log, hr]
    exact hlog

theorem append_upholds (clock : Clock) (req : AppendRequest Payload)
    (h : isBeliefInput req.kind = false) : Fallible.Within Upholds (append clock req) := by
  intro m
  refine ⟨append_foreign clock req h m, fun _ hm => append_rising clock req m ?_ hm⟩
  intro hkind
  rw [hkind] at h
  cases h

/-- Append, then fold the same event, when the append lowers no trust. -/
theorem commit_upholds {β : Type} (m : MemoryState) (clock : Clock) (req : AppendRequest Payload)
    (fold : JournalEvent Payload → BeliefStore → BeliefStore)
    (next : JournalEvent Payload → MemoryM β)
    (happly : ∀ event : JournalEvent Payload,
      BeliefStore.applyEvent m.beliefs (event.seq, req.kind, req.payload) =
        .ok (fold event m.beliefs))
    (hknown : ∀ event id, (m.beliefs.get id).isSome → ((fold event m.beliefs).get id).isSome)
    (hrising : Agrees m → NoLowering (log m) → NoLowering (log ((append clock req).run m).2))
    (hnext : ∀ event, Fallible.Within Upholds (next event)) :
    Upholds m ((append clock req >>= fun event =>
      updateBeliefs (fold event) >>= fun _ => next event).run m).2 := by
  rcases append_run clock req m with ⟨event, journal, hrun, hr⟩ | ⟨error, journal, hrun, hr⟩
  · rw [hrun] at hrising
    rw [Fallible.bind_ok hrun]
    have hfold : (updateBeliefs (fold event)).run { m with journal } =
        (.ok (), { journal, beliefs := fold event m.beliefs }) := rfl
    rw [Fallible.bind_ok hfold]
    have hcommit : Upholds m { journal, beliefs := fold event m.beliefs } :=
      ⟨committed_keeps m _ journal _ hr (happly event) (hknown event), hrising⟩
    exact hcommit.trans _ _ _ (hnext event _)
  · rw [hrun] at hrising
    rw [Fallible.bind_error hrun]
    refine ⟨⟨fun hm => ?_, fun _ hid => hid⟩, hrising⟩
    rw [Agrees, log, hr]
    exact hm

theorem upholds_pure {α : Type} (a : α) : Fallible.Within Upholds (pure a : MemoryM α) :=
  Fallible.Within.pure Upholds.refl a

/-- The write of a payload. -/
theorem write_upholds {β : Type} (m : MemoryState) (clock : Clock) (req : AppendRequest Payload)
    (p : MemoryWrittenPayload) (next : JournalEvent Payload → MemoryM β)
    (hkind : req.kind = .memoryWritten) (hpayload : req.payload = .memoryWritten p)
    (hfidelity : p.fidelity = .record) (hnext : ∀ event, Fallible.Within Upholds (next event)) :
    Upholds m ((append clock req >>= fun event =>
      updateBeliefs (·.insert (liveEntry event.seq p)) >>= fun _ => next event).run m).2 := by
  refine commit_upholds m clock req (fun event beliefs => beliefs.insert (liveEntry event.seq p))
    next (fun event => ?_) (fun event id hid => ?_) (fun _ => append_rising clock req m ?_) hnext
  · rw [hkind, hpayload, BeliefStore.applyEvent_written, liveEntry_eq _ _ hfidelity]
  · exact m.beliefs.isSome_get_insert _ hid
  · rw [hkind]
    decide

theorem rises_known {m : MemoryState} {loser winner : MemoryId}
    (h : rises m.beliefs loser winner = true) : Known m loser := by
  unfold rises at h
  unfold Known
  cases hl : m.beliefs.get loser with
  | none => simp [hl] at h
  | some e => rfl

/-- The supersession of a belief by one trusted at least as much. -/
theorem supersede_upholds {β : Type} (m : MemoryState) (clock : Clock)
    (req : AppendRequest Payload) (loser winner : MemoryId) (next : MemoryM β)
    (hkind : req.kind = .superseded)
    (hpayload : req.payload = .superseded { id := loser, by_ := winner })
    (hrises : rises m.beliefs loser winner = true) (hnext : Fallible.Within Upholds next) :
    Upholds m ((append clock req >>= fun _ =>
      updateBeliefs (·.supersede loser winner) >>= fun _ => next).run m).2 := by
  refine commit_upholds m clock req (fun _ beliefs => beliefs.supersede loser winner)
    (fun _ => next) (fun event => ?_) (fun _ id hid => ?_)
    (append_superseded_rising clock req m loser winner hkind hpayload hrises) fun _ => hnext
  · rw [hkind, hpayload]
    exact BeliefStore.applyEvent_superseded m.beliefs event.seq _ (rises_known hrises)
  · rw [BeliefStore.isSome_get_supersede]
    exact hid

/-! ## Turns, claims and tombstones -/

theorem ingestTurn_upholds (request : IngestRequest) (index : Nat) (turn : Turn) :
    Fallible.Within Upholds (ingestTurn request index turn) := by
  unfold ingestTurn
  cases checkActor turn.origin.actor with
  | some reason =>
    exact (append_upholds _ _ rfl).bind Upholds.trans fun _ => upholds_pure _
  | none =>
    refine Fallible.Within.read_bind fun m => ?_
    exact write_upholds m _ _ _ _ rfl rfl rfl fun _ => upholds_pure _

theorem rememberClaim_upholds (clock : Clock) (write : ClaimWrite) :
    Fallible.Within Upholds (rememberClaim clock write) := by
  unfold rememberClaim
  refine Fallible.Within.read_bind fun m => ?_
  cases claimRejection m.beliefs write with
  | some reason =>
    exact ((append_upholds _ _ rfl).bind Upholds.trans fun _ => upholds_pure _) m
  | none => exact write_upholds m _ _ _ _ rfl rfl rfl fun _ => upholds_pure _

/-- A receipt is of the claim's own payload, and that is what was filed. -/
theorem rememberClaim_receipt {clock : Clock} {write : ClaimWrite} {m m' : MemoryState}
    {receipt : WriteReceipt} (h : (rememberClaim clock write).run m = (.ok (.ok receipt), m')) :
    receipt.id = (claimPayload m.beliefs clock write).id ∧
      lineage m'.beliefs = Function.update (lineage m.beliefs) receipt.id
        (some (write.derivedFrom, claimTrust m.beliefs write)) := by
  unfold rememberClaim at h
  rw [Fallible.read_bind_run] at h
  cases hrejected : claimRejection m.beliefs write with
  | some reason =>
    simp only [hrejected] at h
    rcases append_run clock _ m with ⟨event, journal, hrun, -⟩ | ⟨error, journal, hrun, -⟩
    · rw [Fallible.bind_ok hrun] at h
      cases h
    · rw [Fallible.bind_error hrun] at h
      cases h
  | none =>
    simp only [hrejected] at h
    rcases append_run clock _ m with ⟨event, journal, hrun, -⟩ | ⟨error, journal, hrun, -⟩
    · rw [Fallible.bind_ok hrun] at h
      cases h
      exact ⟨rfl, lineage_insert m.beliefs _⟩
    · rw [Fallible.bind_error hrun] at h
      cases h

/-- The correction just written is trusted as it was checked to be, and its target as it was,
unless it is the target itself. -/
theorem rises_of_receipt {write : ClaimWrite} {m m' : MemoryState} {target id : MemoryId}
    {existing : MemoryEntry} (htarget : m.beliefs.get target = some existing)
    (hcheck : ¬ claimTrust m.beliefs write < existing.effectiveTrust)
    (hlineage : lineage m'.beliefs = Function.update (lineage m.beliefs) id
      (some (write.derivedFrom, claimTrust m.beliefs write))) :
    rises m'.beliefs target id = true := by
  have hnew := congrFun hlineage id
  rw [Function.update_self] at hnew
  obtain ⟨w, hw, hwn⟩ := Option.map_eq_some_iff.mp hnew
  have hwtrust : w.effectiveTrust = claimTrust m.beliefs write := congrArg Prod.snd hwn
  by_cases hsame : target = id
  · simp [rises, hsame, hw]
  · have hold := congrFun hlineage target
    rw [Function.update_of_ne hsame] at hold
    unfold lineage at hold
    rw [htarget] at hold
    obtain ⟨e, he, hen⟩ := Option.map_eq_some_iff.mp hold
    have hetrust : e.effectiveTrust = existing.effectiveTrust := congrArg Prod.snd hen
    simp only [rises, he, hw, hetrust, hwtrust, decide_eq_true_eq]
    exact not_lt.mp hcheck

/-- **A correction lowers no trust**: it is checked before it is written. -/
theorem correctClaim_upholds (clock : Clock) (write : ClaimWrite) (target : MemoryId) :
    Fallible.Within Upholds (correctClaim clock write target) := by
  unfold correctClaim
  refine Fallible.Within.read_bind fun m => ?_
  cases htarget : m.beliefs.get target with
  | none => exact Upholds.refl m
  | some existing =>
    simp only
    split
    · exact Upholds.refl m
    · rename_i hcheck
      apply Fallible.bind_at (rememberClaim_upholds clock write m)
      intro result m' hrun hclaim
      cases result with
      | error rejected => exact hclaim
      | ok receipt =>
        refine hclaim.trans _ _ _ ?_
        exact supersede_upholds m' _ _ target receipt.id _ rfl rfl
          (rises_of_receipt htarget hcheck (rememberClaim_receipt hrun).2) (upholds_pure _)

theorem forgetClaim_upholds (clock : Clock) (sessionId runId : String) (target : MemoryId) :
    Fallible.Within Upholds (forgetClaim clock sessionId runId target) := by
  unfold forgetClaim
  refine Fallible.Within.read_bind fun m => ?_
  cases htarget : m.beliefs.get target with
  | none => exact Upholds.refl m
  | some existing =>
    refine commit_upholds m _ _ (fun _ beliefs => beliefs.tombstone target) _ (fun event => ?_)
      (fun _ id hid => ?_) (fun _ => append_rising _ _ m (by simp)) fun _ => upholds_pure _
    · exact BeliefStore.applyEvent_tombstoned m.beliefs event.seq _ (by simp [htarget])
    · rw [BeliefStore.isSome_get_tombstone]
      exact hid

/-! ## Consolidation -/

/-- What a consolidation does at most: it upholds, and moves no lineage. -/
def Merges (m m' : MemoryState) : Prop := Upholds m m' ∧ Quiet m m'

theorem Merges.refl (m : MemoryState) : Merges m m := ⟨.refl m, .refl m⟩

theorem Merges.trans (a b c : MemoryState) (hab : Merges a b) (hbc : Merges b c) : Merges a c :=
  ⟨hab.1.trans _ _ _ hbc.1, hab.2.trans _ _ _ hbc.2⟩

theorem Merges.rises {m m' : MemoryState} (h : Merges m m') {loser winner : MemoryId}
    (hrises : rises m.beliefs loser winner = true) : rises m'.beliefs loser winner = true := by
  rwa [rises_of_lineage h.2.lineage]

theorem supersedeLoser_merges (clock : Clock) (sessionId : String) (representative loser : MemoryId)
    (m : MemoryState) (h : rises m.beliefs loser representative = true) :
    Merges m ((supersedeLoser clock sessionId representative loser).run m).2 := by
  constructor
  · exact supersede_upholds m _ _ loser representative (pure ()) rfl rfl h (upholds_pure ())
  · exact (append_quiet _ _ rfl).bind Quiet.trans
      (fun _ => update_quiet _ fun b => lineage_supersede b _ _) m

theorem append_merges (clock : Clock) (req : AppendRequest Payload)
    (h : isBeliefInput req.kind = false) : Fallible.Within Merges (append clock req) :=
  fun m => ⟨append_upholds clock req h m, record_quiet clock req h m⟩

theorem merges_pure {α : Type} (a : α) : Fallible.Within Merges (pure a : MemoryM α) :=
  Fallible.Within.pure Merges.refl a

theorem applyCluster_merges (clock : Clock) (sessionId : String) (cluster : Cluster)
    (m : MemoryState)
    (h : ∀ id ∈ cluster.merged, rises m.beliefs id cluster.representative = true) :
    Merges m ((applyCluster clock sessionId cluster).run m).2 := by
  unfold applyCluster
  rw [Fallible.read_bind_run]
  refine Fallible.bind_at (append_merges _ _ rfl m) fun _ m' _ happend => ?_
  refine happend.trans _ _ _ ?_
  exact Fallible.each_at (P := fun id s => rises s.beliefs id cluster.representative = true)
    Merges.refl Merges.trans (fun _ _ _ hR hid => hR.rises hid)
    (supersedeLoser_merges clock sessionId cluster.representative) _ m'
    fun id hid => happend.rises (h id hid)

theorem apply_merges (report : ConsolidationReport) (clock : Clock) (m : MemoryState)
    (h : ElectsTrusted m.beliefs report.clusters) :
    Merges m ((apply report clock).run m).2 := by
  unfold apply
  cases report.threshold with
  | none => exact Merges.refl m
  | some threshold =>
    have hclusters : Merges m
        ((Fallible.each (applyCluster clock report.sessionId) report.clusters).run m).2 := by
      refine Fallible.each_at (P := fun (c : Cluster) (s : MemoryState) =>
        ∀ id ∈ c.merged, rises s.beliefs id c.representative = true) Merges.refl Merges.trans ?_
        (applyCluster_merges clock report.sessionId) _ m h
      intro c s t hR hc id hid
      exact hR.rises (hc id hid)
    refine Fallible.bind_at hclusters fun _ m' _ hR => hR.trans _ _ _ ?_
    exact (append_merges _ _ rfl).bind Merges.trans (fun _ => merges_pure _) m'

/-- A consolidation that elects trusted members lowers no trust, and a dry run applies nothing. -/
theorem consolidate_upholds (sessionId : String) (clock : Clock) (vectors : VectorStore)
    (policy : Policy) (m : MemoryState)
    (h : policy ≠ .dryRun →
      ElectsTrusted m.beliefs (plan m.beliefs sessionId vectors policy).clusters) :
    Upholds m ((consolidate sessionId clock vectors policy).run m).2 := by
  unfold consolidate
  rw [Fallible.read_bind_run]
  simp only
  split
  · rename_i hpolicy
    exact (Fallible.bind_at (apply_merges _ clock m (h hpolicy))
      fun _ m' _ hR => hR.trans _ _ _ (merges_pure _ m')).1
  · exact Fallible.bind_at (upholds_pure _ m) fun _ m' _ hR => hR.trans _ _ _ (upholds_pure _ m')

/-! ## Histories -/

theorem Step.run_upholds (step : Step) (rest : List Step) (m : MemoryState)
    (h : ElectsTrustedThroughout (step :: rest) m) : Upholds m (step.run m) := by
  cases step with
  | turn request index turn => exact ingestTurn_upholds request index turn m
  | remember clock write => exact rememberClaim_upholds clock write m
  | correct clock write target => exact correctClaim_upholds clock write target m
  | forget clock sessionId runId target => exact forgetClaim_upholds clock sessionId runId target m
  | consolidate sessionId clock vectors policy =>
    exact consolidate_upholds sessionId clock vectors policy m h.1
  | record clock req foreign => exact append_upholds clock req foreign m

theorem runSteps_upholds (steps : List Step) (m : MemoryState)
    (h : ElectsTrustedThroughout steps m) : Upholds m (runSteps steps m) := by
  induction steps generalizing m with
  | nil => exact Upholds.refl m
  | cons step rest ih => exact (step.run_upholds rest m h).trans _ _ _ (ih (step.run m) h.2)

/-- A session's turn over a channel. -/
def spoken (channel : Channel) (turnId : String) : Step :=
  .turn { contractVersion := "1", clock := ⟨0⟩, sessionId := "s", turns := [] } 0
    { turnId, speaker := .user, text := "the deploy job runs on Fridays", occurredAtMs := 0
      origin := { channel, actor := "user:primary", ref := none } }

/-- Two beliefs with the same vector. -/
def alike : VectorStore :=
  { vectors := (OrderedMap.empty.insert "m-s-a-0" []).insert "m-s-b-0" [], cosine := fun _ _ => 1 }

/-- Two turns that say the same, the second over `channel`, and a consolidation. -/
def saidTwice (channel : Channel) : List Step :=
  [spoken .terminal "a", spoken channel "b", .consolidate "s" ⟨1⟩ alike (.frozen 1)]

end MarloweAgent.Memory
