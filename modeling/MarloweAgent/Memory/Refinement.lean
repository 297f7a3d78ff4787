import MarloweAgent.Memory.Consolidate

/-! The live belief store equals its journal. Every writer is shown to keep two
things: agreement between the live store and the replayed log, and every id the
store already knows. The second is what makes the next event replayable. -/

namespace MarloweAgent.Memory
open Contract EventLog Library

/-! ## Operations and runs -/

/-- The kinds the replay of the belief store reads. -/
def isBeliefInput : EventKind → Bool
  | .memoryWritten | .fidelityDemoted | .superseded | .tombstoned => true
  | _ => false

/-- One operation on a memory. `record` is any other component appending an event
of its own to the shared journal. -/
inductive Op
  | ingest (request : IngestRequest)
  | remember (clock : Clock) (write : ClaimWrite)
  | correct (clock : Clock) (write : ClaimWrite) (target : MemoryId)
  | forget (clock : Clock) (sessionId runId : String) (target : MemoryId)
  | consolidate (sessionId : String) (clock : Clock) (vectors : VectorStore) (policy : Policy)
  | record (clock : Clock) (req : AppendRequest Payload) (foreign : isBeliefInput req.kind = false)

/-- The state an operation leaves, whether it was accepted, refused or failed midway. -/
def Op.run : Op → MemoryState → MemoryState
  | .ingest request, m => ((Memory.ingest request).run m).2
  | .remember clock write, m => ((rememberClaim clock write).run m).2
  | .correct clock write target, m => ((correctClaim clock write target).run m).2
  | .forget clock sessionId runId target, m =>
    ((forgetClaim clock sessionId runId target).run m).2
  | .consolidate sessionId clock vectors policy, m =>
    ((Memory.consolidate sessionId clock vectors policy).run m).2
  | .record clock req _, m => ((append clock req).run m).2

def runOps (ops : List Op) (m : MemoryState) : MemoryState := ops.foldl (fun m op => op.run m) m

/-! ## What every writer keeps -/

def log (m : MemoryState) : List LogEvent := m.journal.replay none

/-- The live store is the replay of the log. -/
def Agrees (m : MemoryState) : Prop := BeliefStore.view.Agrees (log m) m.beliefs

def Known (m : MemoryState) (id : MemoryId) : Prop := (m.beliefs.get id).isSome

/-- Agreement is kept and no id is lost. -/
structure Keeps (m m' : MemoryState) : Prop where
  agrees : Agrees m → Agrees m'
  known : ∀ id, Known m id → Known m' id

theorem Keeps.refl (m : MemoryState) : Keeps m m := ⟨id, fun _ h => h⟩

theorem Keeps.trans (a b c : MemoryState) (hab : Keeps a b) (hbc : Keeps b c) : Keeps a c :=
  ⟨fun h => hbc.agrees (hab.agrees h), fun id h => hbc.known id (hab.known id h)⟩

theorem applyEvent_foreign (beliefs : BeliefStore) (seq : Seq) (kind : EventKind)
    (payload : Payload) (h : isBeliefInput kind = false) :
    BeliefStore.applyEvent beliefs (seq, kind, payload) = .ok beliefs := by
  cases kind <;> first | rfl | cases h

/-- What `append` does to a memory: the log grows by the event and the store stays,
or the call fails and neither moves. -/
theorem append_run (clock : Clock) (req : AppendRequest Payload) (m : MemoryState) :
    (∃ event journal, (append clock req).run m = (.ok event, { m with journal }) ∧
      journal.replay none = m.journal.replay none ++ [(event.seq, req.kind, req.payload)]) ∨
    (∃ error journal, (append clock req).run m = (.error error, { m with journal }) ∧
      journal.replay none = m.journal.replay none) := by
  simp only [append]
  rcases Journal.append_cases m.journal clock req with
    ⟨event, after, h, _, _, hr⟩ | ⟨error, after, h, hr, _⟩
  · exact .inl ⟨event, after, by rw [h], hr⟩
  · exact .inr ⟨_, after, by rw [h], Journal.replay_of_rows_eq hr none⟩

theorem append_foreign (clock : Clock) (req : AppendRequest Payload)
    (h : isBeliefInput req.kind = false) : Fallible.Within Keeps (append clock req) := by
  intro m
  rcases append_run clock req m with ⟨event, journal, hrun, hr⟩ | ⟨error, journal, hrun, hr⟩
  · rw [hrun]
    refine ⟨fun hm => ?_, fun _ hid => hid⟩
    rw [Agrees, log, hr]
    exact hm.snoc_ignored (applyEvent_foreign m.beliefs _ _ _ h)
  · rw [hrun]
    refine ⟨fun hm => ?_, fun _ hid => hid⟩
    rw [Agrees, log, hr]
    exact hm

/-- An event appended and folded into the live store by what replay does with it. -/
theorem committed_keeps (m : MemoryState) (e : LogEvent) (journal : Journal Payload)
    (beliefs : BeliefStore) (hr : journal.replay none = m.journal.replay none ++ [e])
    (happly : BeliefStore.applyEvent m.beliefs e = .ok beliefs)
    (hknown : ∀ id, (m.beliefs.get id).isSome → (beliefs.get id).isSome) :
    Keeps m { journal, beliefs } := by
  refine ⟨fun hm => ?_, hknown⟩
  rw [Agrees, log, hr]
  exact hm.snoc happly

/-- **Append, then fold the same event.** When the live mutation is what replay does
with the appended event, the writer keeps agreement; a failed append moves nothing. -/
theorem commit_keeps {β : Type} (m : MemoryState) (clock : Clock) (req : AppendRequest Payload)
    (fold : JournalEvent Payload → BeliefStore → BeliefStore)
    (next : JournalEvent Payload → MemoryM β)
    (happly : ∀ event : JournalEvent Payload,
      BeliefStore.applyEvent m.beliefs (event.seq, req.kind, req.payload) =
        .ok (fold event m.beliefs))
    (hknown : ∀ event id, (m.beliefs.get id).isSome → ((fold event m.beliefs).get id).isSome)
    (hnext : ∀ event, Fallible.Within Keeps (next event)) :
    Keeps m ((append clock req >>= fun event =>
      updateBeliefs (fold event) >>= fun _ => next event).run m).2 := by
  rcases append_run clock req m with ⟨event, journal, hrun, hr⟩ | ⟨error, journal, hrun, hr⟩
  · rw [Fallible.bind_ok hrun]
    have hfold : (updateBeliefs (fold event)).run { m with journal } =
        (.ok (), { journal, beliefs := fold event m.beliefs }) := rfl
    rw [Fallible.bind_ok hfold]
    have hcommit := committed_keeps m _ journal _ hr (happly event) (hknown event)
    exact hcommit.trans _ _ _ (hnext event _)
  · rw [Fallible.bind_error hrun]
    refine ⟨fun hm => ?_, fun _ hid => hid⟩
    rw [Agrees, log, hr]
    exact hm

theorem liveEntry_eq (seq : Seq) (p : MemoryWrittenPayload) (h : p.fidelity = .record) :
    BeliefStore.entryOfWritten seq p = liveEntry seq p := by
  simp only [BeliefStore.entryOfWritten, liveEntry, h]

/-- The write of a payload: journalled as `MemoryWritten`, then inserted. -/
theorem write_keeps {β : Type} (m : MemoryState) (clock : Clock) (req : AppendRequest Payload)
    (p : MemoryWrittenPayload) (next : JournalEvent Payload → MemoryM β)
    (hkind : req.kind = .memoryWritten) (hpayload : req.payload = .memoryWritten p)
    (hfidelity : p.fidelity = .record) (hnext : ∀ event, Fallible.Within Keeps (next event)) :
    Keeps m ((append clock req >>= fun event =>
      updateBeliefs (·.insert (liveEntry event.seq p)) >>= fun _ => next event).run m).2 := by
  refine commit_keeps m clock req (fun event beliefs => beliefs.insert (liveEntry event.seq p))
    next (fun event => ?_) (fun event id hid => ?_) hnext
  · rw [hkind, hpayload, BeliefStore.applyEvent_written, liveEntry_eq _ _ hfidelity]
  · exact m.beliefs.isSome_get_insert _ hid

/-- The supersession of a known id. -/
theorem supersede_keeps {β : Type} (m : MemoryState) (clock : Clock)
    (req : AppendRequest Payload) (loser winner : MemoryId) (next : MemoryM β)
    (hkind : req.kind = .superseded)
    (hpayload : req.payload = .superseded { id := loser, by_ := winner })
    (hloser : Known m loser) (hnext : Fallible.Within Keeps next) :
    Keeps m ((append clock req >>= fun _ =>
      updateBeliefs (·.supersede loser winner) >>= fun _ => next).run m).2 := by
  refine commit_keeps m clock req (fun _ beliefs => beliefs.supersede loser winner)
    (fun _ => next) (fun event => ?_) (fun _ id hid => ?_) fun _ => hnext
  · rw [hkind, hpayload]
    exact BeliefStore.applyEvent_superseded m.beliefs event.seq _ hloser
  · rw [BeliefStore.isSome_get_supersede]
    exact hid

/-! ## The writers -/

theorem within_pure {α : Type} (a : α) : Fallible.Within Keeps (pure a : MemoryM α) :=
  Fallible.Within.pure Keeps.refl a

theorem ingestTurn_keeps (request : IngestRequest) (index : Nat) (turn : Turn) :
    Fallible.Within Keeps (ingestTurn request index turn) := by
  unfold ingestTurn
  cases checkActor turn.origin.actor with
  | some reason =>
    exact (append_foreign _ _ rfl).bind Keeps.trans fun _ => within_pure _
  | none =>
    refine Fallible.Within.read_bind fun m => ?_
    exact write_keeps m _ _ _ _ rfl rfl rfl fun _ => within_pure _

theorem ingestTurns_keeps (request : IngestRequest) (turns : List Turn) (index : Nat) :
    Fallible.Within Keeps (ingestTurns request index turns) := by
  induction turns generalizing index with
  | nil => exact within_pure _
  | cons turn rest ih =>
    exact (ingestTurn_keeps request index turn).bind Keeps.trans fun _ =>
      (ih (index + 1)).bind Keeps.trans fun _ => within_pure _

theorem rememberClaim_keeps (clock : Clock) (write : ClaimWrite) :
    Fallible.Within Keeps (rememberClaim clock write) := by
  unfold rememberClaim
  refine Fallible.Within.read_bind fun m => ?_
  cases claimRejection m.beliefs write with
  | some reason =>
    exact ((append_foreign _ _ rfl).bind Keeps.trans fun _ => within_pure _) m
  | none => exact write_keeps m _ _ _ _ rfl rfl rfl fun _ => within_pure _

theorem correctClaim_keeps (clock : Clock) (write : ClaimWrite) (target : MemoryId) :
    Fallible.Within Keeps (correctClaim clock write target) := by
  unfold correctClaim
  refine Fallible.Within.read_bind fun m => ?_
  cases htarget : m.beliefs.get target with
  | none => exact Keeps.refl m
  | some existing =>
    have hknown : Known m target := by simp [Known, htarget]
    simp only
    split
    · exact Keeps.refl m
    · apply Fallible.bind_at (rememberClaim_keeps clock write m)
      intro result m' _ hclaim
      cases result with
      | error rejected => exact hclaim
      | ok receipt =>
        refine hclaim.trans _ _ _ ?_
        exact supersede_keeps m' _ _ target receipt.id _ rfl rfl
          (hclaim.known target hknown) (within_pure _)

theorem forgetClaim_keeps (clock : Clock) (sessionId runId : String) (target : MemoryId) :
    Fallible.Within Keeps (forgetClaim clock sessionId runId target) := by
  unfold forgetClaim
  refine Fallible.Within.read_bind fun m => ?_
  cases htarget : m.beliefs.get target with
  | none => exact Keeps.refl m
  | some existing =>
    refine commit_keeps m _ _ (fun _ beliefs => beliefs.tombstone target) _ (fun event => ?_)
      (fun _ id hid => ?_) fun _ => within_pure _
    · exact BeliefStore.applyEvent_tombstoned m.beliefs event.seq _ (by simp [htarget])
    · rw [BeliefStore.isSome_get_tombstone]
      exact hid

/-! ## Consolidation supersedes only beliefs the store holds -/

namespace Similarities

variable (s : Similarities)

theorem idAt_mem {x : Nat} (h : x < s.ids.length) : s.idAt x ∈ s.ids := by
  simp only [idAt, List.getD_eq_getElem?_getD, List.getElem?_eq_getElem h, Option.getD_some]
  exact List.getElem_mem h

theorem roots_fst (parent positions : List Nat) :
    (roots parent positions).map Prod.fst = positions := by
  induction positions generalizing parent with
  | nil => rfl
  | cons i rest ih => simp [roots, ih]

/-- Every group of `members` holds positions below `n` only. -/
theorem members_lt (parent : List Nat) (n : Nat) {group : List Nat} {x : Nat}
    (hg : group ∈ (members parent n).values) (hx : x ∈ group) : x < n := by
  obtain ⟨k, hk⟩ := (OrderedMap.mem_values_iff _ _).mp hg
  have hcollect := OrderedMap.get?_foldl_collect (roots parent (List.range n)) OrderedMap.empty k
  rw [← members, hk] at hcollect
  simp only [Option.getD_some, OrderedMap.get?_empty, Option.getD_none, List.nil_append] at hcollect
  rw [hcollect] at hx
  obtain ⟨p, hp, rfl⟩ := List.mem_map.mp hx
  have hmem := List.mem_map_of_mem (f := Prod.fst) (List.mem_filter.mp hp).1
  rw [roots_fst] at hmem
  exact List.mem_range.mp hmem

theorem clusterOf_merged {group : List Nat} {cluster : Cluster} {id : MemoryId}
    (h : s.clusterOf group = some cluster) (hid : id ∈ cluster.merged) :
    ∃ x ∈ group, s.idAt x = id := by
  unfold clusterOf at h
  split at h
  · cases h
    obtain ⟨x, hx, rfl⟩ := List.mem_map.mp hid
    exact ⟨x, (List.mem_filter.mp (List.mem_mergeSort.mp hx)).1, rfl⟩
  · cases h

theorem cluster_merged_mem {threshold : Rat} {linkage : Linkage} {cluster : Cluster}
    {id : MemoryId} (h : cluster ∈ s.cluster threshold linkage) (hid : id ∈ cluster.merged) :
    id ∈ s.ids := by
  obtain ⟨group, hgroup, hc⟩ := List.mem_filterMap.mp (List.mem_mergeSort.mp h)
  obtain ⟨x, hx, rfl⟩ := s.clusterOf_merged hc hid
  exact s.idAt_mem (members_lt _ _ hgroup hx)

end Similarities

theorem plan_merged_known (m : MemoryState) (sessionId : String) (vectors : VectorStore)
    (policy : Policy) {cluster : Cluster} {id : MemoryId}
    (h : cluster ∈ (plan m.beliefs sessionId vectors policy).clusters)
    (hid : id ∈ cluster.merged) : Known m id := by
  have hmem := (similarities m.beliefs sessionId vectors).cluster_merged_mem h hid
  obtain ⟨e, he, rfl⟩ := List.mem_map.mp hmem
  have hget := (m.beliefs.mem_recallCandidates_iff e).mp (List.mem_filter.mp he).1
  simp [Known, hget]

theorem supersedeLoser_keeps (clock : Clock) (sessionId : String) (representative : MemoryId)
    (loser : MemoryId) (m : MemoryState) (h : Known m loser) :
    Keeps m ((supersedeLoser clock sessionId representative loser).run m).2 :=
  supersede_keeps m _ _ loser representative (pure ()) rfl rfl h (within_pure ())

theorem applyCluster_keeps (clock : Clock) (sessionId : String) (cluster : Cluster)
    (m : MemoryState) (h : ∀ id ∈ cluster.merged, Known m id) :
    Keeps m ((applyCluster clock sessionId cluster).run m).2 := by
  unfold applyCluster
  rw [Fallible.read_bind_run]
  refine Fallible.bind_at (append_foreign _ _ rfl m) fun _ m' _ happend => ?_
  refine happend.trans _ _ _ ?_
  exact Fallible.each_at Keeps.refl Keeps.trans (fun id _ _ hR hid => hR.known id hid)
    (supersedeLoser_keeps clock sessionId _) _ m' fun id hid => happend.known id (h id hid)

theorem apply_keeps (report : ConsolidationReport) (clock : Clock) (m : MemoryState)
    (h : ∀ c ∈ report.clusters, ∀ id ∈ c.merged, Known m id) :
    Keeps m ((apply report clock).run m).2 := by
  unfold apply
  cases report.threshold with
  | none => exact Keeps.refl m
  | some threshold =>
    have hclusters : Keeps m
        ((Fallible.each (applyCluster clock report.sessionId) report.clusters).run m).2 :=
      Fallible.each_at Keeps.refl Keeps.trans
        (fun _ _ _ hR hc id hid => hR.known id (hc id hid))
        (applyCluster_keeps clock report.sessionId) _ m h
    refine Fallible.bind_at hclusters fun _ m' _ hR => hR.trans _ _ _ ?_
    exact (append_foreign _ _ rfl).bind Keeps.trans (fun _ => within_pure _) m'

theorem consolidate_keeps (sessionId : String) (clock : Clock) (vectors : VectorStore)
    (policy : Policy) : Fallible.Within Keeps (consolidate sessionId clock vectors policy) := by
  unfold consolidate
  refine Fallible.Within.read_bind fun m => ?_
  simp only
  split
  · refine Fallible.bind_at (apply_keeps _ clock m fun c hc id hid => ?_)
      fun _ m' _ hR => hR.trans _ _ _ (within_pure _ m')
    exact plan_merged_known m sessionId vectors policy hc hid
  · exact Fallible.bind_at (within_pure _ m) fun _ m' _ hR => hR.trans _ _ _ (within_pure _ m')

/-! ## Runs -/

theorem Op.run_keeps (op : Op) (m : MemoryState) : Keeps m (op.run m) := by
  cases op with
  | ingest request => exact ingestTurns_keeps request request.turns 0 m
  | remember clock write => exact rememberClaim_keeps clock write m
  | correct clock write target => exact correctClaim_keeps clock write target m
  | forget clock sessionId runId target => exact forgetClaim_keeps clock sessionId runId target m
  | consolidate sessionId clock vectors policy =>
    exact consolidate_keeps sessionId clock vectors policy m
  | record clock req foreign => exact append_foreign clock req foreign m

theorem runOps_keeps (ops : List Op) (m : MemoryState) : Keeps m (runOps ops m) := by
  induction ops generalizing m with
  | nil => exact Keeps.refl m
  | cons op rest ih => exact (op.run_keeps m).trans _ _ _ (ih (op.run m))

theorem derive_eq_ok_iff (m : MemoryState) :
    BeliefStore.derive m.journal derivationVersion = .ok m.beliefs ↔ Agrees m := by
  simp [BeliefStore.derive, Agrees, log, DerivedView.Agrees]

/-- **The belief store equals its journal.** Whatever sequence of writes, corrections,
tombstones and consolidations ran, accepted, refused or cut short by a failed append,
replaying the journal gives exactly the live store. -/
theorem derive_runOps (m : MemoryState)
    (h : BeliefStore.derive m.journal derivationVersion = .ok m.beliefs) (ops : List Op) :
    BeliefStore.derive (runOps ops m).journal derivationVersion =
      .ok (runOps ops m).beliefs := by
  rw [derive_eq_ok_iff] at h ⊢
  exact (runOps_keeps ops m).agrees h

/-- The law at a fresh profile: a claim is remembered, corrected, and the correction forgotten. -/
theorem derive_runOps_fresh :
    let key : SigningKey Payload := ⟨fun _ => ""⟩
    let write : ClaimWrite :=
      { sessionId := "s", runId := "r", text := "the deploy job runs on Fridays"
        payloadKind := .fact, derivedFrom := [], runFloor := .userAsserted }
    let ops : List Op :=
      [.remember ⟨0⟩ write, .correct ⟨1⟩ write "m-s-claim-0", .forget ⟨2⟩ "s" "r" "m-s-claim-1"]
    let m := MemoryState.create key []
    BeliefStore.derive (runOps ops m).journal derivationVersion = .ok (runOps ops m).beliefs :=
  derive_runOps _ rfl _

end MarloweAgent.Memory
