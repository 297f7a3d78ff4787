import MarloweAgent.Memory.Refinement

/-! When no belief is overwritten. A memory id joins session, turn and position with
hyphens, and two writers share it: turns carry the caller's names, claims count their
session's prefix. The ids of a history are pairwise distinct exactly when its accepted
writes are never at one position under one joined `session-turn` text. -/

namespace MarloweAgent.Memory
open Contract EventLog Library

/-! ## The format -/

theorem dash_split {x y z w : List Char} (hz : '-' ∉ z) (hw : '-' ∉ w)
    (h : x ++ '-' :: z = y ++ '-' :: w) : x = y ∧ z = w := by
  have htail : ∀ (a b : List Char), '-' ∉ b →
      ((a ++ '-' :: b).reverse.takeWhile (· ≠ '-')) = b.reverse := by
    intro a b hb
    rw [List.reverse_append, List.reverse_cons, List.append_assoc,
      List.takeWhile_append_of_pos (fun c hc => ?_)]
    · simp
    · have hcb : c ∈ b := List.mem_reverse.mp hc
      exact decide_eq_true fun hc' => hb (hc' ▸ hcb)
  have hrev := congrArg (fun l => l.reverse.takeWhile (· ≠ '-')) h
  simp only [htail _ _ hz, htail _ _ hw] at hrev
  have hzw : z = w := List.reverse_injective hrev
  subst hzw
  exact ⟨List.append_cancel_right h, rfl⟩

theorem dash_not_mem_digits (n : Nat) : '-' ∉ Nat.toDigits 10 n := by
  intro h
  have := Nat.isDigit_of_mem_toDigits (by decide) (by decide) h
  exact absurd this (by decide)

theorem memoryId_toList (sessionId turnId : String) (index : Nat) :
    (memoryId sessionId turnId index).toList =
      ("m-" ++ (sessionId ++ "-" ++ turnId)).toList ++ '-' :: Nat.toDigits 10 index := by
  simp [memoryId, String.toList_append]

/-- **The format is injective in the position and in the joined `session-turn` text, and in
nothing finer**: where the session ends and the turn begins is not recoverable. -/
theorem memoryId_eq_iff (s t s' t' : String) (i i' : Nat) :
    memoryId s t i = memoryId s' t' i' ↔ i = i' ∧ s ++ "-" ++ t = s' ++ "-" ++ t' := by
  constructor
  · intro h
    have hlist := congrArg String.toList h
    rw [memoryId_toList, memoryId_toList] at hlist
    obtain ⟨hname, hindex⟩ := dash_split (dash_not_mem_digits i) (dash_not_mem_digits i') hlist
    refine ⟨Text.toDigits_injective hindex, ?_⟩
    rw [String.toList_append (s := "m-"), String.toList_append (s := "m-")] at hname
    exact String.toList_injective (List.append_cancel_left hname)
  · rintro ⟨rfl, h⟩
    have hname : "m-" ++ s ++ "-" ++ t = "m-" ++ s' ++ "-" ++ t' := by
      simpa [String.append_assoc] using congrArg ("m-" ++ ·) h
    simp only [memoryId, hname]

/-! ## Steps: one write at a time -/

/-- One step of a history. A turn is written at any position its caller gives it. -/
inductive Step
  | turn (request : IngestRequest) (index : Nat) (turn : Turn)
  | remember (clock : Clock) (write : ClaimWrite)
  | correct (clock : Clock) (write : ClaimWrite) (target : MemoryId)
  | forget (clock : Clock) (sessionId runId : String) (target : MemoryId)
  | consolidate (sessionId : String) (clock : Clock) (vectors : VectorStore) (policy : Policy)
  | record (clock : Clock) (req : AppendRequest Payload) (foreign : isBeliefInput req.kind = false)

def Step.run : Step → MemoryState → MemoryState
  | .turn request index t, m => ((ingestTurn request index t).run m).2
  | .remember clock write, m => (Op.remember clock write).run m
  | .correct clock write target, m => (Op.correct clock write target).run m
  | .forget clock sessionId runId target, m => (Op.forget clock sessionId runId target).run m
  | .consolidate sessionId clock vectors policy, m =>
    (Op.consolidate sessionId clock vectors policy).run m
  | .record clock req foreign, m => (Op.record clock req foreign).run m

def runSteps (steps : List Step) (m : MemoryState) : MemoryState :=
  steps.foldl (fun m step => step.run m) m

theorem Step.run_keeps (step : Step) (m : MemoryState) : Keeps m (step.run m) := by
  cases step with
  | turn request index turn => exact ingestTurn_keeps request index turn m
  | remember clock write => exact Op.run_keeps (.remember clock write) m
  | correct clock write target => exact Op.run_keeps (.correct clock write target) m
  | forget clock sessionId runId target =>
    exact Op.run_keeps (.forget clock sessionId runId target) m
  | consolidate sessionId clock vectors policy =>
    exact Op.run_keeps (.consolidate sessionId clock vectors policy) m
  | record clock req foreign => exact Op.run_keeps (.record clock req foreign) m

theorem runSteps_keeps (steps : List Step) (m : MemoryState) : Keeps m (runSteps steps m) := by
  induction steps generalizing m with
  | nil => exact Keeps.refl m
  | cons step rest ih => exact (step.run_keeps m).trans _ _ _ (ih (step.run m))

def Reaches (m m' : MemoryState) : Prop := ∃ steps, m' = runSteps steps m

theorem Reaches.refl (m : MemoryState) : Reaches m m := ⟨[], rfl⟩

theorem Reaches.trans (a b c : MemoryState) (hab : Reaches a b) (hbc : Reaches b c) :
    Reaches a c := by
  obtain ⟨steps, rfl⟩ := hab
  obtain ⟨rest, rfl⟩ := hbc
  exact ⟨steps ++ rest, by simp [runSteps]⟩

theorem Step.run_reaches (step : Step) (m : MemoryState) : Reaches m (step.run m) := ⟨[step], rfl⟩

theorem ingestTurns_reaches (request : IngestRequest) (turns : List Turn) (index : Nat) :
    Fallible.Within Reaches (ingestTurns request index turns) := by
  induction turns generalizing index with
  | nil => exact Fallible.Within.pure Reaches.refl _
  | cons turn rest ih =>
    exact Fallible.Within.bind Reaches.trans (Step.turn request index turn).run_reaches fun _ =>
      (ih (index + 1)).bind Reaches.trans fun _ => Fallible.Within.pure Reaches.refl _

/-- Every operation is a run of steps: an `ingest` is its turns, up to a failed append. -/
theorem Op.run_reaches (op : Op) (m : MemoryState) : Reaches m (op.run m) := by
  cases op with
  | ingest request => exact ingestTurns_reaches request request.turns 0 m
  | remember clock write => exact (Step.remember clock write).run_reaches m
  | correct clock write target => exact (Step.correct clock write target).run_reaches m
  | forget clock sessionId runId target =>
    exact (Step.forget clock sessionId runId target).run_reaches m
  | consolidate sessionId clock vectors policy =>
    exact (Step.consolidate sessionId clock vectors policy).run_reaches m
  | record clock req foreign => exact (Step.record clock req foreign).run_reaches m

theorem runOps_reaches (ops : List Op) (m : MemoryState) : Reaches m (runOps ops m) := by
  induction ops generalizing m with
  | nil => exact Reaches.refl m
  | cons op rest ih => exact (op.run_reaches m).trans _ _ _ (ih (op.run m))

/-! ## What a history wrote -/

/-- The id a `MemoryWritten` event files its belief under. -/
def writtenId? : LogEvent → Option MemoryId
  | (_, .memoryWritten, .memoryWritten p) => some p.id
  | _ => none

def writtenIds (events : List LogEvent) : List MemoryId := events.filterMap writtenId?

/-- `m'` extends the log of `m` by writes of exactly `ids`, and demotes nothing. -/
structure Logs (ids : List MemoryId) (m m' : MemoryState) : Prop where
  events : ∃ events, log m' = log m ++ events ∧ writtenIds events = ids ∧
    ∀ e ∈ events, e.2.1 ≠ .fidelityDemoted

theorem Logs.refl (m : MemoryState) : Logs [] m m := ⟨⟨[], by simp, rfl, by simp⟩⟩

theorem Logs.append {ids ids' : List MemoryId} {a b c : MemoryState} (hab : Logs ids a b)
    (hbc : Logs ids' b c) : Logs (ids ++ ids') a c := by
  obtain ⟨es, hes, rfl, hd⟩ := hab.events
  obtain ⟨es', hes', rfl, hd'⟩ := hbc.events
  refine ⟨⟨es ++ es', ?_, ?_, ?_⟩⟩
  · rw [hes', hes, List.append_assoc]
  · simp [writtenIds]
  · intro e he
    exact (List.mem_append.mp he).elim (hd e) (hd' e)

/-- Nothing written. -/
abbrev Silent (m m' : MemoryState) : Prop := Logs [] m m'

theorem Silent.trans (a b c : MemoryState) (hab : Silent a b) (hbc : Silent b c) : Silent a c :=
  hab.append hbc

/-! ## Lineages -/

/-- What each belief was derived from, and what it is worth. -/
def lineage (b : BeliefStore) (id : MemoryId) : Option (List MemoryId × TrustClass) :=
  (b.get id).map fun e => (e.derivation, e.effectiveTrust)

theorem lineage_insert (b : BeliefStore) (e : MemoryEntry) :
    lineage (b.insert e) =
      Function.update (lineage b) e.id (some (e.derivation, e.effectiveTrust)) := by
  funext id
  by_cases h : id = e.id
  · subst h
    simp [lineage, BeliefStore.get_insert]
  · simp [lineage, BeliefStore.get_insert, Function.update_of_ne h, Ne.symm h]

theorem lineage_modify (b : BeliefStore) (id : MemoryId) (f : MemoryEntry → MemoryEntry)
    (hf : ∀ e, (f e).id = e.id)
    (h : ∀ e, (f e).derivation = e.derivation ∧ (f e).effectiveTrust = e.effectiveTrust) :
    lineage (b.modify id f hf) = lineage b := by
  funext k
  unfold lineage
  rw [BeliefStore.get_modify]
  split
  · rw [Option.map_map]
    exact congrArg (Option.map · (b.get k)) (funext fun e => Prod.ext (h e).1 (h e).2)
  · rfl

/-- A supersession marks two beliefs and moves no lineage. -/
theorem lineage_supersede (b : BeliefStore) (id by_ : MemoryId) :
    lineage (b.supersede id by_) = lineage b := by
  unfold BeliefStore.supersede
  split
  · rfl
  · dsimp only
    rw [lineage_modify, lineage_modify]
    · exact fun _ => ⟨rfl, rfl⟩
    · exact fun _ => ⟨rfl, rfl⟩

theorem lineage_tombstone (b : BeliefStore) (id : MemoryId) : lineage (b.tombstone id) = lineage b :=
  lineage_modify _ _ _ _ fun _ => ⟨rfl, rfl⟩

/-- Nothing written, and no lineage moved. -/
structure Quiet (m m' : MemoryState) : Prop where
  silent : Silent m m'
  lineage : lineage m'.beliefs = lineage m.beliefs

theorem Quiet.refl (m : MemoryState) : Quiet m m := ⟨Logs.refl m, rfl⟩

theorem Quiet.trans (a b c : MemoryState) (hab : Quiet a b) (hbc : Quiet b c) : Quiet a c :=
  ⟨hab.silent.append hbc.silent, hbc.lineage.trans hab.lineage⟩

/-- The belief of `p` written and filed, and nothing else. -/
structure Filed (p : MemoryWrittenPayload) (m m' : MemoryState) : Prop where
  logs : Logs [p.id] m m'
  lineage : lineage m'.beliefs =
    Function.update (lineage m.beliefs) p.id (some (p.derivation, p.effectiveTrust))

theorem Filed.quiet {p : MemoryWrittenPayload} {a b c : MemoryState} (hab : Filed p a b)
    (hbc : Quiet b c) : Filed p a c :=
  ⟨hab.logs.append hbc.silent, hbc.lineage.trans hab.lineage⟩

/-- Nothing written, or the belief of `p` and nothing else. -/
def Files (p : MemoryWrittenPayload) (m m' : MemoryState) : Prop := Quiet m m' ∨ Filed p m m'

theorem Files.quiet {p : MemoryWrittenPayload} {a b c : MemoryState} (hab : Files p a b)
    (hbc : Quiet b c) : Files p a c :=
  hab.imp (fun h => h.trans _ _ _ hbc) fun h => h.quiet hbc

/-! ## What the writers file -/

/-- The kinds that write an id or change a tier. -/
def writesOrDemotes : EventKind → Bool
  | .memoryWritten | .fidelityDemoted => true
  | _ => false

theorem append_quiet (clock : Clock) (req : AppendRequest Payload)
    (h : writesOrDemotes req.kind = false) : Fallible.Within Quiet (append clock req) := by
  have hw : req.kind ≠ .memoryWritten := fun hk => by rw [hk] at h; cases h
  have hd : req.kind ≠ .fidelityDemoted := fun hk => by rw [hk] at h; cases h
  intro m
  rcases append_run clock req m with ⟨event, journal, hrun, hr⟩ | ⟨error, journal, hrun, hr⟩
  · rw [hrun]
    refine ⟨⟨⟨[(event.seq, req.kind, req.payload)], hr, ?_, ?_⟩⟩, rfl⟩
    · have hnone : writtenId? (event.seq, req.kind, req.payload) = none := by
        unfold writtenId?
        split
        · rename_i heq
          simp only [Prod.mk.injEq] at heq
          exact absurd heq.2.1 hw
        · rfl
      simp [writtenIds, hnone]
    · simpa using hd
  · rw [hrun]
    exact ⟨⟨⟨[], by simp [log, hr], rfl, by simp⟩⟩, rfl⟩

theorem update_quiet (f : BeliefStore → BeliefStore) (h : ∀ b, lineage (f b) = lineage b) :
    Fallible.Within Quiet (updateBeliefs f) :=
  fun m => ⟨⟨⟨[], by simp [log, updateBeliefs, Fallible.update], rfl, by simp⟩⟩, h m.beliefs⟩

theorem quiet_pure {α : Type} (a : α) : Fallible.Within Quiet (pure a : MemoryM α) :=
  Fallible.Within.pure Quiet.refl a

/-- The write of a payload: journalled, then inserted. -/
theorem write_files {β : Type} (m : MemoryState) (clock : Clock) (req : AppendRequest Payload)
    (p : MemoryWrittenPayload) (next : JournalEvent Payload → MemoryM β)
    (hkind : req.kind = .memoryWritten) (hpayload : req.payload = .memoryWritten p)
    (hnext : ∀ event, Fallible.Within Quiet (next event)) :
    Files p m ((append clock req >>= fun event =>
      updateBeliefs (·.insert (liveEntry event.seq p)) >>= fun _ => next event).run m).2 := by
  rcases append_run clock req m with ⟨event, journal, hrun, hr⟩ | ⟨error, journal, hrun, hr⟩
  · rw [Fallible.bind_ok hrun]
    have hfold : (updateBeliefs (·.insert (liveEntry event.seq p))).run { m with journal } =
        (.ok (), { journal, beliefs := m.beliefs.insert (liveEntry event.seq p) }) := rfl
    rw [Fallible.bind_ok hfold]
    refine .inr (Filed.quiet ⟨?_, lineage_insert m.beliefs _⟩ (hnext event _))
    refine ⟨[(event.seq, req.kind, req.payload)], hr, ?_, ?_⟩
    · rw [hkind, hpayload]
      rfl
    · simp [hkind]
  · rw [Fallible.bind_error hrun]
    exact .inl ⟨⟨⟨[], by simp [log, hr], rfl, by simp⟩⟩, rfl⟩

theorem ingestTurn_files (request : IngestRequest) (index : Nat) (turn : Turn)
    (m : MemoryState) :
    Files (turnPayload m.beliefs request index turn) m
      ((ingestTurn request index turn).run m).2 := by
  unfold ingestTurn
  cases checkActor turn.origin.actor with
  | some reason =>
    exact .inl ((append_quiet _ _ rfl).bind Quiet.trans
      (fun _ => quiet_pure _) m)
  | none =>
    rw [Fallible.read_bind_run]
    exact write_files m _ _ (turnPayload m.beliefs request index turn) _ rfl rfl
      fun _ => quiet_pure _

theorem rememberClaim_files (clock : Clock) (write : ClaimWrite) (m : MemoryState) :
    Files (claimPayload m.beliefs clock write) m ((rememberClaim clock write).run m).2 := by
  unfold rememberClaim
  rw [Fallible.read_bind_run]
  cases claimRejection m.beliefs write with
  | some reason =>
    exact .inl ((append_quiet _ _ rfl).bind Quiet.trans
      (fun _ => quiet_pure _) m)
  | none =>
    exact write_files m _ _ (claimPayload m.beliefs clock write) _ rfl rfl
      fun _ => quiet_pure _

theorem correctClaim_files (clock : Clock) (write : ClaimWrite) (target : MemoryId)
    (m : MemoryState) :
    Files (claimPayload m.beliefs clock write) m
      ((correctClaim clock write target).run m).2 := by
  unfold correctClaim
  rw [Fallible.read_bind_run]
  cases m.beliefs.get target with
  | none => exact .inl (Quiet.refl m)
  | some existing =>
    simp only
    split
    · exact .inl (Quiet.refl m)
    · apply Fallible.bind_at (rememberClaim_files clock write m)
      intro result m' _ hfiles
      cases result with
      | error rejected => exact hfiles
      | ok receipt =>
        exact hfiles.quiet ((append_quiet _ _ rfl).bind Quiet.trans
          (fun _ => (update_quiet _ fun b => lineage_supersede b _ _).bind Quiet.trans
            fun _ => quiet_pure _) m')

/-! ## What writes nothing

A forgetting and a consolidation keep whatever their appends and their marks keep. -/

section Marking

variable {R : MemoryState → MemoryState → Prop}

theorem forgetClaim_within (refl : ∀ m, R m m) (trans : ∀ a b c, R a b → R b c → R a c)
    (happend : ∀ clock req, writesOrDemotes req.kind = false → Fallible.Within R (append clock req))
    (hmark : ∀ id, Fallible.Within R (updateBeliefs (·.tombstone id)))
    (clock : Clock) (sessionId runId : String) (target : MemoryId) :
    Fallible.Within R (forgetClaim clock sessionId runId target) := by
  unfold forgetClaim
  refine Fallible.Within.read_bind fun m => ?_
  cases m.beliefs.get target with
  | none => exact refl m
  | some existing =>
    exact (happend _ _ rfl).bind trans
      (fun _ => (hmark _).bind trans fun _ => Fallible.Within.pure refl _) m

/-- A consolidation, judged at the state it plans from by the supersessions of its plan. -/
theorem consolidate_at (refl : ∀ m, R m m) (trans : ∀ a b c, R a b → R b c → R a c)
    (happend : ∀ clock req, writesOrDemotes req.kind = false → Fallible.Within R (append clock req))
    (sessionId : String) (clock : Clock) (vectors : VectorStore) (policy : Policy) (m : MemoryState)
    (hmark : ∀ c ∈ (plan m.beliefs sessionId vectors policy).clusters, ∀ id ∈ c.merged,
      Fallible.Within R (updateBeliefs (·.supersede id c.representative))) :
    R m ((consolidate sessionId clock vectors policy).run m).2 := by
  have hcluster : ∀ c ∈ (plan m.beliefs sessionId vectors policy).clusters,
      Fallible.Within R (applyCluster clock sessionId c) := fun c hc =>
    Fallible.Within.read_bind fun m => (happend _ _ rfl).bind trans
      (fun _ => Fallible.Within.each refl trans fun id hid =>
        (happend _ _ rfl).bind trans fun _ => hmark c hc id hid) m
  have happly : Fallible.Within R (apply (plan m.beliefs sessionId vectors policy) clock) := by
    unfold apply
    cases (plan m.beliefs sessionId vectors policy).threshold with
    | none => exact refl
    | some threshold =>
      exact (Fallible.Within.each refl trans hcluster).bind trans fun _ =>
        (happend _ _ rfl).bind trans fun _ => Fallible.Within.pure refl _
  unfold consolidate
  rw [Fallible.read_bind_run]
  simp only
  split
  · exact happly.bind trans (fun _ => Fallible.Within.pure refl _) m
  · exact (Fallible.Within.pure refl _).bind trans (fun _ => Fallible.Within.pure refl _) m

theorem consolidate_within (refl : ∀ m, R m m) (trans : ∀ a b c, R a b → R b c → R a c)
    (happend : ∀ clock req, writesOrDemotes req.kind = false → Fallible.Within R (append clock req))
    (hmark : ∀ id by_, Fallible.Within R (updateBeliefs (·.supersede id by_)))
    (sessionId : String) (clock : Clock) (vectors : VectorStore) (policy : Policy) :
    Fallible.Within R (consolidate sessionId clock vectors policy) := fun m =>
  consolidate_at refl trans happend sessionId clock vectors policy m fun _ _ _ _ => hmark _ _

end Marking

theorem forgetClaim_quiet (clock : Clock) (sessionId runId : String) (target : MemoryId) :
    Fallible.Within Quiet (forgetClaim clock sessionId runId target) :=
  forgetClaim_within Quiet.refl Quiet.trans append_quiet
    (fun _ => update_quiet _ fun b => lineage_tombstone b _) clock sessionId runId target

theorem consolidate_quiet (sessionId : String) (clock : Clock) (vectors : VectorStore)
    (policy : Policy) : Fallible.Within Quiet (consolidate sessionId clock vectors policy) :=
  consolidate_within Quiet.refl Quiet.trans append_quiet
    (fun _ _ => update_quiet _ fun b => lineage_supersede b _ _) sessionId clock vectors policy

theorem writesOrDemotes_of_foreign {kind : EventKind} (h : isBeliefInput kind = false) :
    writesOrDemotes kind = false := by
  cases kind <;> first | rfl | cases h

theorem record_quiet (clock : Clock) (req : AppendRequest Payload)
    (h : isBeliefInput req.kind = false) : Fallible.Within Quiet (append clock req) :=
  append_quiet clock req (writesOrDemotes_of_foreign h)

/-- What a step writes at a state, if it is accepted. -/
def Step.payload? (step : Step) (m : MemoryState) : Option MemoryWrittenPayload :=
  match step with
  | .turn request index t => some (turnPayload m.beliefs request index t)
  | .remember clock write => some (claimPayload m.beliefs clock write)
  | .correct clock write _ => some (claimPayload m.beliefs clock write)
  | _ => none

/-- **One step files nothing, or the one belief of its payload.** -/
theorem Step.run_files (step : Step) (m : MemoryState) :
    Quiet m (step.run m) ∨ ∃ p, step.payload? m = some p ∧ Filed p m (step.run m) := by
  have hfiles : ∀ {p m'}, step.payload? m = some p → Files p m m' →
      Quiet m m' ∨ ∃ p, step.payload? m = some p ∧ Filed p m m' :=
    fun hp h => h.imp_right fun hf => ⟨_, hp, hf⟩
  cases step with
  | turn request index turn => exact hfiles rfl (ingestTurn_files request index turn m)
  | remember clock write => exact hfiles rfl (rememberClaim_files clock write m)
  | correct clock write target => exact hfiles rfl (correctClaim_files clock write target m)
  | forget clock sessionId runId target =>
    exact .inl (forgetClaim_quiet clock sessionId runId target m)
  | consolidate sessionId clock vectors policy =>
    exact .inl (consolidate_quiet sessionId clock vectors policy m)
  | record clock req foreign => exact .inl (record_quiet clock req foreign m)

end MarloweAgent.Memory
