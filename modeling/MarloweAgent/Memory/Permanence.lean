import MarloweAgent.Memory.Overwrite

/-! Maturation and forgetting over whole histories. Nothing a step does to a filed belief moves
its deadline or undoes its tombstone; a write does both when it takes the id of a belief that was
forgotten, or when its deadline leaves the range of an `i64`. -/

namespace MarloweAgent.Memory
open Contract EventLog Library

/-! ## Beliefs that stay where they are -/

/-- The belief was forgotten. -/
def Tombstoned (b : BeliefStore) (id : MemoryId) : Prop :=
  ∃ e, b.get id = some e ∧ e.fidelity = .tombstone

/-- How a filed belief may change: its deadline stays. -/
structure Ages (e e' : MemoryEntry) : Prop where
  createdAt : e'.createdAt = e.createdAt
  silentUntil : e'.silentUntil = e.silentUntil
  tombstone : e.fidelity = .tombstone → e'.fidelity = .tombstone

theorem Ages.refl (e : MemoryEntry) : Ages e e := ⟨rfl, rfl, id⟩

theorem Ages.trans {a b c : MemoryEntry} (hab : Ages a b) (hbc : Ages b c) : Ages a c :=
  ⟨hbc.createdAt.trans hab.createdAt, hbc.silentUntil.trans hab.silentUntil,
    fun h => hbc.tombstone (hab.tombstone h)⟩

/-- The beliefs of `b'` are those of `b`, aged. -/
structure Aged (b b' : BeliefStore) : Prop where
  onward : ∀ {id e}, b.get id = some e → ∃ e', b'.get id = some e' ∧ Ages e e'
  back : ∀ {id e'}, b'.get id = some e' → ∃ e, b.get id = some e ∧ Ages e e'

theorem Aged.refl (b : BeliefStore) : Aged b b :=
  ⟨fun h => ⟨_, h, Ages.refl _⟩, fun h => ⟨_, h, Ages.refl _⟩⟩

theorem Aged.trans {a b c : BeliefStore} (hab : Aged a b) (hbc : Aged b c) : Aged a c := by
  constructor
  · intro id e he
    obtain ⟨e', he', hages⟩ := hab.onward he
    obtain ⟨e'', he'', hages'⟩ := hbc.onward he'
    exact ⟨e'', he'', hages.trans hages'⟩
  · intro id e'' he''
    obtain ⟨e', he', hages'⟩ := hbc.back he''
    obtain ⟨e, he, hages⟩ := hab.back he'
    exact ⟨e, he, hages.trans hages'⟩

theorem aged_modify (b : BeliefStore) (id : MemoryId) (f : MemoryEntry → MemoryEntry)
    (hf : ∀ e, (f e).id = e.id) (h : ∀ e, Ages e (f e)) : Aged b (b.modify id f hf) := by
  constructor
  · intro k e he
    rw [BeliefStore.get_modify, he]
    split
    · exact ⟨f e, rfl, h e⟩
    · exact ⟨e, rfl, Ages.refl e⟩
  · intro k e' he'
    rw [BeliefStore.get_modify] at he'
    split at he'
    · obtain ⟨e, he, rfl⟩ := Option.map_eq_some_iff.mp he'
      exact ⟨e, he, h e⟩
    · exact ⟨e', he', Ages.refl e'⟩

theorem aged_supersede (b : BeliefStore) (id by_ : MemoryId) : Aged b (b.supersede id by_) := by
  unfold BeliefStore.supersede
  split
  · exact Aged.refl b
  · refine (aged_modify b _ _ _ ?_).trans (aged_modify _ _ _ _ ?_)
    · exact fun _ => ⟨rfl, rfl, fun h => h⟩
    · exact fun _ => ⟨rfl, rfl, fun h => h⟩

theorem aged_tombstone (b : BeliefStore) (id : MemoryId) : Aged b (b.tombstone id) :=
  aged_modify b _ _ _ fun _ => ⟨rfl, rfl, fun _ => rfl⟩

theorem Aged.tombstoned {b b' : BeliefStore} (h : Aged b b') {id : MemoryId}
    (hid : Tombstoned b id) : Tombstoned b' id := by
  obtain ⟨e, he, hgone⟩ := hid
  obtain ⟨e', he', hages⟩ := h.onward he
  exact ⟨e', he', hages.tombstone hgone⟩

/-! ## Deadlines -/

/-- The deadline of every belief is no sooner than its write time plus the window. -/
def Timely (b : BeliefStore) : Prop :=
  ∀ id e, b.get id = some e →
    ∃ due, e.silentUntil = some due ∧ e.createdAt + maturationWindowMs ≤ due

theorem Aged.timely {b b' : BeliefStore} (h : Aged b b') (hb : Timely b) : Timely b' := by
  intro id e' he'
  obtain ⟨e, he, hages⟩ := h.back he'
  rw [hages.createdAt, hages.silentUntil]
  exact hb id e he

theorem Timely.insert {b : BeliefStore} (hb : Timely b) {e : MemoryEntry} {due : Int}
    (hdue : e.silentUntil = some due) (hlate : e.createdAt + maturationWindowMs ≤ due) :
    Timely (b.insert e) := by
  intro id e' he'
  rw [BeliefStore.get_insert] at he'
  split at he'
  · obtain rfl := Option.some.inj he'
    exact ⟨due, hdue, hlate⟩
  · exact hb id e' he'

theorem mem_injectionCandidates_iff (b : BeliefStore) (now : Int) (e : MemoryEntry) :
    e ∈ b.injectionCandidates now ↔ b.get e.id = some e ∧ e.isInjectionCandidate now = true := by
  rw [← b.mem_recallCandidates_iff]
  exact List.mem_filter

theorem Timely.matured {b : BeliefStore} (h : Timely b) {now : Int} {e : MemoryEntry}
    (he : e ∈ b.injectionCandidates now) : e.createdAt + maturationWindowMs ≤ now := by
  obtain ⟨hget, hcandidate⟩ := (mem_injectionCandidates_iff b now e).mp he
  obtain ⟨due, hdue, hlate⟩ := h e.id e hget
  simp only [MemoryEntry.isInjectionCandidate, MemoryEntry.isMatured, hdue, Bool.and_eq_true,
    decide_eq_true_eq] at hcandidate
  exact hlate.trans hcandidate.2

/-- A deadline inside an `i64` is not early. -/
theorem le_plusMs {clock : Clock} {delta : Int} (h : clock.nowMs + delta < 2 ^ 63) :
    clock.nowMs + delta ≤ clock.plusMs delta := by
  unfold Clock.plusMs Int.bmod
  dsimp only
  split <;> omega

/-! ## What a step writes -/

/-- The database takes the next row. -/
def MemoryState.takes (m : MemoryState) : Bool := m.journal.inserts.head? != some false

/-- The write of a step passes its checks. -/
def Step.admitted (m : MemoryState) : Step → Bool
  | .turn _ _ t => (checkActor t.origin.actor).isNone
  | .remember _ write => (claimRejection m.beliefs write).isNone
  | .correct _ write target =>
    (m.beliefs.get target).any (fun existing =>
      !decide (claimTrust m.beliefs write < existing.effectiveTrust)) &&
        (claimRejection m.beliefs write).isNone
  | _ => false

/-- `p` is what a step files. -/
def Step.Writes (step : Step) (m : MemoryState) (p : MemoryWrittenPayload) : Prop :=
  step.payload? m = some p ∧ step.admitted m = true ∧ m.takes = true

/-- The store a step leaves: the earlier beliefs, aged, with what the step files among them. -/
def Settles (step : Step) (m m' : MemoryState) : Prop :=
  Aged m.beliefs m'.beliefs ∨
    ∃ p seq, step.Writes m p ∧ Aged (m.beliefs.insert (liveEntry seq p)) m'.beliefs

/-- The store aged. -/
def Ageing (m m' : MemoryState) : Prop := Aged m.beliefs m'.beliefs

theorem Ageing.refl (m : MemoryState) : Ageing m m := Aged.refl m.beliefs

theorem Ageing.trans (a b c : MemoryState) (hab : Ageing a b) (hbc : Ageing b c) : Ageing a c :=
  Aged.trans hab hbc

theorem append_ageing (clock : Clock) (req : AppendRequest Payload) :
    Fallible.Within Ageing (append clock req) := by
  intro m
  rcases append_run clock req m with ⟨event, journal, hrun, -⟩ | ⟨error, journal, hrun, -⟩
  · rw [hrun]
    exact Aged.refl m.beliefs
  · rw [hrun]
    exact Aged.refl m.beliefs

theorem Settles.ageing {step : Step} {a b c : MemoryState} (hab : Settles step a b)
    (hbc : Ageing b c) : Settles step a c :=
  hab.imp (·.trans hbc) fun ⟨p, seq, hwrites, haged⟩ => ⟨p, seq, hwrites, haged.trans hbc⟩

/-- An append that went through found the database taking. -/
theorem takes_of_append {m m' : MemoryState} {clock : Clock} {req : AppendRequest Payload}
    {event : JournalEvent Payload} (h : (append clock req).run m = (.ok event, m')) :
    m.takes = true := by
  by_contra hno
  obtain ⟨rest, hrest⟩ : ∃ rest, m.journal.inserts = false :: rest := by
    unfold MemoryState.takes at hno
    cases hinserts : m.journal.inserts with
    | nil => simp [hinserts] at hno
    | cons answer rest =>
      cases answer with
      | true => simp [hinserts] at hno
      | false => exact ⟨rest, rfl⟩
  have hfails : ∃ error journal, m.journal.append clock req = (.error error, journal) := by
    unfold Journal.append
    rw [hrest]
    split
    · exact ⟨_, _, rfl⟩
    · exact ⟨_, _, rfl⟩
  obtain ⟨error, journal, hfails⟩ := hfails
  simp [append, hfails] at h

/-- The write of a payload: journalled, then inserted. -/
theorem write_settles {β : Type} {step : Step} {m : MemoryState} {p : MemoryWrittenPayload}
    (clock : Clock) (req : AppendRequest Payload) (next : JournalEvent Payload → MemoryM β)
    (hpayload : step.payload? m = some p) (hadmitted : step.admitted m = true)
    (hnext : ∀ event, Fallible.Within Ageing (next event)) :
    Settles step m ((append clock req >>= fun event =>
      updateBeliefs (·.insert (liveEntry event.seq p)) >>= fun _ => next event).run m).2 := by
  rcases append_run clock req m with ⟨event, journal, hrun, -⟩ | ⟨error, journal, hrun, -⟩
  · rw [Fallible.bind_ok hrun]
    have hfold : (updateBeliefs (·.insert (liveEntry event.seq p))).run { m with journal } =
        (.ok (), { journal, beliefs := m.beliefs.insert (liveEntry event.seq p) }) := rfl
    rw [Fallible.bind_ok hfold]
    exact .inr ⟨p, event.seq, ⟨hpayload, hadmitted, takes_of_append hrun⟩,
      hnext event { journal, beliefs := m.beliefs.insert (liveEntry event.seq p) }⟩
  · rw [Fallible.bind_error hrun]
    exact .inl (Aged.refl m.beliefs)

theorem pure_ageing {α : Type} (a : α) : Fallible.Within Ageing (pure a : MemoryM α) :=
  Fallible.Within.pure Ageing.refl a

theorem ingestTurn_settles (request : IngestRequest) (index : Nat) (t : Turn) (m : MemoryState) :
    Settles (.turn request index t) m ((ingestTurn request index t).run m).2 := by
  unfold ingestTurn
  cases hactor : checkActor t.origin.actor with
  | some reason =>
    exact .inl ((append_ageing _ _).bind Ageing.trans (fun _ => pure_ageing _) m)
  | none =>
    rw [Fallible.read_bind_run]
    exact write_settles _ _ _ rfl (by simp [Step.admitted, hactor]) fun _ => pure_ageing _

/-- A claim settles as any step that files the same payload under the same check. -/
theorem rememberClaim_settles {step : Step} {clock : Clock} {write : ClaimWrite} {m : MemoryState}
    (hpayload : step.payload? m = some (claimPayload m.beliefs clock write))
    (hadmitted : claimRejection m.beliefs write = none → step.admitted m = true) :
    Settles step m ((rememberClaim clock write).run m).2 := by
  unfold rememberClaim
  rw [Fallible.read_bind_run]
  cases hrejection : claimRejection m.beliefs write with
  | some reason =>
    exact .inl ((append_ageing _ _).bind Ageing.trans (fun _ => pure_ageing _) m)
  | none => exact write_settles _ _ _ hpayload (hadmitted hrejection) fun _ => pure_ageing _

theorem correctClaim_settles (clock : Clock) (write : ClaimWrite) (target : MemoryId)
    (m : MemoryState) :
    Settles (.correct clock write target) m ((correctClaim clock write target).run m).2 := by
  unfold correctClaim
  rw [Fallible.read_bind_run]
  cases htarget : m.beliefs.get target with
  | none => exact .inl (Aged.refl m.beliefs)
  | some existing =>
    simp only
    split
    next => exact .inl (Aged.refl m.beliefs)
    next htrust =>
      have hremember : Settles (.correct clock write target) m ((rememberClaim clock write).run m).2 :=
        rememberClaim_settles rfl fun hrejection => by
          simp [Step.admitted, htarget, hrejection, htrust]
      refine Fallible.bind_at hremember fun result m' _ hsettles => ?_
      cases result with
      | error rejected => exact hsettles
      | ok receipt =>
        have hmark : Fallible.Within Ageing (updateBeliefs (·.supersede target receipt.id)) :=
          fun m => aged_supersede m.beliefs target receipt.id
        exact hsettles.ageing ((append_ageing _ _).bind Ageing.trans
          (fun _ => hmark.bind Ageing.trans fun _ => pure_ageing _) m')

/-- **What one step does to the beliefs.** -/
theorem Step.run_settles (step : Step) (m : MemoryState) : Settles step m (step.run m) := by
  cases step with
  | turn request index t => exact ingestTurn_settles request index t m
  | remember clock write =>
    exact rememberClaim_settles rfl fun hrejection => by simp [Step.admitted, hrejection]
  | correct clock write target => exact correctClaim_settles clock write target m
  | forget clock sessionId runId target =>
    exact .inl (forgetClaim_within Ageing.refl Ageing.trans (fun clock req _ => append_ageing clock req)
      (fun id m => aged_tombstone m.beliefs id) clock sessionId runId target m)
  | consolidate sessionId clock vectors policy =>
    exact .inl (consolidate_within Ageing.refl Ageing.trans
      (fun clock req _ => append_ageing clock req)
      (fun id by_ m => aged_supersede m.beliefs id by_) sessionId clock vectors policy m)
  | record clock req foreign => exact .inl (append_ageing clock req m)

/-! ## Histories -/

/-- What a write has to keep off: a belief that was forgotten, and the end of the clock. -/
structure Careful (b : BeliefStore) (p : MemoryWrittenPayload) : Prop where
  unforgotten : ¬ Tombstoned b p.id
  inRange : p.createdAt + maturationWindowMs < 2 ^ 63

/-- Every write of the history is careful, at the store it is made to. -/
def CarefulHistory : List Step → MemoryState → Prop
  | [], _ => True
  | step :: rest, m =>
    (∀ p, step.Writes m p → Careful m.beliefs p) ∧ CarefulHistory rest (step.run m)

theorem Step.payload_silentUntil {step : Step} {m : MemoryState} {p : MemoryWrittenPayload}
    (h : step.payload? m = some p) :
    p.silentUntil = some ((⟨p.createdAt⟩ : Clock).plusMs maturationWindowMs) := by
  cases step with
  | turn | remember | correct =>
    cases h
    rfl
  | _ => cases h

/-- One careful step keeps every deadline late and every tombstone. -/
theorem Step.run_careful {step : Step} {m : MemoryState}
    (h : ∀ p, step.Writes m p → Careful m.beliefs p) (hm : Timely m.beliefs) :
    Timely (step.run m).beliefs ∧
      ∀ id, Tombstoned m.beliefs id → Tombstoned (step.run m).beliefs id := by
  rcases step.run_settles m with haged | ⟨p, seq, hwrites, haged⟩
  · exact ⟨haged.timely hm, fun id hid => haged.tombstoned hid⟩
  · obtain ⟨hunforgotten, hrange⟩ := h p hwrites
    have hdue := Step.payload_silentUntil hwrites.1
    have htimely : Timely (m.beliefs.insert (liveEntry seq p)) :=
      hm.insert (e := liveEntry seq p) hdue (le_plusMs hrange)
    refine ⟨haged.timely htimely, fun id hid => haged.tombstoned ?_⟩
    obtain ⟨e, he, hgone⟩ := hid
    have hne : (liveEntry seq p).id ≠ id := by
      rintro rfl
      exact hunforgotten ⟨e, he, hgone⟩
    exact ⟨e, by rw [BeliefStore.get_insert, if_neg hne, he], hgone⟩

theorem runSteps_careful {steps : List Step} {m : MemoryState} (h : CarefulHistory steps m)
    (hm : Timely m.beliefs) :
    Timely (runSteps steps m).beliefs ∧
      ∀ id, Tombstoned m.beliefs id → Tombstoned (runSteps steps m).beliefs id := by
  induction steps generalizing m with
  | nil => exact ⟨hm, fun _ hid => hid⟩
  | cons step rest ih =>
    obtain ⟨htimely, hkept⟩ := Step.run_careful h.1 hm
    obtain ⟨hlast, hrest⟩ := ih h.2 htimely
    exact ⟨hlast, fun id hid => hrest id (hkept id hid)⟩

theorem carefulHistory_append {before after : List Step} {m : MemoryState} :
    CarefulHistory (before ++ after) m ↔
      CarefulHistory before m ∧ CarefulHistory after (runSteps before m) := by
  induction before generalizing m with
  | nil => exact (iff_of_eq (true_and _)).symm
  | cons step rest ih => exact (and_congr_right fun _ => ih).trans and_assoc.symm

/-- At every point of a history the journal replays to the store; what may be injected there has
served its window and is neither tombstoned nor superseded; and what was tombstoned earlier still
is. -/
structure Permanent (steps : List Step) (m : MemoryState) : Prop where
  replayed : ∀ before, before <+: steps →
    BeliefStore.derive (runSteps before m).journal derivationVersion =
      .ok (runSteps before m).beliefs
  matured : ∀ before, before <+: steps → ∀ (now : Int),
    ∀ e ∈ (runSteps before m).beliefs.injectionCandidates now,
      e.createdAt + maturationWindowMs ≤ now
  excluded : ∀ before, before <+: steps → ∀ (now : Int),
    ∀ e ∈ (runSteps before m).beliefs.injectionCandidates now,
      e.fidelity ≠ .tombstone ∧ e.supersededBy = none
  forgotten : ∀ before after, before ++ after <+: steps → ∀ id,
    Tombstoned (runSteps before m).beliefs id →
      Tombstoned (runSteps (before ++ after) m).beliefs id

/-- **Maturation and forgetting are permanent** over every history whose writes keep off forgotten
beliefs and the end of the clock. -/
theorem permanent_of_careful (key : SigningKey Payload) (inserts : List Bool) (steps : List Step)
    (h : CarefulHistory steps (MemoryState.create key inserts)) :
    Permanent steps (MemoryState.create key inserts) := by
  have hempty : Timely (MemoryState.create key inserts).beliefs := fun _ _ he => nomatch he
  have hwithin : ∀ {before}, before <+: steps →
      CarefulHistory before (MemoryState.create key inserts) := by
    rintro before ⟨after, rfl⟩
    exact (carefulHistory_append.mp h).1
  constructor
  · intro before _
    exact (derive_eq_ok_iff _).mpr ((runSteps_keeps before _).agrees rfl)
  · intro before hbefore now e he
    exact (runSteps_careful (hwithin hbefore) hempty).1.matured he
  · intro before _ now e he
    have hcandidate := ((mem_injectionCandidates_iff _ now e).mp he).2
    simp only [MemoryEntry.isInjectionCandidate, Bool.and_eq_true, decide_eq_true_eq,
      Option.isNone_iff_eq_none] at hcandidate
    exact ⟨ne_of_gt hcandidate.1.1, hcandidate.1.2⟩
  · intro before after hafter id hid
    obtain ⟨hbefore, hrest⟩ := carefulHistory_append.mp (hwithin hafter)
    have htimely := (runSteps_careful hbefore hempty).1
    have hrun : runSteps (before ++ after) (MemoryState.create key inserts) =
        runSteps after (runSteps before (MemoryState.create key inserts)) := List.foldl_append
    rw [hrun]
    exact (runSteps_careful hrest htimely).2 id hid

/-- Friday's turn at a time of the clock. -/
def fridayAt (nowMs : Int) : Step := .turn { fridayRequest with clock := ⟨nowMs⟩ } 0 fridayTurn

theorem permanent_friday_forgotten :
    Permanent [fridayAt 0, .forget ⟨1⟩ "s" "r" "m-s-t-0"] (MemoryState.create ⟨fun _ => ""⟩ []) := by
  refine permanent_of_careful ⟨fun _ => ""⟩ [] _ ⟨fun p hwrites => ?_, fun p hwrites => ?_, trivial⟩
  · cases hwrites.1
    exact ⟨fun ⟨_, he, _⟩ => (nomatch he), by decide⟩
  · cases hwrites.1

/-- The turn told, forgotten and told again, the clock moving on: its belief is back. -/
theorem retold_belief_returns :
    ¬ Permanent [fridayAt 0, .forget ⟨1⟩ "s" "r" "m-s-t-0", fridayAt 2]
      (MemoryState.create ⟨fun _ => ""⟩ []) := by
  intro h
  have hgone : Tombstoned (runSteps [fridayAt 0, .forget ⟨1⟩ "s" "r" "m-s-t-0"]
      (MemoryState.create ⟨fun _ => ""⟩ [])).beliefs "m-s-t-0" := ⟨_, rfl, rfl⟩
  obtain ⟨e, he, hgone⟩ := h.forgotten [fridayAt 0, .forget ⟨1⟩ "s" "r" "m-s-t-0"] [fridayAt 2]
    List.prefix_rfl "m-s-t-0" hgone
  cases he
  cases hgone

end MarloweAgent.Memory
