import MarloweAgent.Memory.Overwrite

/-! The embedded vectors beside the belief store. A vector is keyed by the id alone, and
made from the text that stood under it; `embedMissing` and `retainLive` go by the ids the
store has, and a tombstoned id is one of them. So a vector follows its text as long as no
operation clears or replaces the text under an id that has one. -/

namespace MarloweAgent.Memory
open Contract EventLog Library

/-- An embedder as a call finds it: the call fails, or each text gets its vector. -/
structure Embedder (embed : String → List Rat) where
  batch : List String → Except String (List (List Rat))
  faithful : ∀ texts vectors, batch texts = .ok vectors → vectors = texts.map embed

variable {embed : String → List Rat}

namespace VectorStore

/-- Embed every memory that has no vector; the count. -/
def embedMissing (store : VectorStore) (beliefs : BeliefStore) (embedder : Embedder embed) :
    Except String Nat × VectorStore :=
  let missing := beliefs.recallCandidates.filter fun e => (store.get e.id).isNone
  if missing.isEmpty then (.ok 0, store)
  else
    match embedder.batch (missing.map (·.text)) with
    | .error e => (.error e, store)
    | .ok vectors =>
      (.ok missing.length,
        { store with
          vectors := ((missing.map (·.id)).zip vectors).foldl (fun m p => m.insert p.1 p.2)
            store.vectors })

/-- Drop the vectors of the ids the store does not have. -/
def retainLive (store : VectorStore) (beliefs : BeliefStore) : VectorStore :=
  let live := beliefs.recallCandidates.map (·.id)
  { store with vectors := store.vectors.retain fun id => live.contains id }

theorem mem_live_iff (beliefs : BeliefStore) (id : MemoryId) :
    id ∈ beliefs.recallCandidates.map (·.id) ↔ (beliefs.get id).isSome := by
  constructor
  · intro h
    obtain ⟨e, he, rfl⟩ := List.mem_map.mp h
    rw [(beliefs.mem_recallCandidates_iff e).mp he]
    rfl
  · intro h
    obtain ⟨e, he⟩ := Option.isSome_iff_exists.mp h
    obtain rfl : e.id = id := beliefs.keyed id e he
    exact List.mem_map_of_mem ((beliefs.mem_recallCandidates_iff e).mpr he)

theorem get_retainLive (store : VectorStore) (beliefs : BeliefStore) (id : MemoryId) :
    (store.retainLive beliefs).get id = if (beliefs.get id).isSome then store.get id else none := by
  rw [get, retainLive, OrderedMap.get?_retain]
  simp only [List.contains_iff_mem, mem_live_iff]
  rfl

theorem mem_missing_iff (store : VectorStore) (beliefs : BeliefStore) (id : MemoryId) :
    id ∈ (beliefs.recallCandidates.filter fun e => (store.get e.id).isNone).map (·.id) ↔
      store.get id = none ∧ (beliefs.get id).isSome := by
  rw [← mem_live_iff]
  simp only [List.mem_map, List.mem_filter, Option.isNone_iff_eq_none]
  constructor
  · rintro ⟨e, ⟨he, hnone⟩, rfl⟩
    exact ⟨hnone, e, he, rfl⟩
  · rintro ⟨hnone, e, he, rfl⟩
    exact ⟨e, ⟨he, hnone⟩, rfl⟩

/-- A call that succeeds leaves every vector there was, and gives one to every other id. -/
theorem get_embedMissing {store after : VectorStore} {beliefs : BeliefStore}
    {embedder : Embedder embed} {count : Nat}
    (h : store.embedMissing beliefs embedder = (.ok count, after)) (id : MemoryId) :
    after.get id = (store.get id).or ((beliefs.get id).map fun e => embed e.text) := by
  have hmissing := store.mem_missing_iff beliefs id
  simp only [embedMissing] at h
  generalize hm : (beliefs.recallCandidates.filter fun e => (store.get e.id).isNone) = missing
    at h hmissing
  -- an id that is not missing has its vector, or no entry
  have hrest : id ∉ missing.map (·.id) →
      store.get id = (store.get id).or ((beliefs.get id).map fun e => embed e.text) := by
    intro hid
    cases hv : store.get id with
    | some v => rfl
    | none =>
      cases he : beliefs.get id with
      | none => rfl
      | some e => exact absurd (hmissing.mpr ⟨hv, by simp [he]⟩) hid
  split at h
  next hempty =>
    obtain rfl := (Prod.mk.inj h).2
    exact hrest (by simp [List.isEmpty_iff.mp hempty])
  next =>
    split at h
    next => cases h
    next vectors hbatch =>
      obtain rfl := (Prod.mk.inj h).2
      have hpairs : (missing.map (·.id)).zip vectors = missing.map fun e => (e.id, embed e.text) := by
        rw [embedder.faithful _ _ hbatch, List.map_map]
        exact List.zip_map' ..
      have hkeyed : ∀ p ∈ missing.map fun e => (e.id, embed e.text),
          ((beliefs.get p.1).map fun e => embed e.text) = some p.2 := by
        intro p hp
        obtain ⟨e, he, rfl⟩ := List.mem_map.mp hp
        rw [← hm] at he
        rw [(beliefs.mem_recallCandidates_iff e).mp (List.mem_of_mem_filter he)]
        rfl
      show OrderedMap.get? _ id = _
      rw [hpairs, OrderedMap.get?_foldl_insert (fun id => (beliefs.get id).map fun e => embed e.text)
        hkeyed, List.map_map]
      split
      next hid =>
        rw [(hmissing.mp hid).1]
        rfl
      next hid => exact hrest hid

/-- A call that fails changes nothing. -/
theorem embedMissing_error {store after : VectorStore} {beliefs : BeliefStore}
    {embedder : Embedder embed} {why : String}
    (h : store.embedMissing beliefs embedder = (.error why, after)) : after = store := by
  simp only [embedMissing] at h
  split at h
  next => cases h
  next =>
    split at h
    next => exact (Prod.mk.inj h).2.symm
    next => cases h

end VectorStore

/-! ## Steps -/

/-- The memory and the vectors beside it. -/
structure Indexed where
  memory : MemoryState
  vectors : VectorStore

inductive VectorStep (embed : String → List Rat)
  | belief (op : Op)
  | embedMissing (embedder : Embedder embed)
  | retainLive

namespace Indexed

/-- A memory over an empty journal, and no vectors. -/
def create (key : SigningKey Payload) (inserts : List Bool) (cosine : List Rat → List Rat → Rat) :
    Indexed :=
  { memory := .create key inserts, vectors := ⟨OrderedMap.empty, cosine⟩ }

def step (s : Indexed) : VectorStep embed → Indexed
  | .belief op => { s with memory := op.run s.memory }
  | .embedMissing embedder =>
    { s with vectors := (s.vectors.embedMissing s.memory.beliefs embedder).2 }
  | .retainLive => { s with vectors := s.vectors.retainLive s.memory.beliefs }

def after (s : Indexed) (steps : List (VectorStep embed)) : Indexed := steps.foldl step s

end Indexed

/-- Every vector belongs to a memory that is not tombstoned, and is made from its text. -/
def FreshIn (embed : String → List Rat) (vectors : VectorStore) (beliefs : BeliefStore) : Prop :=
  ∀ id v, vectors.get id = some v →
    ∃ e, beliefs.get id = some e ∧ Fidelity.tombstone < e.fidelity ∧ v = embed e.text

def Fresh (embed : String → List Rat) (s : Indexed) : Prop :=
  FreshIn embed s.vectors s.memory.beliefs

/-- Every memory whose text is live has the vector of its text. -/
def Covered (embed : String → List Rat) (s : Indexed) : Prop :=
  ∀ id e, s.memory.beliefs.get id = some e → Fidelity.tombstone < e.fidelity →
    s.vectors.get id = some (embed e.text)

/-- What each step is to leave: no vector without its text after `retainLive`, and none
missing after an `embedMissing` that succeeds. -/
def Upheld (s : Indexed) : VectorStep embed → Prop
  | .belief _ => True
  | .embedMissing embedder =>
    ∀ count, (s.vectors.embedMissing s.memory.beliefs embedder).1 = .ok count →
      Covered embed (s.step (.embedMissing embedder))
  | .retainLive => Fresh embed (@Indexed.step embed s .retainLive)

/-- The events an operation journalled. -/
def appended (before after : MemoryState) : List LogEvent := (log after).drop (log before).length

/-- The event leaves the text under every id with a vector as it is. -/
def spares (vectors : VectorStore) (beliefs : BeliefStore) : LogEvent → Bool
  | (_, .memoryWritten, .memoryWritten p) =>
    (vectors.get p.id).isNone || (beliefs.get p.id).map (·.text) = some p.text
  | (_, .tombstoned, .tombstoned p) => (vectors.get p.id).isNone
  | _ => true

/-- A step that lets no vector part from its text: no operation tombstones a memory that has a
vector or writes another text under its id, and nothing tombstoned is there to be embedded. -/
def careful (s : Indexed) : VectorStep embed → Bool
  | .belief op => (appended s.memory (op.run s.memory)).all (spares s.vectors s.memory.beliefs)
  | .embedMissing _ => s.memory.beliefs.recallCandidates.all fun e =>
    (s.vectors.get e.id).isSome || Fidelity.tombstone < e.fidelity
  | .retainLive => true

/-- Every step of the history is such a step. -/
def carefulAll (s : Indexed) : List (VectorStep embed) → Bool
  | [] => true
  | step :: rest => careful s step && carefulAll (s.step step) rest

/-! ## What the operations journal -/

/-- An event of the operations: what is written is a full record, and nothing is demoted. -/
def isPlain : EventKind → Payload → Bool
  | .memoryWritten, .memoryWritten p => p.fidelity = .record
  | .memoryWritten, _ | .fidelityDemoted, _ => false
  | _, _ => true

/-- The log grows by such events. -/
def GrowsPlainly (m m' : MemoryState) : Prop :=
  ∃ events, log m' = log m ++ events ∧ ∀ e ∈ events, isPlain e.2.1 e.2.2 = true

namespace GrowsPlainly

theorem refl (m : MemoryState) : GrowsPlainly m m := ⟨[], by simp, by simp⟩

theorem trans (a b c : MemoryState) (hab : GrowsPlainly a b) (hbc : GrowsPlainly b c) :
    GrowsPlainly a c := by
  obtain ⟨es, hes, hp⟩ := hab
  obtain ⟨es', hes', hp'⟩ := hbc
  refine ⟨es ++ es', by rw [hes', hes, List.append_assoc], fun e he => ?_⟩
  exact (List.mem_append.mp he).elim (hp e) (hp' e)

theorem pure {α : Type} (a : α) : Fallible.Within GrowsPlainly (pure a : MemoryM α) :=
  Fallible.Within.pure refl a

theorem append (clock : Clock) (req : AppendRequest Payload)
    (h : isPlain req.kind req.payload = true) :
    Fallible.Within GrowsPlainly (append clock req) := by
  intro m
  rcases append_run clock req m with ⟨event, journal, hrun, hr⟩ | ⟨error, journal, hrun, hr⟩
  · rw [hrun]
    exact ⟨[(event.seq, req.kind, req.payload)], hr, by simpa using h⟩
  · rw [hrun]
    exact ⟨[], by simp [log, hr], by simp⟩

theorem update (f : BeliefStore → BeliefStore) : Fallible.Within GrowsPlainly (updateBeliefs f) :=
  fun m => ⟨[], by simp [log, updateBeliefs, Fallible.update], by simp⟩

end GrowsPlainly

theorem ingestTurn_grows (request : IngestRequest) (index : Nat) (turn : Turn) :
    Fallible.Within GrowsPlainly (ingestTurn request index turn) := by
  unfold ingestTurn
  cases checkActor turn.origin.actor with
  | some reason =>
    exact (GrowsPlainly.append _ _ rfl).bind GrowsPlainly.trans fun _ => GrowsPlainly.pure _
  | none =>
    refine Fallible.Within.read_bind fun m => ?_
    exact (GrowsPlainly.append _ _ rfl).bind GrowsPlainly.trans
      (fun _ => (GrowsPlainly.update _).bind GrowsPlainly.trans fun _ => GrowsPlainly.pure _) m

theorem rememberClaim_grows (clock : Clock) (write : ClaimWrite) :
    Fallible.Within GrowsPlainly (rememberClaim clock write) := by
  unfold rememberClaim
  refine Fallible.Within.read_bind fun m => ?_
  cases claimRejection m.beliefs write with
  | some reason =>
    exact (GrowsPlainly.append _ _ rfl).bind GrowsPlainly.trans (fun _ => GrowsPlainly.pure _) m
  | none =>
    exact (GrowsPlainly.append _ _ rfl).bind GrowsPlainly.trans
      (fun _ => (GrowsPlainly.update _).bind GrowsPlainly.trans fun _ => GrowsPlainly.pure _) m

theorem correctClaim_grows (clock : Clock) (write : ClaimWrite) (target : MemoryId) :
    Fallible.Within GrowsPlainly (correctClaim clock write target) := by
  unfold correctClaim
  refine Fallible.Within.read_bind fun m => ?_
  cases m.beliefs.get target with
  | none => exact GrowsPlainly.refl m
  | some existing =>
    simp only
    split
    next => exact GrowsPlainly.refl m
    next =>
      refine (rememberClaim_grows clock write).bind GrowsPlainly.trans (fun result => ?_) m
      cases result with
      | error rejected => exact GrowsPlainly.pure _
      | ok receipt =>
        exact (GrowsPlainly.append _ _ rfl).bind GrowsPlainly.trans fun _ =>
          (GrowsPlainly.update _).bind GrowsPlainly.trans fun _ => GrowsPlainly.pure _

theorem append_grows (clock : Clock) (req : AppendRequest Payload)
    (h : writesOrDemotes req.kind = false) : Fallible.Within GrowsPlainly (append clock req) := by
  refine GrowsPlainly.append clock req ?_
  revert h
  cases req.kind <;> first | exact fun _ => rfl | exact nofun

theorem forgetClaim_grows (clock : Clock) (sessionId runId : String) (target : MemoryId) :
    Fallible.Within GrowsPlainly (forgetClaim clock sessionId runId target) :=
  forgetClaim_within GrowsPlainly.refl GrowsPlainly.trans append_grows
    (fun _ => GrowsPlainly.update _) clock sessionId runId target

theorem consolidate_grows (sessionId : String) (clock : Clock) (vectors : VectorStore)
    (policy : Policy) : Fallible.Within GrowsPlainly (consolidate sessionId clock vectors policy) :=
  consolidate_within GrowsPlainly.refl GrowsPlainly.trans append_grows
    (fun _ _ => GrowsPlainly.update _) sessionId clock vectors policy

theorem Step.run_grows (step : Step) (m : MemoryState) : GrowsPlainly m (step.run m) := by
  cases step with
  | turn request index turn => exact ingestTurn_grows request index turn m
  | remember clock write => exact rememberClaim_grows clock write m
  | correct clock write target => exact correctClaim_grows clock write target m
  | forget clock sessionId runId target => exact forgetClaim_grows clock sessionId runId target m
  | consolidate sessionId clock vectors policy =>
    exact consolidate_grows sessionId clock vectors policy m
  | record clock req foreign => exact append_grows clock req (writesOrDemotes_of_foreign foreign) m

theorem Op.run_grows (op : Op) (m : MemoryState) : GrowsPlainly m (op.run m) := by
  obtain ⟨steps, h⟩ := op.run_reaches m
  rw [h]
  clear h
  induction steps generalizing m with
  | nil => exact GrowsPlainly.refl m
  | cons step rest ih => exact (step.run_grows m).trans _ _ _ (ih (step.run m))

/-! ## What a step keeps -/

section Kept

variable {vectors : VectorStore} {b b' now : BeliefStore} {s : Indexed}

/-- A change of an entry that leaves its text and its tier. -/
theorem FreshIn.modify (h : FreshIn embed vectors b) (id : MemoryId) (f : MemoryEntry → MemoryEntry)
    (hf : ∀ e, (f e).id = e.id) (hsame : ∀ e, (f e).fidelity = e.fidelity ∧ (f e).text = e.text) :
    FreshIn embed vectors (b.modify id f hf) := by
  intro k v hv
  obtain ⟨e, he, hlive, htext⟩ := h k v hv
  rw [BeliefStore.get_modify, he]
  split
  · refine ⟨f e, rfl, ?_, ?_⟩
    · rw [(hsame e).1]
      exact hlive
    · rw [(hsame e).2]
      exact htext
  · exact ⟨e, rfl, hlive, htext⟩

theorem FreshIn.supersede (h : FreshIn embed vectors b) (id by_ : MemoryId) :
    FreshIn embed vectors (b.supersede id by_) := by
  unfold BeliefStore.supersede
  split
  · exact h
  · refine FreshIn.modify (FreshIn.modify h _ _ _ ?_) _ _ _ ?_
    · exact fun _ => ⟨rfl, rfl⟩
    · exact fun _ => ⟨rfl, rfl⟩

/-- **One event** that spares the texts under the vectors. -/
theorem FreshIn.applyEvent (h : FreshIn embed vectors b) {ev : LogEvent}
    (happly : BeliefStore.applyEvent b ev = .ok b') (hplain : isPlain ev.2.1 ev.2.2 = true)
    (hspares : spares vectors now ev = true) (hnow : FreshIn embed vectors now) :
    FreshIn embed vectors b' := by
  obtain ⟨seq, kind, payload⟩ := ev
  cases kind with
  | memoryWritten =>
    cases payload with
    | memoryWritten p =>
      obtain rfl := Except.ok.inj happly
      intro id v hv
      rw [BeliefStore.get_insert]
      split
      next hid =>
        obtain rfl : p.id = id := hid
        obtain ⟨e, he, -, htext⟩ := hnow p.id v hv
        have hsame : e.text = p.text := by simpa [spares, hv, he] using hspares
        have hrecord : p.fidelity = .record := by simpa [isPlain] using hplain
        refine ⟨_, rfl, ?_, ?_⟩
        · show Fidelity.tombstone < p.fidelity
          rw [hrecord]
          decide
        · rw [htext, hsame]
          rfl
      next => exact h id v hv
    | _ => cases happly
  | fidelityDemoted => cases payload <;> cases hplain
  | superseded =>
    cases payload with
    | superseded p =>
      cases hget : b.get p.id with
      | none => simp [BeliefStore.applyEvent, hget] at happly
      | some e =>
        rw [BeliefStore.applyEvent_superseded b seq p (by simp [hget])] at happly
        rw [← Except.ok.inj happly]
        exact h.supersede p.id p.by_
    | _ => cases happly
  | tombstoned =>
    cases payload with
    | tombstoned p =>
      cases hget : b.get p.id with
      | none => simp [BeliefStore.applyEvent, hget] at happly
      | some e =>
        rw [BeliefStore.applyEvent_tombstoned b seq p (by simp [hget])] at happly
        rw [← Except.ok.inj happly]
        intro id v hv
        have hne : p.id ≠ id := by
          rintro rfl
          simp [spares, hv] at hspares
        rw [BeliefStore.tombstone, BeliefStore.get_modify, if_neg hne]
        exact h id v hv
    | _ => cases happly
  | _ => exact Except.ok.inj happly ▸ h

/-- **One operation** all of whose events do. -/
theorem Fresh.op (h : Fresh embed s) (hagrees : Agrees s.memory) {op : Op}
    (hcareful : @careful embed s (.belief op) = true) :
    Fresh embed (@Indexed.step embed s (.belief op)) := by
  obtain ⟨events, hlog, hplain⟩ := op.run_grows s.memory
  have hspares : ∀ e ∈ events, spares s.vectors s.memory.beliefs e = true := by
    simpa [careful, appended, hlog] using hcareful
  have hafter : BeliefStore.view.derive (log s.memory ++ events) = .ok (op.run s.memory).beliefs := by
    rw [← hlog]
    exact (op.run_keeps s.memory).agrees hagrees
  refine BeliefStore.view.derive_related
    (R := fun b b' => FreshIn embed s.vectors b → FreshIn embed s.vectors b')
    (fun _ h => h) (fun _ _ _ hst htu h => htu (hst h)) hagrees events
    (fun pre e post b b' hsplit _ happly hb => ?_) hafter h
  have he : e ∈ events := by simp [hsplit]
  exact hb.applyEvent happly (hplain e he) (hspares e he) h

/-- The vectors after an `embedMissing` that finds nothing tombstoned. -/
theorem Fresh.embedMissing (h : Fresh embed s) {embedder : Embedder embed}
    (hcareful : careful s (.embedMissing embedder) = true) :
    Fresh embed (s.step (.embedMissing embedder)) := by
  show FreshIn embed (s.vectors.embedMissing s.memory.beliefs embedder).2 s.memory.beliefs
  cases hrun : s.vectors.embedMissing s.memory.beliefs embedder with
  | mk result after =>
    cases result with
    | error why =>
      rw [VectorStore.embedMissing_error hrun]
      exact h
    | ok count =>
      intro id v hv
      rw [VectorStore.get_embedMissing hrun] at hv
      cases hold : s.vectors.get id with
      | some old =>
        rw [hold] at hv
        obtain rfl := Option.some.inj hv
        exact h id old hold
      | none =>
        rw [hold, Option.none_or] at hv
        obtain ⟨e, he, rfl⟩ := Option.map_eq_some_iff.mp hv
        obtain rfl : e.id = id := s.memory.beliefs.keyed id e he
        have hmem := (s.memory.beliefs.mem_recallCandidates_iff e).mpr he
        have hlive := List.all_eq_true.mp hcareful e hmem
        exact ⟨e, he, by simpa [hold] using hlive, rfl⟩

/-- What succeeds leaves no text without its vector. -/
theorem Fresh.covered (h : Fresh embed s) {embedder : Embedder embed} {count : Nat}
    (hok : (s.vectors.embedMissing s.memory.beliefs embedder).1 = .ok count) :
    Covered embed (s.step (.embedMissing embedder)) := by
  intro id e he _
  show (s.vectors.embedMissing s.memory.beliefs embedder).2.get id = _
  rw [VectorStore.get_embedMissing (Prod.ext hok rfl)]
  cases hold : s.vectors.get id with
  | some v =>
    obtain ⟨e', he', -, rfl⟩ := h id v hold
    obtain rfl := Option.some.inj (he'.symm.trans he)
    rfl
  | none =>
    have he : s.memory.beliefs.get id = some e := he
    rw [he]
    rfl

theorem Fresh.retainLive (h : Fresh embed s) : Fresh embed (@Indexed.step embed s .retainLive) := by
  intro id v hv
  replace hv : (s.vectors.retainLive s.memory.beliefs).get id = some v := hv
  rw [VectorStore.get_retainLive] at hv
  split at hv
  · exact h id v hv
  · cases hv

/-- The store agrees with its log, and no vector is without its text. -/
structure Following (embed : String → List Rat) (s : Indexed) : Prop where
  agrees : Agrees s.memory
  fresh : Fresh embed s

theorem Following.step (h : Following embed s) {step : VectorStep embed}
    (hcareful : careful s step = true) : Following embed (s.step step) ∧ Upheld s step := by
  cases step with
  | belief op => exact ⟨⟨(op.run_keeps s.memory).agrees h.agrees, h.fresh.op h.agrees hcareful⟩, trivial⟩
  | embedMissing embedder =>
    exact ⟨⟨h.agrees, h.fresh.embedMissing hcareful⟩, fun _ hok => h.fresh.covered hok⟩
  | retainLive => exact ⟨⟨h.agrees, h.fresh.retainLive⟩, h.fresh.retainLive⟩

theorem Following.upheld (h : Following embed s) {steps : List (VectorStep embed)}
    (hcareful : carefulAll s steps = true) {before : List (VectorStep embed)} {step : VectorStep embed}
    (hbefore : before ++ [step] <+: steps) : Upheld (s.after before) step := by
  induction before generalizing s steps with
  | nil =>
    obtain ⟨rest, rfl⟩ := hbefore
    obtain ⟨hstep, -⟩ := Bool.and_eq_true_iff.mp hcareful
    exact (h.step hstep).2
  | cons first before ih =>
    obtain ⟨rest, rfl⟩ := hbefore
    obtain ⟨hstep, hrest⟩ := Bool.and_eq_true_iff.mp hcareful
    exact ih (h.step hstep).1 hrest ⟨rest, rfl⟩

end Kept

theorem create_following (key : SigningKey Payload) (inserts : List Bool)
    (cosine : List Rat → List Rat → Rat) : Following embed (.create key inserts cosine) where
  agrees := rfl
  fresh := fun _ _ h => by cases h

/-- **No vector outlives its text**, in every history whose operations part none from it. -/
theorem vectors_follow_texts (embed : String → List Rat) (key : SigningKey Payload)
    (inserts : List Bool) (cosine : List Rat → List Rat → Rat) (steps : List (VectorStep embed))
    (h : carefulAll (.create key inserts cosine) steps = true) :
    ∀ before step, before ++ [step] <+: steps →
      Upheld (Indexed.after (.create key inserts cosine) before) step :=
  fun _ _ hbefore => (create_following key inserts cosine).upheld h hbefore

/-! ## A vector that outlives its text -/

/-- The vector of a text is its length. -/
def lengths (text : String) : List Rat := [text.toList.length]

def measuring : Embedder lengths where
  batch texts := .ok (texts.map lengths)
  faithful := fun _ _ h => (Except.ok.inj h).symm

def fridayOp : Op := .ingest { fridayRequest with turns := [fridayTurn] }

/-- A memory is embedded, and embedded again when there is nothing new. -/
def embeddedTwice : List (VectorStep lengths) :=
  [.belief fridayOp, .embedMissing measuring, .retainLive, .embedMissing measuring]

/-- It is forgotten after it was embedded. -/
def forgottenAfter : List (VectorStep lengths) :=
  [.belief fridayOp, .embedMissing measuring, .belief (.forget ⟨1⟩ "s" "r" "m-s-t-0"), .retainLive]

def unindexed : Indexed := .create ⟨fun _ => ""⟩ [] fun _ _ => 0

theorem vectors_follow_texts_embeddedTwice :
    Upheld (unindexed.after (embeddedTwice.take 2)) (.retainLive : VectorStep lengths) :=
  vectors_follow_texts lengths ⟨fun _ => ""⟩ [] (fun _ _ => 0) embeddedTwice (by decide)
    (embeddedTwice.take 2) .retainLive ⟨[.embedMissing measuring], rfl⟩

/-- The vector of a forgotten memory is still there after `retainLive`. -/
theorem forgotten_vector_kept : ¬ ∀ (embed : String → List Rat) (key : SigningKey Payload)
    (inserts : List Bool) (cosine : List Rat → List Rat → Rat) (steps : List (VectorStep embed)),
    ∀ before step, before ++ [step] <+: steps →
      Upheld (Indexed.after (.create key inserts cosine) before) step := by
  intro hall
  have hfresh := hall lengths ⟨fun _ => ""⟩ [] (fun _ _ => 0) forgottenAfter
    (forgottenAfter.take 3) .retainLive List.prefix_rfl
  have hvector : ((unindexed.after forgottenAfter).vectors.get "m-s-t-0").isSome := by decide
  have htier : ((unindexed.after forgottenAfter).memory.beliefs.get "m-s-t-0").map (·.fidelity) =
      some .tombstone := by decide
  obtain ⟨v, hv⟩ := Option.isSome_iff_exists.mp hvector
  obtain ⟨e, he, hlive, -⟩ := hfresh "m-s-t-0" v hv
  obtain ⟨e', he', hdead⟩ := Option.map_eq_some_iff.mp htier
  obtain rfl : e = e' := Option.some.inj (he.symm.trans he')
  rw [hdead] at hlive
  exact absurd hlive (by decide)

end MarloweAgent.Memory
