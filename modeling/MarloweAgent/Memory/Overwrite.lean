import MarloweAgent.Memory.Identity

/-! No belief is overwritten exactly when the accepted writes have distinct names.
A log that writes an id twice replaces the first belief, and a tombstone or a
supersession on it is lost with it; a log that never does keeps every belief. -/

namespace MarloweAgent.Memory
open Contract EventLog Library

/-! ## What one event does to the store -/

/-- How an entry may change while it stays the same belief. -/
structure Revises (e e' : MemoryEntry) : Prop where
  originEvent : e'.originEvent = e.originEvent
  text : e'.text = e.text ∨ e'.fidelity = .tombstone
  tombstone : e.fidelity = .tombstone → e'.fidelity = .tombstone
  superseded : e.supersededBy.isSome → e'.supersededBy.isSome

theorem Revises.refl (e : MemoryEntry) : Revises e e := ⟨rfl, .inl rfl, id, id⟩

theorem Revises.trans {a b c : MemoryEntry} (hab : Revises a b) (hbc : Revises b c) :
    Revises a c := by
  refine ⟨hbc.originEvent.trans hab.originEvent, ?_, fun h => hbc.tombstone (hab.tombstone h),
    fun h => hbc.superseded (hab.superseded h)⟩
  rcases hbc.text with ht | ht
  · rcases hab.text with ht' | ht'
    · exact .inl (ht.trans ht')
    · exact .inr (hbc.tombstone ht')
  · exact .inr ht

/-- Every belief of `b` is still a belief of `b'`: the same write, its text intact unless
tombstoned, and no tombstone or supersession undone. -/
def Persist (b b' : BeliefStore) : Prop :=
  ∀ id e, b.get id = some e → ∃ e', b'.get id = some e' ∧ Revises e e'

theorem Persist.refl (b : BeliefStore) : Persist b b := fun _ e h => ⟨e, h, Revises.refl e⟩

theorem Persist.trans (a b c : BeliefStore) (hab : Persist a b) (hbc : Persist b c) :
    Persist a c := by
  intro id e h
  obtain ⟨e', h', hr⟩ := hab id e h
  obtain ⟨e'', h'', hr'⟩ := hbc id e' h'
  exact ⟨e'', h'', hr.trans hr'⟩

theorem persist_modify (b : BeliefStore) (id : MemoryId) (f : MemoryEntry → MemoryEntry)
    (hf : ∀ e, (f e).id = e.id) (h : ∀ e, Revises e (f e)) : Persist b (b.modify id f hf) := by
  intro k e hk
  rw [BeliefStore.get_modify]
  split
  · exact ⟨f e, by rw [hk]; rfl, h e⟩
  · exact ⟨e, hk, Revises.refl e⟩

theorem persist_supersede (b : BeliefStore) (id by_ : MemoryId) :
    Persist b (b.supersede id by_) := by
  unfold BeliefStore.supersede
  split
  · exact Persist.refl b
  · refine Persist.trans _ _ _ (persist_modify b _ _ _ ?_) (persist_modify _ _ _ _ ?_)
    · exact fun e => ⟨rfl, .inl rfl, fun h => h, fun _ => rfl⟩
    · exact fun e => ⟨rfl, .inl rfl, fun h => h, fun h => h⟩

theorem persist_tombstone (b : BeliefStore) (id : MemoryId) : Persist b (b.tombstone id) :=
  persist_modify b _ _ _ fun _ => ⟨rfl, .inr rfl, fun _ => rfl, fun h => h⟩

/-- An applied event either files one belief, or revises beliefs that are there. -/
theorem applyEvent_cases {b b' : BeliefStore} {ev : LogEvent}
    (h : BeliefStore.applyEvent b ev = .ok b') (hd : ev.2.1 ≠ .fidelityDemoted) :
    (∃ seq p, ev = (seq, .memoryWritten, .memoryWritten p) ∧
      b' = b.insert (BeliefStore.entryOfWritten seq p)) ∨
    (writtenId? ev = none ∧ Persist b b' ∧ ∀ id, (b'.get id).isSome = (b.get id).isSome) := by
  obtain ⟨seq, kind, payload⟩ := ev
  cases kind with
  | memoryWritten =>
    cases payload with
    | memoryWritten p => exact .inl ⟨seq, p, rfl, (Except.ok.inj h).symm⟩
    | _ => cases h
  | fidelityDemoted => exact absurd rfl hd
  | superseded =>
    cases payload with
    | superseded p =>
      cases hget : b.get p.id with
      | none => simp [BeliefStore.applyEvent, hget] at h
      | some e =>
        rw [BeliefStore.applyEvent_superseded b seq p (by simp [hget])] at h
        rw [← Except.ok.inj h]
        exact .inr ⟨rfl, persist_supersede b _ _, fun id => b.isSome_get_supersede ..⟩
    | _ => cases h
  | tombstoned =>
    cases payload with
    | tombstoned p =>
      cases hget : b.get p.id with
      | none => simp [BeliefStore.applyEvent, hget] at h
      | some e =>
        rw [BeliefStore.applyEvent_tombstoned b seq p (by simp [hget])] at h
        rw [← Except.ok.inj h]
        exact .inr ⟨rfl, persist_tombstone b _, fun id => b.isSome_get_tombstone ..⟩
    | _ => cases h
  | _ => exact .inr ⟨rfl, Except.ok.inj h ▸ Persist.refl b, fun id => by rw [Except.ok.inj h]⟩

theorem known_iff_applyEvent {b b' : BeliefStore} {ev : LogEvent}
    (h : BeliefStore.applyEvent b ev = .ok b') (hd : ev.2.1 ≠ .fidelityDemoted) (id : MemoryId) :
    (b'.get id).isSome ↔ (b.get id).isSome ∨ writtenId? ev = some id := by
  rcases applyEvent_cases h hd with ⟨seq, p, rfl, rfl⟩ | ⟨hw, -, hsome⟩
  · rw [BeliefStore.get_insert]
    by_cases hid : p.id = id
    · simp [BeliefStore.entryOfWritten, writtenId?, hid]
    · simp [BeliefStore.entryOfWritten, writtenId?, hid]
  · rw [hsome, hw]
    simp

/-! ## Logs -/

/-- A log whose events never demote a tier outside a tombstone. -/
def NoDemotion (events : List LogEvent) : Prop := ∀ e ∈ events, e.2.1 ≠ .fidelityDemoted

/-- The store holds exactly the ids its log has written. -/
theorem known_iff_written {events : List LogEvent} {b : BeliefStore}
    (h : BeliefStore.view.derive events = .ok b) (hd : NoDemotion events) (id : MemoryId) :
    (b.get id).isSome ↔ id ∈ writtenIds events := by
  induction events using List.reverseRecOn generalizing b with
  | nil =>
    rw [← Except.ok.inj h]
    simp [BeliefStore.view, BeliefStore.empty, BeliefStore.get, writtenIds]
  | append_singleton events e ih =>
    obtain ⟨before, hb, happly⟩ := BeliefStore.view.derive_snoc h
    have hinit : NoDemotion events := fun x hx => hd x (List.mem_append_left _ hx)
    have hlast : e.2.1 ≠ .fidelityDemoted := hd e (by simp)
    rw [known_iff_applyEvent happly hlast id, ih hb hinit]
    cases hw : writtenId? e <;> simp [writtenIds, hw, eq_comm]

/-- Every write is filed under an id the store does not hold yet. -/
def WritesFresh (events : List LogEvent) : Prop :=
  ∀ pre seq p post b, events = pre ++ (seq, .memoryWritten, .memoryWritten p) :: post →
    BeliefStore.view.derive pre = .ok b → b.get p.id = none

/-- From any point of the log on, no belief is replaced and none becomes active again. -/
def BeliefsPersist (events : List LogEvent) : Prop :=
  ∀ pre mid post b b', events = pre ++ mid ++ post → BeliefStore.view.derive pre = .ok b →
    BeliefStore.view.derive (pre ++ mid) = .ok b' → Persist b b'

/-- No belief is overwritten. -/
def NoOverwrite (events : List LogEvent) : Prop := WritesFresh events ∧ BeliefsPersist events

theorem writtenIds_append (a b : List LogEvent) :
    writtenIds (a ++ b) = writtenIds a ++ writtenIds b := List.filterMap_append

theorem writesFresh_of_nodup {events : List LogEvent} (hd : NoDemotion events)
    (h : (writtenIds events).Nodup) : WritesFresh events := by
  rintro pre seq p post b rfl hb
  have hpre : NoDemotion pre := fun x hx => hd x (List.mem_append_left _ hx)
  have hnot : p.id ∉ writtenIds pre := by
    rw [writtenIds_append] at h
    intro hmem
    exact (List.nodup_append.mp h).2.2 _ hmem _ (by simp [writtenIds, writtenId?]) rfl
  rw [← known_iff_written hb hpre] at hnot
  simpa using hnot

theorem nodup_of_writesFresh {events : List LogEvent} {last : BeliefStore}
    (hlast : BeliefStore.view.derive events = .ok last) (hd : NoDemotion events)
    (h : WritesFresh events) : (writtenIds events).Nodup := by
  induction events using List.reverseRecOn generalizing last with
  | nil => exact List.nodup_nil
  | append_singleton events e ih =>
    obtain ⟨before, hb, happly⟩ := BeliefStore.view.derive_snoc hlast
    have hinit : NoDemotion events := fun x hx => hd x (List.mem_append_left _ hx)
    have hfresh : WritesFresh events := fun pre seq p post b heq =>
      h pre seq p (post ++ [e]) b (by rw [heq]; simp)
    have hnodup := ih hb hinit hfresh
    rcases applyEvent_cases happly (hd e (by simp)) with ⟨seq, p, rfl, -⟩ | ⟨hw, -⟩
    · have hnone := h events seq p [] before rfl hb
      have hnot : p.id ∉ writtenIds events := by
        rw [← known_iff_written hb hinit, hnone]
        simp
      rw [writtenIds_append]
      exact List.nodup_append.mpr ⟨hnodup, by simp [writtenIds, writtenId?],
        fun x hx y hy hxy => hnot (by
          have hy' : y = p.id := by simpa [writtenIds, writtenId?] using hy
          rw [← hy', ← hxy]
          exact hx)⟩
    · simpa [writtenIds, hw] using hnodup

theorem beliefsPersist_of_fresh {events : List LogEvent} (hd : NoDemotion events)
    (h : WritesFresh events) : BeliefsPersist events := by
  rintro pre mid post b b' rfl hb hb'
  refine BeliefStore.view.derive_related Persist.refl Persist.trans hb mid
    (fun pre' e post' s t hmid hs happly => ?_) hb'
  have he : e.2.1 ≠ .fidelityDemoted := hd e (by simp [hmid])
  rcases applyEvent_cases happly he with ⟨seq, p, rfl, rfl⟩ | ⟨-, hpersist, -⟩
  · have hnone : s.get p.id = none :=
      h (pre ++ pre') seq p (post' ++ post) s (by simp [hmid]) hs
    intro id e hid
    rw [BeliefStore.get_insert]
    split
    · rename_i heq
      rw [← heq] at hid
      exact absurd (hid.symm.trans hnone) (by simp)
    · exact ⟨e, hid, Revises.refl e⟩
  · exact hpersist

theorem noOverwrite_iff_nodup {events : List LogEvent} {last : BeliefStore}
    (hlast : BeliefStore.view.derive events = .ok last) (hd : NoDemotion events) :
    NoOverwrite events ↔ (writtenIds events).Nodup := by
  constructor
  · exact fun h => nodup_of_writesFresh hlast hd h.1
  · intro h
    have hfresh := writesFresh_of_nodup hd h
    exact ⟨hfresh, beliefsPersist_of_fresh hd hfresh⟩

/-! ## The names of the accepted writes -/

/-- What a write is filed under, before it is rendered. -/
structure Name where
  sessionId : String
  turnId : String
  index : Nat
  deriving DecidableEq, Repr

namespace Name

def id (n : Name) : MemoryId := memoryId n.sessionId n.turnId n.index

/-- The text that joins session and turn. -/
def joined (n : Name) : String := n.sessionId ++ "-" ++ n.turnId

/-- The same position under the same joined text. -/
def Clash (a b : Name) : Prop := a.index = b.index ∧ a.joined = b.joined

instance (a b : Name) : Decidable (a.Clash b) := inferInstanceAs (Decidable (_ ∧ _))

theorem id_eq_iff (a b : Name) : a.id = b.id ↔ a.Clash b := memoryId_eq_iff ..

end Name

/-- How many of the earlier writes a session's next claim counts. -/
def claimsBefore (earlier : List Name) (sessionId : String) : Nat :=
  (earlier.filter fun n => Text.startsWith n.id ("m-" ++ sessionId ++ "-claim-")).length

/-- The name a step writes under, if it is accepted. -/
def Step.name? (earlier : List Name) : Step → Option Name
  | .turn request index t => some ⟨request.sessionId, t.turnId, index⟩
  | .remember _ write => some ⟨write.sessionId, "claim", claimsBefore earlier write.sessionId⟩
  | .correct _ write _ => some ⟨write.sessionId, "claim", claimsBefore earlier write.sessionId⟩
  | _ => none

/-- A write was accepted when the journal holds one more of them. -/
def accepted (m m' : MemoryState) : Bool :=
  (writtenIds (log m)).length < (writtenIds (log m')).length

/-- The names of the accepted writes of a history, in order, after `earlier` ones. -/
def acceptedNames : List Name → List Step → MemoryState → List Name
  | earlier, [], _ => earlier
  | earlier, step :: rest, m =>
    let m' := step.run m
    let names := if accepted m m' then earlier ++ (step.name? earlier).toList else earlier
    acceptedNames names rest m'

/-- No two accepted writes clash. -/
def DistinctNames (names : List Name) : Prop := names.Pairwise fun a b => ¬ a.Clash b

theorem distinctNames_iff_nodup (names : List Name) :
    DistinctNames names ↔ (names.map Name.id).Nodup := by
  rw [List.nodup_iff_pairwise_ne, List.pairwise_map]
  simp only [DistinctNames, Ne, Name.id_eq_iff]

/-! ## The names follow the log -/

/-- The id a step writes under at a state, if it is accepted. -/
def Step.idAt (step : Step) (m : MemoryState) : Option MemoryId :=
  match step with
  | .turn request index t => some (memoryId request.sessionId t.turnId index)
  | .remember _ write =>
    some (memoryId write.sessionId "claim" (claimIndex m.beliefs write.sessionId))
  | .correct _ write _ =>
    some (memoryId write.sessionId "claim" (claimIndex m.beliefs write.sessionId))
  | _ => none

/-- One step writes nothing, or the one belief of its id. -/
theorem Step.run_logs (step : Step) (m : MemoryState) :
    Logs [] m (step.run m) ∨ ∃ id, step.idAt m = some id ∧ Logs [id] m (step.run m) := by
  rcases step.run_files m with hquiet | ⟨p, hp, hfiled⟩
  · exact .inl hquiet.silent
  · refine .inr ⟨p.id, ?_, hfiled.logs⟩
    cases step with
    | turn | remember | correct => exact congrArg (Option.map (·.id)) hp
    | _ => cases hp

/-- The store files its entries under their own ids, so the prefix count reads the keys. -/
theorem claimIndex_eq (b : BeliefStore) (sessionId : String) :
    claimIndex b sessionId = (b.entries.keys.filter fun id =>
      Text.startsWith id ("m-" ++ sessionId ++ "-claim-")).length := by
  have hkeys : b.entries.keys = b.recallCandidates.map (·.id) := by
    simp only [OrderedMap.keys, BeliefStore.recallCandidates, OrderedMap.values, List.map_map]
    refine List.map_congr_left fun p hp => ?_
    exact (b.keyed p.1 p.2 (b.entries.get?_of_mem_bindings hp)).symm
  rw [claimIndex, hkeys, List.filter_map, List.length_map]
  rfl

/-- The history so far: its log replays, and its names render to the ids it wrote, as long
as they are distinct; once they are not, neither are the ids. -/
structure Follows (names : List Name) (m : MemoryState) : Prop where
  agrees : Agrees m
  noDemotion : NoDemotion (log m)
  ids : (names.map Name.id).Nodup → writtenIds (log m) = names.map Name.id
  clash : ¬ (names.map Name.id).Nodup → ¬ (writtenIds (log m)).Nodup

theorem Follows.claimIndex {names : List Name} {m : MemoryState} (h : Follows names m)
    (hnodup : (names.map Name.id).Nodup) (sessionId : String) :
    claimIndex m.beliefs sessionId = claimsBefore names sessionId := by
  have hperm : m.beliefs.entries.keys.Perm (names.map Name.id) := by
    refine (List.perm_ext_iff_of_nodup m.beliefs.entries.keys_nodup hnodup).mpr fun id => ?_
    rw [OrderedMap.mem_keys_iff, ← h.ids hnodup]
    exact known_iff_written h.agrees h.noDemotion id
  rw [claimIndex_eq, (hperm.filter _).length_eq, List.filter_map, List.length_map]
  rfl

theorem Follows.idAt {names : List Name} {m : MemoryState} (h : Follows names m)
    (hnodup : (names.map Name.id).Nodup) (step : Step) {id : MemoryId}
    (hid : step.idAt m = some id) : ∃ name, step.name? names = some name ∧ name.id = id := by
  cases step with
  | turn request index t => exact ⟨_, rfl, Option.some.inj hid⟩
  | remember clock write =>
    refine ⟨_, rfl, ?_⟩
    rw [← Option.some.inj hid, h.claimIndex hnodup]
    rfl
  | correct clock write target =>
    refine ⟨_, rfl, ?_⟩
    rw [← Option.some.inj hid, h.claimIndex hnodup]
    rfl
  | _ => cases hid

theorem Logs.noDemotion {ids : List MemoryId} {m m' : MemoryState} (h : Logs ids m m')
    (hd : NoDemotion (log m)) : NoDemotion (log m') := by
  obtain ⟨events, hlog, -, hnew⟩ := h.events
  rw [hlog]
  exact fun e he => (List.mem_append.mp he).elim (hd e) (hnew e)

theorem Logs.writtenIds_eq {ids : List MemoryId} {m m' : MemoryState} (h : Logs ids m m') :
    writtenIds (log m') = writtenIds (log m) ++ ids := by
  obtain ⟨events, hlog, rfl, -⟩ := h.events
  rw [hlog, writtenIds_append]

theorem Follows.step {names : List Name} {m : MemoryState} (h : Follows names m) (step : Step) :
    Follows (if accepted m (step.run m) then names ++ (step.name? names).toList else names)
      (step.run m) := by
  have hagrees := (step.run_keeps m).agrees h.agrees
  rcases step.run_logs m with hlogs | ⟨id, hid, hlogs⟩
  · have hw := hlogs.writtenIds_eq
    rw [List.append_nil] at hw
    have hno : accepted m (step.run m) = false := by simp [accepted, hw]
    rw [hno]
    refine ⟨hagrees, hlogs.noDemotion h.noDemotion, ?_, ?_⟩
    · exact fun hn => hw.trans (h.ids hn)
    · exact fun hn => hw ▸ h.clash hn
  · have hw := hlogs.writtenIds_eq
    have hyes : accepted m (step.run m) = true := by simp [accepted, hw]
    rw [hyes, if_pos rfl]
    by_cases hnodup : (names.map Name.id).Nodup
    · obtain ⟨name, hname, rfl⟩ := h.idAt hnodup step hid
      have hids : writtenIds (log (step.run m)) =
          (names ++ (step.name? names).toList).map Name.id := by
        rw [hw, h.ids hnodup, hname]
        simp
      exact ⟨hagrees, hlogs.noDemotion h.noDemotion, fun _ => hids, fun hn => hids ▸ hn⟩
    · have hbad : ¬ (writtenIds (log (step.run m))).Nodup := by
        rw [hw]
        exact fun hn => h.clash hnodup (List.nodup_append.mp hn).1
      refine ⟨hagrees, hlogs.noDemotion h.noDemotion, fun hn => absurd ?_ hnodup, fun _ => hbad⟩
      rw [List.map_append] at hn
      exact (List.nodup_append.mp hn).1

theorem Follows.run {names : List Name} {m : MemoryState} (h : Follows names m)
    (steps : List Step) : Follows (acceptedNames names steps m) (runSteps steps m) := by
  induction steps generalizing names m with
  | nil => exact h
  | cons step rest ih => exact ih (h.step step)

theorem follows_create (key : SigningKey Payload) (inserts : List Bool) :
    Follows [] (MemoryState.create key inserts) :=
  { agrees := rfl
    noDemotion := fun e (he : e ∈ ([] : List LogEvent)) => absurd he List.not_mem_nil
    ids := fun _ => rfl
    clash := fun h => absurd List.nodup_nil h }

/-- **When no belief is overwritten.** Over every history of a profile, each write gets an id
the store does not hold, and no belief is replaced or becomes active again, exactly when no
accepted write stands at the position and joined `session-turn` text of an earlier one. -/
theorem noOverwrite_iff_distinctNames (key : SigningKey Payload) (inserts : List Bool)
    (steps : List Step) :
    NoOverwrite (log (runSteps steps (MemoryState.create key inserts))) ↔
      DistinctNames (acceptedNames [] steps (MemoryState.create key inserts)) := by
  have h := (follows_create key inserts).run steps
  rw [noOverwrite_iff_nodup h.agrees h.noDemotion, distinctNames_iff_nodup]
  constructor
  · intro hn
    by_contra hnames
    exact h.clash hnames hn
  · exact fun hn => (h.ids hn).symm ▸ hn

def fridayRequest : IngestRequest :=
  { contractVersion := "1", clock := ⟨0⟩, sessionId := "s", turns := [] }

def fridayTurn : Turn :=
  { turnId := "t", speaker := .user, text := "the deploy job runs on Fridays", occurredAtMs := 0
    origin := { channel := .terminal, actor := "user:primary", ref := none } }

/-- The same turn ingested again after it was forgotten: its id is taken, and the
tombstoned belief is active again. -/
theorem reingest_revives_forgotten :
    let m := MemoryState.create ⟨fun _ => ""⟩ []
    let friday := Step.turn fridayRequest 0 fridayTurn
    let forgotten := runSteps [friday, .forget ⟨1⟩ "s" "r" "m-s-t-0"] m
    let again := runSteps [friday, .forget ⟨1⟩ "s" "r" "m-s-t-0", friday] m
    ¬ NoOverwrite (log again) ∧
      (forgotten.beliefs.get "m-s-t-0").map (·.fidelity) = some .tombstone ∧
      (again.beliefs.get "m-s-t-0").map (·.fidelity) = some .record := by
  intro m friday forgotten again
  refine ⟨fun h => ?_, by decide, by decide⟩
  have hnone := h.1 (log forgotten) 3 (turnPayload .empty fridayRequest 0 fridayTurn) []
    forgotten.beliefs rfl rfl
  exact absurd hnone (by decide)

end MarloweAgent.Memory
