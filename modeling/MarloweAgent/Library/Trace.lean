import Mathlib.Data.List.Basic
import Mathlib.Data.List.TakeWhile

/-! Properties of the events of a trace, each judged together with the events before
it. A trace grows at its end, so such a property is checked once for each event. -/

namespace MarloweAgent.Library

variable {α : Type*}

/-- Every event of the trace satisfies `P` after the events before it. -/
def Throughout (P : List α → α → Prop) (trace : List α) : Prop :=
  ∀ before a after, trace = before ++ a :: after → P before a

namespace Throughout

variable {P Q : List α → α → Prop} {trace events : List α}

theorem nil : Throughout P [] := by
  intro before a after h
  simp at h

theorem concat (h : Throughout P trace) {a : α} (ha : P trace a) : Throughout P (trace ++ [a]) := by
  intro before b after hsplit
  rcases List.eq_nil_or_concat after with rfl | ⟨rest, last, rfl⟩
  · obtain ⟨rfl, hab⟩ := List.append_inj' hsplit rfl
    cases hab
    exact ha
  · rw [List.concat_eq_append, ← List.cons_append, ← List.append_assoc] at hsplit
    exact h before b rest (List.append_inj' hsplit rfl).1

/-- Events that satisfy `P` after anything may follow. -/
theorem append (h : Throughout P trace) (he : ∀ a ∈ events, ∀ before, P before a) :
    Throughout P (trace ++ events) := by
  induction events generalizing trace with
  | nil => rwa [List.append_nil]
  | cons a rest ih =>
    rw [List.append_cons]
    exact ih (h.concat (he a List.mem_cons_self trace)) fun b hb => he b (List.mem_cons_of_mem _ hb)

/-- What holds throughout a trace holds throughout its beginnings. -/
theorem of_append (h : Throughout P (trace ++ events)) : Throughout P trace := by
  rintro before a after rfl
  exact h before a (after ++ events) (by simp)

theorem at_last {a : α} (h : Throughout P (trace ++ [a])) : P trace a := h trace a [] rfl

theorem concat_iff {a : α} : Throughout P (trace ++ [a]) ↔ Throughout P trace ∧ P trace a :=
  ⟨fun h => ⟨h.of_append, h.at_last⟩, fun h => h.1.concat h.2⟩

theorem mono (h : Throughout P trace) (hPQ : ∀ before a, P before a → Q before a) :
    Throughout Q trace :=
  fun before a after hsplit => hPQ before a (h before a after hsplit)

end Throughout

end MarloweAgent.Library

/-! ## Batches

Steps that come in batches, with a sweep after each batch. Where a sweep before a step
makes no difference after the next one, only the last sweep counts. -/

namespace MarloweAgent.Library.Batched

variable {S E : Type*}

/-- A batch of steps, and the sweep. -/
def batch (step : S → E → S) (sweep : S → S) (s : S) (events : List E) : S :=
  sweep (events.foldl step s)

variable {step : S → E → S} {sweep : S → S}

/-- A sweep makes no difference later. -/
structure Harmless (step : S → E → S) (sweep : S → S) : Prop where
  again : ∀ s, sweep (sweep s) = sweep s
  before : ∀ s e, sweep (step (sweep s) e) = sweep (step s e)

theorem Harmless.batch_sweep (h : Harmless step sweep) (s : S) (events : List E) :
    batch step sweep (sweep s) events = batch step sweep s events := by
  induction events generalizing s with
  | nil => exact h.again s
  | cons e rest ih =>
    have hswept := ih (step (sweep s) e)
    rw [h.before, ih] at hswept
    exact hswept.symm

/-- **Every cut gives the same**: batch after batch is one batch of all. -/
theorem Harmless.batches (h : Harmless step sweep) (s : S) (first : List E) (rest : List (List E)) :
    (first :: rest).foldl (batch step sweep) s = batch step sweep s (first :: rest).flatten := by
  induction rest generalizing s first with
  | nil => simp
  | cons second rest ih =>
    refine (ih (batch step sweep s first) second).trans ?_
    rw [batch.eq_def step sweep s first, h.batch_sweep]
    simp only [batch, List.flatten_cons, List.foldl_append]

end MarloweAgent.Library.Batched

/-! ## Cuts

A run as the list of what happened in it, cut at the first event of a kind: what came
before it, what came since, and what came after. Each cut with the step lemma for one more
event. -/

namespace MarloweAgent.Library.Run

variable {α : Type} (p : α → Bool)

/-- What happened before the first event that `p` picks. -/
def before (events : List α) : List α := events.takeWhile (! p ·)

/-- The first event that `p` picks, and what happened after it. -/
def since (events : List α) : List α := events.dropWhile (! p ·)

/-- What happened after the first event that `p` picks. -/
def after (events : List α) : List α := (since p events).tail

variable {p} {events : List α}

theorem since_eq_nil (h : events.any p = false) : since p events = [] := by
  refine List.dropWhile_eq_nil_iff.mpr fun x hx => ?_
  have hp := List.any_eq_false.mp h x hx
  simpa using hp

theorem since_ne_nil (h : events.any p = true) : since p events ≠ [] := by
  intro hnil
  obtain ⟨x, hx, hp⟩ := List.any_eq_true.mp h
  have hnot := List.dropWhile_eq_nil_iff.mp hnil x hx
  rw [hp] at hnot
  cases hnot

theorem before_concat (x : α) :
    before p (events ++ [x]) = before p events ++ if events.any p || p x then [] else [x] := by
  induction events with
  | nil => cases hp : p x <;> simp [before, hp]
  | cons a events ih =>
    cases hp : p a with
    | true => simp [before, hp]
    | false => simpa [before, hp] using ih

theorem since_concat (x : α) :
    since p (events ++ [x]) = since p events ++ if events.any p || p x then [x] else [] := by
  induction events with
  | nil => cases hp : p x <;> simp [since, hp]
  | cons a events ih =>
    cases hp : p a with
    | true => simp [since, hp]
    | false => simpa [since, hp] using ih

theorem after_concat (x : α) :
    after p (events ++ [x]) = after p events ++ if events.any p then [x] else [] := by
  unfold after
  rw [since_concat]
  cases hany : events.any p with
  | true => simp [List.tail_append_of_ne_nil (since_ne_nil hany)]
  | false => cases hp : p x <;> simp [since_eq_nil hany]

end MarloweAgent.Library.Run
