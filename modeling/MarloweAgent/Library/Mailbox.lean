import Mathlib.Data.List.Infix

/-! A queue read one message at a time: what arrives is taken in order, each once, and the
queue is empty exactly when from no point on more arrived than was asked for. -/

namespace MarloweAgent.Library.Mailbox

variable {μ : Type*}

/-- A message arrives, or the reader asks for one. -/
inductive Tick (μ : Type*)
  | arrive (message : μ)
  | ask

namespace Tick

def arrived : Tick μ → Option μ
  | arrive message => some message
  | ask => none

def arrives : Tick μ → Bool
  | arrive _ => true
  | ask => false

def asks : Tick μ → Bool
  | arrive _ => false
  | ask => true

end Tick

theorem countP_arrives (ticks : List (Tick μ)) :
    ticks.countP Tick.arrives = (ticks.filterMap Tick.arrived).length := by
  rw [List.length_filterMap_eq_countP]
  refine List.countP_congr fun t _ => ?_
  cases t <;> simp [Tick.arrives, Tick.arrived]

/-- What was taken, and what waits. -/
structure Box (μ : Type*) where
  taken : List μ
  waiting : List μ

def Box.tick (box : Box μ) : Tick μ → Box μ
  | .arrive message => { box with waiting := box.waiting ++ [message] }
  | .ask =>
    match box.waiting with
    | [] => box
    | message :: rest => ⟨box.taken ++ [message], rest⟩

def after (ticks : List (Tick μ)) : Box μ := ticks.foldl Box.tick ⟨[], []⟩

theorem after_concat (ticks : List (Tick μ)) (t : Tick μ) :
    after (ticks ++ [t]) = (after ticks).tick t := by
  simp [after]

/-- What arrived is what was taken and, after it, what waits. -/
theorem arrived_eq (ticks : List (Tick μ)) :
    ticks.filterMap Tick.arrived = (after ticks).taken ++ (after ticks).waiting := by
  induction ticks using List.reverseRecOn with
  | nil => rfl
  | append_singleton ticks t ih =>
    rw [List.filterMap_append, ih, after_concat]
    cases t with
    | arrive message => simp [Box.tick, Tick.arrived]
    | ask =>
      cases hwaiting : (after ticks).waiting with
      | nil => simp [Box.tick, Tick.arrived, hwaiting]
      | cons message rest => simp [Box.tick, Tick.arrived, hwaiting]

/-- How much waits, by what came and what was asked from each point on. -/
theorem length_waiting_le (ticks : List (Tick μ)) (n : Nat) :
    (after ticks).waiting.length ≤ n ↔
      ∀ later, later <:+ ticks → later.countP Tick.arrives ≤ later.countP Tick.asks + n := by
  induction ticks using List.reverseRecOn generalizing n with
  | nil =>
    refine ⟨fun _ later hlater => ?_, fun _ => Nat.zero_le n⟩
    rw [List.suffix_nil.mp hlater]
    exact Nat.zero_le _
  | append_singleton ticks t ih =>
    -- a suffix is empty, or a suffix of what came before with the last tick
    have hsplit : (∀ later, later <:+ ticks ++ [t] →
          later.countP Tick.arrives ≤ later.countP Tick.asks + n) ↔
        ∀ later, later <:+ ticks →
          (later ++ [t]).countP Tick.arrives ≤ (later ++ [t]).countP Tick.asks + n := by
      constructor
      · rintro h later ⟨init, rfl⟩
        exact h _ ⟨init, by rw [List.append_assoc]⟩
      · intro h later hlater
        rcases List.suffix_concat_iff.mp (by simpa using hlater) with rfl | ⟨init, rfl, hinit⟩
        · exact Nat.zero_le _
        · simpa using h init hinit
    rw [hsplit, after_concat]
    cases t with
    | arrive message =>
      simp only [Box.tick, List.length_append, List.length_singleton, List.countP_append,
        List.countP_singleton, Tick.arrives, Tick.asks]
      cases n with
      | zero =>
        refine ⟨fun h => absurd h (by omega), fun h => ?_⟩
        have hnil := h [] (List.nil_suffix)
        simp at hnil
      | succ n =>
        rw [Nat.add_le_add_iff_right, ih]
        exact forall₂_congr fun later _ => by simp; omega
    | ask =>
      have hlength : ((after ticks).tick .ask).waiting.length = (after ticks).waiting.length - 1 := by
        cases hwaiting : (after ticks).waiting <;> simp [Box.tick, hwaiting]
      rw [hlength, Nat.sub_le_iff_le_add, ih]
      simp only [List.countP_append, List.countP_singleton, Tick.arrives, Tick.asks]
      exact forall₂_congr fun later _ => by simp; omega

/-- **Nothing waits** exactly when from every point on as much was asked for as arrived. -/
theorem waiting_eq_nil_iff (ticks : List (Tick μ)) :
    (after ticks).waiting = [] ↔
      ∀ later, later <:+ ticks → later.countP Tick.arrives ≤ later.countP Tick.asks := by
  rw [← List.length_eq_zero_iff, ← Nat.le_zero, length_waiting_le]
  rfl

end MarloweAgent.Library.Mailbox
