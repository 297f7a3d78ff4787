import Mathlib.Data.List.Basic

/-! State-changing computations that may fail, and the rules for what they keep.
A failure does not undo the changes made before it: that is what an early return
does to state that is mutated in place. -/

namespace MarloweAgent.Library

/-- A computation over a state `σ` that returns a value or fails. -/
structure Fallible (σ ε α : Type) where
  run : σ → Except ε α × σ

namespace Fallible

variable {σ ε α β : Type}

/-- Run `f` on the value of `m`; a failure of `m` ends the run where it stands. -/
def andThen (m : Fallible σ ε α) (f : α → Fallible σ ε β) : Fallible σ ε β :=
  ⟨fun s =>
    match m.run s with
    | (.ok a, s') => (f a).run s'
    | (.error e, s') => (.error e, s')⟩

instance : Monad (Fallible σ ε) where
  pure a := ⟨fun s => (.ok a, s)⟩
  bind := andThen

/-- Stop with an error. -/
def fail (e : ε) : Fallible σ ε α := ⟨fun s => (.error e, s)⟩

/-- The current state. -/
def read : Fallible σ ε σ := ⟨fun s => (.ok s, s)⟩

/-- Change the state; this cannot fail. -/
def update (f : σ → σ) : Fallible σ ε Unit := ⟨fun s => (.ok (), f s)⟩

/-- Run the body on each element in turn. -/
def each (body : α → Fallible σ ε Unit) : List α → Fallible σ ε Unit
  | [] => pure ()
  | a :: rest => do
    body a
    each body rest

theorem bind_ok {m : Fallible σ ε α} {f : α → Fallible σ ε β} {s s' : σ} {a : α}
    (h : m.run s = (.ok a, s')) : (m >>= f).run s = (f a).run s' := by
  change (andThen m f).run s = _
  simp [andThen, h]

theorem bind_error {m : Fallible σ ε α} {f : α → Fallible σ ε β} {s s' : σ} {e : ε}
    (h : m.run s = (.error e, s')) : (m >>= f).run s = (.error e, s') := by
  change (andThen m f).run s = _
  simp [andThen, h]

theorem bind_assoc {γ : Type} (m : Fallible σ ε α) (f : α → Fallible σ ε β)
    (g : β → Fallible σ ε γ) : (m >>= f) >>= g = m >>= fun a => f a >>= g := by
  refine congrArg Fallible.mk (funext fun s => ?_)
  show ((m >>= f) >>= g).run s = (m >>= fun a => f a >>= g).run s
  rcases h : m.run s with ⟨e | a, s'⟩
  · rw [bind_error h, bind_error (bind_error h)]
  · rw [bind_ok h]
    show (andThen (m >>= f) g).run s = (andThen (f a) g).run s'
    simp only [andThen, bind_ok h]

theorem read_bind_run (f : σ → Fallible σ ε β) (s : σ) :
    ((read : Fallible σ ε σ) >>= f).run s = (f s).run s := rfl

/-! ## What a computation relates -/

/-- From every state, `m` ends, well or badly, in a state `R` allows. -/
def Within (R : σ → σ → Prop) (m : Fallible σ ε α) : Prop := ∀ s, R s (m.run s).2

section Rules

variable {R : σ → σ → Prop}

theorem Within.pure (refl : ∀ s, R s s) (a : α) : Within R (pure a : Fallible σ ε α) :=
  fun s => refl s

/-- The bind rule at one state: the continuation may use what the first part did there. -/
theorem bind_at {m : Fallible σ ε α} {f : α → Fallible σ ε β} {s : σ}
    (hm : R s (m.run s).2)
    (hf : ∀ a s', m.run s = (.ok a, s') → R s s' → R s ((f a).run s').2) :
    R s ((m >>= f).run s).2 := by
  cases h : m.run s with
  | mk result s' =>
    rw [h] at hm
    cases result with
    | ok a =>
      rw [bind_ok h]
      exact hf a s' h hm
    | error e =>
      rw [bind_error h]
      exact hm

theorem Within.fail (refl : ∀ s, R s s) (e : ε) : Within R (fail e : Fallible σ ε α) :=
  fun s => refl s

theorem Within.bind (trans : ∀ s t u, R s t → R t u → R s u) {m : Fallible σ ε α}
    {f : α → Fallible σ ε β} (hm : Within R m) (hf : ∀ a, Within R (f a)) :
    Within R (m >>= f) :=
  fun s => bind_at (hm s) fun a s' _ hs => trans _ _ _ hs (hf a s')

/-- Reading the state first: the rest may be judged at that very state. -/
theorem Within.read_bind {f : σ → Fallible σ ε β} (h : ∀ s, R s ((f s).run s).2) :
    Within R (read >>= f) := by
  intro s
  rw [read_bind_run]
  exact h s

/-- A loop whose body is only known to behave while `P` holds of the state, where
`R` itself keeps `P`. -/
theorem each_at {P : α → σ → Prop} (refl : ∀ s, R s s)
    (trans : ∀ s t u, R s t → R t u → R s u) {body : α → Fallible σ ε Unit}
    (keep : ∀ a s t, R s t → P a s → P a t)
    (h : ∀ a s, P a s → R s ((body a).run s).2) (items : List α) (s : σ)
    (hs : ∀ a ∈ items, P a s) : R s ((each body items).run s).2 := by
  induction items generalizing s with
  | nil => exact refl s
  | cons a rest ih =>
    refine bind_at (h a s (hs a List.mem_cons_self)) fun _ s' _ hR => ?_
    exact trans _ _ _ hR (ih s' fun b hb => keep b s s' hR (hs b (List.mem_cons_of_mem _ hb)))

theorem Within.each (refl : ∀ s, R s s) (trans : ∀ s t u, R s t → R t u → R s u)
    {body : α → Fallible σ ε Unit} {items : List α} (h : ∀ a ∈ items, Within R (body a)) :
    Within R (each body items) :=
  fun s => each_at (P := fun a _ => a ∈ items) refl trans (fun _ _ _ _ ha => ha)
    (fun a s ha => h a ha s) items s fun _ ha => ha

end Rules

end Fallible

end MarloweAgent.Library
