import MarloweAgent.Library.Fallible

/-! State-changing computations that always return, a bounded loop over them, and
the rules for what they keep. `R` is what a computation may do to the state: a
reflexive and transitive relation between the state before and the state after. -/

namespace MarloweAgent.Library

/-- A computation over a state `σ`. -/
structure Stateful (σ α : Type) where
  run : σ → α × σ

namespace Stateful

variable {σ α β γ : Type}

def andThen (m : Stateful σ α) (f : α → Stateful σ β) : Stateful σ β :=
  ⟨fun s => (f (m.run s).1).run (m.run s).2⟩

instance : Monad (Stateful σ) where
  pure a := ⟨fun s => (a, s)⟩
  bind := andThen

/-- The current state. -/
def read : Stateful σ σ := ⟨fun s => (s, s)⟩

def update (f : σ → σ) : Stateful σ Unit := ⟨fun s => ((), f s)⟩

/-- Run the body on each element in turn. -/
def each (body : α → Stateful σ Unit) : List α → Stateful σ Unit
  | [] => pure ()
  | a :: rest => do
    body a
    each body rest

/-- Run the body on each element in turn and keep what it returns. -/
def collect (body : α → Stateful σ β) : List α → Stateful σ (List β)
  | [] => pure []
  | a :: rest => do
    let b ← body a
    let bs ← collect body rest
    pure (b :: bs)

/-- Repeat the body until it returns a value, at most so many times. -/
def repeatUntil (body : Stateful σ (Option α)) (spentUp : Stateful σ α) : Nat → Stateful σ α
  | 0 => spentUp
  | n + 1 => do
    match ← body with
    | some a => pure a
    | none => repeatUntil body spentUp n

/-- What a computation that may stop early comes to, as one that always returns. -/
def outcome {ε : Type} (m : Fallible σ ε α) : Stateful σ (Except ε α) := ⟨m.run⟩

@[simp] theorem run_pure (a : α) (s : σ) : (pure a : Stateful σ α).run s = (a, s) := rfl

@[simp] theorem run_bind (m : Stateful σ α) (f : α → Stateful σ β) (s : σ) :
    (m >>= f).run s = (f (m.run s).1).run (m.run s).2 := rfl

@[simp] theorem run_read (s : σ) : (read : Stateful σ σ).run s = (s, s) := rfl

@[simp] theorem run_update (f : σ → σ) (s : σ) : (update f).run s = ((), f s) := rfl

@[simp] theorem run_ite {p : Prop} [Decidable p] (m n : Stateful σ α) (s : σ) :
    (if p then m else n).run s = if p then m.run s else n.run s := by
  split <;> rfl

/-! ## What a computation relates -/

/-- From every state, `m` ends in a state `R` allows. -/
def Within (R : σ → σ → Prop) (m : Stateful σ α) : Prop := ∀ s, R s (m.run s).2

section Rules

variable {R : σ → σ → Prop}

theorem Within.pure (refl : ∀ s, R s s) (a : α) : Within R (pure a : Stateful σ α) :=
  fun s => refl s

theorem Within.bind (trans : ∀ s t u, R s t → R t u → R s u) {m : Stateful σ α}
    {f : α → Stateful σ β} (hm : Within R m) (hf : ∀ a, Within R (f a)) :
    Within R (m >>= f) :=
  fun s => trans _ _ _ (hm s) (hf _ _)

/-- Reading the state first: the rest may be judged at that very state. -/
theorem Within.read_bind {f : σ → Stateful σ β} (h : ∀ s, R s ((f s).run s).2) :
    Within R (Stateful.read >>= f) := h

theorem Within.each (refl : ∀ s, R s s) (trans : ∀ s t u, R s t → R t u → R s u)
    {body : α → Stateful σ Unit} (h : ∀ a, Within R (body a)) (items : List α) :
    Within R (Stateful.each body items) := by
  induction items with
  | nil => exact Within.pure refl ()
  | cons a rest ih => exact Within.bind trans (h a) fun _ => ih

theorem Within.repeatUntil (trans : ∀ s t u, R s t → R t u → R s u)
    {body : Stateful σ (Option α)} {spentUp : Stateful σ α} (hb : Within R body)
    (hs : Within R spentUp) (n : Nat) : Within R (Stateful.repeatUntil body spentUp n) := by
  induction n with
  | zero => exact hs
  | succ n ih =>
    intro s
    simp only [Stateful.repeatUntil, run_bind]
    cases (body.run s).1 with
    | some a => exact hb s
    | none => exact trans _ _ _ (hb s) (ih _)

/-- A bounded loop whose body, while `P` holds, uses up something each time it goes
round: with a bound above what is left, the loop stays within `R` whatever it would
do when the bound is spent. -/
theorem repeatUntil_at (trans : ∀ s t u, R s t → R t u → R s u) {P : σ → Prop}
    (keep : ∀ s t, R s t → P s → P t) {body : Stateful σ (Option α)} {spentUp : Stateful σ α}
    {f : σ → Nat} (hb : ∀ s, P s → R s (body.run s).2)
    (hless : ∀ s, P s → (body.run s).1 = none → f (body.run s).2 < f s) (n : Nat) :
    ∀ s, P s → f s < n → R s ((Stateful.repeatUntil body spentUp n).run s).2 := by
  induction n with
  | zero =>
    intro s _ hs
    omega
  | succ n ih =>
    intro s hp hs
    simp only [Stateful.repeatUntil, run_bind]
    cases h : (body.run s).1 with
    | some a => exact hb s hp
    | none =>
      have := hless s hp h
      exact trans _ _ _ (hb s hp) (ih _ (keep _ _ (hb s hp) hp) (by omega))

/-- A bounded loop returns what its body returned when it went round for the last time, or
what comes when the bound is spent. -/
theorem repeatUntil_returns (refl : ∀ s, R s s) (trans : ∀ s t u, R s t → R t u → R s u)
    {P : σ → Prop} (keep : ∀ s t, R s t → P s → P t) {body : Stateful σ (Option α)}
    {spentUp : Stateful σ α} (hb : ∀ s, P s → R s (body.run s).2) (n : Nat) (s : σ) (hs : P s) :
    ∃ t, R s t ∧ P t ∧
      ((body.run t).1 = some ((Stateful.repeatUntil body spentUp n).run s).1 ∧
          (body.run t).2 = ((Stateful.repeatUntil body spentUp n).run s).2 ∨
        spentUp.run t = (Stateful.repeatUntil body spentUp n).run s) := by
  induction n generalizing s with
  | zero => exact ⟨s, refl s, hs, .inr rfl⟩
  | succ n ih =>
    simp only [Stateful.repeatUntil, run_bind]
    cases h : (body.run s).1 with
    | some a => exact ⟨s, refl s, hs, .inl ⟨h, rfl⟩⟩
    | none =>
      obtain ⟨t, hst, ht, hreturned⟩ := ih _ (keep _ _ (hb s hs) hs)
      exact ⟨t, trans _ _ _ (hb s hs) hst, ht, hreturned⟩

end Rules

/-! ## Before and after -/

/-- From a state where `P` holds, `m` ends with a value and a state where `Q` does. -/
def Triple (P : σ → Prop) (m : Stateful σ α) (Q : α → σ → Prop) : Prop :=
  ∀ s, P s → Q (m.run s).1 (m.run s).2

section Triples

variable {P P' : σ → Prop} {Q Q' : α → σ → Prop}

theorem Triple.bind {m : Stateful σ α} {f : α → Stateful σ β} {T : β → σ → Prop}
    (hm : Triple P m Q) (hf : ∀ a, Triple (Q a) (f a) T) : Triple P (m >>= f) T :=
  fun s hs => hf _ _ (hm s hs)

/-- Nothing is asked of the first part. -/
theorem Triple.bind_right {m : Stateful σ α} {f : α → Stateful σ β} {T : β → σ → Prop}
    (hf : ∀ a, Triple (fun _ => True) (f a) T) : Triple P (m >>= f) T :=
  fun _ _ => hf _ _ trivial

theorem Triple.pure {a : α} (h : ∀ s, P s → Q a s) : Triple P (pure a : Stateful σ α) Q :=
  fun s hs => h s hs

/-- What every change `R` allows keeps, a computation within `R` keeps. -/
theorem Within.triple {R : σ → σ → Prop} {m : Stateful σ α} (h : Within R m)
    (keep : ∀ s t, R s t → P s → P t) : Triple P m fun _ => P :=
  fun s hs => keep _ _ (h s) hs

end Triples

/-! ## What a computation relates, under a precondition -/

/-- From every state where `A` holds, `m` ends in a state `R` allows. -/
def Under (A : σ → Prop) (R : σ → σ → Prop) (m : Stateful σ α) : Prop :=
  ∀ s, A s → R s (m.run s).2

section Preconditions

variable {A B : σ → Prop} {R : σ → σ → Prop}

theorem Within.under {m : Stateful σ α} (h : Within R m) : Under A R m := fun s _ => h s

theorem Under.bind (trans : ∀ s t u, R s t → R t u → R s u) {m : Stateful σ α}
    {f : α → Stateful σ β} (hm : Under A R m) (next : Triple A m fun _ => B)
    (hf : ∀ a, Under B R (f a)) : Under A R (m >>= f) :=
  fun s hs => trans _ _ _ (hm s hs) (hf _ _ (next s hs))

theorem Under.triple {m : Stateful σ α} (h : Under A R m) (next : ∀ s t, R s t → A s → B t) :
    Triple A m fun _ => B :=
  fun s hs => next _ _ (h s hs) hs

theorem Under.each (refl : ∀ s, R s s) (trans : ∀ s t u, R s t → R t u → R s u)
    (keep : ∀ s t, R s t → A s → A t) {body : α → Stateful σ Unit} (items : List α)
    (h : ∀ a ∈ items, Under A R (body a)) : Under A R (Stateful.each body items) := by
  induction items with
  | nil => exact fun s _ => refl s
  | cons a rest ih =>
    have ha := h a List.mem_cons_self
    exact Under.bind trans ha (ha.triple keep) fun _ =>
      ih fun b hb => h b (List.mem_cons_of_mem _ hb)

end Preconditions

end Stateful

namespace Fallible

variable {σ ε α β : Type} {R : σ → σ → Prop}

/-- A computation that always returns, among those that may stop early. -/
def lift (m : Stateful σ α) : Fallible σ ε α := ⟨fun s => (.ok (m.run s).1, (m.run s).2)⟩

theorem lift_bind_run (m : Stateful σ α) (f : α → Fallible σ ε β) (s : σ) :
    (lift m >>= f).run s = (f (m.run s).1).run (m.run s).2 := rfl

theorem Within.lift {m : Stateful σ α} (h : Stateful.Within R m) :
    Within R (lift m : Fallible σ ε α) := h

end Fallible

end MarloweAgent.Library
