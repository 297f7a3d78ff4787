import MarloweAgent.Library.OrderedMap
import Mathlib.Data.List.Basic
import Mathlib.Data.List.Induction

/-! A log of records that each carry a key, read for its last record of a key: by
looking back from the end, or by folding the log into a map that every record
overwrites. The two readings agree. -/

namespace MarloweAgent.Library.KeyedLog

variable {α κ : Type*} [LinearOrder κ] {key : α → κ} {k : κ} {log more : List α}

/-- The last record of a key, from the end backwards. -/
def lastOf (key : α → κ) (k : κ) (log : List α) : Option α := log.reverse.find? (key · = k)

/-- One entry for each key, each record replacing the one before it. -/
def lastPerKey (key : α → κ) (log : List α) : OrderedMap κ α :=
  log.foldl (fun m a => m.insert (key a) a) OrderedMap.empty

@[simp] theorem lastOf_nil : lastOf key k [] = none := rfl

@[simp] theorem lastOf_snoc_self {a : α} (h : key a = k) : lastOf key k (log ++ [a]) = some a := by
  simp [lastOf, h]

@[simp] theorem lastOf_snoc_ne {a : α} (h : key a ≠ k) :
    lastOf key k (log ++ [a]) = lastOf key k log := by
  simp [lastOf, h]

theorem key_of_lastOf {a : α} (h : lastOf key k log = some a) : key a = k := by
  simpa using List.find?_some h

theorem lastPerKey_snoc {a : α} :
    lastPerKey key (log ++ [a]) = (lastPerKey key log).insert (key a) a := by
  simp [lastPerKey]

/-- The two readings of a log agree. -/
theorem get?_lastPerKey : (lastPerKey key log).get? k = lastOf key k log := by
  induction log using List.reverseRecOn with
  | nil => rfl
  | append_singleton log a ih =>
    rw [lastPerKey_snoc, OrderedMap.get?_insert]
    by_cases h : key a = k
    · rw [if_pos h, lastOf_snoc_self h]
    · rw [if_neg h, lastOf_snoc_ne h, ih]

/-- Each entry is filed under its own key, so it can be found among the values. -/
theorem find?_values_lastPerKey :
    (lastPerKey key log).values.find? (key · = k) = lastOf key k log := by
  have hfiled : ∀ p ∈ (lastPerKey key log).bindings, key p.2 = p.1 := by
    rintro ⟨k', a⟩ hmem
    have hget := (lastPerKey key log).get?_of_mem_bindings hmem
    rw [get?_lastPerKey] at hget
    exact key_of_lastOf hget
  rw [← get?_lastPerKey]
  unfold OrderedMap.values OrderedMap.get?
  generalize (lastPerKey key log).bindings = bindings at hfiled
  induction bindings with
  | nil => rfl
  | cons p rest ih =>
    have hp := hfiled p List.mem_cons_self
    have hrest := ih fun q hq => hfiled q (List.mem_cons_of_mem _ hq)
    simp only [List.map_cons, List.find?_cons, OrderedMap.lookupIn, hp]
    by_cases h : p.1 = k
    · simp [h]
    · simpa [h] using hrest

end MarloweAgent.Library.KeyedLog

/-! ## The last match

The last element of a list that a partial function picks, with what stands before and
after it, and the changes that are made to the end of a list. -/

namespace MarloweAgent.Library

variable {α β : Type*}

/-- The last element `f` picks. -/
def splitLast (f : α → Option β) : List α → Option (List α × β × List α)
  | [] => none
  | a :: rest =>
    match splitLast f rest with
    | some (before, b, after) => some (a :: before, b, after)
    | none => (f a).map fun b => ([], b, rest)

variable {f : α → Option β} {l before after : List α} {a : α} {b : β}

theorem splitLast_cons (a : α) (rest : List α) :
    splitLast f (a :: rest) =
      match splitLast f rest with
      | some (before, b, after) => some (a :: before, b, after)
      | none => (f a).map fun b => ([], b, rest) := rfl

theorem splitLast_eq_none : splitLast f l = none ↔ ∀ a ∈ l, f a = none := by
  induction l with
  | nil => exact iff_of_true rfl fun _ ha => absurd ha List.not_mem_nil
  | cons a rest ih =>
    rw [splitLast_cons]
    cases h : splitLast f rest with
    | none =>
      rw [Option.map_eq_none_iff, List.forall_mem_cons]
      exact ⟨fun ha => ⟨ha, ih.mp h⟩, And.left⟩
    | some split =>
      have hsome : ¬ ∀ a ∈ rest, f a = none := fun hall => by simp [ih.mpr hall] at h
      simp only [reduceCtorEq, false_iff]
      exact fun hall => hsome fun a ha => hall a (List.mem_cons_of_mem _ ha)

theorem splitLast_eq_some (h : splitLast f l = some (before, b, after)) :
    ∃ a, l = before ++ a :: after ∧ f a = some b ∧ ∀ x ∈ after, f x = none := by
  induction l generalizing before with
  | nil => cases h
  | cons a rest ih =>
    rw [splitLast_cons] at h
    cases hrest : splitLast f rest with
    | some found =>
      rw [hrest] at h
      cases h
      obtain ⟨x, rfl, hx, hafter⟩ := ih hrest
      exact ⟨x, rfl, hx, hafter⟩
    | none =>
      rw [hrest] at h
      obtain ⟨b', hb', hsplit⟩ := Option.map_eq_some_iff.mp h
      cases hsplit
      exact ⟨a, rfl, hb', splitLast_eq_none.mp hrest⟩

theorem splitLast_append_some (h : splitLast f l = some (before, b, after)) (init : List α) :
    splitLast f (init ++ l) = some (init ++ before, b, after) := by
  induction init with
  | nil => exact h
  | cons x init ih => rw [List.cons_append, splitLast_cons, ih, List.cons_append]

theorem splitLast_append_none (h : splitLast f l = none) (init : List α) :
    splitLast f (init ++ l) = (splitLast f init).map fun s => (s.1, s.2.1, s.2.2 ++ l) := by
  induction init with
  | nil => exact h
  | cons x init ih =>
    rw [List.cons_append, splitLast_cons, splitLast_cons, ih]
    cases splitLast f init with
    | some s => rfl
    | none => cases f x <;> rfl

/-- A change of the elements that `f` follows. -/
theorem splitLast_map {g : α → α} {h : β → β} (hfg : ∀ a, f (g a) = (f a).map h) (l : List α) :
    splitLast f (l.map g) = (splitLast f l).map fun s => (s.1.map g, h s.2.1, s.2.2.map g) := by
  induction l with
  | nil => rfl
  | cons a rest ih =>
    rw [List.map_cons, splitLast_cons, splitLast_cons, ih]
    cases hrest : splitLast f rest with
    | some split => rfl
    | none => cases ha : f a <;> simp [hfg, ha]

/-! ## The end of a list -/

/-- Change the last element if `f` says how, else add `a`. -/
def onLast (f : α → Option α) (a : α) (l : List α) : List α :=
  match l.getLast?.bind f with
  | some changed => l.dropLast ++ [changed]
  | none => l ++ [a]

theorem onLast_concat_some {g : α → Option α} {x y : α} (h : g x = some y) (a : α) (l : List α) :
    onLast g a (l ++ [x]) = l ++ [y] := by
  simp [onLast, h]

theorem onLast_none {g : α → Option α} (h : l.getLast?.bind g = none) (a : α) :
    onLast g a l = l ++ [a] := by
  simp [onLast, h]

/-- The last element is changed, or there is one more. -/
theorem onLast_cases (g : α → Option α) (a : α) (l : List α) :
    (∃ init x y, l = init ++ [x] ∧ g x = some y ∧ onLast g a l = init ++ [y]) ∨
      (l.getLast?.bind g = none ∧ onLast g a l = l ++ [a]) := by
  cases hl : l.getLast?.bind g with
  | none => exact .inr ⟨rfl, onLast_none hl a⟩
  | some y =>
    obtain ⟨x, hx, hy⟩ := Option.bind_eq_some_iff.mp hl
    obtain ⟨init, rfl⟩ := List.getLast?_eq_some_iff.mp hx
    exact .inl ⟨init, x, y, rfl, hy, onLast_concat_some hy a init⟩

end MarloweAgent.Library

/-! ## Derived views

Views derived from an event log. The log is the authority; a live view agrees
with it when replaying the log from the start gives exactly that view. -/

namespace MarloweAgent.Library

/-- How one event changes a view, or why it cannot be applied. -/
structure DerivedView (S E ε : Type) where
  initial : S
  apply : S → E → Except ε S

namespace DerivedView

variable {S E ε : Type} (view : DerivedView S E ε)

/-- Replay a log from the initial view; the first inapplicable event ends it. -/
def derive (log : List E) : Except ε S := log.foldlM view.apply view.initial

def Agrees (log : List E) (live : S) : Prop := view.derive log = .ok live

/-- A writer that appends one event and applies that event to the live view
keeps the two in agreement. -/
theorem Agrees.snoc {view : DerivedView S E ε} {log : List E} {live live' : S} {e : E}
    (h : view.Agrees log live) (he : view.apply live e = .ok live') :
    view.Agrees (log ++ [e]) live' := by
  have hlog : log.foldlM view.apply view.initial = .ok live := h
  change (log ++ [e]).foldlM view.apply view.initial = .ok live'
  rw [List.foldlM_append, hlog]
  change [e].foldlM view.apply live = .ok live'
  simp [List.foldlM, he]

/-- An event the view ignores may be appended freely. -/
theorem Agrees.snoc_ignored {view : DerivedView S E ε} {log : List E} {live : S} {e : E}
    (h : view.Agrees log live) (he : view.apply live e = .ok live) :
    view.Agrees (log ++ [e]) live :=
  h.snoc he

/-- A log that replays to its last event replays up to it. -/
theorem derive_snoc {log : List E} {e : E} {last : S} (h : view.derive (log ++ [e]) = .ok last) :
    ∃ before, view.derive log = .ok before ∧ view.apply before e = .ok last := by
  simp only [derive, List.foldlM_append] at h
  cases hlog : log.foldlM view.apply view.initial with
  | error err =>
    rw [hlog] at h
    cases h
  | ok before =>
    rw [hlog] at h
    refine ⟨before, hlog, ?_⟩
    cases happly : view.apply before e with
    | error err =>
      simp only [bind, Except.bind, List.foldlM, happly] at h
      cases h
    | ok last' =>
      simp only [bind, Except.bind, List.foldlM, happly, pure, Except.pure] at h
      exact h

/-- What one event relates, a run of events relates. -/
theorem derive_related {R : S → S → Prop} (refl : ∀ s, R s s)
    (trans : ∀ s t u, R s t → R t u → R s u) {log : List E} {before : S}
    (hlog : view.derive log = .ok before) (rest : List E)
    (step : ∀ pre e post s t, rest = pre ++ e :: post → view.derive (log ++ pre) = .ok s →
      view.apply s e = .ok t → R s t) {last : S}
    (h : view.derive (log ++ rest) = .ok last) : R before last := by
  induction rest using List.reverseRecOn generalizing last with
  | nil =>
    rw [List.append_nil] at h
    rw [← Except.ok.inj (hlog.symm.trans h)]
    exact refl before
  | append_singleton rest e ih =>
    rw [← List.append_assoc] at h
    obtain ⟨mid, hmid, happly⟩ := view.derive_snoc h
    refine trans _ _ _ (ih (fun pre e' post s t hrest => ?_) hmid)
      (step rest e [] mid last rfl hmid happly)
    exact step pre e' (post ++ [e]) s t (by rw [hrest]; simp)

theorem Agrees.unique {view : DerivedView S E ε} {log : List E} {a b : S}
    (ha : view.Agrees log a) (hb : view.Agrees log b) : a = b :=
  Except.ok.inj (ha.symm.trans hb)

end DerivedView

end MarloweAgent.Library
