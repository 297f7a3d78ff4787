import Mathlib.Data.List.Basic
import Mathlib.Order.Defs.LinearOrder
import Mathlib.Order.Lattice

/-! Finite maps kept as a key-sorted list, so that iteration order is key order.
The sortedness proof travels with the map: two maps that answer every lookup
alike are equal, whatever writes produced them. -/

namespace MarloweAgent.Library

/-- A finite map whose bindings are listed in strictly increasing key order. -/
structure OrderedMap (κ β : Type*) [LinearOrder κ] where
  bindings : List (κ × β)
  sorted : bindings.Pairwise (fun a b => a.1 < b.1)

namespace OrderedMap

variable {κ β γ : Type*} [LinearOrder κ]

def empty : OrderedMap κ β := ⟨[], List.Pairwise.nil⟩

/-- The binding of one key in a list of bindings. -/
def lookupIn (k : κ) : List (κ × β) → Option β
  | [] => none
  | (k', v) :: rest => if k' = k then some v else lookupIn k rest

def get? (m : OrderedMap κ β) (k : κ) : Option β := lookupIn k m.bindings

def insertIn (k : κ) (v : β) : List (κ × β) → List (κ × β)
  | [] => [(k, v)]
  | (k', v') :: rest =>
    if k < k' then (k, v) :: (k', v') :: rest
    else if k' = k then (k, v) :: rest
    else (k', v') :: insertIn k v rest

theorem mem_insertIn {k : κ} {v : β} {a : κ × β} {l : List (κ × β)}
    (h : a ∈ insertIn k v l) : a = (k, v) ∨ a ∈ l := by
  induction l with
  | nil => simpa [insertIn] using h
  | cons p rest ih =>
    obtain ⟨k', v'⟩ := p
    simp only [insertIn] at h
    split at h
    · simpa using h
    · split at h
      · rcases List.mem_cons.mp h with h | h
        · exact .inl h
        · exact .inr (List.mem_cons_of_mem _ h)
      · rcases List.mem_cons.mp h with h | h
        · exact .inr (h ▸ List.mem_cons_self)
        · exact (ih h).imp_right (List.mem_cons_of_mem _)

theorem insertIn_sorted (k : κ) (v : β) {l : List (κ × β)}
    (h : l.Pairwise (fun a b => a.1 < b.1)) :
    (insertIn k v l).Pairwise (fun a b => a.1 < b.1) := by
  induction l with
  | nil => simp [insertIn]
  | cons p rest ih =>
    obtain ⟨k', v'⟩ := p
    obtain ⟨hp, hr⟩ := List.pairwise_cons.mp h
    simp only [insertIn]
    split
    · rename_i hlt
      refine List.pairwise_cons.mpr ⟨fun a ha => ?_, h⟩
      rcases List.mem_cons.mp ha with rfl | ha
      · exact hlt
      · exact lt_trans hlt (hp a ha)
    · rename_i hge
      split
      · rename_i heq
        exact List.pairwise_cons.mpr ⟨fun a ha => heq ▸ hp a ha, hr⟩
      · rename_i hne
        refine List.pairwise_cons.mpr ⟨fun a ha => ?_, ih hr⟩
        rcases mem_insertIn ha with rfl | ha
        · exact lt_of_le_of_ne (not_lt.mp hge) hne
        · exact hp a ha

/-- Bind `k` to `v`, replacing what `k` was bound to. -/
def insert (m : OrderedMap κ β) (k : κ) (v : β) : OrderedMap κ β :=
  ⟨insertIn k v m.bindings, insertIn_sorted k v m.sorted⟩

/-- Change the value of one key in place; nothing happens when it is unbound. -/
def modify (m : OrderedMap κ β) (k : κ) (f : β → β) : OrderedMap κ β :=
  ⟨m.bindings.map (fun p => if p.1 = k then (p.1, f p.2) else p), by
    refine List.pairwise_map.mpr (m.sorted.imp ?_)
    intro a b hab
    split <;> split <;> exact hab⟩

/-- Drop the binding of one key. -/
def erase (m : OrderedMap κ β) (k : κ) : OrderedMap κ β :=
  ⟨m.bindings.filter (fun p => p.1 ≠ k), m.sorted.filter _⟩

/-- Keep the bindings whose key satisfies `p`. -/
def retain (m : OrderedMap κ β) (p : κ → Bool) : OrderedMap κ β :=
  ⟨m.bindings.filter (fun b => p b.1), m.sorted.filter _⟩

def keys (m : OrderedMap κ β) : List κ := m.bindings.map Prod.fst

def values (m : OrderedMap κ β) : List β := m.bindings.map Prod.snd

/-! ## Lookups after a write -/

@[simp] theorem get?_empty (k : κ) : (empty : OrderedMap κ β).get? k = none := rfl

theorem lookupIn_insertIn (k k' : κ) (v : β) (l : List (κ × β))
    (h : l.Pairwise (fun a b => a.1 < b.1)) :
    lookupIn k' (insertIn k v l) = if k = k' then some v else lookupIn k' l := by
  induction l with
  | nil => rfl
  | cons p rest ih =>
    obtain ⟨a, w⟩ := p
    have hr := (List.pairwise_cons.mp h).2
    simp only [insertIn]
    split
    · rfl
    · split
      · rename_i heq
        subst heq
        by_cases hk : a = k' <;> simp [lookupIn, hk]
      · rename_i hne
        by_cases hk : a = k'
        · subst hk
          simp [lookupIn, Ne.symm hne]
        · simp only [lookupIn, hk, if_false]
          exact ih hr

theorem get?_insert (m : OrderedMap κ β) (k k' : κ) (v : β) :
    (m.insert k v).get? k' = if k = k' then some v else m.get? k' :=
  lookupIn_insertIn k k' v m.bindings m.sorted

@[simp] theorem get?_insert_self (m : OrderedMap κ β) (k : κ) (v : β) :
    (m.insert k v).get? k = some v := by
  simp [get?_insert]

theorem get?_modify (m : OrderedMap κ β) (k k' : κ) (f : β → β) :
    (m.modify k f).get? k' = if k = k' then (m.get? k').map f else m.get? k' := by
  obtain ⟨l, hl⟩ := m
  simp only [get?, modify]
  clear hl
  induction l with
  | nil => simp [lookupIn]
  | cons p rest ih =>
    obtain ⟨a, w⟩ := p
    by_cases hk : a = k'
    · subst hk
      by_cases ha : a = k
      · simp [lookupIn, ha]
      · simp [lookupIn, ha, Ne.symm ha]
    · by_cases ha : a = k
      · subst ha
        simpa [lookupIn, hk] using ih
      · simpa [lookupIn, ha, hk] using ih

theorem get?_erase (m : OrderedMap κ β) (k k' : κ) :
    (m.erase k).get? k' = if k = k' then none else m.get? k' := by
  obtain ⟨l, hl⟩ := m
  simp only [get?, erase]
  clear hl
  induction l with
  | nil => simp [lookupIn]
  | cons p rest ih =>
    obtain ⟨a, w⟩ := p
    by_cases ha : a = k
    · by_cases hk : k = k'
      · simpa [ha, hk] using ih
      · simpa [ha, hk, lookupIn] using ih
    · by_cases hk : a = k'
      · subst hk
        simp [lookupIn, ha, Ne.symm ha]
      · simpa [lookupIn, ha, hk] using ih

theorem get?_retain (m : OrderedMap κ β) (p : κ → Bool) (k : κ) :
    (m.retain p).get? k = if p k then m.get? k else none := by
  obtain ⟨l, hl⟩ := m
  simp only [get?, retain]
  clear hl
  induction l with
  | nil => simp [lookupIn]
  | cons b rest ih =>
    obtain ⟨a, w⟩ := b
    by_cases hk : a = k
    · subst hk
      by_cases hp : p a = true
      · simp [hp, lookupIn]
      · simpa [hp] using ih
    · by_cases hp : p a = true
      · simpa [hp, lookupIn, hk] using ih
      · simpa [hp, lookupIn, hk] using ih

/-- Bind each pair in turn, where the value is decided by the key. -/
theorem get?_foldl_insert (f : κ → Option β) {pairs : List (κ × β)}
    (h : ∀ p ∈ pairs, f p.1 = some p.2) (m : OrderedMap κ β) (k : κ) :
    (pairs.foldl (fun m p => m.insert p.1 p.2) m).get? k =
      if k ∈ pairs.map Prod.fst then f k else m.get? k := by
  induction pairs generalizing m with
  | nil => simp
  | cons p rest ih =>
    rw [List.foldl_cons, ih (fun q hq => h q (List.mem_cons_of_mem _ hq)), get?_insert]
    by_cases hk : k = p.1
    · subst hk
      simp [h p List.mem_cons_self]
    · simp only [List.map_cons, List.mem_cons, hk, Ne.symm hk, if_false, false_or]

/-- Collect the elements under each key, in turn. -/
theorem get?_foldl_collect (pairs : List (γ × κ)) (m : OrderedMap κ (List γ)) (k : κ) :
    ((pairs.foldl (fun m p => m.insert p.2 ((m.get? p.2).getD [] ++ [p.1])) m).get? k).getD [] =
      (m.get? k).getD [] ++ (pairs.filter (·.2 = k)).map Prod.fst := by
  induction pairs generalizing m with
  | nil => simp
  | cons p rest ih =>
    rw [List.foldl_cons, ih, get?_insert]
    by_cases hk : p.2 = k
    · subst hk
      simp
    · simp [hk]

/-- A key is there once something was collected under it. -/
theorem isSome_get?_foldl_collect (pairs : List (γ × κ)) (m : OrderedMap κ (List γ)) (k : κ) :
    ((pairs.foldl (fun m p => m.insert p.2 ((m.get? p.2).getD [] ++ [p.1])) m).get? k).isSome ↔
      (m.get? k).isSome ∨ ∃ p ∈ pairs, p.2 = k := by
  induction pairs generalizing m with
  | nil => simp
  | cons p rest ih =>
    rw [List.foldl_cons, ih, get?_insert]
    by_cases hk : p.2 = k
    · simp [hk]
    · simp [hk]

theorem get?_erase_self (m : OrderedMap κ β) (k : κ) : (m.erase k).get? k = none := by
  simp [get?_erase]

@[simp] theorem erase_erase (m : OrderedMap κ β) (k : κ) : (m.erase k).erase k = m.erase k := by
  simp [erase, List.filter_filter]

theorem modify_of_get?_none (m : OrderedMap κ β) (k : κ) (f : β → β) (h : m.get? k = none) :
    m.modify k f = m := by
  obtain ⟨l, hl⟩ := m
  have hmap : l.map (fun p => if p.1 = k then (p.1, f p.2) else p) = l := by
    simp only [get?] at h
    clear hl
    induction l with
    | nil => rfl
    | cons p rest ih =>
      obtain ⟨a, w⟩ := p
      by_cases ha : a = k
      · simp [lookupIn, ha] at h
      · simp only [lookupIn, ha, if_false] at h
        simp [ha, ih h]
  simp only [modify]
  congr

/-! ## The keys -/

theorem mem_keys_iff (m : OrderedMap κ β) (k : κ) : k ∈ m.keys ↔ (m.get? k).isSome := by
  obtain ⟨l, hl⟩ := m
  simp only [keys, get?]
  clear hl
  induction l with
  | nil => simp [lookupIn]
  | cons p rest ih =>
    obtain ⟨a, w⟩ := p
    simp only [List.map_cons, List.mem_cons, lookupIn, ih]
    by_cases ha : a = k
    · simp [ha]
    · simp [ha, Ne.symm ha]

theorem keys_nodup (m : OrderedMap κ β) : m.keys.Nodup :=
  List.pairwise_map.mpr (m.sorted.imp fun h => ne_of_lt h)

/-! ## Values and the bindings they come from -/

theorem get?_of_mem_bindings (m : OrderedMap κ β) {k : κ} {v : β} (h : (k, v) ∈ m.bindings) :
    m.get? k = some v := by
  obtain ⟨l, hl⟩ := m
  simp only [get?]
  simp only at h
  induction l with
  | nil => simp at h
  | cons p rest ih =>
    obtain ⟨a, w⟩ := p
    obtain ⟨hp, hr⟩ := List.pairwise_cons.mp hl
    rcases List.mem_cons.mp h with h | h
    · cases h
      simp [lookupIn]
    · have hak : a ≠ k := ne_of_lt (hp _ h)
      simp only [lookupIn, hak, if_false]
      exact ih hr h

theorem mem_bindings_of_get? (m : OrderedMap κ β) {k : κ} {v : β} (h : m.get? k = some v) :
    (k, v) ∈ m.bindings := by
  obtain ⟨l, hl⟩ := m
  simp only [get?] at h ⊢
  clear hl
  induction l with
  | nil => simp [lookupIn] at h
  | cons p rest ih =>
    obtain ⟨a, w⟩ := p
    by_cases ha : a = k
    · simp only [lookupIn, ha, if_true, Option.some.injEq] at h
      subst ha h
      exact List.mem_cons_self
    · simp only [lookupIn, ha, if_false] at h
      exact List.mem_cons_of_mem _ (ih h)

/-- A list of bindings in key order that answers every lookup alike is the map's. -/
theorem bindings_eq (m : OrderedMap κ β) {l : List (κ × β)} (hl : l.Pairwise (fun a b => a.1 < b.1))
    (h : ∀ k v, m.get? k = some v ↔ (k, v) ∈ l) : m.bindings = l := by
  have hnodup : ∀ {l : List (κ × β)}, l.Pairwise (fun a b => a.1 < b.1) → l.Nodup :=
    fun hl => hl.imp fun hlt heq => absurd (congrArg Prod.fst heq) (ne_of_lt hlt)
  refine List.Perm.eq_of_pairwise (fun a b _ _ hab hba => absurd hba (lt_asymm hab)) m.sorted hl ?_
  refine (List.perm_ext_iff_of_nodup (hnodup m.sorted) (hnodup hl)).mpr fun ⟨k, v⟩ => ?_
  exact ⟨fun hmem => (h k v).mp (m.get?_of_mem_bindings hmem),
    fun hmem => m.mem_bindings_of_get? ((h k v).mpr hmem)⟩

theorem mem_values_iff (m : OrderedMap κ β) (v : β) :
    v ∈ m.values ↔ ∃ k, m.get? k = some v := by
  constructor
  · intro h
    obtain ⟨⟨k, w⟩, hkw, rfl⟩ := List.mem_map.mp h
    exact ⟨k, m.get?_of_mem_bindings hkw⟩
  · rintro ⟨k, hk⟩
    exact List.mem_map.mpr ⟨(k, v), m.mem_bindings_of_get? hk, rfl⟩

end OrderedMap

end MarloweAgent.Library
