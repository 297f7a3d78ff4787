import MarloweAgent.Loop.Run

/-! When a structured contract can be met. Its overall cap is the sum of the caps of its
fields and some headroom, so that filling every field stays below it; but the sum is taken
in `usize`. -/

namespace MarloweAgent.Loop
open Contract Library

namespace OutputContract

/-- The sum of the caps as a debug build takes it: nothing, where one addition overflows. -/
def checkedCapSum (fields : List FieldSpec) : Option Nat :=
  fields.foldlM (fun acc f => if acc + f.maxChars ≤ u64Max then some (acc + f.maxChars) else none) 0

/-- A result has the fields of the contract and each value is what its field allows. -/
structure Fills (fields : List FieldSpec) (result : CondensedResult) : Prop where
  names : ∀ name ∈ result.fields.keys, ∃ spec ∈ fields, spec.name = name
  values : ∀ spec ∈ fields, ∃ value, result.get spec.name = some value ∧ spec.validateValue value = .ok ()

/-- The overall cap is computed, and refuses no result whose values its fields allow. -/
structure Satisfiable (description : String) (fields : List FieldSpec) : Prop where
  computed : (checkedCapSum fields).isSome = true
  accepts : ∀ result, Fills fields result → (structured description fields).validate result = .ok ()

variable {fields : List FieldSpec} {result : CondensedResult}

/-! ## The sum -/

theorem capSum_eq (fields : List FieldSpec) :
    capSum fields = (fields.map FieldSpec.maxChars).sum % 2 ^ 64 := by
  have hfold : ∀ acc, fields.foldl (fun acc f => (acc + f.maxChars) % 2 ^ 64) (acc % 2 ^ 64) =
      (acc + (fields.map FieldSpec.maxChars).sum) % 2 ^ 64 := by
    induction fields with
    | nil => simp
    | cons f rest ih =>
      intro acc
      rw [List.foldl_cons, Nat.mod_add_mod, ih, List.map_cons, List.sum_cons, Nat.add_assoc]
  simpa [capSum] using hfold 0

theorem checkedCapSum_isSome :
    (checkedCapSum fields).isSome = true ↔ (fields.map FieldSpec.maxChars).sum < 2 ^ 64 := by
  have hfold : ∀ acc, acc < 2 ^ 64 → ((fields.foldlM (fun acc f =>
      if acc + f.maxChars ≤ u64Max then some (acc + f.maxChars) else none) acc).isSome = true ↔
      acc + (fields.map FieldSpec.maxChars).sum < 2 ^ 64) := by
    induction fields with
    | nil => intro acc hacc; simpa using hacc
    | cons f rest ih =>
      intro acc hacc
      rw [List.foldlM_cons, List.map_cons, List.sum_cons, ← Nat.add_assoc]
      split
      next hfits => exact ih _ (Nat.lt_of_le_pred (Nat.two_pow_pos 64) hfits)
      next hover =>
        have hwide : 2 ^ 64 ≤ acc + f.maxChars := by unfold u64Max at hover; omega
        exact iff_of_false nofun (by omega)
  simpa [checkedCapSum] using hfold 0 (Nat.two_pow_pos 64)

/-- A cap that was computed without an overflow is at least the sum. -/
theorem sum_le_maxChars (h : (fields.map FieldSpec.maxChars).sum < 2 ^ 64) (description : String) :
    (fields.map FieldSpec.maxChars).sum ≤ (structured description fields).maxChars := by
  refine le_trans ?_ (le_max_left _ _)
  rw [capSum_eq, Nat.mod_eq_of_lt h, satAdd]
  exact le_min (Nat.le_add_right _ _) (Nat.le_pred_of_lt h)

/-! ## The total -/

/-- A sum over distinct keys, each bounded at an element of its name, is bounded by the sum there. -/
theorem sum_le_of_named {κ φ : Type} (name : φ → κ) {cap : φ → Nat} {size : κ → Nat} {keys : List κ}
    {l : List φ} (hkeys : keys.Nodup)
    (h : ∀ k ∈ keys, ∃ f ∈ l, name f = k ∧ size k ≤ cap f) : (keys.map size).sum ≤ (l.map cap).sum := by
  induction keys generalizing l with
  | nil => exact Nat.zero_le _
  | cons k rest ih =>
    obtain ⟨hk, hrest⟩ := List.nodup_cons.mp hkeys
    obtain ⟨f, hf, hname, hsize⟩ := h k List.mem_cons_self
    obtain ⟨before, after, rfl⟩ := List.append_of_mem hf
    have hothers : (rest.map size).sum ≤ ((before ++ after).map cap).sum := ih hrest fun k' hk' => by
      obtain ⟨f', hf', hname', hsize'⟩ := h k' (List.mem_cons_of_mem _ hk')
      refine ⟨f', ?_, hname', hsize'⟩
      have hne : f' ≠ f := fun heq => hk (by rw [← hname, ← heq, hname']; exact hk')
      simpa [hne] using hf'
    simp only [List.map_cons, List.sum_cons, List.map_append, List.sum_append] at hothers ⊢
    omega

theorem chars_le_of_validateValue {spec : FieldSpec} {value : String}
    (h : spec.validateValue value = .ok ()) : value.toList.length ≤ spec.maxChars := by
  unfold FieldSpec.validateValue at h
  dsimp only at h
  split at h
  next => cases h
  next hle => exact Nat.le_of_not_lt hle

/-- What a result holds in all, field by field. -/
theorem total_eq (result : CondensedResult) :
    (result.fields.values.map fun v => v.toList.length).sum =
      (result.fields.keys.map fun k => ((result.get k).getD "").toList.length).sum := by
  simp only [OrderedMap.values, OrderedMap.keys, List.map_map]
  refine congrArg List.sum (List.map_congr_left fun p hp => ?_)
  have hget : result.get p.1 = some p.2 := result.fields.get?_of_mem_bindings hp
  simp [hget]

theorem Fills.total_le (h : Fills fields result) :
    (result.fields.values.map fun v => v.toList.length).sum ≤ (fields.map FieldSpec.maxChars).sum := by
  rw [total_eq]
  refine sum_le_of_named FieldSpec.name result.fields.keys_nodup fun k hk => ?_
  obtain ⟨spec, hspec, rfl⟩ := h.names k hk
  obtain ⟨value, hget, hvalue⟩ := h.values spec hspec
  refine ⟨spec, hspec, rfl, ?_⟩
  rw [hget]
  exact chars_le_of_validateValue hvalue

/-! ## The check -/

theorem validateFields_eq_ok {specs : List FieldSpec} : validateFields result specs = .ok () ↔
    ∀ spec ∈ specs, ∃ value, result.get spec.name = some value ∧ spec.validateValue value = .ok () := by
  induction specs with
  | nil => simp [validateFields]
  | cons spec rest ih =>
    rw [List.forall_mem_cons, ← ih, validateFields]
    cases result.get spec.name with
    | none => simp
    | some value => cases hvalue : spec.validateValue value <;> simp [hvalue]

/-- What a contract accepts fills its fields. -/
theorem Fills.of_validate {contract : OutputContract} (h : contract.validate result = .ok ()) :
    Fills contract.fields result := by
  unfold validate at h
  split at h
  next => cases h
  next hnone =>
    split at h
    next => cases h
    next hvalues =>
      refine ⟨fun name hname => ?_, validateFields_eq_ok.mp hvalues⟩
      simpa using List.find?_eq_none.mp hnone name hname

/-- A result that fills the fields is judged by its total alone. -/
theorem Fills.validate_eq {contract : OutputContract} (h : Fills contract.fields result) :
    contract.validate result =
      if contract.maxChars < (result.fields.values.map fun v => v.toList.length).sum then
        .error (.tooLong (result.fields.values.map fun v => v.toList.length).sum contract.maxChars)
      else .ok () := by
  have hnone : result.fields.keys.find? (fun name => !contract.fields.any (·.name == name)) = none := by
    rw [List.find?_eq_none]
    intro name hname
    obtain ⟨spec, hspec, rfl⟩ := h.names name hname
    simpa using ⟨spec, hspec, rfl⟩
  unfold validate
  rw [hnone, validateFields_eq_ok.mpr h.values]

/-! ### The empty answer -/

/-- Every field, with nothing in it. -/
def blank (fields : List FieldSpec) : CondensedResult :=
  ⟨(fields.map fun f => (f.name, "")).foldl (fun m p => m.insert p.1 p.2) OrderedMap.empty⟩

theorem blank_get (fields : List FieldSpec) (name : String) :
    (blank fields).get name = if name ∈ fields.map FieldSpec.name then some "" else none := by
  have hpairs : ∀ p ∈ fields.map fun f => (f.name, ""), (some "" : Option String) = some p.2 :=
    List.forall_mem_map.mpr fun _ _ => rfl
  have hget := OrderedMap.get?_foldl_insert (fun _ => some "") hpairs OrderedMap.empty name
  rwa [List.map_map] at hget

/-- A contract accepts the answer that says nothing. -/
theorem validate_blank (contract : OutputContract) : contract.validate (blank contract.fields) = .ok () := by
  have hfills : Fills contract.fields (blank contract.fields) :=
    { names := fun name hname => by
        have hsome := ((blank contract.fields).fields.mem_keys_iff name).mp hname
        change ((blank contract.fields).get name).isSome = true at hsome
        rw [blank_get] at hsome
        split at hsome
        next hmem => exact List.mem_map.mp hmem
        next => cases hsome
      values := fun spec hspec => ⟨"", by rw [blank_get, if_pos (List.mem_map_of_mem hspec)], rfl⟩ }
  have htotal : ((blank contract.fields).fields.values.map fun v => v.toList.length).sum = 0 := by
    rw [total_eq]
    refine List.sum_eq_zero_iff_forall_eq_nat.mpr (List.forall_mem_map.mpr fun name _ => ?_)
    rw [blank_get]
    split <;> rfl
  rw [hfills.validate_eq, htotal]
  rfl

/-- **A structured contract can be met exactly when the sum of its caps fits in a `usize`.** -/
theorem satisfiable_iff (description : String) (fields : List FieldSpec) :
    Satisfiable description fields ↔ (fields.map FieldSpec.maxChars).sum < 2 ^ 64 := by
  constructor
  · exact fun h => checkedCapSum_isSome.mp h.computed
  · intro hsum
    refine ⟨checkedCapSum_isSome.mpr hsum, fun result hfills => ?_⟩
    have htotal := hfills.total_le.trans (sum_le_maxChars hsum description)
    have hvalidate : (structured description fields).validate result = _ := Fills.validate_eq hfills
    rw [hvalidate, if_neg (Nat.not_lt.mpr htotal)]

/-- A plain text is refused for its length alone. -/
theorem validateValue_replicate {spec : FieldSpec} {n : Nat} (h : n ≤ spec.maxChars) :
    spec.validateValue (String.ofList (List.replicate n 'x')) = .ok () := by
  have hchars : firstDisallowed spec.ty (String.ofList (List.replicate n 'x')) = none := by
    rw [firstDisallowed, String.toList_ofList, List.find?_eq_none]
    intro c hc
    rw [List.eq_of_mem_replicate hc, if_neg (by decide)]
    decide
  unfold FieldSpec.validateValue
  rw [hchars, String.toList_ofList, List.length_replicate]
  exact if_neg (Nat.not_lt.mpr h)

/-- A field without a cap and one of two characters: the sum of the caps wraps to one. -/
def wrappingFields : List FieldSpec :=
  [{ name := "answer", ty := .text, maxChars := u64Max }, { name := "unit", ty := .line, maxChars := 2 }]

/-- A text of `n` characters and a unit. -/
def measured (n : Nat) : CondensedResult :=
  (CondensedResult.empty.insert "answer" (String.ofList (List.replicate n 'x'))).insert "unit" "ms"

theorem measured_fills {n : Nat} (h : n ≤ u64Max) : Fills wrappingFields (measured n) where
  names := fun name hname => by
    have hmem : name ∈ wrappingFields.map FieldSpec.name := hname
    exact List.mem_map.mp hmem
  values := List.forall_mem_cons.mpr
    ⟨⟨_, rfl, validateValue_replicate h⟩, List.forall_mem_singleton.mpr ⟨"ms", rfl, by decide⟩⟩

theorem measured_total (n : Nat) :
    ((measured n).fields.values.map fun v => v.toList.length).sum = n + 2 := by
  show (String.ofList (List.replicate n 'x')).toList.length + ("ms".toList.length + 0) = n + 2
  rw [String.toList_ofList, List.length_replicate]
  rfl

/-- What the first field allows is refused by the whole. -/
theorem wrapped_cap_refuses :
    ¬ (∀ description fields, Satisfiable description fields) ∧ Fills wrappingFields (measured 4001) ∧
      (structured "a measurement" wrappingFields).validate (measured 4001) =
        .error (.tooLong 4003 4000) := by
  have hfills : Fills wrappingFields (measured 4001) := measured_fills (by decide)
  have hcap : (structured "a measurement" wrappingFields).maxChars = 4000 := by decide
  have hrefused : (structured "a measurement" wrappingFields).validate (measured 4001) = _ :=
    hfills.validate_eq
  rw [measured_total, hcap] at hrefused
  refine ⟨fun h => ?_, hfills, hrefused⟩
  have haccepted := (h "a measurement" wrappingFields).accepts (measured 4001) hfills
  rw [hrefused] at haccepted
  cases haccepted

end OutputContract

end MarloweAgent.Loop
