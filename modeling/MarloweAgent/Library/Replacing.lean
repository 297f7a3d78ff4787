import Mathlib.Data.List.Find
import Mathlib.Data.List.Infix
import Mathlib.Data.List.Nodup

/-! Marks in a text, and what they stand for. The bodies are put in at once, or one mark after another
over the growing text. Both come to the same as long as no mark that is found on the way holds a symbol
that a body brought in. -/

namespace MarloweAgent.Library

variable {α : Type*} [DecidableEq α]

/-- A mark, and what it stands for. -/
structure Mark (α : Type*) where
  sign : List α
  body : List α
  deriving DecidableEq

namespace Mark

section
variable {β : Type*} (f : β → α)

/-- Put `new` in for each `sign` that is read in the text, from the left, after the first `skip`
symbols. -/
def putFrom (sign : List α) (new : List β) : Nat → List β → List β
  | _, [] => []
  | skip + 1, _ :: rest => putFrom sign new skip rest
  | 0, b :: rest =>
    if sign.isPrefixOf ((b :: rest).map f) then new ++ putFrom sign new (sign.length - 1) rest
    else b :: putFrom sign new 0 rest

variable {f} {sign : List α} {new : List β}

theorem putFrom_eq_drop (n : Nat) (t : List β) : putFrom f sign new n t = putFrom f sign new 0 (t.drop n) := by
  induction t generalizing n with
  | nil => cases n <;> rfl
  | cons b rest ih =>
    cases n with
    | zero => rfl
    | succ n => exact ih n

/-- A sign that is read is replaced. -/
theorem putFrom_sign (hne : sign ≠ []) {found : List β} (hfound : found.map f = sign) (t : List β) :
    putFrom f sign new 0 (found ++ t) = new ++ putFrom f sign new 0 t := by
  cases found with
  | nil => exact absurd hfound.symm hne
  | cons b rest =>
    have hlength : sign.length - 1 = rest.length := by
      rw [← hfound, List.length_map, List.length_cons, Nat.add_sub_cancel]
    rw [List.cons_append, putFrom, if_pos, hlength, putFrom_eq_drop, List.drop_left]
    rw [List.isPrefixOf_iff_prefix, ← hfound, ← List.cons_append, List.map_append]
    exact List.prefix_append _ _

/-- What no sign begins in stays. -/
theorem putFrom_append {kept t : List β}
    (h : ∀ tail ∈ kept.tails, tail ≠ [] → ¬ sign <+: (tail ++ t).map f) :
    putFrom f sign new 0 (kept ++ t) = kept ++ putFrom f sign new 0 t := by
  induction kept with
  | nil => rfl
  | cons b rest ih =>
    have hhere := h (b :: rest) (by simp) (by simp)
    rw [List.cons_append, putFrom, if_neg (by rwa [List.isPrefixOf_iff_prefix]), ih fun tail htail => ?_]
    · rfl
    · exact h tail (by rw [List.tails_cons]; exact List.mem_cons_of_mem _ htail)

end

/-- The symbols of a text that was tagged. -/
theorem map_fst_putFrom (sign : List α) (new : List (α × Bool)) (n : Nat) (t : List (α × Bool)) :
    (putFrom Prod.fst sign new n t).map Prod.fst =
      putFrom id sign (new.map Prod.fst) n (t.map Prod.fst) := by
  induction t generalizing n with
  | nil => cases n <;> rfl
  | cons x rest ih =>
    cases n with
    | succ n => exact ih n
    | zero =>
      rw [putFrom, List.map_cons, putFrom, List.map_id, ← List.map_cons]
      split
      · rw [List.map_append, ih]
      · rw [List.map_cons, ih]

/-! ## At once -/

/-- The first mark there is whose sign begins the text. -/
def markAt (marks : List (Mark α)) (text : List α) : Option (Mark α) :=
  marks.find? fun m => m.sign.isPrefixOf text

/-- The text cut at the marks in it, after the first `skip` symbols. -/
def cutFrom (marks : List (Mark α)) : Nat → List α → List (α ⊕ Mark α)
  | _, [] => []
  | skip + 1, _ :: rest => cutFrom marks skip rest
  | 0, c :: rest =>
    match markAt marks (c :: rest) with
    | some m => .inr m :: cutFrom marks (m.sign.length - 1) rest
    | none => .inl c :: cutFrom marks 0 rest

/-- What the pieces were cut from. -/
def signed (pieces : List (α ⊕ Mark α)) : List α := pieces.flatMap (Sum.elim ([·]) sign)

omit [DecidableEq α] in
theorem signed_mark (m : Mark α) (pieces : List (α ⊕ Mark α)) :
    signed (.inr m :: pieces) = m.sign ++ signed pieces := by
  simp [signed]

/-- Every mark of the text with its body in its place. -/
def atOnce (marks : List (Mark α)) (text : List α) : List α :=
  (cutFrom marks 0 text).flatMap (Sum.elim ([·]) body)

/-- Pieces that hold every mark there is in what they were cut from. -/
inductive Cut (marks : List (Mark α)) : List (α ⊕ Mark α) → Prop
  | nil : Cut marks []
  | symbol {c : α} {pieces : List (α ⊕ Mark α)} :
    (∀ m ∈ marks, ¬ m.sign <+: c :: signed pieces) → Cut marks pieces → Cut marks (.inl c :: pieces)
  | mark {m : Mark α} {pieces : List (α ⊕ Mark α)} :
    m ∈ marks → Cut marks pieces → Cut marks (.inr m :: pieces)

variable {marks : List (Mark α)}

theorem markAt_some {text : List α} {m : Mark α} (h : markAt marks text = some m) :
    m ∈ marks ∧ m.sign <+: text := by
  have hfound := List.find?_some h
  exact ⟨List.mem_of_find?_eq_some h, List.isPrefixOf_iff_prefix.mp hfound⟩

theorem markAt_none {text : List α} (h : markAt marks text = none) {m : Mark α} (hm : m ∈ marks) :
    ¬ m.sign <+: text := by
  rw [← List.isPrefixOf_iff_prefix]
  exact List.find?_eq_none.mp h m hm

theorem cutFrom_mark {c : α} {rest : List α} {m : Mark α} (h : markAt marks (c :: rest) = some m) :
    cutFrom marks 0 (c :: rest) = .inr m :: cutFrom marks (m.sign.length - 1) rest := by
  rw [cutFrom, h]

theorem cutFrom_symbol {c : α} {rest : List α} (h : markAt marks (c :: rest) = none) :
    cutFrom marks 0 (c :: rest) = .inl c :: cutFrom marks 0 rest := by
  rw [cutFrom, h]

theorem cut_cutFrom (hne : ∀ m ∈ marks, m.sign ≠ []) (n : Nat) (text : List α) :
    signed (cutFrom marks n text) = text.drop n ∧ Cut marks (cutFrom marks n text) := by
  induction text generalizing n with
  | nil => cases n <;> exact ⟨rfl, .nil⟩
  | cons c rest ih =>
    cases n with
    | succ n => exact ih n
    | zero =>
      cases hmark : markAt marks (c :: rest) with
      | some m =>
        obtain ⟨hmem, tail, htail⟩ := markAt_some hmark
        obtain ⟨hsigned, hcut⟩ := ih (m.sign.length - 1)
        rw [cutFrom_mark hmark]
        refine ⟨?_, .mark hmem hcut⟩
        obtain ⟨s, sign, hs⟩ := List.exists_cons_of_ne_nil (hne m hmem)
        rw [signed_mark, hsigned, List.drop_zero]
        rw [hs, List.cons_append] at htail
        obtain ⟨rfl, rfl⟩ := List.cons.inj htail
        rw [hs, List.length_cons, Nat.add_sub_cancel, List.drop_left, List.cons_append]
      | none =>
        obtain ⟨hsigned, hcut⟩ := ih 0
        rw [List.drop_zero] at hsigned
        rw [cutFrom_symbol hmark]
        refine ⟨by rw [signed, List.flatMap_cons, ← signed, hsigned]; rfl, .symbol (fun m hm => ?_) hcut⟩
        rw [hsigned]
        exact markAt_none hmark hm

theorem cutFrom_eq_drop (n : Nat) (text : List α) :
    cutFrom marks n text = cutFrom marks 0 (text.drop n) := by
  induction text generalizing n with
  | nil => cases n <;> rfl
  | cons c rest ih =>
    cases n with
    | zero => rfl
    | succ n => exact ih n

/-! ## One after another -/

/-- Put the bodies in one after another, each over what the last left. -/
def inTurn (marks : List (Mark α)) (text : List α) : List α :=
  marks.foldl (fun t m => putFrom id m.sign m.body 0 t) text

/-- One mark put in, what it brings in tagged. -/
def putTagged (m : Mark α) (t : List (α × Bool)) : List (α × Bool) :=
  putFrom Prod.fst m.sign (m.body.map (·, true)) 0 t

/-- No place where the mark is read in the text holds a symbol that a body brought in. -/
def FoundAsIs (m : Mark α) (t : List (α × Bool)) : Prop :=
  ∀ tail ∈ t.tails, m.sign <+: tail.map Prod.fst → ∀ x ∈ tail.take m.sign.length, x.2 = false

/-- The same for each mark when its turn comes. -/
def AllFoundAsIs : List (Mark α) → List (α × Bool) → Prop
  | [], _ => True
  | m :: marks, t => FoundAsIs m t ∧ AllFoundAsIs marks (putTagged m t)

instance (m : Mark α) (t : List (α × Bool)) : Decidable (FoundAsIs m t) :=
  inferInstanceAs (Decidable (∀ tail ∈ t.tails, m.sign <+: tail.map Prod.fst →
    ∀ x ∈ tail.take m.sign.length, x.2 = false))

instance decidableAllFoundAsIs : (marks : List (Mark α)) → (t : List (α × Bool)) → Decidable (AllFoundAsIs marks t)
  | [], _ => isTrue trivial
  | m :: marks, t =>
    have := decidableAllFoundAsIs marks (putTagged m t)
    inferInstanceAs (Decidable (FoundAsIs m t ∧ AllFoundAsIs marks (putTagged m t)))

/-- A text that nothing was brought into. -/
def asIs (text : List α) : List (α × Bool) := text.map (·, false)

/-- Marks that each begin and end with a symbol of their own, stand for something, and have different
signs. -/
structure Bracketed (marks : List (Mark α)) (first last : α) : Prop where
  shape : ∀ m ∈ marks, ∃ inner, m.sign = first :: (inner ++ [last]) ∧ first ∉ inner ∧ last ∉ inner
  apart : first ≠ last
  bodies : ∀ m ∈ marks, m.body ≠ []
  distinct : (marks.map sign).Nodup

/-- The pieces with the bodies of those marks in whose signs are `done`. -/
def stage (done : List (List α)) (pieces : List (α ⊕ Mark α)) : List (α × Bool) :=
  pieces.flatMap (Sum.elim (fun c => [(c, false)]) fun m =>
    if m.sign ∈ done then m.body.map (·, true) else asIs m.sign)

namespace Bracketed

variable {first last : α}

omit [DecidableEq α] in
theorem sign_ne_nil (h : Bracketed marks first last) {m : Mark α} (hm : m ∈ marks) : m.sign ≠ [] := by
  obtain ⟨inner, hsign, -⟩ := h.shape m hm
  rw [hsign]
  exact List.cons_ne_nil _ _

/-- A sign does not begin inside another. -/
theorem not_prefix_tail (h : Bracketed marks first last) {m m' : Mark α} (hm : m ∈ marks) (hm' : m' ∈ marks)
    (hne : m.sign ≠ m'.sign) {tail : List α} (htail : tail <:+ m'.sign) (hsome : tail ≠ []) (t : List α) :
    ¬ m.sign <+: tail ++ t := by
  obtain ⟨inner, hsign, hfirst, hlast⟩ := h.shape m hm
  obtain ⟨inner', hsign', hfirst', hlast'⟩ := h.shape m' hm'
  intro hprefix
  rw [hsign'] at htail
  rcases List.suffix_cons_iff.mp htail with rfl | hinside
  · -- both end at the first symbol that ends a sign
    rw [hsign, List.cons_append, List.cons_prefix_cons] at hprefix
    have hends {a b c : List α} (ha : last ∉ a) (hb : last ∉ b) (hab : a ++ [last] <+: b ++ [last] ++ c) :
        a = b := by
      have hcut {l : List α} (hl : last ∉ l) (r : List α) :
          (l ++ [last] ++ r).takeWhile (· ≠ last) = l := by
        rw [List.append_assoc, List.takeWhile_append_of_pos fun x hx => by
          refine decide_eq_true fun hxl => hl ?_
          rwa [← hxl]]
        simp
      obtain ⟨r, hr⟩ := hab
      rw [← hcut ha r, hr, hcut hb c]
    refine hne ?_
    rw [hsign, hsign', hends hlast hlast' hprefix.2]
  · obtain ⟨x, rest, rfl⟩ := List.exists_cons_of_ne_nil hsome
    rw [hsign, List.cons_append, List.cons_prefix_cons] at hprefix
    obtain rfl := hprefix.1
    rcases List.mem_append.mp (hinside.subset List.mem_cons_self) with hmem | hmem
    · exact hfirst' hmem
    · exact h.apart (List.mem_singleton.mp hmem)

omit [DecidableEq α] in
/-- A sign is not begun before another that stands in the text. -/
theorem prefix_append_iff (h : Bracketed marks first last) {m m' : Mark α} (hm : m ∈ marks) (hm' : m' ∈ marks)
    (c : α) (a b : List α) : m'.sign <+: c :: a ++ (m.sign ++ b) ↔ m'.sign <+: c :: a := by
  refine ⟨fun hprefix => ?_, fun hprefix => hprefix.trans (List.prefix_append _ _)⟩
  rcases Nat.lt_or_ge (c :: a).length m'.sign.length with hlong | hshort
  · obtain ⟨inner, hsign, -⟩ := h.shape m hm
    obtain ⟨inner', hsign', hfirst', -⟩ := h.shape m' hm'
    obtain ⟨t, ht⟩ := List.prefix_of_prefix_length_le (List.prefix_append (c :: a) (m.sign ++ b)) hprefix
      hlong.le
    rw [← ht, List.prefix_append_right_inj, hsign] at hprefix
    cases t with
    | nil => simp [← ht] at hlong
    | cons x t =>
      rw [List.cons_append, List.cons_prefix_cons] at hprefix
      obtain rfl := hprefix.1
      rw [hsign', List.cons_append] at ht
      have hinside : x ∈ inner' ++ [last] := by
        rw [← (List.cons.inj ht).2]
        simp
      rcases List.mem_append.mp hinside with hmem | hmem
      · exact absurd hmem hfirst'
      · exact absurd (List.mem_singleton.mp hmem) h.apart
  · exact List.prefix_of_prefix_length_le hprefix (List.prefix_append _ _) hshort

theorem markAt_sign (h : Bracketed marks first last) {m : Mark α} (hm : m ∈ marks) (b : List α) :
    markAt marks (m.sign ++ b) = some m := by
  cases hmark : markAt marks (m.sign ++ b) with
  | none => exact absurd (List.prefix_append _ _) (markAt_none hmark hm)
  | some m' =>
    obtain ⟨hm', hprefix⟩ := markAt_some hmark
    have hsame : m'.sign = m.sign := by
      by_contra hne
      exact h.not_prefix_tail hm' hm hne (List.suffix_refl _) (h.sign_ne_nil hm) b hprefix
    rw [List.inj_on_of_nodup_map h.distinct hm' hm hsame]

theorem markAt_append_sign (h : Bracketed marks first last) {m : Mark α} (hm : m ∈ marks) (c : α)
    (a b : List α) : markAt marks (c :: (a ++ (m.sign ++ b))) = markAt marks (c :: a) := by
  refine List.find?_congr fun m' hm' => ?_
  rw [Bool.eq_iff_iff, List.isPrefixOf_iff_prefix, List.isPrefixOf_iff_prefix]
  exact h.prefix_append_iff hm hm' c a b

theorem cutFrom_append_sign (h : Bracketed marks first last) {m : Mark α} (hm : m ∈ marks) {n : Nat}
    {a : List α} (hn : n ≤ a.length) (b : List α) :
    cutFrom marks n (a ++ (m.sign ++ b)) = cutFrom marks n a ++ .inr m :: cutFrom marks 0 b := by
  induction a generalizing n with
  | nil =>
    obtain rfl := Nat.le_zero.mp hn
    have hmark := h.markAt_sign hm b
    obtain ⟨s, sign, hs⟩ := List.exists_cons_of_ne_nil (h.sign_ne_nil hm)
    rw [hs, List.cons_append] at hmark
    rw [List.nil_append, hs, List.cons_append, cutFrom_mark hmark, cutFrom_eq_drop, hs, List.length_cons,
      Nat.add_sub_cancel, List.drop_left]
    cases b <;> rfl
  | cons c a ih =>
    cases n with
    | succ n => exact ih (Nat.le_of_succ_le_succ hn)
    | zero =>
      have hsame := h.markAt_append_sign hm c a b
      rw [List.cons_append]
      cases hmark : markAt marks (c :: a) with
      | none =>
        rw [hmark] at hsame
        rw [cutFrom_symbol hsame, cutFrom_symbol hmark, ih (Nat.zero_le _), List.cons_append]
      | some m' =>
        rw [hmark] at hsame
        have hlength := (markAt_some hmark).2.length_le
        rw [List.length_cons] at hlength
        rw [cutFrom_mark hsame, cutFrom_mark hmark, ih (by omega), List.cons_append]

/-- A sign that stands in the text is one of the marks of it. -/
theorem atOnce_append_sign (h : Bracketed marks first last) {m : Mark α} (hm : m ∈ marks) (a b : List α) :
    atOnce marks (a ++ (m.sign ++ b)) = atOnce marks a ++ (m.body ++ atOnce marks b) := by
  rw [atOnce, h.cutFrom_append_sign hm (Nat.zero_le _), List.flatMap_append, List.flatMap_cons]
  rfl

end Bracketed

/-! ## Both alike -/

section
variable {first last : α} {m : Mark α} {done : List (List α)} {pieces : List (α ⊕ Mark α)}

omit [DecidableEq α] in
theorem FoundAsIs.suffix {t tail : List (α × Bool)} (h : FoundAsIs m t) (htail : tail <:+ t) :
    FoundAsIs m tail := fun s hs =>
  h s ((List.mem_tails ..).mpr (((List.mem_tails ..).mp hs).trans htail))

omit [DecidableEq α] in
theorem map_fst_asIs (text : List α) : (asIs text).map Prod.fst = text := by
  simp [asIs, Function.comp_def]

theorem stage_nil (done : List (List α)) : stage done ([] : List (α ⊕ Mark α)) = [] := rfl

theorem stage_symbol (c : α) (pieces : List (α ⊕ Mark α)) :
    stage done (.inl c :: pieces) = (c, false) :: stage done pieces := rfl

theorem stage_done (h : m.sign ∈ done) (pieces : List (α ⊕ Mark α)) :
    stage done (.inr m :: pieces) = m.body.map (·, true) ++ stage done pieces := by
  rw [stage, List.flatMap_cons, Sum.elim_inr, if_pos h, stage]

theorem stage_waiting (h : m.sign ∉ done) (pieces : List (α ⊕ Mark α)) :
    stage done (.inr m :: pieces) = asIs m.sign ++ stage done pieces := by
  rw [stage, List.flatMap_cons, Sum.elim_inr, if_neg h, stage]

/-- What holds no symbol of a body stood in the text as it was. -/
theorem take_stage (h : Bracketed marks first last) (hcut : Cut marks pieces) {n : Nat}
    (hfalse : ∀ x ∈ (stage done pieces).take n, x.2 = false) :
    ((stage done pieces).take n).map Prod.fst = (signed pieces).take n := by
  induction hcut generalizing n with
  | nil => simp [stage_nil, signed]
  | symbol hno hcut ih =>
    cases n with
    | zero => rfl
    | succ n =>
      rw [stage_symbol, List.take_succ_cons] at hfalse ⊢
      rw [List.map_cons, ih fun x hx => hfalse x (List.mem_cons_of_mem _ hx)]
      rfl
  | @mark m pieces hm hcut ih =>
    by_cases hdone : m.sign ∈ done
    · cases n with
      | zero => rfl
      | succ n =>
        obtain ⟨b, body, hbody⟩ := List.exists_cons_of_ne_nil (h.bodies m hm)
        rw [stage_done hdone, hbody] at hfalse
        cases hfalse (b, true) (by simp)
    · rw [stage_waiting hdone] at hfalse ⊢
      have hlength : (asIs m.sign).length = m.sign.length := List.length_map _
      rw [List.take_append, List.forall_mem_append] at hfalse
      rw [List.take_append, List.map_append, ih hfalse.2, List.map_take, map_fst_asIs, hlength,
        signed_mark, List.take_append]

/-- One mark put in. -/
theorem putTagged_stage (h : Bracketed marks first last) (hcut : Cut marks pieces) (hm : m ∈ marks)
    (hdone : m.sign ∉ done) (hfound : FoundAsIs m (stage done pieces)) :
    putTagged m (stage done pieces) = stage (m.sign :: done) pieces := by
  induction hcut with
  | nil => rfl
  | @symbol c pieces hno hcut ih =>
    rw [stage_symbol, stage_symbol, ← ih (hfound.suffix (List.suffix_cons _ _)), putTagged, putTagged,
      ← List.singleton_append, putFrom_append, List.singleton_append]
    intro tail htail hsome hprefix
    obtain rfl : tail = [(c, false)] := by simpa [hsome] using htail
    refine hno m hm ?_
    have hwhole : m.sign <+: (stage done (.inl c :: pieces)).map Prod.fst := hprefix
    have hsame := take_stage h (.symbol hno hcut)
      (hfound _ ((List.mem_tails ..).mpr (List.suffix_refl _)) hwhole)
    have hsign : m.sign = (signed (.inl c :: pieces)).take m.sign.length := by
      rw [← hsame, List.map_take]
      exact List.prefix_iff_eq_take.mp hwhole
    rw [hsign]
    exact List.take_prefix _ _
  | @mark m' pieces hm' hcut ih =>
    by_cases hsame : m'.sign = m.sign
    · obtain rfl : m' = m := List.inj_on_of_nodup_map h.distinct hm' hm hsame
      rw [stage_waiting hdone, stage_done List.mem_cons_self, ← ih (hfound.suffix ?_), putTagged, putTagged,
        putFrom_sign (h.sign_ne_nil hm) (map_fst_asIs _)]
      rw [stage_waiting hdone]
      exact List.suffix_append _ _
    · by_cases hbefore : m'.sign ∈ done
      · rw [stage_done hbefore] at hfound ⊢
        rw [stage_done (List.mem_cons_of_mem _ hbefore), ← ih (hfound.suffix (List.suffix_append _ _)), putTagged,
          putTagged, putFrom_append]
        intro tail htail hsome hprefix
        obtain ⟨x, rest, rfl⟩ := List.exists_cons_of_ne_nil hsome
        have htrue : x.2 = true := by
          obtain ⟨c, -, rfl⟩ := List.mem_map.mp (((List.mem_tails ..).mp htail).subset List.mem_cons_self)
          rfl
        obtain ⟨s, sign, hs⟩ := List.exists_cons_of_ne_nil (h.sign_ne_nil hm)
        have hfalse := hfound _ ((List.mem_tails ..).mpr ?_) hprefix x (by simp [hs])
        · rw [htrue] at hfalse
          cases hfalse
        · obtain ⟨before, hbefore⟩ := (List.mem_tails ..).mp htail
          exact ⟨before, by rw [← hbefore, List.append_assoc]⟩
      · have hafter : m'.sign ∉ m.sign :: done := by simp [hsame, hbefore]
        rw [stage_waiting hbefore] at hfound ⊢
        rw [stage_waiting hafter, ← ih (hfound.suffix (List.suffix_append _ _)), putTagged, putTagged,
          putFrom_append]
        intro tail htail hsome
        rw [List.map_append]
        refine h.not_prefix_tail hm hm' (fun heq => hsame heq.symm) ?_ (by simpa using hsome) _
        have hmap := ((List.mem_tails ..).mp htail).map Prod.fst
        rwa [map_fst_asIs] at hmap

theorem inTurn_stage (h : Bracketed marks first last) (hcut : Cut marks pieces) {todo : List (Mark α)}
    (htodo : todo ⊆ marks) (hdistinct : (todo.map sign).Nodup) (hnew : ∀ m ∈ todo, m.sign ∉ done)
    (hall : ∀ m ∈ marks, m.sign ∈ done ∨ m ∈ todo) (hfound : AllFoundAsIs todo (stage done pieces)) :
    inTurn todo ((stage done pieces).map Prod.fst) = pieces.flatMap (Sum.elim ([·]) body) := by
  induction todo generalizing done with
  | nil =>
    clear hfound
    rw [inTurn, List.foldl_nil]
    induction hcut with
    | nil => rfl
    | symbol hno hcut ih => rw [stage_symbol, List.map_cons, ih]; rfl
    | @mark m pieces hm hcut ih =>
      rw [stage_done ((hall m hm).resolve_right List.not_mem_nil), List.map_append, ih, List.flatMap_cons]
      simp [Function.comp_def]
  | cons m todo ih =>
    have hm : m ∈ marks := htodo List.mem_cons_self
    obtain ⟨hone, hrest⟩ := hfound
    rw [putTagged_stage h hcut hm (hnew m List.mem_cons_self) hone] at hrest
    rw [List.map_cons, List.nodup_cons] at hdistinct
    have hnext := ih (fun x hx => htodo (List.mem_cons_of_mem _ hx)) hdistinct.2 (fun x hx => ?_) (fun x hx => ?_)
      hrest
    · rw [← hnext, ← putTagged_stage h hcut hm (hnew m List.mem_cons_self) hone, putTagged, map_fst_putFrom, inTurn,
        List.foldl_cons, inTurn, List.map_map]
      simp [Function.comp_def]
    · rw [List.mem_cons, not_or]
      exact ⟨fun heq => hdistinct.1 (heq ▸ List.mem_map_of_mem hx), hnew x (List.mem_cons_of_mem _ hx)⟩
    · rcases hall x hx with hdone | hmem
      · exact .inl (List.mem_cons_of_mem _ hdone)
      · rcases List.mem_cons.mp hmem with rfl | hmem
        · exact .inl List.mem_cons_self
        · exact .inr hmem

/-- **One after another comes to the same as at once**, where no mark that is found holds a symbol that
a body brought in. -/
theorem inTurn_eq_atOnce (h : Bracketed marks first last) {text : List α}
    (hfound : AllFoundAsIs marks (asIs text)) : inTurn marks text = atOnce marks text := by
  obtain ⟨hsigned, hcut⟩ := cut_cutFrom (fun m hm => h.sign_ne_nil hm) 0 text
  have hstart : stage [] (cutFrom marks 0 text) = asIs text := by
    have hasIs : asIs text = asIs (signed (cutFrom marks 0 text)) := congrArg asIs hsigned.symm
    rw [hasIs, asIs, signed, List.map_flatMap, stage]
    refine List.flatMap_congr fun piece _ => ?_
    cases piece <;> simp [asIs]
  rw [atOnce, ← inTurn_stage h hcut (List.Subset.refl _) h.distinct (fun _ _ => List.not_mem_nil)
    (fun m hm => .inr hm) (by rwa [hstart]), hstart, map_fst_asIs]

end

end Mark

end MarloweAgent.Library
