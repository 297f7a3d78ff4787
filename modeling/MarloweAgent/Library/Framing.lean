import Mathlib.Data.List.Basic
import Mathlib.Tactic.Ring

/-! Length-prefixed framing of byte strings: each field is written behind the eight
bytes of its length, so that fields put one after the other can be told apart again.
The header may have either end of the length first. -/

namespace MarloweAgent.Library

/-- The low `width` bytes of a number, the most significant first. -/
def beBytes : Nat → Nat → List UInt8
  | 0, _ => []
  | width + 1, n => beBytes width (n / 256) ++ [UInt8.ofNat n]

/-- The number a byte string spells. -/
def beValue (bytes : List UInt8) : Nat := bytes.foldl (fun n b => n * 256 + b.toNat) 0

@[simp] theorem beBytes_length (width n : Nat) : (beBytes width n).length = width := by
  induction width generalizing n with
  | zero => rfl
  | succ width ih => simp [beBytes, ih]

theorem beValue_beBytes (width n : Nat) : beValue (beBytes width n) = n % 256 ^ width := by
  induction width generalizing n with
  | zero => simp [beBytes, beValue, Nat.mod_one]
  | succ width ih =>
    have hlow : (UInt8.ofNat n).toNat = n % 256 := by simp
    have hsplit : n % 256 ^ (width + 1) = n / 256 % 256 ^ width * 256 + n % 256 := by
      rw [pow_succ, Nat.mul_comm (256 ^ width), Nat.mod_mul]
      omega
    have hhigh := ih (n / 256)
    simp only [beValue] at hhigh
    simp only [beBytes, beValue, List.foldl_append, List.foldl_cons, List.foldl_nil, hhigh, hlow]
    omega

theorem beBytes_injective {width a b : Nat} (ha : a < 256 ^ width) (hb : b < 256 ^ width)
    (h : beBytes width a = beBytes width b) : a = b := by
  have hvalue := congrArg beValue h
  rwa [beValue_beBytes, beValue_beBytes, Nat.mod_eq_of_lt ha, Nat.mod_eq_of_lt hb] at hvalue

/-- The low `width` bytes of a number, the least significant first. -/
def leBytes (width n : Nat) : List UInt8 := (beBytes width n).reverse

@[simp] theorem leBytes_length (width n : Nat) : (leBytes width n).length = width := by simp [leBytes]

/-- The number a byte string spells, the least significant byte first. -/
def leValue (bytes : List UInt8) : Nat := beValue bytes.reverse

theorem leValue_lt (bytes : List UInt8) : leValue bytes < 256 ^ bytes.length := by
  unfold leValue beValue
  rw [List.foldl_reverse]
  induction bytes with
  | nil => exact Nat.one_pos
  | cons b rest ih =>
    have hb := b.toNat_lt
    rw [List.foldr_cons, List.length_cons, pow_succ]
    omega

/-- One field behind its length. -/
def frame (field : List UInt8) : List UInt8 := beBytes 8 field.length ++ field

/-- The fields of a record, framed one after the other. -/
def frames (fields : List (List UInt8)) : List UInt8 := (fields.map frame).flatten

/-- The same with the lengths little-endian. -/
def framesLe (fields : List (List UInt8)) : List UInt8 :=
  (fields.map fun field => leBytes 8 field.length ++ field).flatten

/-- The fields a length prefix can describe. -/
def Framable (field : List UInt8) : Prop := field.length < 256 ^ 8

instance (field : List UInt8) : Decidable (Framable field) := Nat.decLt _ _

section Headers

variable {header : Nat → List UInt8} {width : Nat}

theorem header_append_injective (hwidth : ∀ n, (header n).length = width)
    (hheader : ∀ {m n}, m < 256 ^ 8 → n < 256 ^ 8 → header m = header n → m = n) {a b s t : List UInt8}
    (ha : Framable a) (hb : Framable b) (h : header a.length ++ a ++ s = header b.length ++ b ++ t) :
    a = b ∧ s = t := by
  simp only [List.append_assoc] at h
  obtain ⟨hlength, hrest⟩ := List.append_inj h (by rw [hwidth, hwidth])
  exact List.append_inj hrest (hheader ha hb hlength)

/-- **Framing is injective**: the bytes determine the fields and where each one ends. -/
theorem headed_injective (hwidth : ∀ n, (header n).length = width) (hpositive : 0 < width)
    (hheader : ∀ {m n}, m < 256 ^ 8 → n < 256 ^ 8 → header m = header n → m = n)
    {as bs : List (List UInt8)} (ha : ∀ a ∈ as, Framable a) (hb : ∀ b ∈ bs, Framable b)
    (h : (as.map fun a => header a.length ++ a).flatten = (bs.map fun b => header b.length ++ b).flatten) :
    as = bs := by
  have hne : ∀ (a : List UInt8) (rest : List UInt8), header a.length ++ a ++ rest ≠ [] := by
    intro a rest hnil
    have hlength := congrArg List.length hnil
    simp only [List.length_append, hwidth, List.length_nil] at hlength
    omega
  induction as generalizing bs with
  | nil =>
    cases bs with
    | nil => rfl
    | cons b bs => exact absurd h.symm (hne b _)
  | cons a as ih =>
    cases bs with
    | nil => exact absurd h (hne a _)
    | cons b bs =>
      obtain ⟨rfl, hrest⟩ := header_append_injective hwidth hheader (ha a List.mem_cons_self)
        (hb b List.mem_cons_self) h
      rw [ih (fun x hx => ha x (List.mem_cons_of_mem _ hx))
        (fun x hx => hb x (List.mem_cons_of_mem _ hx)) hrest]

end Headers

theorem frames_injective {as bs : List (List UInt8)} (ha : ∀ a ∈ as, Framable a)
    (hb : ∀ b ∈ bs, Framable b) (h : frames as = frames bs) : as = bs :=
  headed_injective (beBytes_length 8) (by decide) beBytes_injective ha hb h

theorem framesLe_injective {as bs : List (List UInt8)} (ha : ∀ a ∈ as, Framable a)
    (hb : ∀ b ∈ bs, Framable b) (h : framesLe as = framesLe bs) : as = bs := by
  refine headed_injective (leBytes_length 8) (by decide) (fun hm hn heq => ?_) ha hb h
  exact beBytes_injective hm hn (List.reverse_injective heq)

/-! ## Records of one width -/

theorem leValue_leBytes {width n : Nat} (h : n < 256 ^ width) : leValue (leBytes width n) = n := by
  rw [leValue, leBytes, List.reverse_reverse, beValue_beBytes, Nat.mod_eq_of_lt h]

section Records

variable {α : Type*} {width : Nat}

/-- `slice::chunks_exact`. -/
def chunksExact (width : Nat) (items : List α) : List (List α) :=
  (List.range (items.length / width)).map fun i => (items.drop (i * width)).take width

theorem length_flatten_of_width {records : List (List α)} (h : ∀ r ∈ records, r.length = width) :
    records.flatten.length = records.length * width := by
  induction records with
  | nil => simp
  | cons r rest ih =>
    obtain ⟨hr, hrest⟩ := List.forall_mem_cons.mp h
    rw [List.flatten_cons, List.length_append, hr, ih hrest, List.length_cons, Nat.succ_mul, Nat.add_comm]

theorem drop_flatten_of_width {records : List (List α)} (h : ∀ r ∈ records, r.length = width) (i : Nat) :
    records.flatten.drop (i * width) = (records.drop i).flatten := by
  induction i generalizing records with
  | zero => simp
  | succ i ih =>
    cases records with
    | nil => simp
    | cons r rest =>
      obtain ⟨hr, hrest⟩ := List.forall_mem_cons.mp h
      rw [List.flatten_cons, List.drop_succ_cons, ← ih hrest, Nat.succ_mul, Nat.add_comm,
        ← List.drop_drop, List.drop_left' hr]

/-- **Records of one width are read back as they were written.** -/
theorem chunksExact_flatten (hwidth : 0 < width) {records : List (List α)}
    (h : ∀ r ∈ records, r.length = width) : chunksExact width records.flatten = records := by
  refine List.ext_getElem ?_ fun i hi hi' => ?_
  · rw [chunksExact, List.length_map, List.length_range, length_flatten_of_width h,
      Nat.mul_div_cancel _ hwidth]
  · simp only [chunksExact, List.getElem_map, List.getElem_range]
    rw [drop_flatten_of_width h, List.drop_eq_getElem_cons hi', List.flatten_cons, List.take_left' (h _ (List.getElem_mem hi'))]

end Records

end MarloweAgent.Library
