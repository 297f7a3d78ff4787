import Mathlib.Algebra.Ring.Nat
import Mathlib.Data.List.Basic
import Mathlib.Data.List.Infix

/-! Texts as their bytes in UTF-8. What is searched for begins with an ASCII byte, which is never part
of another character, so that what is found by bytes begins where a character does. -/

namespace MarloweAgent.Library.Utf8

def bytes (s : List Char) : List UInt8 := s.flatMap String.utf8EncodeChar

theorem bytes_cons (c : Char) (s : List Char) : bytes (c :: s) = String.utf8EncodeChar c ++ bytes s :=
  List.flatMap_cons ..

theorem bytes_append (s t : List Char) : bytes (s ++ t) = bytes s ++ bytes t := List.flatMap_append ..

theorem length_bytes (s : List Char) : (bytes s).length = (s.map Char.utf8Size).sum := by
  induction s with
  | nil => rfl
  | cons c rest ih =>
    rw [bytes_cons, List.length_append, String.length_utf8EncodeChar, ih, List.map_cons, List.sum_cons]

def isAscii (c : Char) : Bool := c.toNat < 128

/-- The byte of an ASCII character. -/
def byteOf (c : Char) : UInt8 := UInt8.ofNat c.toNat

theorem encode_ascii {c : Char} (h : isAscii c = true) : String.utf8EncodeChar c = [byteOf c] := by
  have hsmall : c.toNat ≤ 127 := Nat.le_of_lt_succ (of_decide_eq_true h)
  rw [String.utf8EncodeChar]
  exact if_pos hsmall

theorem high_of_mem_encode {c : Char} (h : isAscii c = false) {b : UInt8}
    (hb : b ∈ String.utf8EncodeChar c) : 128 ≤ b.toNat := by
  have hlarge : ¬ c.val.toNat ≤ 127 := by
    have := of_decide_eq_false h
    rw [Char.toNat] at this
    omega
  rw [String.utf8EncodeChar, if_neg hlarge] at hb
  have hbyte {n : Nat} (hlow : 128 ≤ n) (hhigh : n < 256) : 128 ≤ (UInt8.ofNat n).toNat := by
    rw [UInt8.toNat_ofNat', Nat.mod_eq_of_lt hhigh]
    exact hlow
  split at hb
  · simp only [List.mem_cons, List.not_mem_nil, or_false] at hb
    obtain rfl | rfl := hb <;> exact hbyte (by omega) (by omega)
  · split at hb
    · simp only [List.mem_cons, List.not_mem_nil, or_false] at hb
      obtain rfl | rfl | rfl := hb <;> exact hbyte (by omega) (by omega)
    · simp only [List.mem_cons, List.not_mem_nil, or_false] at hb
      obtain rfl | rfl | rfl | rfl := hb <;> exact hbyte (by omega) (by omega)

theorem encode_ne_nil (c : Char) : String.utf8EncodeChar c ≠ [] := by
  rw [← List.length_pos_iff_ne_nil, String.length_utf8EncodeChar]
  exact c.utf8Size_pos

theorem byteOf_lt {c : Char} (h : isAscii c = true) : (byteOf c).toNat < 128 := by
  have hsmall := of_decide_eq_true h
  rw [byteOf, UInt8.toNat_ofNat', Nat.mod_eq_of_lt (by omega)]
  exact hsmall

theorem byteOf_inj {c d : Char} (hc : isAscii c = true) (hd : isAscii d = true) : byteOf c = byteOf d ↔ c = d := by
  refine ⟨fun h => ?_, fun h => congrArg byteOf h⟩
  have hcs := of_decide_eq_true hc
  have hds := of_decide_eq_true hd
  have htoNat := congrArg UInt8.toNat h
  rw [byteOf, byteOf, UInt8.toNat_ofNat', UInt8.toNat_ofNat', Nat.mod_eq_of_lt (by omega),
    Nat.mod_eq_of_lt (by omega)] at htoNat
  exact Char.toNat_inj.mp htoNat

theorem ascii_of_all {s : List Char} (h : s.all isAscii = true) : ∀ c ∈ s, isAscii c = true := List.all_eq_true.mp h

theorem length_bytes_ascii {s : List Char} (h : ∀ c ∈ s, isAscii c = true) : (bytes s).length = s.length := by
  induction s with
  | nil => rfl
  | cons c rest ih =>
    rw [bytes_cons, encode_ascii (h c List.mem_cons_self), List.length_append,
      ih fun x hx => h x (List.mem_cons_of_mem _ hx), List.length_singleton, List.length_cons, Nat.add_comm]

/-! ## Searching -/

/-- The first place from which on the bytes are as looked for. -/
def search (p : List UInt8 → Bool) : List UInt8 → Option Nat
  | [] => none
  | b :: rest => if p (b :: rest) then some 0 else (search p rest).map (· + 1)

/-- The text before the first place from which on it is as looked for, and from there on. -/
def split (q : List Char → Bool) : List Char → Option (List Char × List Char)
  | [] => none
  | c :: rest =>
    if q (c :: rest) then some ([], c :: rest)
    else (split q rest).map fun (before, found) => (c :: before, found)

variable {p : List UInt8 → Bool} {q : List Char → Bool} {s t before found : List Char}

theorem search_append {l : List UInt8} (h : ∀ tail, tail ≠ [] → tail <:+ l → ∀ r, p (tail ++ r) = false)
    (r : List UInt8) : search p (l ++ r) = (search p r).map (· + l.length) := by
  induction l with
  | nil => simp
  | cons b rest ih =>
    rw [List.cons_append, search, ← List.cons_append, h _ (List.cons_ne_nil _ _) (List.suffix_refl _) r, if_neg (by simp),
      ih fun tail hne htail => h tail hne (htail.trans (List.suffix_cons _ _)), Option.map_map]
    rfl

/-- What begins with an ASCII byte is found at a character. -/
theorem search_bytes (hpq : ∀ s, s ≠ [] → p (bytes s) = q s) (hascii : ∀ b l, 128 ≤ b.toNat → p (b :: l) = false)
    (s : List Char) : search p (bytes s) = (split q s).map fun cut => (bytes cut.1).length := by
  induction s with
  | nil => rfl
  | cons c rest ih =>
    have hhere := hpq (c :: rest) (List.cons_ne_nil _ _)
    cases hc : isAscii c with
    | true =>
      rw [bytes_cons, encode_ascii hc, List.singleton_append] at hhere ⊢
      rw [search, split, hhere, ih, Option.map_map]
      split
      · rfl
      · rw [Option.map_map]
        refine congrArg (fun f => Option.map f (split q rest)) (funext fun cut => ?_)
        simp [bytes_cons, encode_ascii hc, Nat.add_comm]
    | false =>
      have hnot (b : UInt8) (hb : b ∈ String.utf8EncodeChar c) (l : List UInt8) : p (b :: l) = false :=
        hascii b l (high_of_mem_encode hc hb)
      obtain ⟨b, more, hencode⟩ := List.exists_cons_of_ne_nil (encode_ne_nil c)
      have hq : q (c :: rest) = false := by
        rw [← hhere, bytes_cons, hencode, List.cons_append]
        exact hnot b (by simp [hencode]) _
      rw [bytes_cons, search_append (fun tail hne htail r => ?_), split, hq, if_neg (by simp), ih, Option.map_map,
        Option.map_map]
      · refine congrArg (fun f => Option.map f (split q rest)) (funext fun cut => ?_)
        simp [bytes_cons, Nat.add_comm]
      · obtain ⟨b, more, rfl⟩ := List.exists_cons_of_ne_nil hne
        exact hnot b (htail.subset List.mem_cons_self) _

theorem split_eq_some (h : split q s = some (before, found)) :
    s = before ++ found ∧ found ≠ [] ∧ q found = true ∧
      ∀ tail, tail ≠ [] → tail <:+ before → q (tail ++ found) = false := by
  induction s generalizing before with
  | nil => cases h
  | cons c rest ih =>
    rw [split] at h
    split at h
    · rename_i hhere
      obtain ⟨rfl, rfl⟩ := Prod.mk.inj (Option.some.inj h)
      exact ⟨rfl, List.cons_ne_nil _ _, hhere, fun tail hne htail => absurd (List.suffix_nil.mp htail) hne⟩
    · rename_i hhere
      obtain ⟨⟨b, f⟩, hsplit, heq⟩ := Option.map_eq_some_iff.mp h
      obtain ⟨rfl, rfl⟩ := Prod.mk.inj heq
      obtain ⟨rfl, hne, hfound, hbefore⟩ := ih hsplit
      refine ⟨rfl, hne, hfound, fun tail hsome htail => ?_⟩
      rcases List.suffix_cons_iff.mp htail with rfl | hinside
      · exact Bool.eq_false_iff.mpr hhere
      · exact hbefore tail hsome hinside

theorem split_eq_none (h : split q s = none) {tail : List Char} (hne : tail ≠ []) (htail : tail <:+ s) :
    q tail = false := by
  induction s with
  | nil => exact absurd (List.suffix_nil.mp htail) hne
  | cons c rest ih =>
    rw [split] at h
    split at h
    · cases h
    · rename_i hhere
      rcases List.suffix_cons_iff.mp htail with rfl | hinside
      · exact Bool.eq_false_iff.mpr hhere
      · exact ih (Option.map_eq_none_iff.mp h) hinside

/-- What is looked for begins nowhere in the part before. -/
theorem split_skip (h : ∀ tail, tail ≠ [] → tail <:+ before → q (tail ++ s) = false) :
    split q (before ++ s) = (split q s).map fun cut => (before ++ cut.1, cut.2) := by
  induction before with
  | nil => simp
  | cons c rest ih =>
    rw [List.cons_append, split, ← List.cons_append, h _ (List.cons_ne_nil _ _) (List.suffix_refl _), if_neg (by simp),
      ih fun tail hne htail => h tail hne (htail.trans (List.suffix_cons _ _)), Option.map_map]
    rfl

theorem split_here (hs : s ≠ []) (h : q s = true) : split q s = some ([], s) := by
  obtain ⟨c, rest, rfl⟩ := List.exists_cons_of_ne_nil hs
  rw [split, if_pos h]

/-- Whether a list begins as a pattern does, symbol by symbol. -/
def beginsAs {α : Type*} (r : α → α → Bool) : List α → List α → Bool
  | [], _ => true
  | _ :: _, [] => false
  | a :: pat, b :: l => r a b && beginsAs r pat l

theorem isPrefixOf_eq_beginsAs {α : Type*} [BEq α] (pat l : List α) :
    pat.isPrefixOf l = beginsAs (· == ·) pat l := by
  induction pat generalizing l with
  | nil => cases l <;> rfl
  | cons a pat ih =>
    cases l with
    | nil => rfl
    | cons b l => rw [List.isPrefixOf_cons_cons, beginsAs, ih]

theorem beginsAs_true {α : Type*} {r : α → α → Bool} {pat l : List α} (h : beginsAs r pat l = true) :
    ∃ found rest, l = found ++ rest ∧ found.length = pat.length ∧ ∀ d ∈ found, ∃ c ∈ pat, r c d = true := by
  induction pat generalizing l with
  | nil => exact ⟨[], l, rfl, rfl, fun d hd => absurd hd List.not_mem_nil⟩
  | cons a pat ih =>
    cases l with
    | nil => cases h
    | cons b l =>
      rw [beginsAs, Bool.and_eq_true] at h
      obtain ⟨found, rest, rfl, hlength, hfound⟩ := ih h.2
      refine ⟨b :: found, rest, rfl, by rw [List.length_cons, List.length_cons, hlength], fun d hd => ?_⟩
      rcases List.mem_cons.mp hd with rfl | hd
      · exact ⟨a, List.mem_cons_self, h.1⟩
      · obtain ⟨c, hc, hr⟩ := hfound d hd
        exact ⟨c, List.mem_cons_of_mem _ hc, hr⟩

/-- The bytes of two texts are compared as their characters are, if the pattern is ASCII and no byte of
another character is like one of it. -/
theorem beginsAs_bytes {r : UInt8 → UInt8 → Bool} {r' : Char → Char → Bool} {pat : List Char}
    (hpat : ∀ c ∈ pat, isAscii c = true) (hr : ∀ c ∈ pat, ∀ d, isAscii d = true → r (byteOf c) (byteOf d) = r' c d)
    (hhigh : ∀ c ∈ pat, ∀ b : UInt8, 128 ≤ b.toNat → r (byteOf c) b = false)
    (hother : ∀ c ∈ pat, ∀ d, isAscii d = false → r' c d = false) (s : List Char) :
    beginsAs r (bytes pat) (bytes s) = beginsAs r' pat s := by
  induction pat generalizing s with
  | nil => cases s <;> rfl
  | cons c pat ih =>
    have hc : c ∈ c :: pat := List.mem_cons_self
    rw [bytes_cons, encode_ascii (hpat c hc), List.singleton_append]
    cases s with
    | nil => rfl
    | cons d rest =>
      rw [bytes_cons, beginsAs]
      cases hd : isAscii d with
      | true =>
        rw [encode_ascii hd, List.singleton_append, beginsAs, hr c hc d hd,
          ih (fun x hx => hpat x (List.mem_cons_of_mem _ hx)) (fun x hx => hr x (List.mem_cons_of_mem _ hx))
            (fun x hx => hhigh x (List.mem_cons_of_mem _ hx)) (fun x hx => hother x (List.mem_cons_of_mem _ hx))]
      | false =>
        obtain ⟨b, more, hencode⟩ := List.exists_cons_of_ne_nil (encode_ne_nil d)
        rw [hencode, List.cons_append, beginsAs, hhigh c hc b (high_of_mem_encode hd (by simp [hencode])),
          hother c hc d hd, Bool.false_and, Bool.false_and]

theorem isPrefixOf_bytes {pat : List Char} (hpat : ∀ c ∈ pat, isAscii c = true) (s : List Char) :
    (bytes pat).isPrefixOf (bytes s) = pat.isPrefixOf s := by
  rw [isPrefixOf_eq_beginsAs, isPrefixOf_eq_beginsAs]
  refine beginsAs_bytes hpat (fun c hc d hd => ?_) (fun c hc b hb => ?_) (fun c hc d hd => ?_) s
  · rw [Bool.eq_iff_iff, beq_iff_eq, beq_iff_eq]
    exact byteOf_inj (hpat c hc) hd
  · have hsmall := byteOf_lt (hpat c hc)
    rw [beq_eq_false_iff_ne]
    rintro rfl
    omega
  · rw [beq_eq_false_iff_ne]
    rintro rfl
    rw [hpat c hc] at hd
    cases hd

/-! ## Slices -/

/-- The text from byte `n` on, if a character begins or the text ends there. -/
def dropBytes : List Char → Nat → Option (List Char)
  | s, 0 => some s
  | [], _ + 1 => none
  | c :: rest, n + 1 => if c.utf8Size ≤ n + 1 then dropBytes rest (n + 1 - c.utf8Size) else none

/-- The text up to byte `n`, if a character begins or the text ends there. -/
def takeBytes : List Char → Nat → Option (List Char)
  | _, 0 => some []
  | [], _ + 1 => none
  | c :: rest, n + 1 =>
    if c.utf8Size ≤ n + 1 then (takeBytes rest (n + 1 - c.utf8Size)).map (c :: ·) else none

/-- The text between two bytes, if it is one. -/
def slice (s : List Char) (start stop : Nat) : Option (List Char) :=
  if start ≤ stop then (dropBytes s start).bind (takeBytes · (stop - start)) else none

theorem dropBytes_append (before after : List Char) :
    dropBytes (before ++ after) (bytes before).length = some after := by
  induction before with
  | nil => cases after <;> rfl
  | cons c rest ih =>
    obtain ⟨n, hn⟩ := Nat.exists_eq_succ_of_ne_zero (Nat.pos_iff_ne_zero.mp c.utf8Size_pos)
    have hlength : (bytes (c :: rest)).length = (n + (bytes rest).length) + 1 := by
      rw [bytes_cons, List.length_append, String.length_utf8EncodeChar, hn]
      omega
    rw [hlength, List.cons_append, dropBytes, if_pos (by omega), ← ih]
    congr 1
    omega

theorem takeBytes_append (before after : List Char) :
    takeBytes (before ++ after) (bytes before).length = some before := by
  induction before with
  | nil => cases after <;> rfl
  | cons c rest ih =>
    obtain ⟨n, hn⟩ := Nat.exists_eq_succ_of_ne_zero (Nat.pos_iff_ne_zero.mp c.utf8Size_pos)
    have hlength : (bytes (c :: rest)).length = (n + (bytes rest).length) + 1 := by
      rw [bytes_cons, List.length_append, String.length_utf8EncodeChar, hn]
      omega
    have hleft : n + (bytes rest).length + 1 - c.utf8Size = (bytes rest).length := by omega
    rw [hlength, List.cons_append, takeBytes, if_pos (by omega), hleft, ih, Option.map_some]

theorem slice_append (before mid after : List Char) {start stop : Nat} (hstart : start = (bytes before).length)
    (hstop : stop = start + (bytes mid).length) : slice (before ++ (mid ++ after)) start stop = some mid := by
  subst hstart hstop
  rw [slice, if_pos (Nat.le_add_right _ _), dropBytes_append, Nat.add_sub_cancel_left, Option.bind_some,
    takeBytes_append]

theorem drop_bytes (before after : List Char) {n : Nat} (hn : n = (bytes before).length) :
    (bytes (before ++ after)).drop n = bytes after := by
  rw [bytes_append, hn, List.drop_left]

theorem head?_bytes_cons {c : Char} (hc : isAscii c = false) (s : List Char) :
    ∃ b, (bytes (c :: s)).head? = some b ∧ 128 ≤ b.toNat := by
  obtain ⟨b, more, hencode⟩ := List.exists_cons_of_ne_nil (encode_ne_nil c)
  exact ⟨b, by rw [bytes_cons, hencode, List.cons_append, List.head?_cons],
    high_of_mem_encode hc (by rw [hencode]; exact List.mem_cons_self)⟩

/-- The first byte is that of an ASCII character just if the first character is. -/
theorem head?_bytes {c : Char} (hc : isAscii c = true) (s : List Char) :
    (bytes s).head? = some (byteOf c) ↔ s.head? = some c := by
  cases s with
  | nil => simp [bytes]
  | cons d rest =>
    rw [List.head?_cons, Option.some_inj]
    cases hd : isAscii d with
    | true =>
      rw [bytes_cons, encode_ascii hd, List.singleton_append, List.head?_cons, Option.some_inj]
      exact byteOf_inj hd hc
    | false =>
      obtain ⟨b, hhead, hb⟩ := head?_bytes_cons hd rest
      have hsmall := byteOf_lt hc
      rw [hhead, Option.some_inj]
      constructor
      · rintro rfl
        omega
      · rintro rfl
        rw [hc] at hd
        cases hd

/-- The first byte that is a given ASCII character's. -/
def memchr (c : Char) (l : List UInt8) : Option Nat := search (fun l => l.head? == some (byteOf c)) l

theorem memchr_bytes {c : Char} (hc : isAscii c = true) (s : List Char) :
    memchr c (bytes s) = (split (fun s => s.head? == some c) s).map fun cut => (bytes cut.1).length := by
  refine search_bytes (fun s _ => ?_) (fun b l hb => ?_) s
  · rw [Bool.eq_iff_iff, beq_iff_eq, beq_iff_eq]
    exact head?_bytes hc s
  · have hsmall := byteOf_lt hc
    rw [beq_eq_false_iff_ne, List.head?_cons]
    rintro heq
    rw [Option.some_inj.mp heq] at hb
    omega

end MarloweAgent.Library.Utf8
