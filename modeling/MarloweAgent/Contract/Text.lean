import Mathlib.Algebra.Ring.Int.Defs
import Mathlib.Algebra.Ring.Nat
import Mathlib.Data.List.Basic
import Mathlib.Data.List.DropRight

/-! The string functions of the standard library that the harness relies on,
over the characters of a string. `White_Space` is the Unicode property that
`str::trim` and `str::split_whitespace` use. -/

namespace MarloweAgent.Contract.Text

/-- `char::is_whitespace`. -/
def isWhitespace (c : Char) : Bool :=
  let n := c.toNat
  (9 ≤ n && n ≤ 13) || n == 0x20 || n == 0x85 || n == 0xA0 || n == 0x1680
    || (0x2000 ≤ n && n ≤ 0x200A) || n == 0x2028 || n == 0x2029 || n == 0x202F
    || n == 0x205F || n == 0x3000

/-- `str::trim`. -/
def trim (s : String) : String :=
  String.ofList (((s.toList.dropWhile isWhitespace).reverse.dropWhile isWhitespace).reverse)

/-- `str::starts_with`. -/
def startsWith (s pre : String) : Bool := pre.toList.isPrefixOf s.toList

/-- `str::ends_with`. -/
def endsWith (s suf : String) : Bool := suf.toList.isSuffixOf s.toList

/-- `char::to_ascii_lowercase`. -/
def toAsciiLowercaseChar (c : Char) : Char :=
  if 'A' ≤ c ∧ c ≤ 'Z' then Char.ofNat (c.toNat + 32) else c

/-- `str::to_ascii_lowercase`. -/
def toAsciiLowercase (s : String) : String := String.ofList (s.toList.map toAsciiLowercaseChar)

/-- `str::to_ascii_uppercase`. -/
def toAsciiUppercase (s : String) : String :=
  String.ofList (s.toList.map fun c => if 'a' ≤ c ∧ c ≤ 'z' then Char.ofNat (c.toNat - 32) else c)

/-- `char::is_control`. -/
def isControl (c : Char) : Bool := c.toNat < 0x20 || (0x7F ≤ c.toNat && c.toNat ≤ 0x9F)

/-- `str::len`, in bytes. -/
def byteLen (s : List Char) : Nat := (s.map Char.utf8Size).sum

/-- `str::rsplit_once` at a character. -/
def rsplitOnce (s : List Char) (c : Char) : Option (List Char × List Char) :=
  let after := (s.reverse.takeWhile (· ≠ c)).reverse
  if c ∈ s then some (s.take (s.length - after.length - 1), after) else none

/-- `str::find` of a string, by character position. -/
def find (s sub : List Char) : Option Nat :=
  (List.range (s.length + 1)).find? fun i => sub.isPrefixOf (s.drop i)

/-- `str::is_empty`. -/
def isEmpty (s : String) : Bool := s.toList.isEmpty

/-- One character of a `Debug` string. -/
def debugChar (c : Char) : List Char :=
  if c = '"' then ['\\', '"']
  else if c = '\\' then ['\\', '\\']
  else if c = '\n' then ['\\', 'n']
  else if c = '\r' then ['\\', 'r']
  else if c = '\t' then ['\\', 't']
  else if c = Char.ofNat 0 then ['\\', '0']
  else if c.toNat < 32 ∨ c.toNat = 127 then
    ['\\', 'u', Char.ofNat 123] ++ Nat.toDigits 16 c.toNat ++ [Char.ofNat 125]
  else [c]

/-- The `Debug` rendering of a string: quoted, with control characters escaped. -/
def debugString (s : String) : String :=
  String.ofList ('"' :: s.toList.flatMap debugChar ++ ['"'])

/-- `str::trim_start`. -/
def trimStart (s : String) : String := String.ofList (s.toList.dropWhile isWhitespace)

/-- `str::trim_end`. -/
def trimEnd (s : String) : String :=
  String.ofList (s.toList.reverse.dropWhile isWhitespace).reverse

/-- `str::trim_end_matches` of one character. -/
def trimEndMatches (s : String) (c : Char) : String :=
  String.ofList (s.toList.reverse.dropWhile (· == c)).reverse

/-- `str::contains` of a string. -/
def contains (s sub : String) : Bool :=
  (List.range (s.toList.length + 1)).any fun i => sub.toList.isPrefixOf (s.toList.drop i)

/-- `str::replace` of `pat` at each place it stands, after the first `skip` characters. -/
def replaceFrom (pat new : List Char) : Nat → List Char → List Char
  | _, [] => []
  | skip + 1, _ :: rest => replaceFrom pat new skip rest
  | 0, c :: rest =>
    if pat.isPrefixOf (c :: rest) then new ++ replaceFrom pat new (pat.length - 1) rest
    else c :: replaceFrom pat new 0 rest

/-- `str::replace`, on the characters, of a pattern that is not empty. -/
def replace (s pat new : List Char) : List Char := replaceFrom pat new 0 s

/-- `str::match_indices` from a position on, after the first `skip` characters. -/
def matchIndicesFrom (pat : List Char) : Nat → Nat → List Char → List Nat
  | _, _, [] => []
  | pos, skip + 1, _ :: rest => matchIndicesFrom pat (pos + 1) skip rest
  | pos, 0, c :: rest =>
    if pat.isPrefixOf (c :: rest) then pos :: matchIndicesFrom pat (pos + 1) (pat.length - 1) rest
    else matchIndicesFrom pat (pos + 1) 0 rest

/-- `str::match_indices` of a string that is not empty, by character position: no match begins
before the one before it ends. -/
def matchIndices (s pat : List Char) : List Nat := matchIndicesFrom pat 0 0 s

/-- `str::parse::<i64>`: digits, after an optional sign. -/
def parseI64 (s : List Char) : Option Int :=
  let (negative, digits) : Bool × List Char :=
    match s with
    | '-' :: rest => (true, rest)
    | '+' :: rest => (false, rest)
    | digits => (false, digits)
  if digits ≠ [] ∧ digits.all Char.isDigit then
    let n : Int := digits.foldl (fun n c => n * 10 + (c.toNat - '0'.toNat)) 0
    let n := if negative then -n else n
    if -2 ^ 63 ≤ n ∧ n < 2 ^ 63 then some n else none
  else none

/-- `str::strip_prefix`, on the characters. -/
def stripPrefix (s pre : List Char) : Option (List Char) :=
  if pre.isPrefixOf s then some (s.drop pre.length) else none

/-- `str::strip_suffix`, on the characters. -/
def stripSuffix (s suf : List Char) : Option (List Char) :=
  if suf.isSuffixOf s then some (s.take (s.length - suf.length)) else none

/-- `str::split_whitespace`. -/
def splitWhitespace (s : String) : List String :=
  ((s.toList.splitOnP isWhitespace).filter (! ·.isEmpty)).map String.ofList

/-- A line less the `\r` before its newline. -/
def stripCr (piece : List Char) : List Char :=
  if piece.getLast? = some '\r' then piece.dropLast else piece

/-- `str::lines`: each newline ends a line, and what stands behind the last newline is one, as it
is, if it is not empty. -/
def lines (s : String) : List String :=
  let pieces := s.toList.splitOn '\n'
  let last := pieces.getLast?.getD []
  (pieces.dropLast.map stripCr ++ if last.isEmpty then [] else [last]).map String.ofList

/-- `<[&str]>::join`. -/
def join (sep : String) (parts : List String) : String := sep.intercalate parts

/-- The first `max` characters, when there are more. -/
def clipped (s : String) (max : Nat) : Option String :=
  if max < s.toList.length then some (String.ofList (s.toList.take max)) else none

/-- A hexadecimal number in capitals, padded to four digits. -/
def hex4 (n : Nat) : List Char :=
  let digits := (Nat.toDigits 16 n).map Char.toUpper
  List.replicate (4 - digits.length) '0' ++ digits

/-- `is_renderable`: neither a control nor an invisible formatting character. -/
def isRenderable (c : Char) : Bool :=
  let cp := c.toNat
  let control := cp < 0x20 || cp == 0x7F || (0x80 ≤ cp && cp ≤ 0x9F) || cp == 0x2028 || cp == 0x2029
  let invisible :=
    cp == 0x00AD || (0x0600 ≤ cp && cp ≤ 0x0605) || cp == 0x061C || cp == 0x06DD || cp == 0x070F
      || cp == 0x08E2 || cp == 0x110BD || cp == 0x110CD || cp == 0x180E
      || (0x200B ≤ cp && cp ≤ 0x200F) || (0x202A ≤ cp && cp ≤ 0x202E)
      || (0x2060 ≤ cp && cp ≤ 0x2064) || (0x2066 ≤ cp && cp ≤ 0x206F) || cp == 0xFEFF
      || (0xFFF9 ≤ cp && cp ≤ 0xFFFB) || (0x13430 ≤ cp && cp ≤ 0x1343F)
      || (0x1BCA0 ≤ cp && cp ≤ 0x1BCA3) || (0x1D173 ≤ cp && cp ≤ 0x1D17A)
      || (0xE0000 ≤ cp && cp ≤ 0xE007F)
  !control && !invisible

/-- `sanitize_line`: what a line may not carry is spelled out. -/
def sanitizeLine (s : String) : String :=
  String.ofList (s.toList.flatMap fun c =>
    if c ≠ '\n' ∧ c ≠ '\t' ∧ isRenderable c then [c]
    else ['<', 'U', '+'] ++ hex4 c.toNat ++ ['>'])

/-- `sanitize_prose`: the same, but prose keeps its newlines and tabs. -/
def sanitizeProse (s : String) : String :=
  String.ofList (s.toList.flatMap fun c =>
    if c = '\n' ∨ c = '\t' ∨ isRenderable c then [c]
    else ['<', 'U', '+'] ++ hex4 c.toNat ++ ['>'])

theorem isEmpty_eq_decide (s : String) : isEmpty s = decide (s = "") := by
  rw [Bool.eq_iff_iff, isEmpty, List.isEmpty_iff, String.toList_eq_nil_iff, decide_eq_true_iff]

/-! ## Lengths -/

theorem utf8ByteSize_ofList (cs : List Char) : (String.ofList cs).utf8ByteSize = byteLen cs := by
  induction cs with
  | nil => rfl
  | cons c rest ih =>
    rw [String.ofList_cons, String.utf8ByteSize_append, ih]
    simp [byteLen]

theorem length_le_byteLen (cs : List Char) : cs.length ≤ byteLen cs := by
  induction cs with
  | nil => exact Nat.le_refl 0
  | cons c rest ih =>
    have hc := c.utf8Size_pos
    rw [byteLen, List.map_cons, List.sum_cons, List.length_cons]
    change _ ≤ _ + byteLen rest
    omega

theorem length_le_utf8ByteSize (s : String) : s.toList.length ≤ s.utf8ByteSize := by
  rw [← String.ofList_toList (s := s), utf8ByteSize_ofList, String.toList_ofList]
  exact length_le_byteLen _

/-! ## Substrings, letter case and separators -/

theorem find_eq_some {s sub : List Char} {pos : Nat} (h : find s sub = some pos) :
    sub <+: s.drop pos ∧ ∀ i < pos, ¬sub <+: s.drop i := by
  obtain ⟨hfound, -, hbefore⟩ := List.find?_range_eq_some.mp h
  refine ⟨List.isPrefixOf_iff_prefix.mp hfound, fun i hi hpre => ?_⟩
  have hnot := hbefore i hi
  rw [List.isPrefixOf_iff_prefix.mpr hpre] at hnot
  cases hnot

theorem find_eq_none {s sub : List Char} (h : find s sub = none) (i : Nat) : ¬sub <+: s.drop i := by
  intro hpre
  have hall := List.find?_range_eq_none.mp h
  have hnot : ¬sub <+: s.drop (min i s.length) := fun hpre => by
    have hfalse := hall (min i s.length) (by omega)
    rw [List.isPrefixOf_iff_prefix.mpr hpre] at hfalse
    cases hfalse
  rcases Nat.le_total i s.length with hi | hi
  · rw [Nat.min_eq_left hi] at hnot
    exact hnot hpre
  · rw [Nat.min_eq_right hi, List.drop_length] at hnot
    rw [List.drop_eq_nil_of_le hi] at hpre
    exact hnot hpre

/-- Lowercasing turns capitals into other letters and leaves the rest alone. -/
theorem toAsciiLowercaseChar_cases (c : Char) :
    toAsciiLowercaseChar c = c ∨
      c.isAlpha ∧ (toAsciiLowercaseChar c).isAlpha ∧
        toAsciiLowercaseChar (toAsciiLowercaseChar c) = toAsciiLowercaseChar c := by
  by_cases hc : 'A' ≤ c ∧ c ≤ 'Z'
  · have hlow : 65 ≤ c.toNat := hc.1
    have hhigh : c.toNat ≤ 90 := hc.2
    have hletters : ∀ n < 26, (Char.ofNat (n + 65)).isAlpha ∧
        (toAsciiLowercaseChar (Char.ofNat (n + 65))).isAlpha ∧
        toAsciiLowercaseChar (toAsciiLowercaseChar (Char.ofNat (n + 65))) =
          toAsciiLowercaseChar (Char.ofNat (n + 65)) := by decide
    have hcode := hletters (c.toNat - 65) (by omega)
    rw [Nat.sub_add_cancel hlow, Char.ofNat_toNat] at hcode
    exact .inr hcode
  · exact .inl (if_neg hc)

@[simp] theorem toAsciiLowercaseChar_idem (c : Char) :
    toAsciiLowercaseChar (toAsciiLowercaseChar c) = toAsciiLowercaseChar c := by
  rcases toAsciiLowercaseChar_cases c with h | ⟨-, -, h⟩
  · rw [h, h]
  · exact h

/-- Lowercasing neither makes nor removes a character that is not a letter. -/
theorem toAsciiLowercaseChar_eq_iff {c d : Char} (hd : d.isAlpha = false) :
    toAsciiLowercaseChar c = d ↔ c = d := by
  rcases toAsciiLowercaseChar_cases c with h | ⟨hc, hlow, -⟩
  · rw [h]
  · constructor
    · rintro rfl
      rw [hd] at hlow
      cases hlow
    · rintro rfl
      rw [hd] at hc
      cases hc

theorem stripPrefix_eq_some {s pre rest : List Char} (h : stripPrefix s pre = some rest) :
    s = pre ++ rest := by
  unfold stripPrefix at h
  split at h
  next hpre =>
    cases h
    exact (List.prefix_iff_eq_append.mp (List.isPrefixOf_iff_prefix.mp hpre)).symm
  next => cases h

theorem contains_iff {s sub : String} : contains s sub = true ↔ sub.toList <:+: s.toList := by
  unfold contains
  rw [List.any_eq_true]
  constructor
  · rintro ⟨i, -, hpre⟩
    exact (List.isPrefixOf_iff_prefix.mp hpre).isInfix.trans (List.drop_suffix i _).isInfix
  · rintro ⟨before, after, hs⟩
    refine ⟨before.length, List.mem_range.mpr ?_, ?_⟩
    · rw [← hs]
      simp only [List.length_append]
      omega
    · rw [List.isPrefixOf_iff_prefix, ← hs, List.append_assoc, List.drop_left]
      exact List.prefix_append _ _

/-! ## Replacing -/

theorem replaceFrom_eq_drop (pat new : List Char) (n : Nat) (s : List Char) :
    replaceFrom pat new n s = replace (s.drop n) pat new := by
  induction s generalizing n with
  | nil => cases n <;> rfl
  | cons c rest ih =>
    cases n with
    | zero => rfl
    | succ n => exact ih n

section
variable {pat new word : List Char} {mark : Char} {body : List Char}

/-- A word whose first character is not in the replacement stands at a place of the result
only if it stood there before. -/
theorem prefix_replace {s : List Char} (hto : new ≠ []) (hfirst : ∀ c ∈ new.head?, c ∉ word)
    (h : word <+: replace s pat new) : word <+: s := by
  induction word generalizing s with
  | nil => exact List.nil_prefix
  | cons d word ih =>
    cases s with
    | nil => exact h
    | cons c rest =>
      rw [replace, replaceFrom] at h
      split at h
      next =>
        obtain ⟨r, new', rfl⟩ := List.exists_cons_of_ne_nil hto
        rw [List.cons_append, List.cons_prefix_cons] at h
        exact absurd (h.1 ▸ List.mem_cons_self) (hfirst r rfl)
      next =>
        rw [List.cons_prefix_cons] at h
        obtain ⟨rfl, hrest⟩ := h
        exact List.cons_prefix_cons.mpr
          ⟨rfl, ih (fun r hr hmem => hfirst r hr (List.mem_cons_of_mem _ hmem)) hrest⟩

/-- A word that begins with a mark the replacement lacks begins at a place of the source. -/
theorem infix_replace {s : List Char} (hpat : pat ≠ []) (hword : word = mark :: body) (hto : mark ∉ new)
    (h : word <:+: replace s pat new) : ∃ i, word <+: replace (s.drop i) pat new := by
  induction hn : s.length using Nat.strongRecOn generalizing s with
  | _ n ih =>
    cases s with
    | nil =>
      subst hword
      simp [replace, replaceFrom] at h
    | cons c rest =>
      by_cases hstands : pat.isPrefixOf (c :: rest) = true
      · have hreplace : replace (c :: rest) pat new =
            new ++ replace ((c :: rest).drop pat.length) pat new := by
          rw [replace, replaceFrom, if_pos hstands, replaceFrom_eq_drop]
          obtain ⟨p, pat', rfl⟩ := List.exists_cons_of_ne_nil hpat
          rfl
        rw [hreplace] at h
        obtain ⟨before, after, hsplit⟩ := h
        -- The mark is not in the replacement, so the word begins after it.
        have hlonger : new.length ≤ before.length := by
          by_contra hshort
          have hmark : (new ++ replace ((c :: rest).drop pat.length) pat new)[before.length]? = some mark := by
            rw [← hsplit, hword]
            simp
          rw [List.getElem?_append_left (by omega)] at hmark
          exact hto (List.mem_of_getElem? hmark)
        have hlater : word <:+: replace ((c :: rest).drop pat.length) pat new := by
          have hdrop := congrArg (List.drop new.length) hsplit
          rw [List.drop_left, List.append_assoc, List.drop_append_of_le_length hlonger] at hdrop
          exact ⟨before.drop new.length, after, by rw [List.append_assoc]; exact hdrop⟩
        have hlen : 0 < pat.length := List.length_pos_iff.mpr hpat
        obtain ⟨i, hi⟩ := ih _ (by rw [← hn, List.length_drop, List.length_cons]; omega) hlater rfl
        exact ⟨pat.length + i, by rwa [List.drop_drop] at hi⟩
      · have hreplace : replace (c :: rest) pat new = c :: replace rest pat new := by
          rw [replace, replaceFrom, if_neg hstands]
          rfl
        rw [hreplace] at h
        rcases List.infix_cons_iff.mp h with hpre | hlater
        · exact ⟨0, by rw [List.drop_zero, hreplace]; exact hpre⟩
        · obtain ⟨i, hi⟩ := ih _ (by rw [← hn]; simp) hlater rfl
          exact ⟨i + 1, hi⟩

/-- Replacing makes no new word that begins with a mark and has nothing of the replacement. -/
theorem infix_of_infix_replace {s : List Char} (hpat : pat ≠ []) (hne : new ≠ [])
    (hword : word = mark :: body) (hto : mark ∉ new) (hfirst : ∀ c ∈ new.head?, c ∉ word)
    (h : word <:+: replace s pat new) : word <:+: s := by
  obtain ⟨i, hi⟩ := infix_replace hpat hword hto h
  exact (prefix_replace hne hfirst hi).isInfix.trans (List.drop_suffix i s).isInfix

/-- What was replaced is gone. -/
theorem not_infix_replace {s : List Char} (hne : new ≠ []) (hpat : pat = mark :: body) (hto : mark ∉ new)
    (hfirst : ∀ c ∈ new.head?, c ∉ pat) : ¬pat <:+: replace s pat new := by
  intro h
  obtain ⟨i, hi⟩ := infix_replace (by simp [hpat]) hpat hto h
  have hstands := prefix_replace hne hfirst hi
  cases hs : s.drop i with
  | nil =>
    rw [hs, hpat] at hstands
    cases List.prefix_nil.mp hstands
  | cons c rest =>
    rw [hs] at hi hstands
    rw [replace, replaceFrom, if_pos (List.isPrefixOf_iff_prefix.mpr hstands)] at hi
    obtain ⟨r, new', rfl⟩ := List.exists_cons_of_ne_nil hne
    rw [hpat, List.cons_append, List.cons_prefix_cons] at hi
    exact hto (hi.1 ▸ List.mem_cons_self)

/-- What is not there is not replaced. -/
theorem replace_of_not_infix {s : List Char} (h : ¬pat <:+: s) : replace s pat new = s := by
  induction s with
  | nil => rfl
  | cons c rest ih =>
    have hfirst : ¬pat.isPrefixOf (c :: rest) = true := fun hpre => h (List.isPrefixOf_iff_prefix.mp hpre).isInfix
    rw [replace, replaceFrom, if_neg hfirst]
    exact congrArg (c :: ·) (ih fun hrest => h (hrest.trans (List.suffix_cons c rest).isInfix))

end

/-! ## Numbers -/

theorem toDigits_injective {i j : Nat} (h : Nat.toDigits 10 i = Nat.toDigits 10 j) : i = j := by
  have := congrArg (fun ds => Nat.ofDigitChars 10 ds 0) h
  simpa using this

/-! ## Splitting -/

/-- The pieces of a list are made of its elements, and hold none that ends a piece. -/
theorem of_mem_splitOnP {p : Char → Bool} {cs part : List Char} (h : part ∈ cs.splitOnP p) :
    ∀ c ∈ part, c ∈ cs ∧ p c = false := by
  induction cs generalizing part with
  | nil =>
    rw [List.splitOnP_nil, List.mem_singleton] at h
    rw [h]
    exact nofun
  | cons c cs ih =>
    have htail {part : List Char} (hpart : part ∈ cs.splitOnP p) :
        ∀ d ∈ part, d ∈ c :: cs ∧ p d = false :=
      fun d hd => ⟨List.mem_cons_of_mem _ (ih hpart d hd).1, (ih hpart d hd).2⟩
    rw [List.splitOnP_cons_eq_if_modifyHead] at h
    cases hc : p c with
    | true =>
      rw [hc, if_pos rfl] at h
      rcases List.mem_cons.mp h with rfl | h
      · exact nofun
      · exact htail h
    | false =>
      rw [hc, if_neg Bool.false_ne_true] at h
      obtain ⟨first, more, hsplit⟩ := List.exists_cons_of_ne_nil (List.splitOnP_ne_nil p cs)
      rw [hsplit, List.modifyHead_cons] at h
      rcases List.mem_cons.mp h with rfl | h
      · refine List.forall_mem_cons.mpr ⟨⟨List.mem_cons_self, hc⟩, ?_⟩
        exact htail (by rw [hsplit]; exact List.mem_cons_self)
      · exact htail (by rw [hsplit]; exact List.mem_cons_of_mem _ h)

theorem mem_splitOn {sep c : Char} {cs : List Char} (h : c ∈ cs) (hne : c ≠ sep) :
    ∃ part ∈ cs.splitOn sep, c ∈ part := by
  induction cs with
  | nil => cases h
  | cons d cs ih =>
    rw [List.splitOn, List.splitOnP_cons_eq_if_modifyHead]
    have hrest := List.splitOnP_ne_nil (· == sep) cs
    split
    next hsep =>
      have hd : c ≠ d := fun heq => hne (by simpa [heq] using hsep)
      obtain ⟨part, hpart, hc⟩ := ih ((List.mem_cons.mp h).resolve_left hd)
      exact ⟨part, List.mem_cons_of_mem _ hpart, hc⟩
    next =>
      cases hparts : cs.splitOnP (· == sep) with
      | nil => exact absurd hparts hrest
      | cons first more =>
        rcases List.mem_cons.mp h with rfl | hc
        · exact ⟨c :: first, by simp, by simp⟩
        · obtain ⟨part, hpart, hmem⟩ := ih hc
          rw [List.splitOn, hparts] at hpart
          rcases List.mem_cons.mp hpart with rfl | hpart
          · exact ⟨d :: part, by simp, List.mem_cons_of_mem _ hmem⟩
          · exact ⟨part, List.mem_cons_of_mem _ hpart, hmem⟩

theorem rsplitOnce_eq_none {s : List Char} {c : Char} : rsplitOnce s c = none ↔ c ∉ s := by
  simp [rsplitOnce]

theorem rsplitOnce_append {before after : List Char} {c : Char} (h : c ∉ after) :
    rsplitOnce (before ++ c :: after) c = some (before, after) := by
  have htake : (before ++ c :: after).reverse.takeWhile (· ≠ c) = after.reverse := by
    have hrev : (before ++ c :: after).reverse = after.reverse ++ c :: before.reverse := by simp
    rw [hrev, List.takeWhile_append_of_pos]
    · simp
    · intro d hd
      simpa using fun heq : d = c => h (heq ▸ List.mem_reverse.mp hd)
  have hlen : (before ++ c :: after).length - after.reverse.reverse.length - 1 = before.length := by
    simp only [List.length_append, List.length_cons, List.length_reverse]
    omega
  unfold rsplitOnce
  rw [htake, if_pos (by simp)]
  show some (List.take _ _, _) = _
  rw [hlen, List.take_left, List.reverse_reverse]

/-- The split is at the last of the separators. -/
theorem rsplitOnce_eq_some {s before after : List Char} {c : Char}
    (h : rsplitOnce s c = some (before, after)) : s = before ++ c :: after ∧ c ∉ after := by
  have hmem : c ∈ s := by
    by_contra hnone
    rw [rsplitOnce_eq_none.mpr hnone] at h
    cases h
  obtain ⟨after', before', hrev, hnone⟩ := List.eq_append_cons_of_mem (List.mem_reverse.mpr hmem)
  have hs : s = before'.reverse ++ c :: after'.reverse := by
    rw [← List.reverse_reverse s, hrev]
    simp
  rw [hs, rsplitOnce_append (by simpa using hnone)] at h
  cases h
  exact ⟨hs, by simpa using hnone⟩

/-! ## Trimming -/

/-- What is left once the front is stripped does not begin with what was stripped. -/
theorem dropWhile_of_prefix {p : Char → Bool} {s t : List Char} (h : t <+: s.dropWhile p) :
    t.dropWhile p = t := by
  cases t with
  | nil => rfl
  | cons c t =>
    obtain ⟨more, hmore⟩ := h
    have hc : p c = false := by
      have hhead := List.head?_dropWhile_not p s
      rw [← hmore] at hhead
      simpa using hhead
    rw [List.dropWhile_cons_of_neg (by simp [hc])]

/-- Without whitespace there is nothing to trim. -/
theorem trim_of_forall {s : String} (h : ∀ c ∈ s.toList, isWhitespace c = false) : trim s = s := by
  have hfront : s.toList.dropWhile isWhitespace = s.toList := by
    cases hs : s.toList with
    | nil => rfl
    | cons c cs => rw [List.dropWhile_cons_of_neg (by simp [h c (by simp [hs])])]
  have hback : s.toList.reverse.dropWhile isWhitespace = s.toList.reverse := by
    cases hs : s.toList.reverse with
    | nil => rfl
    | cons c cs =>
      have hc : c ∈ s.toList := by
        rw [← List.mem_reverse, hs]
        exact List.mem_cons_self
      rw [List.dropWhile_cons_of_neg (by simp [h c hc])]
  rw [trim, hfront, hback, List.reverse_reverse, String.ofList_toList]

@[simp] theorem trim_trim (s : String) : trim (trim s) = trim s := by
  have hfront : (s.toList.dropWhile isWhitespace).reverse.dropWhile isWhitespace <:+
      (s.toList.dropWhile isWhitespace).reverse := List.dropWhile_suffix _
  have hprefix := List.reverse_prefix.mpr hfront
  rw [List.reverse_reverse] at hprefix
  have hback : ((s.toList.dropWhile isWhitespace).reverse.dropWhile isWhitespace).dropWhile isWhitespace =
      (s.toList.dropWhile isWhitespace).reverse.dropWhile isWhitespace :=
    dropWhile_of_prefix List.prefix_rfl
  simp only [trim, String.toList_ofList, dropWhile_of_prefix hprefix, List.reverse_reverse, hback]

/-- Whitespace behind a text is trimmed with it. -/
theorem trim_append_blank {s t : String} (ht : ∀ c ∈ t.toList, isWhitespace c = true) :
    trim (s ++ t) = trim s := by
  have hend : ∀ cs : List Char, ((cs ++ t.toList).reverse.dropWhile isWhitespace).reverse =
      (cs.reverse.dropWhile isWhitespace).reverse := fun cs => by
    rw [List.reverse_append, List.dropWhile_append_of_pos fun c hc => ht c (List.mem_reverse.mp hc)]
  have hblank : t.toList.dropWhile isWhitespace = [] := List.dropWhile_eq_nil_iff.mpr ht
  simp only [trim, String.toList_append, List.dropWhile_append]
  split
  next hnone => rw [List.isEmpty_iff.mp hnone, hblank]
  next => rw [hend]

theorem stripCr_of_getLast? {piece : List Char} (h : piece.getLast? ≠ some '\r') :
    stripCr piece = piece := if_neg h

/-- Lines that hold no newline, written one after the other and without a last newline. -/
theorem lines_intercalate {front : List (List Char)} {last : List Char}
    (hfront : ∀ line ∈ front, '\n' ∉ line ∧ line.getLast? ≠ some '\r') (hlast : '\n' ∉ last)
    (hne : last ≠ []) : lines (String.ofList (['\n'].intercalate (front ++ [last]))) =
      (front ++ [last]).map String.ofList := by
  have hsplit : (['\n'].intercalate (front ++ [last])).splitOn '\n' = front ++ [last] := by
    refine List.splitOn_intercalate _ (fun line hline => ?_) (by simp)
    rcases List.mem_append.mp hline with hline | hline
    · exact (hfront line hline).1
    · exact List.mem_singleton.mp hline ▸ hlast
  have hstrip : front.map stripCr = front.map id :=
    List.map_congr_left fun line hline => stripCr_of_getLast? (hfront line hline).2
  rw [List.map_id] at hstrip
  unfold lines
  rw [String.toList_ofList, hsplit]
  simp [hstrip, hne]

theorem mem_lines {s line : String} (h : line ∈ lines s) :
    ∀ c ∈ line.toList, c ∈ s.toList ∧ c ≠ '\n' := by
  obtain ⟨piece, hpiece, rfl⟩ := List.mem_map.mp h
  have hof {part : List Char} (hpart : part ∈ s.toList.splitOn '\n') :
      ∀ c ∈ part, c ∈ s.toList ∧ c ≠ '\n' := fun c hc => by
    obtain ⟨hmem, hne⟩ := of_mem_splitOnP hpart c hc
    exact ⟨hmem, by simpa using hne⟩
  rw [String.toList_ofList]
  rcases List.mem_append.mp hpiece with hpiece | hpiece
  · obtain ⟨part, hpart, rfl⟩ := List.mem_map.mp hpiece
    intro c hc
    refine hof (List.dropLast_subset _ hpart) c ?_
    unfold stripCr at hc
    split at hc
    · exact List.dropLast_subset _ hc
    · exact hc
  · split at hpiece
    · cases hpiece
    · rw [List.mem_singleton.mp hpiece]
      cases hlast : (s.toList.splitOn '\n').getLast? with
      | none => exact nofun
      | some part => exact hof (List.mem_of_getLast? hlast)

theorem code_of_isDigit {c : Char} (h : c.isDigit = true) : 0x30 ≤ c.toNat ∧ c.toNat ≤ 0x39 := by
  obtain ⟨hlow, hhigh⟩ := Bool.and_eq_true_iff.mp h
  have hlow := UInt32.le_iff_toNat_le.mp (of_decide_eq_true hlow)
  have hhigh := UInt32.le_iff_toNat_le.mp (of_decide_eq_true hhigh)
  exact ⟨hlow, hhigh⟩

theorem code_of_isAlpha {c : Char} (h : c.isAlpha = true) :
    0x41 ≤ c.toNat ∧ c.toNat ≤ 0x5A ∨ 0x61 ≤ c.toNat ∧ c.toNat ≤ 0x7A := by
  rcases Bool.or_eq_true_iff.mp h with hupper | hlower
  · have hbounds := of_decide_eq_true hupper
    have hlow := UInt32.le_iff_toNat_le.mp hbounds.1
    have hhigh := UInt32.le_iff_toNat_le.mp hbounds.2
    exact .inl ⟨hlow, hhigh⟩
  · obtain ⟨hlow, hhigh⟩ := Bool.and_eq_true_iff.mp hlower
    have hlow := UInt32.le_iff_toNat_le.mp (of_decide_eq_true hlow)
    have hhigh := UInt32.le_iff_toNat_le.mp (of_decide_eq_true hhigh)
    exact .inr ⟨hlow, hhigh⟩

theorem code_of_isAlphanum {c : Char} (h : c.isAlphanum = true) :
    0x30 ≤ c.toNat ∧ c.toNat ≤ 0x39 ∨ 0x41 ≤ c.toNat ∧ c.toNat ≤ 0x5A ∨ 0x61 ≤ c.toNat ∧ c.toNat ≤ 0x7A := by
  rcases Bool.or_eq_true_iff.mp h with halpha | hdigit
  · exact .inr (code_of_isAlpha halpha)
  · exact .inl (code_of_isDigit hdigit)

@[simp] theorem isWhitespace_toAsciiLowercaseChar (c : Char) :
    isWhitespace (toAsciiLowercaseChar c) = isWhitespace c := by
  have hletter : ∀ d : Char, d.isAlpha → isWhitespace d = false := by
    intro d hd
    have hcode := code_of_isAlpha hd
    simp only [isWhitespace, Bool.or_eq_false_iff, Bool.and_eq_false_iff, decide_eq_false_iff_not,
      beq_eq_false_iff_ne]
    omega
  rcases toAsciiLowercaseChar_cases c with h | ⟨hc, hlow, -⟩
  · rw [h]
  · rw [hletter _ hc, hletter _ hlow]

theorem trim_toAsciiLowercase (s : String) :
    trim (toAsciiLowercase s) = toAsciiLowercase (trim s) := by
  have hdrop : ∀ cs : List Char, (cs.map toAsciiLowercaseChar).dropWhile isWhitespace =
      (cs.dropWhile isWhitespace).map toAsciiLowercaseChar := by
    intro cs
    have hsame : isWhitespace ∘ toAsciiLowercaseChar = isWhitespace :=
      funext isWhitespace_toAsciiLowercaseChar
    rw [List.dropWhile_map, hsame]
  simp only [trim, toAsciiLowercase, String.toList_ofList, hdrop, ← List.map_reverse]

end MarloweAgent.Contract.Text
