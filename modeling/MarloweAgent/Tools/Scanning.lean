import MarloweAgent.Tools.FrontMatter

/-! The scans of the front matter, one by one: where the scan for a comment ends, and what the key, the
scalars and the lists of a line come to when the text behind them goes on. -/

namespace MarloweAgent.Tools.FrontMatter
open Contract Library

/-! ## Trimming -/

theorem rdropWhile_append_cons {p : Char → Bool} {c : Char} (hc : p c = false) (before after : List Char) :
    (before ++ c :: after).rdropWhile p = before ++ c :: after.rdropWhile p := by
  simp only [List.rdropWhile, List.reverse_append, List.reverse_cons, List.append_assoc,
    List.dropWhile_append, List.isEmpty_iff]
  split
  next h => simp [h, hc]
  next => simp

theorem dropWhile_append_left {p : Char → Bool} {s : List Char} (hs : s.dropWhile p ≠ []) (t : List Char) :
    (s ++ t).dropWhile p = s.dropWhile p ++ t := by
  rw [List.dropWhile_append, if_neg (by simpa using hs)]

theorem takeWhile_append_left {p : Char → Bool} {s : List Char} (hs : s.dropWhile p ≠ []) (t : List Char) :
    (s ++ t).takeWhile p = s.takeWhile p := by
  rw [List.takeWhile_append, if_neg]
  intro hlen
  have h := List.takeWhile_append_dropWhile (p := p) (l := s)
  have hl := congrArg List.length h
  rw [List.length_append, hlen] at hl
  exact hs (List.length_eq_zero_iff.mp (by omega))

theorem exists_trimEnd (s : List Char) :
    ∃ blank, s = trimEnd s ++ blank ∧ ∀ c ∈ blank, Text.isWhitespace c = true :=
  ⟨s.rtakeWhile Text.isWhitespace, List.rdropWhile_append_rtakeWhile.symm,
    fun _ hc => List.mem_rtakeWhile_imp hc⟩

theorem trimEnd_append_blank {blank : List Char} (s : List Char)
    (h : ∀ c ∈ blank, Text.isWhitespace c = true) : trimEnd (s ++ blank) = trimEnd s := by
  simp only [trimEnd, List.rdropWhile, List.reverse_append]
  rw [List.dropWhile_append_of_pos (by simpa using h)]

theorem isWhitespace_of_trimStart_eq_cons {s rest : List Char} {c : Char} (h : trimStart s = c :: rest) :
    Text.isWhitespace c = false := by
  have hn := List.head?_dropWhile_not Text.isWhitespace s
  rw [show List.dropWhile Text.isWhitespace s = c :: rest from h] at hn
  simpa using hn

theorem trim_eq_nil_iff {s : List Char} : trim s = [] ↔ trimStart s = [] := by
  constructor
  · intro h
    cases hd : trimStart s with
    | nil => rfl
    | cons c rest =>
      have hall := List.rdropWhile_eq_nil_iff.mp (show (trimStart s).rdropWhile _ = [] from h)
      rw [hd] at hall
      have hc := hall c List.mem_cons_self
      rw [isWhitespace_of_trimStart_eq_cons hd] at hc
      cases hc
  · intro h
    rw [trim, h]
    rfl

/-! ## The scan of `strip_comment` -/

/-- Where the scan ends: at a comment, or behind the last character, in a quote or outside one. -/
def scanFrom : Option Char → Bool → List Char → Option (Option Char)
  | quote, _, [] => some quote
  | some q, _, c :: rest => scanFrom (if c = q then none else some q) (isBlank c) rest
  | none, prevSpace, c :: rest =>
    if c = '"' ∨ c = '\'' then scanFrom (some c) (isBlank c) rest
    else if c = '#' ∧ prevSpace then none
    else scanFrom none (isBlank c) rest

def scan (s : List Char) : Option (Option Char) := scanFrom none true s

theorem stripFrom_of_scanFrom_some {s : List Char} {quote ends : Option Char} {prevSpace : Bool}
    (h : scanFrom quote prevSpace s = some ends) :
    ∃ blank, ∀ t, stripFrom quote prevSpace (s ++ t) = s ++ stripFrom ends blank t := by
  induction s generalizing quote prevSpace with
  | nil =>
    obtain rfl : quote = ends := by cases quote <;> exact Option.some.inj h
    exact ⟨prevSpace, fun t => rfl⟩
  | cons c rest ih =>
    cases quote with
    | some q =>
      obtain ⟨blank, hb⟩ := ih h
      exact ⟨blank, fun t => congrArg (c :: ·) (hb t)⟩
    | none =>
      simp only [scanFrom] at h
      simp only [List.cons_append, stripFrom]
      split at h
      next hq =>
        obtain ⟨blank, hb⟩ := ih h
        exact ⟨blank, fun t => by rw [if_pos hq, hb t]⟩
      next hq =>
        split at h
        next => cases h
        next hc =>
          obtain ⟨blank, hb⟩ := ih h
          exact ⟨blank, fun t => by rw [if_neg hq, if_neg hc, hb t]⟩

/-- A comment once found is where the line ends, whatever stands behind it. -/
theorem stripFrom_of_scanFrom_none {s : List Char} {quote : Option Char} {prevSpace : Bool}
    (h : scanFrom quote prevSpace s = none) :
    ∃ kept cut, s = kept ++ '#' :: cut ∧ ∀ t, stripFrom quote prevSpace (s ++ t) = kept := by
  induction s generalizing quote prevSpace with
  | nil => cases quote <;> cases h
  | cons c rest ih =>
    cases quote with
    | some q =>
      obtain ⟨kept, cut, rfl, hk⟩ := ih h
      exact ⟨c :: kept, cut, rfl, fun t => congrArg (c :: ·) (hk t)⟩
    | none =>
      simp only [scanFrom] at h
      simp only [List.cons_append, stripFrom]
      split at h
      next hq =>
        obtain ⟨kept, cut, rfl, hk⟩ := ih h
        exact ⟨c :: kept, cut, rfl, fun t => by rw [if_pos hq, hk t]⟩
      next hq =>
        split at h
        next hc => exact ⟨[], rest, by rw [hc.1]; rfl, fun t => by rw [if_neg hq, if_pos hc]⟩
        next hc =>
          obtain ⟨kept, cut, rfl, hk⟩ := ih h
          exact ⟨c :: kept, cut, rfl, fun t => by rw [if_neg hq, if_neg hc, hk t]⟩

theorem stripComment_of_scan_some {s : List Char} {ends : Option Char} (h : scan s = some ends) :
    stripComment s = s := by
  obtain ⟨prevSpace, hkept⟩ := stripFrom_of_scanFrom_some h
  have hself := hkept []
  rwa [List.append_nil, stripFrom, List.append_nil] at hself

theorem stripComment_of_scan_none {s : List Char} (h : scan s = none) :
    ∃ kept cut, s = kept ++ '#' :: cut ∧ stripComment s = kept ∧ ∀ t, stripComment (s ++ t) = kept := by
  obtain ⟨kept, cut, heq, hkept⟩ := stripFrom_of_scanFrom_none h
  have hself := hkept []
  rw [List.append_nil] at hself
  exact ⟨kept, cut, heq, hself, hkept⟩

theorem quote_of_scanFrom {s : List Char} {quote : Option Char} {prevSpace : Bool} {q : Char}
    (h : scanFrom quote prevSpace s = some (some q)) : quote = some q ∨ q = '"' ∨ q = '\'' := by
  induction s generalizing quote prevSpace with
  | nil => exact .inl (by cases quote <;> exact Option.some.inj h)
  | cons c rest ih =>
    cases quote with
    | some d =>
      rcases ih h with hd | hq
      · split at hd
        next => cases hd
        next => exact .inl hd
      · exact .inr hq
    | none =>
      simp only [scanFrom] at h
      split at h
      next hc =>
        rcases ih h with hd | hq
        · cases hd
          exact .inr hc
        · exact .inr hq
      next =>
        split at h
        next => cases h
        next =>
          rcases ih h with hd | hq
          · cases hd
          · exact .inr hq

theorem stripFrom_comment {crs : List Char} (hcrs : ∀ c ∈ crs, c = '\r') (prevSpace : Bool) (text : List Char) :
    stripFrom none prevSpace (crs ++ ' ' :: '#' :: text) = crs ++ [' '] := by
  induction crs generalizing prevSpace with
  | nil => rfl
  | cons c crs ih =>
    obtain rfl := hcrs c List.mem_cons_self
    exact congrArg ('\r' :: ·) (ih (fun d hd => hcrs d (List.mem_cons_of_mem _ hd)) false)

/-- Inside a quote the comment is text like any other, up to where that quote ends. -/
theorem stripFrom_quoted_comment {crs : List Char} {q : Char} (hcrs : ∀ c ∈ crs, c = '\r')
    (hq : q = '"' ∨ q = '\'') (prevSpace : Bool) (text : List Char) :
    stripFrom (some q) prevSpace (crs ++ ' ' :: '#' :: text) =
      crs ++ ' ' :: '#' :: stripFrom (some q) false text := by
  induction crs generalizing prevSpace with
  | nil => obtain rfl | rfl := hq <;> rfl
  | cons c crs ih =>
    obtain rfl := hcrs c List.mem_cons_self
    have hne : ¬ '\r' = q := by obtain rfl | rfl := hq <;> decide
    simp only [List.cons_append, stripFrom, if_neg hne]
    exact congrArg ('\r' :: ·) (ih (fun d hd => hcrs d (List.mem_cons_of_mem _ hd)) _)

/-- What the scan looks at: the line less its carriage returns and its indentation. -/
def scanned (raw : List Char) : List Char := trimStart (trimCr raw)

/-! ## Values -/

theorem stripSuffix_eq_some {s t : List Char} {q : Char} :
    Text.stripSuffix s [q] = some t ↔ s = t ++ [q] := by
  unfold Text.stripSuffix
  constructor
  · intro h
    split at h
    next hsuf =>
      obtain ⟨u, rfl⟩ := List.isSuffixOf_iff_suffix.mp hsuf
      cases h
      simp
    next => cases h
  · rintro rfl
    simp [List.isSuffixOf_iff_suffix]

/-- A closing character that still closes what was made longer stands inside it as well. -/
theorem closed_longer {s t more : List Char} {q : Char} (h : s ++ [q] ++ more = t ++ [q]) (hmore : '#' ∈ more)
    (hq : q ≠ '#') : ∃ mid, '#' ∈ mid ∧ t = s ++ q :: mid := by
  obtain ⟨mid, last, rfl⟩ := List.eq_nil_or_concat' more |>.resolve_left (List.ne_nil_of_mem hmore)
  rw [← List.append_assoc] at h
  obtain ⟨h, hlast⟩ := List.append_inj' h rfl
  obtain rfl : last = q := by simpa using hlast
  refine ⟨mid, ?_, by rw [← h]; simp⟩
  rcases List.mem_append.mp hmore with hm | hm
  · exact hm
  · exact absurd (List.mem_singleton.mp hm).symm hq

theorem countP_replaceFrom {p : Char → Bool} (hp : p '\'' = false) (skip : Nat) (s : List Char) :
    (Text.replaceFrom "''".toList ['\''] skip s).countP p = (s.drop skip).countP p := by
  induction s generalizing skip with
  | nil => cases skip <;> rfl
  | cons c rest ih =>
    cases skip with
    | succ skip => exact ih skip
    | zero =>
      simp only [Text.replaceFrom]
      split
      next h =>
        obtain ⟨after, ha⟩ := List.isPrefixOf_iff_prefix.mp h
        obtain ⟨rfl, rfl⟩ : '\'' = c ∧ '\'' :: after = rest := by simpa using ha
        rw [List.countP_append, ih]
        simp [hp]
      next => rw [List.countP_cons, ih, List.drop_zero, List.drop_zero, List.countP_cons]

theorem utf8Size_of_hexDigit {c : Char} {n : Nat} (h : hexDigit c = some n) : c.utf8Size = 1 := by
  have hdigits : ∀ n ∈ List.range 16, (Nat.digitChar n).val ≤ 127 := by decide
  have hlower : Nat.digitChar n = c.toLower := by simpa using List.find?_some h
  have hsmall := hdigits n (List.mem_of_find?_eq_some h)
  rw [hlower] at hsmall
  rw [Char.utf8Size_eq_one_iff]
  by_cases hupper : c.val ≥ 'A'.val ∧ c.val ≤ 'Z'.val
  · exact UInt32.le_trans hupper.2 (by decide)
  · have hkept : c.toLower = c := dif_neg hupper
    rwa [hkept] at hsmall

theorem byteLen_of_ascii {s : List Char} (h : ∀ c ∈ s, c.utf8Size = 1) : Text.byteLen s = s.length := by
  rw [Text.byteLen, List.map_congr_left h]
  simp

theorem ascii_of_foldlM {digits : List Char} {n code : Nat}
    (h : digits.foldlM (fun n c => (hexDigit c).map (n * 16 + ·)) n = some code) :
    ∀ c ∈ digits, c.utf8Size = 1 := by
  induction digits generalizing n with
  | nil => exact fun c hc => nomatch hc
  | cons d rest ih =>
    rw [List.foldlM_cons] at h
    cases hd : hexDigit d with
    | none =>
      rw [hd] at h
      cases h
    | some k =>
      rw [hd] at h
      intro c hc
      rcases List.mem_cons.mp hc with rfl | hc
      · exact utf8Size_of_hexDigit hd
      · exact ih h c hc

theorem byteLen_of_hexValue {hex : List Char} {code : Nat} (h : hexValue hex = some code) :
    Text.byteLen hex = hex.length := by
  unfold hexValue at h
  dsimp only at h
  split at h
  next => cases h
  next =>
    have hascii := ascii_of_foldlM h
    refine byteLen_of_ascii fun c hc => ?_
    cases hp : Text.stripPrefix hex ['+'] with
    | none =>
      rw [hp] at hascii
      exact hascii c hc
    | some digits =>
      rw [hp] at hascii
      rw [Text.stripPrefix_eq_some hp] at hc
      rcases List.mem_cons.mp hc with rfl | hc
      · decide
      · exact hascii c hc

theorem length_of_unicodeEscape {hex : List Char} {no : Nat} {c : Char}
    (h : unicodeEscape hex no = .ok c) : hex.length = 4 := by
  unfold unicodeEscape at h
  split at h
  next => cases h
  next hlen =>
    split at h
    next => cases h
    next code hcode =>
      rw [← byteLen_of_hexValue hcode]
      simpa using hlen

theorem unescapeFrom_unicode (no : Nat) (rest : List Char) :
    unescapeFrom no 0 ('\\' :: 'u' :: rest) =
      unicodeEscape (rest.take 4) no >>= fun c => (unescapeFrom no 4 rest).map (c :: ·) := rfl

theorem unescapeFrom_escape {e c : Char} (he : e ≠ 'u') (hc : escapes.lookup e = some c) (no : Nat)
    (rest : List Char) :
    unescapeFrom no 0 ('\\' :: e :: rest) = (unescapeFrom no 0 rest).map (c :: ·) := by
  rw [unescapeFrom, if_neg (by simp)]
  simp only [List.head?_cons, hc]
  rfl

/-- What a backslash can stand before. -/
theorem escape_cases {no : Nat} {rest x : List Char} (h : unescapeFrom no 0 ('\\' :: rest) = .ok x) :
    (∃ hex c, rest = 'u' :: hex ∧ unicodeEscape (hex.take 4) no = .ok c) ∨
      ∃ e after c, rest = e :: after ∧ e ≠ 'u' ∧ escapes.lookup e = some c := by
  cases rest with
  | nil => cases h
  | cons e after =>
    by_cases he : e = 'u'
    · subst he
      rw [unescapeFrom_unicode] at h
      obtain ⟨c, hc, -⟩ := bind_eq_ok h
      exact .inl ⟨after, c, rfl, hc⟩
    · refine .inr ⟨e, after, ?_⟩
      rw [unescapeFrom, if_neg (by simp)] at h
      simp only [List.head?_cons] at h
      split at h
      next c hc => exact ⟨c, rfl, he, hc⟩
      next => cases h

/-- What is unescaped is unescaped alike with more behind it: no escape reaches into it. -/
theorem unescapeFrom_append {no skip : Nat} {s x : List Char} (h : unescapeFrom no skip s = .ok x)
    (hskip : skip ≤ s.length) (t : List Char) :
    unescapeFrom no skip (s ++ t) = (unescapeFrom no 0 t).map (x ++ ·) := by
  have hcons : ∀ (y : List Char) (c : Char), ((unescapeFrom no 0 t).map (y ++ ·)).map (c :: ·) =
      (unescapeFrom no 0 t).map (c :: y ++ ·) := fun y c => by cases unescapeFrom no 0 t <;> rfl
  induction hn : s.length using Nat.strong_induction_on generalizing skip s x with
  | _ n ih =>
    cases s with
    | nil =>
      obtain rfl : skip = 0 := by simpa using hskip
      cases h
      rw [List.nil_append]
      cases unescapeFrom no 0 t <;> rfl
    | cons c rest =>
      have hlen : rest.length < n := by simp [← hn]
      cases skip with
      | succ skip =>
        have hrest : unescapeFrom no skip rest = .ok x := h
        have happ := ih rest.length hlen hrest (by simpa using hskip) rfl
        exact happ
      | zero =>
        by_cases hc : c = '\\'
        · subst hc
          obtain ⟨hex, c, rfl, hu⟩ | ⟨e, after, c, rfl, he, hlook⟩ := escape_cases h
          · have h4 : 4 ≤ hex.length := by
              have := length_of_unicodeEscape hu
              rw [List.length_take] at this
              omega
            rw [unescapeFrom_unicode, hu] at h
            obtain ⟨y, hy, rfl⟩ := map_eq_ok h
            rw [List.cons_append, List.cons_append, unescapeFrom_unicode, List.take_append_of_le_length h4, hu]
            show (unescapeFrom no 4 (hex ++ t)).map (c :: ·) = _
            rw [ih hex.length (by simp at hlen; omega) hy h4 rfl]
            exact hcons y c
          · rw [unescapeFrom_escape he hlook] at h
            obtain ⟨y, hy, rfl⟩ := map_eq_ok h
            rw [List.cons_append, List.cons_append, unescapeFrom_escape he hlook,
              ih after.length (by simp at hlen; omega) hy (Nat.zero_le _) rfl]
            exact hcons y c
        · rw [unescapeFrom, if_pos hc] at h
          obtain ⟨y, hy, rfl⟩ := map_eq_ok h
          rw [List.cons_append, unescapeFrom, if_pos hc, ih rest.length hlen hy (Nat.zero_le _) rfl]
          exact hcons y c

theorem scalar_double_ok {inner : List Char} {no : Nat} {x : String} (h : scalar ('"' :: inner) no = .ok x) :
    ∃ body, inner = body ++ ['"'] ∧ unescape body no = .ok x := by
  rw [scalar] at h
  split at h
  next => cases h
  next body hbody => exact ⟨body, stripSuffix_eq_some.mp hbody, h⟩

theorem scalar_single_ok {inner : List Char} {no : Nat} {x : String} (h : scalar ('\'' :: inner) no = .ok x) :
    ∃ body, inner = body ++ ['\''] ∧ x = String.ofList (Text.replace body "''".toList ['\'']) := by
  rw [scalar] at h
  split at h
  next => cases h
  next body hbody => exact ⟨body, stripSuffix_eq_some.mp hbody, (Except.ok.inj h).symm⟩

theorem scalar_plain_ok {c : Char} {rest : List Char} {no : Nat} {x : String}
    (h : scalar (c :: rest) no = .ok x) (hd : c ≠ '"') (hs : c ≠ '\'') : x = String.ofList (c :: rest) := by
  unfold scalar at h
  split at h
  next heq => exact absurd (List.cons.inj heq).1 hd
  next heq => exact absurd (List.cons.inj heq).1 hs
  next => cases h
  next => cases h
  next => exact (Except.ok.inj h).symm

/-- A scalar that is read and goes on with a `#` is another one, or none. -/
theorem scalar_append {no : Nat} {s more : List Char} {x : String} (h : scalar s no = .ok x)
    (hs : s ≠ []) (hmore : '#' ∈ more) : scalar (s ++ more) no ≠ .ok x := by
  intro h'
  cases s with
  | nil => exact hs rfl
  | cons c rest =>
    by_cases hd : c = '"'
    · subst hd
      obtain ⟨body, rfl, hb⟩ := scalar_double_ok h
      obtain ⟨body', hbody', hb'⟩ := scalar_double_ok h'
      obtain ⟨mid, -, rfl⟩ := closed_longer hbody' hmore (by decide)
      obtain ⟨y, hy, rfl⟩ := map_eq_ok hb
      obtain ⟨z, hz, hxz⟩ := map_eq_ok hb'
      -- what stands behind the old closing quote is unescaped behind the old value, quote included
      rw [unescapeFrom_append hy (Nat.zero_le _), unescapeFrom, if_pos (by decide)] at hz
      obtain ⟨w, hw, rfl⟩ := map_eq_ok hz
      obtain ⟨v, -, rfl⟩ := map_eq_ok hw
      have hl := congrArg List.length (String.ofList_injective hxz)
      simp at hl
    · by_cases hq : c = '\''
      · subst hq
        obtain ⟨body, rfl, rfl⟩ := scalar_single_ok h
        obtain ⟨body', hbody', hx⟩ := scalar_single_ok h'
        obtain ⟨mid, hmid, rfl⟩ := closed_longer hbody' hmore (by decide)
        -- doubled quotes become one, but no `#` is lost by it
        have hcount := congrArg (List.countP (· == '#')) (String.ofList_injective hx)
        rw [Text.replace, countP_replaceFrom rfl, Text.replace, countP_replaceFrom rfl] at hcount
        have hpos : 0 < mid.countP (· == '#') := List.countP_pos_iff.mpr ⟨'#', hmid, rfl⟩
        rw [List.drop_zero, List.drop_zero, List.countP_append, List.countP_cons] at hcount
        omega
      · have hx := scalar_plain_ok h hd hq
        rw [hx] at h'
        have heq := String.ofList_injective (scalar_plain_ok h' hd hq)
        have hnil : more = [] := by simpa using heq
        exact List.ne_nil_of_mem hmore hnil

/-! ## Flow lists -/

/-- Behind a list that is read, a closing bracket is no text: it would close what is no list. -/
theorem flowFrom_append_close {no : Nat} {out items : List String} {item s : List Char} {quote : Option Char}
    (h : flowFrom no out item quote s = .ok items) (t : List Char) (items' : List String) :
    flowFrom no out item quote (s ++ ']' :: t) ≠ .ok items' := by
  induction s generalizing out item quote with
  | nil =>
    cases quote with
    | some q => cases h
    | none =>
      rw [List.nil_append, flowFrom]
      simp [err]
  | cons c rest ih =>
    cases quote with
    | some q => exact ih h
    | none =>
      rw [flowFrom] at h
      rw [List.cons_append, flowFrom]
      split at h
      next hq =>
        rw [if_pos hq]
        exact ih h
      next hq =>
        rw [if_neg hq]
        split at h
        next hc =>
          rw [if_pos hc]
          obtain ⟨x, hx, hrest⟩ := bind_eq_ok h
          rw [hx]
          exact ih hrest
        next hc =>
          rw [if_neg hc]
          split at h
          next => cases h
          next hb =>
            rw [if_neg hb]
            exact ih h

theorem flowFrom_blank {s : List Char} (hs : ∀ c ∈ s, Text.isWhitespace c = true) (no : Nat) (item : List Char)
    (hitem : ∀ c ∈ item, Text.isWhitespace c = true) : flowFrom no [] item none s = .ok [] := by
  have htrim : trim item = [] := trim_eq_nil_iff.mpr (List.dropWhile_eq_nil_iff.mpr hitem)
  induction s generalizing item with
  | nil =>
    rw [flowFrom, htrim]
    rfl
  | cons c rest ih =>
    have hc : Text.isWhitespace c = true := hs c List.mem_cons_self
    have hne : ∀ d : Char, Text.isWhitespace d = false → c ≠ d := by
      rintro d hd rfl
      rw [hd] at hc
      cases hc
    have hitem' : ∀ d ∈ item ++ [c], Text.isWhitespace d = true := by
      intro d hd
      rcases List.mem_append.mp hd with hd | hd
      · exact hitem d hd
      · rw [List.mem_singleton.mp hd]
        exact hc
    rw [flowFrom, if_neg (by simp [hne '"' (by decide), hne '\'' (by decide)]), if_neg (hne ',' (by decide)),
      if_neg (by simp [hne '[' (by decide), hne ']' (by decide), hne '\x7b' (by decide), hne '\x7d' (by decide)])]
    exact ih (fun d hd => hs d (List.mem_cons_of_mem _ hd)) _ hitem'
      (trim_eq_nil_iff.mpr (List.dropWhile_eq_nil_iff.mpr hitem'))

theorem parseFlowSeq_ok {rest : List Char} {no : Nat} {items : List String}
    (h : parseFlowSeq ('[' :: rest) no = .ok items) :
    ∃ inner, rest = inner ++ [']'] ∧ flowFrom no [] [] none inner = .ok items := by
  have hstrip : (Text.stripPrefix ('[' :: rest) ['[']).bind (Text.stripSuffix · [']']) =
      Text.stripSuffix rest [']'] := by simp [Text.stripPrefix]
  unfold parseFlowSeq at h
  rw [hstrip] at h
  split at h
  next => cases h
  next inner hinner =>
    refine ⟨inner, stripSuffix_eq_some.mp hinner, ?_⟩
    split at h
    next hblank =>
      cases h
      refine flowFrom_blank (fun c hc => ?_) no [] (by simp)
      exact List.dropWhile_eq_nil_iff.mp (trim_eq_nil_iff.mp (List.isEmpty_iff.mp hblank)) c hc
    next => exact h

theorem parseInline_scalar_ok {c : Char} {rest : List Char} {no : Nat} {v : Value}
    (h : parseInline (c :: rest) no = .ok v) (hc : c ≠ '[') :
    ∃ x, scalar (c :: rest) no = .ok x ∧ v = .scalar x := by
  unfold parseInline at h
  split at h
  next heq => exact absurd (List.cons.inj heq).1 hc
  next => cases h
  next => cases h
  next => cases h
  next => cases h
  next => cases h
  next => cases h
  next => exact map_eq_ok h

/-- What a line says behind its key is not what it says with a `#` put behind that. -/
theorem parseInline_append {no : Nat} {s more : List Char} {v : Value} (h : parseInline s no = .ok v)
    (hs : s ≠ []) (hmore : '#' ∈ more) : parseInline (s ++ more) no ≠ .ok v := by
  intro h'
  cases s with
  | nil => exact hs rfl
  | cons c rest =>
    by_cases hb : c = '['
    · subst hb
      obtain ⟨items, hitems, -⟩ := map_eq_ok h
      obtain ⟨items', hitems', -⟩ := map_eq_ok h'
      obtain ⟨inner, rfl, hinner⟩ := parseFlowSeq_ok hitems
      obtain ⟨inner', hclose, hinner'⟩ := parseFlowSeq_ok hitems'
      obtain ⟨mid, -, rfl⟩ := closed_longer hclose hmore (by decide)
      exact flowFrom_append_close hinner mid items' hinner'
    · obtain ⟨x, hx, rfl⟩ := parseInline_scalar_ok h hb
      obtain ⟨y, hy, hxy⟩ := parseInline_scalar_ok h' hb
      obtain rfl : x = y := Value.scalar.inj hxy
      exact scalar_append hx hs hmore hy

/-! ## Keys -/

theorem cutKey_append {s before after : List Char} (h : cutKey s = some (before, after)) (hafter : after ≠ [])
    (t : List Char) : cutKey (s ++ t) = some (before, after ++ t) := by
  induction s generalizing before with
  | nil => cases h
  | cons c rest ih =>
    rw [cutKey] at h
    rw [List.cons_append, cutKey]
    split at h
    next hc =>
      obtain ⟨rfl, rfl⟩ : [] = before ∧ rest = after := by simpa using h
      have hhead : (rest ++ t).head? = some ' ' := by
        rw [List.head?_append_of_ne_nil _ hafter]
        exact hc.2.resolve_left hafter
      rw [if_pos ⟨hc.1, .inr hhead⟩]
    next hc =>
      obtain ⟨⟨before', after'⟩, hrest, heq⟩ := Option.map_eq_some_iff.mp h
      cases heq
      have hne : rest ≠ [] := by
        rintro rfl
        cases hrest
      have hc' : ¬(c = ':' ∧ (rest ++ t = [] ∨ (rest ++ t).head? = some ' ')) := by
        rw [List.head?_append_of_ne_nil _ hne]
        rintro ⟨hcolon, hnil | hblank⟩
        · exact hne (List.append_eq_nil_iff.mp hnil).1
        · exact hc ⟨hcolon, .inr hblank⟩
      rw [if_neg hc', ih hrest]
      rfl

theorem trim_append {s rest : List Char} (hs : trim s ≠ []) (hrest : trimEnd rest = rest) (blank : List Char) :
    ∃ gap, trim (s ++ (blank ++ '#' :: rest)) = trim s ++ (gap ++ '#' :: rest) := by
  obtain ⟨gap, hgap, -⟩ := exists_trimEnd (trimStart s)
  have hstart : trimStart (s ++ (blank ++ '#' :: rest)) = trimStart s ++ (blank ++ '#' :: rest) :=
    dropWhile_append_left (fun h => hs (trim_eq_nil_iff.mpr h)) _
  refine ⟨gap ++ blank, ?_⟩
  have hcut := rdropWhile_append_cons (p := Text.isWhitespace) (c := '#') (by decide) (trimStart s ++ blank) rest
  rw [trim, hstart, trimEnd, ← List.append_assoc, hcut]
  rw [show rest.rdropWhile Text.isWhitespace = rest from hrest]
  nth_rewrite 1 [hgap]
  simp [trim]

/-- The key depends on what stands before the colon only. -/
theorem splitKey_ok {content value : List Char} {no : Nat} {key : String}
    (h : splitKey content no = .ok (key, value)) :
    ∃ before after, cutKey content = some (before, after) ∧ key = String.ofList (trim before) ∧
      value = trim after ∧ ∀ content' after' no', cutKey content' = some (before, after') →
        splitKey content' no' = .ok (key, trim after') := by
  unfold splitKey at h
  split at h
  next => cases h
  next before after hcut =>
    have hkey : key = String.ofList (trim before) ∧ value = trim after := by
      split at h
      next => cases h
      next => cases h
      next => cases h
      next => cases h
      next => cases h
      next => exact ⟨(Prod.mk.inj (Except.ok.inj h)).1.symm, (Prod.mk.inj (Except.ok.inj h)).2.symm⟩
    refine ⟨before, after, hcut, hkey.1, hkey.2, fun content' after' no' hcut' => ?_⟩
    unfold splitKey
    rw [hcut']
    dsimp only
    split at h
    next => cases h
    next => cases h
    next => cases h
    next => cases h
    next => cases h
    next => rw [← (Prod.mk.inj (Except.ok.inj h)).1]

/-- The same key is split off a line that goes on. -/
theorem splitKey_append {content value rest : List Char} {no : Nat} {key : String}
    (h : splitKey content no = .ok (key, value)) (hvalue : value ≠ []) (hrest : trimEnd rest = rest)
    (blank : List Char) :
    ∃ gap, splitKey (content ++ (blank ++ '#' :: rest)) no = .ok (key, value ++ (gap ++ '#' :: rest)) := by
  obtain ⟨before, after, hcut, -, rfl, hsplit⟩ := splitKey_ok h
  have hafter : after ≠ [] := by
    rintro rfl
    exact hvalue rfl
  obtain ⟨gap, hgap⟩ := trim_append hvalue hrest blank
  exact ⟨gap, by rw [← hgap]; exact hsplit _ _ no (cutKey_append hcut hafter _)⟩

end MarloweAgent.Tools.FrontMatter
