import MarloweAgent.Extract.Tokens

/-! The attributes of a tag. The parser searches the tag's text for the name of one, and takes the first
that follows a blank or a quote and is followed by an equals sign; the tag's own attributes are those
that stand one behind the other. -/

namespace MarloweAgent.Extract.Html
open Contract Library

/-! ## What is searched for -/

/-- What may stand before the name. -/
def opensName (c : Char) : Bool := Text.isWhitespace c || c == '"' || c == '\''

/-- Whether the search for an attribute stops here, between what is before it and what is left. -/
def takes (name before s : List Char) : Bool :=
  before.getLast?.any opensName &&
    name.isPrefixOf (s.map Text.toAsciiLowercaseChar) && (trimStart (s.drop name.length)).head? == some '='

/-- Where the search stops. -/
def searchFrom (name : List Char) : List Char → List Char → Option (List Char × List Char)
  | _, [] => none
  | before, c :: rest =>
    if takes name before (c :: rest) then some (before, c :: rest) else searchFrom name (before ++ [c]) rest

/-- What is read as a value of what stands behind an equals sign, and its place there. -/
def valueAt (rest : List Char) : Nat × List Char :=
  let value := trimStart rest
  let quote := if value.head? = some '"' ∨ value.head? = some '\'' then 1 else 0
  ((rest.takeWhile Text.isWhitespace).length + quote, attrValue value)

/-- The value that is read for an attribute, and its place in the tag. -/
def attrAt (raw name : List Char) : Option (Nat × List Char) :=
  (searchFrom name [] raw).map fun (before, s) =>
    let behind := s.drop name.length
    let found := valueAt (trimStart behind).tail
    (before.length + name.length + (behind.takeWhile Text.isWhitespace).length + 1 + found.1, found.2)

/-! ## The tag's own -/

/-- The blanks of markup. -/
def isBlank (c : Char) : Bool := c == ' ' || c == '\t' || c == '\n' || c == '\r' || c == '\x0c'

/-- The value behind an equals sign with its place there, and what is left behind it. -/
def ownValue (rest : List Char) : (Nat × List Char) × List Char :=
  let blanks := (rest.takeWhile isBlank).length
  match rest.dropWhile isBlank with
  | '"' :: r => ((blanks + 1, r.takeWhile (· ≠ '"')), (r.dropWhile (· ≠ '"')).tail)
  | '\'' :: r => ((blanks + 1, r.takeWhile (· ≠ '\'')), (r.dropWhile (· ≠ '\'')).tail)
  | r => ((blanks, r.takeWhile fun c => !(isBlank c || c == '>')), r.dropWhile fun c => !(isBlank c || c == '>'))

/-- An attribute: its name, and its value with the place in the tag. -/
structure Attribute where
  name : List Char
  value : Option (Nat × List Char)
  deriving DecidableEq, Repr

/-- The attributes of what is left of a tag from a place on. -/
def attributesFrom : Nat → Nat → List Char → List Attribute
  | 0, _, _ => []
  | fuel + 1, place, s =>
    let skipped := (s.takeWhile fun c => isBlank c || c == '/').length
    match s.dropWhile fun c => isBlank c || c == '/' with
    | [] => []
    | c :: rest =>
      if c = '>' then []
      else
        let isName (c : Char) : Bool := !(isBlank c || c == '/' || c == '>' || c == '=')
        let name := c :: rest.takeWhile isName
        let blanks := ((rest.dropWhile isName).takeWhile isBlank).length
        let behind := place + skipped + name.length + blanks
        match (rest.dropWhile isName).dropWhile isBlank with
        | '=' :: r =>
          let found := ownValue r
          ⟨name, some (behind + 1 + found.1.1, found.1.2)⟩ ::
            attributesFrom fuel (behind + 1 + (r.length - found.2.length)) found.2
        | r => ⟨name, none⟩ :: attributesFrom fuel behind r

/-- The attributes of a tag. -/
def attributes (raw : List Char) : List Attribute :=
  let isName (c : Char) : Bool := !(isBlank c || c == '/' || c == '>')
  let name := raw.takeWhile isName
  attributesFrom raw.length name.length (raw.dropWhile isName)

/-- The value of the tag's own attribute: the first of the name. -/
def ownAttr (raw name : List Char) : Option (Nat × List Char) :=
  ((attributes raw).find? fun a => a.name.map Text.toAsciiLowercaseChar == name).bind (·.value)

/-! ## What the search finds -/

theorem opensName_lower (c : Char) : opensName (Text.toAsciiLowercaseChar c) = opensName c := by
  have hquote {q : Char} (hq : q.isAlpha = false) : (Text.toAsciiLowercaseChar c == q) = (c == q) := by
    rw [Bool.eq_iff_iff, beq_iff_eq, beq_iff_eq]
    exact Text.toAsciiLowercaseChar_eq_iff hq
  rw [opensName, opensName, Text.isWhitespace_toAsciiLowercaseChar, hquote (by decide), hquote (by decide)]

theorem trimStart_lower (s : List Char) :
    trimStart (s.map Text.toAsciiLowercaseChar) = (trimStart s).map Text.toAsciiLowercaseChar := by
  have hblank : Text.isWhitespace ∘ Text.toAsciiLowercaseChar = Text.isWhitespace :=
    funext Text.isWhitespace_toAsciiLowercaseChar
  rw [trimStart, List.dropWhile_map, hblank, trimStart]

theorem searchFrom_skip {name before skipped s : List Char}
    (h : ∀ a b, skipped = a ++ b → b ≠ [] → takes name (before ++ a) (b ++ s) = false) :
    searchFrom name before (skipped ++ s) = searchFrom name (before ++ skipped) s := by
  induction skipped generalizing before with
  | nil => rw [List.nil_append, List.append_nil]
  | cons c rest ih =>
    have hhere := h [] (c :: rest) rfl (List.cons_ne_nil _ _)
    rw [List.append_nil, List.cons_append] at hhere
    rw [List.cons_append, searchFrom, hhere, if_neg Bool.false_ne_true, ih fun a b hsplit hb => ?_]
    · rw [List.append_assoc, List.singleton_append]
    · rw [List.append_assoc, List.singleton_append]
      exact h (c :: a) b (by rw [hsplit, List.cons_append]) hb

theorem searchFrom_here {name before s : List Char} (hs : s ≠ []) (h : takes name before s = true) :
    searchFrom name before s = some (before, s) := by
  obtain ⟨c, rest, rfl⟩ := List.exists_cons_of_ne_nil hs
  rw [searchFrom, if_pos h]

/-- Nothing is taken where the name does not begin. -/
theorem takes_of_not {name before s : List Char} (h : name.isPrefixOf (s.map Text.toAsciiLowercaseChar) = false) :
    takes name before s = false := by
  rw [takes, h, Bool.and_false, Bool.false_and]

/-- Nothing is taken inside a name. -/
theorem takes_inside {name before a s : List Char} (hplain : ∀ c ∈ name, opensName c = false) (ha : a ≠ [])
    (hname : ∀ c ∈ a, Text.toAsciiLowercaseChar c ∈ name) : takes name (before ++ a) s = false := by
  have hlast : (before ++ a).getLast?.any opensName = false := by
    rw [List.getLast?_append_of_ne_nil _ ha, List.getLast?_eq_some_getLast ha, Option.any_some, ← opensName_lower]
    exact hplain _ (hname _ (List.getLast_mem ha))
  rw [takes, hlast, Bool.false_and, Bool.false_and]

/-- The value behind a name that the search takes. -/
def readValue (name s : List Char) : List Char := (valueAt (trimStart (s.drop name.length)).tail).2

theorem attrFrom_eq {name : List Char} (hname : name ≠ []) (hplain : ∀ c ∈ name, opensName c = false)
    (before rest : List Char) {fuel : Nat} (hfuel : Text.byteLen rest < fuel) :
    attrFrom (before ++ rest) ((before ++ rest).map Text.toAsciiLowercaseChar) name fuel (Text.byteLen before) =
      some ((searchFrom name before rest).map fun cut => readValue name cut.2) := by
  induction fuel generalizing before rest with
  | zero => omega
  | succ fuel ih =>
    have htail : sliceFrom ((before ++ rest).map Text.toAsciiLowercaseChar) (Text.byteLen before) =
        some (rest.map Text.toAsciiLowercaseChar) := by
      rw [List.map_append, ← byteLen_lower before]
      exact sliceFrom_append _ _
    rw [attrFrom, htail]
    dsimp only [Option.bind_eq_bind, Option.bind_some]
    cases hsplit : Utf8.split name.isPrefixOf (rest.map Text.toAsciiLowercaseChar) with
    | none =>
      have hnone : searchFrom name before rest = none := by
        rw [← List.append_nil rest, searchFrom_skip fun a b hab hb => ?_]
        · rfl
        · refine takes_of_not (Utf8.split_eq_none hsplit ?_ ?_)
          · rw [List.append_nil, ne_eq, List.map_eq_nil_iff]
            exact hb
          · rw [List.append_nil, hab, List.map_append]
            exact List.suffix_append _ _
      rw [find, hsplit, hnone]
      rfl
    | some cut =>
      obtain ⟨skippedL, foundL⟩ := cut
      obtain ⟨hrest, -, hfound, hnone⟩ := Utf8.split_eq_some hsplit
      obtain ⟨afterL, rfl⟩ := List.isPrefixOf_iff_prefix.mp hfound
      obtain ⟨skipped, found, rfl, rfl, hname'⟩ := List.map_eq_append_iff.mp hrest
      obtain ⟨named, after, rfl, hnamed, rfl⟩ := List.map_eq_append_iff.mp hname'
      have hlength : named.length = name.length := by rw [← hnamed, List.length_map]
      have hnamedSome : named ≠ [] := by
        rintro rfl
        exact hname hnamed.symm
      -- the search comes to the name
      have hcome : searchFrom name before (skipped ++ (named ++ after)) =
          searchFrom name (before ++ skipped) (named ++ after) := by
        refine searchFrom_skip fun a b hab hb => takes_of_not ?_
        rw [List.map_append, List.map_append, hnamed]
        refine hnone _ (by simpa using hb) ?_
        rw [hab, List.map_append]
        exact List.suffix_append _ _
      have htakes : takes name (before ++ skipped) (named ++ after) =
          ((before ++ skipped).getLast?.any opensName && (trimStart after).head? == some '=') := by
        rw [takes, ← hlength, List.drop_left, List.map_append, hnamed]
        rw [List.isPrefixOf_iff_prefix.mpr (List.prefix_append _ _), Bool.and_true]
      have hsize : Text.byteLen named = Text.byteLen name := by rw [← hnamed, byteLen_lower]
      have hskipped : Text.byteLen before + Text.byteLen (skipped.map Text.toAsciiLowercaseChar) =
          Text.byteLen ((before ++ skipped).map Text.toAsciiLowercaseChar) := by
        rw [byteLen_lower, byteLen_lower, byteLen_append]
      have hall : (before ++ (skipped ++ (named ++ after))).map Text.toAsciiLowercaseChar =
          (before ++ skipped).map Text.toAsciiLowercaseChar ++ (name ++ after.map Text.toAsciiLowercaseChar) := by
        rw [← hnamed]
        simp
      have hbefore := slice_before ((before ++ skipped).map Text.toAsciiLowercaseChar)
        (name ++ after.map Text.toAsciiLowercaseChar)
      have hbehind := sliceFrom_append ((before ++ skipped).map Text.toAsciiLowercaseChar ++ name)
        (after.map Text.toAsciiLowercaseChar)
      rw [byteLen_append, List.append_assoc] at hbehind
      have hopens : ((before ++ skipped).map Text.toAsciiLowercaseChar).getLast?.any
          (fun c => Text.isWhitespace c || c == '"' || c == '\'') = (before ++ skipped).getLast?.any opensName := by
        have hsame : opensName ∘ Text.toAsciiLowercaseChar = opensName := funext opensName_lower
        rw [List.getLast?_map, Option.any_map]
        exact congrArg (Option.any · _) hsame
      rw [find, hsplit]
      dsimp only [Option.map_some]
      rw [hskipped, hall, hbefore]
      dsimp only [Option.bind_some]
      rw [hbehind, hopens, hcome]
      dsimp only [Option.bind_some]
      cases htaken : takes name (before ++ skipped) (named ++ after) with
      | true =>
        rw [htaken, Eq.comm, Bool.and_eq_true, beq_iff_eq] at htakes
        obtain ⟨behind, hequals⟩ : ∃ behind, trimStart after = '=' :: behind := List.head?_eq_some_iff.mp htakes.2
        have hstrip : Text.stripPrefix (trimStart (after.map Text.toAsciiLowercaseChar)) ['='] =
            some (behind.map Text.toAsciiLowercaseChar) := by
          rw [trimStart_lower, hequals]
          rfl
        obtain ⟨blanks, hblanks⟩ := List.dropWhile_suffix (l := after) Text.isWhitespace
        have hraw : before ++ (skipped ++ (named ++ after)) =
            (before ++ (skipped ++ (named ++ (blanks ++ ['='])))) ++ behind := by
          rw [← hblanks, ← trimStart, hequals]
          simp
        have hvalue := sliceFrom_append (before ++ (skipped ++ (named ++ (blanks ++ ['='])))) behind
        rw [htakes.1, if_pos rfl, hstrip]
        dsimp only
        rw [byteLen_lower, hraw, byteLen_append, Nat.add_sub_cancel, hvalue, searchFrom_here (by simp [hnamedSome]) htaken]
        dsimp only [Option.bind_some, Option.map_some]
        rw [readValue, ← hlength, List.drop_left, hequals]
        rfl
      | false =>
        have hnot : (if (before ++ skipped).getLast?.any opensName = true then
            Text.stripPrefix (trimStart (after.map Text.toAsciiLowercaseChar)) ['='] else none) = none := by
          rw [htaken, Eq.comm, Bool.and_eq_false_iff] at htakes
          rcases htakes with hopens | hequals
          · rw [hopens, if_neg Bool.false_ne_true]
          · cases hstrip : Text.stripPrefix (trimStart (after.map Text.toAsciiLowercaseChar)) ['='] with
            | none => exact ite_self _
            | some behind =>
              have hmark := Text.stripPrefix_eq_some hstrip
              rw [trimStart_lower, List.singleton_append, List.map_eq_cons_iff] at hmark
              obtain ⟨c, more, hmore, hc, -⟩ := hmark
              rw [Text.toAsciiLowercaseChar_eq_iff (by decide)] at hc
              rw [hmore, hc] at hequals
              cases hequals
        have hpast : searchFrom name (before ++ skipped) (named ++ after) =
            searchFrom name (before ++ skipped ++ named) after := by
          refine searchFrom_skip fun a b hab hb => ?_
          rcases List.eq_nil_or_concat a with rfl | ⟨a', c, rfl⟩
          · rw [List.append_nil, ← List.nil_append b, ← hab]
            exact htaken
          · refine takes_inside hplain (by simp) fun d hd => ?_
            rw [← hnamed, hab]
            exact List.mem_map_of_mem (List.mem_append_left _ hd)
        have hon := ih (before ++ skipped ++ named) after (by
          rw [byteLen_append, byteLen_append] at hfuel
          have hpos := byteLen_pos hnamedSome
          omega)
        have hplace : Text.byteLen ((before ++ skipped).map Text.toAsciiLowercaseChar) + Text.byteLen name =
            Text.byteLen (before ++ skipped ++ named) := by
          rw [byteLen_lower, ← hsize, ← byteLen_append]
        rw [hnot, hpast, ← hon]
        dsimp only
        rw [hplace, ← hall]
        simp only [List.append_assoc]

/-- **What the search reads is the value at the place where it stops.** -/
theorem attr_eq (raw : List Char) {name : String} (hname : name.toList ≠ [])
    (hplain : name.toList.any opensName = false) : attr raw name = some ((attrAt raw name.toList).map (·.2)) := by
  have hletters : ∀ c ∈ name.toList, opensName c = false := fun c hc =>
    Bool.eq_false_iff.mpr (List.any_eq_false.mp hplain c hc)
  have hfrom := attrFrom_eq hname hletters [] raw (Nat.lt_succ_self _)
  rw [attr, attrAt, Option.map_map]
  exact hfrom

theorem drop_takeWhile_length (p : Char → Bool) (s : List Char) : s.drop (s.takeWhile p).length = s.dropWhile p := by
  have hdrop : (s.takeWhile p ++ s.dropWhile p).drop (s.takeWhile p).length = s.dropWhile p := List.drop_left
  rwa [List.takeWhile_append_dropWhile] at hdrop

theorem valueAt_prefix (rest : List Char) : (valueAt rest).2 <+: rest.drop (valueAt rest).1 := by
  have hblanks : rest.drop (rest.takeWhile Text.isWhitespace).length = trimStart rest := drop_takeWhile_length _ rest
  rw [valueAt]
  dsimp only
  rw [← List.drop_drop, hblanks]
  generalize trimStart rest = value
  unfold attrValue
  split
  · rw [List.head?_cons, if_pos (.inl rfl)]
    exact List.takeWhile_prefix _
  · rw [List.head?_cons, if_pos (.inr rfl)]
    exact List.takeWhile_prefix _
  · rename_i hdouble hsingle
    have hquote : ¬ (value.head? = some '"' ∨ value.head? = some '\'') := by
      rintro (h | h)
      · obtain ⟨r, hr⟩ := List.head?_eq_some_iff.mp h
        exact hdouble r hr
      · obtain ⟨r, hr⟩ := List.head?_eq_some_iff.mp h
        exact hsingle r hr
    rw [if_neg hquote, List.drop_zero]
    exact (List.rdropWhile_prefix _ _).trans (List.takeWhile_prefix _)

theorem searchFrom_some {name before s before' found : List Char} (h : searchFrom name before s = some (before', found)) :
    before ++ s = before' ++ found ∧ takes name before' found = true := by
  induction s generalizing before with
  | nil => cases h
  | cons c rest ih =>
    rw [searchFrom] at h
    split at h
    · rename_i htakes
      obtain ⟨rfl, rfl⟩ := Prod.mk.inj (Option.some.inj h)
      exact ⟨rfl, htakes⟩
    · obtain ⟨hsplit, htakes⟩ := ih h
      rw [List.append_assoc, List.singleton_append] at hsplit
      exact ⟨hsplit, htakes⟩

/-- The value that is read stands at its place in the tag. -/
theorem attrAt_prefix {raw name : List Char} {place : Nat} {value : List Char} (h : attrAt raw name = some (place, value)) :
    value <+: raw.drop place := by
  obtain ⟨⟨before, s⟩, hsearch, hvalue⟩ := Option.map_eq_some_iff.mp h
  obtain ⟨rfl, rfl⟩ := Prod.mk.inj hvalue
  obtain ⟨hraw, htakes⟩ := searchFrom_some hsearch
  rw [takes, Bool.and_eq_true, beq_iff_eq] at htakes
  obtain ⟨behind, hequals⟩ := List.head?_eq_some_iff.mp htakes.2
  have hbehind := drop_takeWhile_length Text.isWhitespace (s.drop name.length)
  rw [← trimStart, hequals] at hbehind
  have hdrop : raw.drop (before.length + name.length + ((s.drop name.length).takeWhile Text.isWhitespace).length + 1) =
      (trimStart (s.drop name.length)).tail := by
    rw [← List.nil_append raw, hraw, Nat.add_assoc, Nat.add_assoc, ← List.drop_drop, List.drop_left, ← List.drop_drop,
      ← List.drop_drop, hbehind, hequals]
    rfl
  rw [← List.drop_drop, hdrop]
  exact valueAt_prefix _

end MarloweAgent.Extract.Html
