import MarloweAgent.Permission.RequestedPath

/-! What normalization does to a path that was checked before it. Every rule of the
validation but one is about characters that normalization neither makes nor moves; the
short-name rule counts bytes. -/

namespace MarloweAgent.Permission
open Contract Tools

/-! ## Normalization form C -/

/-- The characters the rules look for. None has a canonical decomposition, is part of one,
or combines with another. -/
def inert (c : Char) : Bool :=
  Text.isControl c || c ∈ ['.', ' ', ':', '/', '\\'] || c ∈ separatorHomoglyphs

/-- ASCII, but for the three characters others decompose to. -/
def plainAscii (c : Char) : Bool := c.toNat < 128 && c ∉ ['K', ';', '`']

namespace Normalizer

/-- `nfc`, on the characters. -/
def normal (unicode : Normalizer) (s : List Char) : List Char := (unicode.nfc (String.ofList s)).toList

/-- What the tables say of the characters the rules look for, and of plain ASCII. -/
structure Lawful (unicode : Normalizer) : Prop where
  quick : ∀ s, unicode.isNfc s = true → unicode.nfc s = s
  nil : unicode.normal [] = []
  again : ∀ s, unicode.normal (unicode.normal s) = unicode.normal s
  apart : ∀ c, inert c = true → ∀ a b,
    unicode.normal (a ++ c :: b) = unicode.normal a ++ c :: unicode.normal b
  origin : ∀ c, inert c = true → ∀ s, c ∈ unicode.normal s → c ∈ s
  ascii : ∀ s, (∀ c ∈ unicode.normal s, plainAscii c = true) → unicode.normal s = s

end Normalizer

section Components

variable {unicode : Normalizer} {raw : String} {part : List Char}

theorem normalizeForMatch_eq (h : unicode.Lawful) (part : List Char) :
    (unicode.normalizeForMatch (String.ofList part)).toList = unicode.normal part := by
  rw [Normalizer.normalizeForMatch]
  split
  · rename_i hnfc
    rw [Normalizer.normal, h.quick _ hnfc]
  · rfl

/-- What no rule finds fault with. -/
structure Faultless (part : List Char) : Prop where
  parent : part ≠ ['.', '.']
  nul : Char.ofNat 0 ∉ part
  control : ∀ c ∈ part, Text.isControl c = false
  colon : ':' ∉ part
  homoglyph : ∀ c ∈ part, c ∉ separatorHomoglyphs
  trailing : part.getLast? ≠ some '.' ∧ part.getLast? ≠ some ' '
  reserved : Text.toAsciiUppercase (String.ofList (part.takeWhile (· ≠ '.'))) ∉ reservedNames
  short : looksLikeShortName part = false

theorem componentError_eq_none_iff : componentError raw part = none ↔ Faultless part := by
  constructor
  · intro h
    unfold componentError at h
    split_ifs at h with hparent hnul hcontrol hcolon hhomoglyph htrailing hreserved hshort
    exact
      { parent := hparent, nul := hnul, colon := hcolon, reserved := hreserved
        control := by simpa using hcontrol
        homoglyph := by simpa using hhomoglyph
        trailing := not_or.mp htrailing
        short := by simpa using hshort }
  · intro h
    have hcontrol : ¬ (part.any Text.isControl = true) := by simpa using h.control
    have hhomoglyph : ¬ (part.any (· ∈ separatorHomoglyphs) = true) := by simpa using h.homoglyph
    have hshort : ¬ (looksLikeShortName part = true) := by simp [h.short]
    rw [componentError, if_neg h.parent, if_neg h.nul, if_neg hcontrol, if_neg h.colon,
      if_neg hhomoglyph, if_neg (not_or.mpr h.trailing), if_neg h.reserved, if_neg hshort]

/-! ## Each rule under normalization -/

theorem normal_eq_nil (h : unicode.Lawful) {s : List Char} (hs : unicode.normal s = []) : s = [] := by
  have hsame := h.ascii s (by simp [hs])
  rw [← hsame, hs]

/-- What ends a normal form and is inert ended the text. -/
theorem getLast?_normal (h : unicode.Lawful) {d : Char} (hd : inert d = true) {s : List Char}
    (hlast : (unicode.normal s).getLast? = some d) : s.getLast? = some d := by
  have hmem : d ∈ s := h.origin d hd s (List.mem_of_getLast? hlast)
  cases hsplit : Text.rsplitOnce s d with
  | none => exact absurd hmem (Text.rsplitOnce_eq_none.mp hsplit)
  | some parts =>
    obtain ⟨before, after⟩ := parts
    obtain ⟨rfl, hafter⟩ := Text.rsplitOnce_eq_some hsplit
    rw [h.apart d hd, List.getLast?_append_cons] at hlast
    have hnil : unicode.normal after = [] := by
      by_contra hne
      obtain ⟨c, cs, hcons⟩ := List.exists_cons_of_ne_nil hne
      rw [hcons, List.getLast?_cons_cons, ← hcons] at hlast
      exact hafter (h.origin d hd after (List.mem_of_getLast? hlast))
    rw [normal_eq_nil h hnil]
    simp

/-- The stem is normalized on its own. -/
theorem takeWhile_normal (h : unicode.Lawful) (s : List Char) :
    (unicode.normal s).takeWhile (· ≠ '.') = unicode.normal (s.takeWhile (· ≠ '.')) := by
  have hdot : inert '.' = true := by decide
  have hwhole : ∀ t : List Char, '.' ∉ t → t.takeWhile (· ≠ '.') = t := by
    intro t ht
    refine List.takeWhile_eq_self_iff.mpr fun c hc => ?_
    simpa using fun heq : c = '.' => ht (heq ▸ hc)
  by_cases hmem : '.' ∈ s
  · obtain ⟨stem, rest, rfl, hstem⟩ := List.eq_append_cons_of_mem hmem
    have hcut : ∀ {t r : List Char}, '.' ∉ t → (t ++ '.' :: r).takeWhile (· ≠ '.') = t := by
      intro t r ht
      rw [List.takeWhile_append_of_pos (fun c hc => by simpa using fun heq : c = '.' => ht (heq ▸ hc))]
      simp
    rw [h.apart '.' hdot, hcut hstem, hcut fun hin => hstem (h.origin '.' hdot stem hin)]
  · rw [hwhole s hmem, hwhole _ fun hin => hmem (h.origin '.' hdot s hin)]

/-- A reserved name is plain ASCII, in whatever case. -/
theorem plainAscii_of_reserved {s : List Char}
    (h : Text.toAsciiUppercase (String.ofList s) ∈ reservedNames) : ∀ c ∈ s, plainAscii c = true := by
  have hall : reservedNames.all (fun name => name.toList.all plainAscii) = true := by decide
  have hnames : ∀ name ∈ reservedNames, ∀ c ∈ name.toList, plainAscii c = true :=
    fun name hname => List.all_eq_true.mp (List.all_eq_true.mp hall name hname)
  intro c hc
  have hupper := hnames _ h (if 'a' ≤ c ∧ c ≤ 'z' then Char.ofNat (c.toNat - 32) else c) (by
    rw [Text.toAsciiUppercase, String.toList_ofList, String.toList_ofList]
    exact List.mem_map_of_mem hc)
  split at hupper
  · rename_i hlower
    have hlow : 97 ≤ c.toNat := hlower.1
    have hhigh : c.toNat ≤ 122 := hlower.2
    have hletters : ∀ n < 26, plainAscii (Char.ofNat (n + 97)) = true := by decide
    have hcode := hletters (c.toNat - 97) (by omega)
    rwa [Nat.sub_add_cancel hlow, Char.ofNat_toNat] at hcode
  · exact hupper

/-- A part without fault has none in its normal form, unless that is a short name. -/
theorem Faultless.normal (h : unicode.Lawful) (hpart : Faultless part)
    (hshort : looksLikeShortName (unicode.normal part) = false) : Faultless (unicode.normal part) where
  parent := fun hparent => hpart.parent (by
    rw [← h.ascii part (List.all_eq_true.mp (by rw [hparent]; decide)), hparent])
  nul := fun hin => hpart.nul (h.origin _ (by decide) part hin)
  control := fun c hc => by
    by_contra hcontrol
    rw [Bool.not_eq_false] at hcontrol
    have hin := h.origin c (by simp [inert, hcontrol]) part hc
    rw [hpart.control c hin] at hcontrol
    cases hcontrol
  colon := fun hin => hpart.colon (h.origin _ (by decide) part hin)
  homoglyph := fun c hc hglyph =>
    hpart.homoglyph c (h.origin c (by simp [inert, hglyph]) part hc) hglyph
  trailing := ⟨fun hlast => hpart.trailing.1 (getLast?_normal h (by decide) hlast),
    fun hlast => hpart.trailing.2 (getLast?_normal h (by decide) hlast)⟩
  reserved := fun hin => hpart.reserved (by
    rw [takeWhile_normal h] at hin
    rwa [h.ascii _ (plainAscii_of_reserved hin)] at hin)
  short := hshort

end Components

/-! ## The components of a request -/

section Requests

variable {unicode : Normalizer} {raw : String}

/-- The pieces that become components. -/
def kept (parts : List (List Char)) : List (List Char) :=
  parts.filter fun part => part ≠ ['.'] && !part.isEmpty

theorem mem_kept {parts : List (List Char)} {part : List Char} :
    part ∈ kept parts ↔ part ∈ parts ∧ part ≠ ['.'] ∧ part ≠ [] := by
  simp [kept, List.mem_filter]

/-- An accepted request has faultless pieces, and its components are their normal forms. -/
theorem componentsOf_ok {parts : List (List Char)} {components : List String}
    (h : componentsOf unicode raw parts = .ok components) :
    components = (kept parts).map (fun part => unicode.normalizeForMatch (String.ofList part)) ∧
      ∀ part ∈ kept parts, Faultless part := by
  induction parts generalizing components with
  | nil =>
    cases h
    exact ⟨rfl, nofun⟩
  | cons part rest ih =>
    rw [componentsOf] at h
    by_cases hdot : part = ['.']
    · rw [if_pos hdot] at h
      simpa [kept, hdot] using ih h
    · rw [if_neg hdot] at h
      by_cases hempty : part.isEmpty = true
      · rw [if_pos hempty] at h
        split at h
        · simpa [kept, hdot, hempty] using ih h
        · cases h
      · rw [if_neg hempty] at h
        have hkept : kept (part :: rest) = part :: kept rest := by
          simp only [kept]
          rw [List.filter_cons_of_pos (by simp [hdot, hempty])]
        cases herror : componentError raw part with
        | some e =>
          rw [herror] at h
          cases h
        | none =>
          rw [herror] at h
          cases hrest : componentsOf unicode raw rest with
          | error e =>
            rw [hrest] at h
            cases h
          | ok more =>
            rw [hrest] at h
            cases h
            obtain ⟨hmore, hfaultless⟩ := ih hrest
            rw [hkept]
            refine ⟨by rw [hmore]; rfl, fun p hp => ?_⟩
            rcases List.mem_cons.mp hp with rfl | hp
            · exact componentError_eq_none_iff.mp herror
            · exact hfaultless p hp

/-- Faultless pieces, none of them dropped, are accepted. -/
theorem componentsOf_faultless {parts : List (List Char)}
    (h : ∀ part ∈ parts, part ≠ ['.'] ∧ part ≠ [] ∧ Faultless part) :
    componentsOf unicode raw parts =
      .ok (parts.map fun part => unicode.normalizeForMatch (String.ofList part)) := by
  induction parts with
  | nil => rfl
  | cons part rest ih =>
    obtain ⟨hdot, hne, hfaultless⟩ := h part List.mem_cons_self
    have hempty : ¬ part.isEmpty = true := by simpa using hne
    rw [componentsOf, if_neg hdot, if_neg hempty, componentError_eq_none_iff.mpr hfaultless,
      ih fun p hp => h p (List.mem_cons_of_mem _ hp)]
    rfl

/-- No piece between separators holds one. -/
theorem not_isSeparator_of_mem {cs part : List Char} (h : part ∈ cs.splitOnP isSeparator) :
    ∀ c ∈ part, isSeparator c = false :=
  fun c hc => (Text.of_mem_splitOnP h c hc).2

/-- Pieces without separators, joined, are cut where they were joined. -/
theorem splitOnP_intercalate {parts : List (List Char)} (hne : parts ≠ [])
    (h : ∀ part ∈ parts, ∀ c ∈ part, isSeparator c = false) :
    (['/'].intercalate parts).splitOnP isSeparator = parts := by
  induction parts with
  | nil => exact absurd rfl hne
  | cons part rest ih =>
    have hpart := h part List.mem_cons_self
    cases rest with
    | nil => simpa using List.splitOnP_eq_singleton hpart
    | cons next rest =>
      have hrest := ih (List.cons_ne_nil _ _) fun p hp => h p (List.mem_cons_of_mem _ hp)
      rw [List.intercalate_cons_cons, List.append_assoc, List.singleton_append,
        List.splitOnP_append_cons_of_forall_mem hpart '/' (by decide), hrest]

theorem not_mem_intercalate {parts : List (List Char)} {d : Char} (hd : d ≠ '/')
    (h : ∀ part ∈ parts, d ∉ part) : d ∉ ['/'].intercalate parts := by
  induction parts with
  | nil => exact nofun
  | cons part rest ih =>
    have hpart := h part List.mem_cons_self
    cases rest with
    | nil => simpa using hpart
    | cons next rest =>
      have hrest := ih fun p hp => h p (List.mem_cons_of_mem _ hp)
      rw [List.intercalate_cons_cons]
      simp only [List.mem_append, List.mem_singleton, not_or]
      exact ⟨⟨hpart, hd⟩, hrest⟩

/-! ## Accepted paths -/

/-- A component no rule of `validate` refuses, on its own. -/
structure Passes (component : String) : Prop where
  nonempty : component ≠ ""
  kept : component ≠ "."
  unsplit : ∀ c ∈ component.toList, isSeparator c = false
  unrefused : ∀ raw, componentError raw component.toList = none

theorem validate_ok {requested : String} {path : RequestedPath}
    (h : validate unicode requested = .ok path) :
    path.components = (kept (requested.toList.splitOnP isSeparator)).map
        (fun part => unicode.normalizeForMatch (String.ofList part)) ∧
      ∀ part ∈ kept (requested.toList.splitOnP isSeparator), Faultless part := by
  rw [validate] at h
  split at h
  · cases h
  · cases hcomponents : componentsOf unicode requested (requested.toList.splitOnP isSeparator) with
    | error e =>
      rw [hcomponents] at h
      cases h
    | ok components =>
      rw [hcomponents] at h
      cases h
      exact componentsOf_ok hcomponents

/-- A relative form of components that pass is not rooted. -/
theorem isRooted_intercalate {parts : List (List Char)} (hne : parts ≠ [])
    (h : ∀ part ∈ parts, part ≠ [] ∧ (∀ c ∈ part, isSeparator c = false) ∧ ':' ∉ part) :
    isRooted (['/'].intercalate parts) = false := by
  have hcolon : ':' ∉ ['/'].intercalate parts :=
    not_mem_intercalate (by decide) fun p hp => (h p hp).2.2
  obtain ⟨part, rest, rfl⟩ := List.exists_cons_of_ne_nil hne
  obtain ⟨hpart, hsep, -⟩ := h part List.mem_cons_self
  obtain ⟨c, cs, rfl⟩ := List.exists_cons_of_ne_nil hpart
  obtain ⟨tail, htail⟩ : ∃ tail, ['/'].intercalate ((c :: cs) :: rest) = c :: tail := by
    cases rest with
    | nil => exact ⟨cs, by simp⟩
    | cons next rest => exact ⟨cs ++ ['/'] ++ ['/'].intercalate (next :: rest), by simp⟩
  rw [htail] at hcolon ⊢
  have hc : c ≠ '/' ∧ c ≠ '\\' := by simpa [isSeparator] using hsep c List.mem_cons_self
  have hhead : tail.head? ≠ some ':' := fun heq =>
    hcolon (List.mem_cons_of_mem _ (List.mem_of_head? heq))
  simp [isRooted, hc, hhead]

/-- A path of components that pass and are normal is accepted again, as it is. -/
theorem validate_asRelative {path : RequestedPath} (hne : path.components ≠ [])
    (hpasses : ∀ component ∈ path.components, Passes component)
    (hnormal : ∀ component ∈ path.components, unicode.normalizeForMatch component = component) :
    validate unicode path.asRelative = .ok path := by
  have hlist : path.asRelative.toList = ['/'].intercalate (path.components.map String.toList) := by
    rw [RequestedPath.asRelative, Text.join, String.toList_intercalate]
    rfl
  have hparts : path.components.map String.toList ≠ [] := by simpa using hne
  have hfaultless : ∀ part ∈ path.components.map String.toList,
      part ≠ ['.'] ∧ part ≠ [] ∧ Faultless part := by
    intro part hpart
    obtain ⟨component, hcomponent, rfl⟩ := List.mem_map.mp hpart
    have hpass := hpasses component hcomponent
    refine ⟨fun hdot => hpass.kept (String.toList_inj.mp hdot),
      fun hnil => hpass.nonempty (String.toList_eq_nil_iff.mp hnil),
      componentError_eq_none_iff.mp (hpass.unrefused "")⟩
  have hsep : ∀ part ∈ path.components.map String.toList, ∀ c ∈ part, isSeparator c = false := by
    intro part hpart
    obtain ⟨component, hcomponent, rfl⟩ := List.mem_map.mp hpart
    exact (hpasses component hcomponent).unsplit
  have hrooted : isRooted path.asRelative.toList = false := by
    rw [hlist]
    exact isRooted_intercalate hparts fun part hpart =>
      ⟨(hfaultless part hpart).2.1, hsep part hpart, (hfaultless part hpart).2.2.colon⟩
  have hsame : (path.components.map String.toList).map
      (fun part => unicode.normalizeForMatch (String.ofList part)) = path.components := by
    rw [List.map_map]
    conv_rhs => rw [← List.map_id path.components]
    refine List.map_congr_left fun component hcomponent => ?_
    simpa using hnormal component hcomponent
  rw [validate, hrooted, if_neg Bool.false_ne_true, hlist, splitOnP_intercalate hparts hsep,
    componentsOf_faultless hfaultless, hsame]
  rfl

/-- **When a checked path is closed under normalization.** Of an accepted request whose path
is not empty, exactly when the normal form of no piece looks like a short name. -/
theorem validate_closed_iff (h : unicode.Lawful) {requested : String} {path : RequestedPath}
    (haccepted : validate unicode requested = .ok path) (hne : path.components ≠ []) :
    ((∀ component ∈ path.components, Passes component) ∧
        validate unicode path.asRelative = .ok path) ↔
      ∀ part ∈ requested.toList.splitOnP isSeparator,
        looksLikeShortName (unicode.normalizeForMatch (String.ofList part)).toList = false := by
  obtain ⟨hcomponents, hfaultless⟩ := validate_ok haccepted
  constructor
  · rintro ⟨hpasses, -⟩ part hpart
    by_cases hkept : part ∈ kept (requested.toList.splitOnP isSeparator)
    · have hcomponent := hpasses (unicode.normalizeForMatch (String.ofList part)) (by
        rw [hcomponents]
        exact List.mem_map_of_mem hkept)
      exact (componentError_eq_none_iff.mp (hcomponent.unrefused "")).short
    · rw [normalizeForMatch_eq h]
      have hdropped : part = ['.'] ∨ part = [] := by
        by_contra hnot
        exact hkept (mem_kept.mpr ⟨hpart, not_or.mp hnot⟩)
      rcases hdropped with rfl | rfl
      · have hdot := h.apart '.' (by decide) [] []
        rw [List.nil_append, h.nil, List.nil_append] at hdot
        rw [hdot]
        decide
      · rw [h.nil]
        decide
  · intro hshort
    have hpasses : ∀ component ∈ path.components, Passes component := by
      intro component hcomponent
      rw [hcomponents] at hcomponent
      obtain ⟨part, hpart, rfl⟩ := List.mem_map.mp hcomponent
      obtain ⟨hmem, hdot, hnil⟩ := mem_kept.mp hpart
      have hnormal := normalizeForMatch_eq h part
      have hfaultless' : Faultless (unicode.normal part) :=
        (hfaultless part hpart).normal h (by rw [← hnormal]; exact hshort part hmem)
      refine ⟨fun hempty => ?_, fun heq => ?_, fun c hc => ?_, fun raw => ?_⟩
      · rw [hempty] at hnormal
        exact hnil (normal_eq_nil h hnormal.symm)
      · rw [heq] at hnormal
        have hsame := h.ascii part (List.all_eq_true.mp (by rw [← hnormal]; decide))
        exact hdot (hsame.symm.trans hnormal.symm)
      · rw [hnormal] at hc
        by_contra hsep
        rw [Bool.not_eq_false] at hsep
        have hinert : inert c = true := by
          have hslash : c = '/' ∨ c = '\\' := by simpa [isSeparator] using hsep
          rcases hslash with rfl | rfl <;> decide
        have hin := not_isSeparator_of_mem hmem c (h.origin c hinert part hc)
        rw [hsep] at hin
        cases hin
      · rw [hnormal]
        exact componentError_eq_none_iff.mpr hfaultless'
    refine ⟨hpasses, validate_asRelative hne hpasses fun component hcomponent => ?_⟩
    rw [hcomponents] at hcomponent
    obtain ⟨part, -, rfl⟩ := List.mem_map.mp hcomponent
    refine String.toList_inj.mp ?_
    have hagain := normalizeForMatch_eq h (unicode.normalizeForMatch (String.ofList part)).toList
    rw [String.ofList_toList] at hagain
    rw [hagain, normalizeForMatch_eq h, h.again]

end Requests

/-! ## Names with an accent -/

/-- Normalization, on text whose one composition is of `e` and an acute accent. -/
def composeAcute : List Char → List Char
  | 'e' :: '\u0301' :: rest => '\u00e9' :: composeAcute rest
  | c :: rest => c :: composeAcute rest
  | [] => []

theorem composeAcute_cons {c : Char} (hc : c ≠ 'e') (rest : List Char) :
    composeAcute (c :: rest) = c :: composeAcute rest := by
  rw [composeAcute]
  exact fun _ heq _ => hc heq

theorem composeAcute_cons_cons {c d : Char} (hd : d ≠ '\u0301') (rest : List Char) :
    composeAcute (c :: d :: rest) = c :: composeAcute (d :: rest) := by
  rw [composeAcute]
  exact fun _ _ heq => hd (List.cons.inj heq).1

/-- The induction along the composition: an `e` and its accent, or one character that is kept. -/
theorem composeAcute_induct {motive : List Char → List Char → Prop} (hnil : motive [] [])
    (haccent : ∀ rest, motive rest (composeAcute rest) →
      motive ('e' :: '\u0301' :: rest) ('\u00e9' :: composeAcute rest))
    (hkept : ∀ c rest, (c = 'e' → rest.head? ≠ some '\u0301') → motive rest (composeAcute rest) →
      motive (c :: rest) (c :: composeAcute rest))
    (s : List Char) : motive s (composeAcute s) := by
  fun_induction composeAcute s with
  | case1 rest ih => exact haccent rest ih
  | case2 c rest hnot ih =>
    refine hkept c rest (fun hc hhead => ?_) ih
    cases rest with
    | nil => cases hhead
    | cons x tail => exact hnot tail hc (by rw [Option.some.inj hhead])
  | case3 => exact hnil

theorem composeAcute_kept {c : Char} {rest : List Char} (h : c = 'e' → rest.head? ≠ some '\u0301') :
    composeAcute (c :: rest) = c :: composeAcute rest := by
  by_cases hc : c = 'e'
  · cases rest with
    | nil => rw [hc]; rfl
    | cons d rest => exact composeAcute_cons_cons (fun hd => h hc (by rw [hd]; rfl)) rest
  · exact composeAcute_cons hc rest

theorem composeAcute_apart {d : Char} (he : d ≠ 'e') (hacute : d ≠ '\u0301') (a b : List Char) :
    composeAcute (a ++ d :: b) = composeAcute a ++ d :: composeAcute b := by
  refine composeAcute_induct (motive := fun a r => composeAcute (a ++ d :: b) = r ++ d :: composeAcute b)
    (composeAcute_cons he b) (fun rest ih => congrArg _ ih) (fun c rest hnot ih => ?_) a
  rw [List.cons_append, List.cons_append, ← ih]
  refine composeAcute_kept fun hc hhead => ?_
  cases rest with
  | nil => exact hacute (Option.some.inj hhead)
  | cons x rest => exact hnot hc hhead

theorem mem_of_composeAcute {d : Char} (hd : d ≠ '\u00e9') {s : List Char}
    (h : d ∈ composeAcute s) : d ∈ s := by
  revert h
  refine composeAcute_induct (motive := fun s r => d ∈ r → d ∈ s) id (fun rest ih h => ?_) (fun c rest _ ih h => ?_) s
  · rcases List.mem_cons.mp h with rfl | h
    · exact absurd rfl hd
    · exact List.mem_cons_of_mem _ (List.mem_cons_of_mem _ (ih h))
  · rcases List.mem_cons.mp h with rfl | h
    · exact List.mem_cons_self
    · exact List.mem_cons_of_mem _ (ih h)

/-- What does not begin with the accent does not begin with it composed. -/
theorem composeAcute_head {s : List Char} (h : s.head? ≠ some '\u0301') :
    (composeAcute s).head? ≠ some '\u0301' := by
  revert h
  refine composeAcute_induct (motive := fun s r => s.head? ≠ some '\u0301' → r.head? ≠ some '\u0301') id
    (fun rest _ _ => ?_) (fun c rest _ _ h => h) s
  rw [List.head?_cons, ne_eq, Option.some_inj]
  decide

theorem composeAcute_again (s : List Char) : composeAcute (composeAcute s) = composeAcute s := by
  refine composeAcute_induct (motive := fun _ r => composeAcute r = r) rfl (fun rest ih => ?_)
    (fun c rest hnot ih => ?_) s
  · rw [composeAcute_cons (by decide), ih]
  · rw [composeAcute_kept fun hc => composeAcute_head (hnot hc), ih]

theorem composeAcute_ascii {s : List Char} (h : ∀ c ∈ composeAcute s, plainAscii c = true) :
    composeAcute s = s := by
  revert h
  refine composeAcute_induct (motive := fun s r => (∀ c ∈ r, plainAscii c = true) → r = s) (fun _ => rfl)
    (fun rest _ h => ?_) (fun c rest _ ih h => ?_) s
  · have haccent := h '\u00e9' List.mem_cons_self
    exact absurd haccent (by decide)
  · rw [ih fun d hd => h d (List.mem_cons_of_mem _ hd)]

def acute : Normalizer :=
  { isNfc := fun s => composeAcute s.toList = s.toList
    nfc := fun s => String.ofList (composeAcute s.toList) }

theorem acute_normal (s : List Char) : acute.normal s = composeAcute s := by
  simp [Normalizer.normal, acute]

theorem acute_lawful : acute.Lawful where
  quick := fun s hs => by
    have hsame : composeAcute s.toList = s.toList := of_decide_eq_true hs
    show String.ofList (composeAcute s.toList) = s
    rw [hsame, String.ofList_toList]
  nil := acute_normal []
  again := fun s => by simp only [acute_normal, composeAcute_again]
  apart := fun c hc a b => by
    simp only [acute_normal]
    refine composeAcute_apart ?_ ?_ a b
    · rintro rfl
      cases hc
    · rintro rfl
      cases hc
  origin := fun c hc s hin => by
    rw [acute_normal] at hin
    refine mem_of_composeAcute ?_ hin
    rintro rfl
    cases hc
  ascii := fun s hs => by
    rw [acute_normal] at hs ⊢
    exact composeAcute_ascii hs

theorem validate_closed_accent :
    ((∀ component ∈ ["\u00e9", "a"], Passes component) ∧
        validate acute (RequestedPath.asRelative ⟨["\u00e9", "a"]⟩) = .ok ⟨["\u00e9", "a"]⟩) ↔
      ∀ part ∈ "e\u0301/a".toList.splitOnP isSeparator,
        looksLikeShortName (acute.normalizeForMatch (String.ofList part)).toList = false :=
  @validate_closed_iff acute acute_lawful "e\u0301/a" ⟨["\u00e9", "a"]⟩ (by rfl) (by decide)

/-- Nine bytes before the tilde are checked, and six are let through. -/
theorem short_name_normalized :
    ¬ ∀ (unicode : Normalizer), unicode.Lawful → ∀ (requested : String) (path : RequestedPath),
      validate unicode requested = .ok path → path.components ≠ [] →
        (∀ component ∈ path.components, Passes component) ∧
          validate unicode path.asRelative = .ok path := by
  intro hall
  have hclosed := hall acute acute_lawful "e\u0301e\u0301e\u0301~1" ⟨["\u00e9\u00e9\u00e9~1"]⟩
    (by rfl) (by decide)
  have hrefused : validate acute "\u00e9\u00e9\u00e9~1" =
      .error (.shortName "\u00e9\u00e9\u00e9~1") := by rfl
  exact absurd (hrefused.symm.trans hclosed.2) nofun

end MarloweAgent.Permission
