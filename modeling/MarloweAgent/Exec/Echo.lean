import MarloweAgent.Exec.Web

/-! What is echoed of a redirect's location. The harness writes the location again from its parts, and the
text it writes has to be read as the same parts by the fetcher and by the permission layer. -/

namespace MarloweAgent.Exec
open Contract Extract Net Permission

/-! ## What may be echoed -/

/-- A character of a location that may be echoed. -/
def isEchoable (c : Char) : Bool := c.isAlphanum || c ∈ "-._~:/?#[]@$&=%".toList

/-- The runs of letters that count as words. -/
def wordRuns (text : String) : Nat :=
  ((text.toList.splitOnP (! Char.isAlpha ·)).filter (3 ≤ ·.length)).length

/-- The rule for the names of hosts. -/
structure DnsShaped (host : String) : Prop where
  ne_nil : host.toList ≠ []
  short : host.utf8ByteSize ≤ 253
  labels : ∀ label ∈ host.toList.splitOn '.',
    label ≠ [] ∧ Text.byteLen label ≤ 63 ∧ ∀ c ∈ label, c.isAlphanum = true ∨ c = '-'

/-- A text that may be echoed for a location, and that both parsers read as the location's own parts. -/
structure Echoes (raw u : String) (t : Target) : Prop where
  parsed : Target.parse raw = .ok t
  chars : ∀ c ∈ u.toList, isEchoable c = true
  host : DnsShaped t.host
  host_words : wordRuns t.host ≤ 6
  path : t.path.utf8ByteSize ≤ 256
  path_words : wordRuns t.path ≤ 6
  fetched : Target.parse u = .ok t
  permitted : ∃ h, Host.fromUrl u = .ok h ∧ h.text = t.host

/-- What is echoed of a location is nothing, or the name of its host, or a text that says the same. -/
structure EchoedFaithfully (raw : String) : Prop where
  hostOnly : ∀ {host}, sanitizeLocation raw = .hostOnly host → DnsShaped host ∧ ∃ t, Target.parse raw = .ok t ∧ t.host = host
  url : ∀ {u}, sanitizeLocation raw = .url u → ∃ t, Echoes raw u t

/-- No label of a host begins or ends with a hyphen. -/
def NoEdgeHyphen (host : String) : Prop :=
  ∀ label ∈ host.toList.splitOn '.', label.head? ≠ some '-' ∧ label.getLast? ≠ some '-'

/-! ## Characters -/

theorem isWhitespace_of_isEchoable {c : Char} (h : isEchoable c = true) : Text.isWhitespace c = false := by
  rcases Bool.or_eq_true_iff.mp h with halnum | hother
  · have hcode := Text.code_of_isAlphanum halnum
    simp only [Text.isWhitespace, Bool.or_eq_false_iff, Bool.and_eq_false_iff, decide_eq_false_iff_not,
      beq_eq_false_iff_ne]
    omega
  · have hall : "-._~:/?#[]@$&=%".toList.all (! Text.isWhitespace ·) = true := by decide
    have hc := List.all_eq_true.mp hall c (of_decide_eq_true hother)
    rwa [Bool.not_eq_true'] at hc

/-- A character of a host: a letter, a digit, a hyphen or a dot. -/
def isHostChar (c : Char) : Bool := c.isAlphanum || c == '-' || c == '.'

theorem isEchoable_of_isHostChar {c : Char} (h : isHostChar c = true) : isEchoable c = true := by
  rcases Bool.or_eq_true_iff.mp h with h | h
  · rcases Bool.or_eq_true_iff.mp h with h | h
    · rw [isEchoable, h]
      rfl
    · rw [beq_iff_eq.mp h]
      rfl
  · rw [beq_iff_eq.mp h]
    rfl

theorem ne_of_isHostChar {c d : Char} (h : isHostChar c = true) (hd : isHostChar d = false) : c ≠ d := by
  rintro rfl
  rw [h] at hd
  cases hd

theorem isHostChar_of_isDigit {c : Char} (h : c.isDigit = true) : isHostChar c = true := by
  simp [isHostChar, Char.isAlphanum, h]

theorem toAsciiLowercaseChar_of_isDigit {c : Char} (h : c.isDigit = true) : Text.toAsciiLowercaseChar c = c := by
  rcases Text.toAsciiLowercaseChar_cases c with heq | ⟨hletter, -⟩
  · exact heq
  · have hdigit := Text.code_of_isDigit h
    have hcode := Text.code_of_isAlpha hletter
    omega

/-! ## The checks -/

theorem dnsShaped_of_hostIsSafe {host : String} (h : hostIsSafe host = true) : DnsShaped host ∧ wordRuns host ≤ 6 := by
  unfold hostIsSafe at h
  split at h
  · cases h
  rename_i hbounds
  obtain ⟨hne, hshort⟩ := not_or.mp hbounds
  obtain ⟨hlabels, hprose⟩ := Bool.and_eq_true_iff.mp h
  refine ⟨⟨by simpa [Text.isEmpty] using hne, Nat.not_lt.mp hshort, fun label hlabel => ?_⟩, ?_⟩
  · have hlabel := List.all_eq_true.mp hlabels label hlabel
    simpa [and_assoc] using hlabel
  · simpa [looksLikeProse, wordRuns] using hprose

theorem of_pathIsSafe {path : String} (h : pathIsSafe path = true) :
    path.utf8ByteSize ≤ 256 ∧ (∀ c ∈ path.toList, isEchoable c = true) ∧ wordRuns path ≤ 6 := by
  unfold pathIsSafe at h
  obtain ⟨h, hprose⟩ := Bool.and_eq_true_iff.mp h
  obtain ⟨h, hchars⟩ := Bool.and_eq_true_iff.mp h
  obtain ⟨hshort, -⟩ := Bool.and_eq_true_iff.mp h
  exact ⟨of_decide_eq_true hshort, List.all_eq_true.mp hchars, by simpa [looksLikeProse, wordRuns] using hprose⟩

theorem DnsShaped.isHostChar {host : String} (h : DnsShaped host) {c : Char} (hc : c ∈ host.toList) :
    isHostChar c = true := by
  by_cases hdot : c = '.'
  · rw [hdot]
    rfl
  · obtain ⟨label, hlabel, hmem⟩ := Text.mem_splitOn hc hdot
    rcases (h.labels label hlabel).2.2 c hmem with halnum | rfl
    · simp [Exec.isHostChar, halnum]
    · rfl

/-! ## The text that is written -/

/-- The port as it is written, where it is not the usual one. -/
def portText (port : UInt16) : List Char := if port = 443 then [] else ':' :: Nat.toDigits 10 port.toNat

/-- The location as it is written again. -/
def echoText (t : Target) : String :=
  "https://" ++ t.host ++ (if t.port = 443 then "" else s!":{t.port}") ++ t.path

theorem toList_echoText (t : Target) :
    (echoText t).toList = "https://".toList ++ (t.host.toList ++ portText t.port ++ t.path.toList) := by
  have hport : (if t.port = 443 then "" else s!":{t.port}").toList = portText t.port := by
    unfold portText
    split
    · rfl
    · rw [String.toList_append]
      exact congrArg (':' :: ·) Nat.toList_repr
  rw [echoText, String.toList_append, String.toList_append, String.toList_append, hport]
  simp only [List.append_assoc]

theorem parseU16_toDigits (port : UInt16) : parseU16 (Nat.toDigits 10 port.toNat) = some port := by
  have hdigits : ∀ c ∈ Nat.toDigits 10 port.toNat, c.isDigit = true := fun c =>
    Nat.isDigit_of_mem_toDigits (by decide) (by decide)
  have hplus : Text.stripPrefix (Nat.toDigits 10 port.toNat) ['+'] = none := by
    cases hstrip : Text.stripPrefix (Nat.toDigits 10 port.toNat) ['+'] with
    | none => rfl
    | some rest =>
      have hmem : '+' ∈ Nat.toDigits 10 port.toNat := by
        rw [Text.stripPrefix_eq_some hstrip]
        exact List.mem_cons_self
      exact absurd (hdigits '+' hmem) (by decide)
  have hvalue : (Nat.toDigits 10 port.toNat).foldl (fun n c => n * 10 + (c.toNat - '0'.toNat)) 0 = port.toNat := by
    have h := Nat.ofDigitChars_ten_toDigits (n := port.toNat)
    rw [Nat.ofDigitChars_eq_foldl] at h
    simpa only [Nat.mul_comm] using h
  unfold parseU16
  rw [hplus]
  dsimp only [Option.getD_none]
  rw [if_pos ⟨Nat.toDigits_ne_nil, List.all_eq_true.mpr hdigits⟩]
  simp only [hvalue]
  rw [dif_pos port.toNat_lt]
  rfl

theorem of_dropWhile_cons {p : Char → Bool} {cs rest : List Char} {c : Char} (h : cs.dropWhile p = c :: rest) :
    p c = false := by
  have hhead := List.head?_dropWhile_not p cs
  rw [h] at hhead
  simpa using hhead

theorem tls_of_parse {raw : String} {t : Target} (h : Target.parse raw = .ok t) : t.tls = true := by
  simp only [Target.parse] at h
  split at h
  next => split at h <;> cases h
  next =>
    split at h
    next => cases h
    next =>
      split at h
      next => cases h
      next =>
        split at h
        next => cases h
        next =>
          cases h
          rfl

/-- The name of a host that was parsed is in lower case, and the path begins with a slash. -/
theorem parts_of_parse {raw : String} {t : Target} (h : Target.parse raw = .ok t) :
    t.tls = true ∧ t.host.toList.map Text.toAsciiLowercaseChar = t.host.toList ∧
      ∃ rest, t.path.toList = '/' :: rest := by
  obtain ⟨-, ⟨host, -, hhost⟩, hne, hpath⟩ := parse_ok h
  refine ⟨tls_of_parse h, ?_, ?_⟩
  · rw [hhost, List.map_map]
    exact List.map_congr_left fun c _ => Text.toAsciiLowercaseChar_idem c
  · rcases hpath with hpath | ⟨-, hslash⟩
    · obtain ⟨c, rest, hcons⟩ := List.exists_cons_of_ne_nil hne
      have hc := of_dropWhile_cons (hpath.symm.trans hcons)
      obtain rfl : c = '/' := by simpa using hc
      exact ⟨rest, hcons⟩
    · exact ⟨[], hslash⟩

/-- A target made of characters that may be echoed. -/
structure Echoable (t : Target) : Prop where
  tls : t.tls = true
  lower : t.host.toList.map Text.toAsciiLowercaseChar = t.host.toList
  host_ne_nil : t.host.toList ≠ []
  host : ∀ c ∈ t.host.toList, isHostChar c = true
  path : ∀ c ∈ t.path.toList, isEchoable c = true
  slash : ∃ rest, t.path.toList = '/' :: rest

section
variable {t : Target} (h : Echoable t)
include h

theorem notMem_host {c : Char} (hc : isHostChar c = false) : c ∉ t.host.toList := fun hmem =>
  ne_of_isHostChar (h.host c hmem) hc rfl

theorem mem_authority {c : Char} (hc : c ∈ t.host.toList ++ portText t.port) : isHostChar c = true ∨ c = ':' := by
  rcases List.mem_append.mp hc with hc | hc
  · exact .inl (h.host c hc)
  · unfold portText at hc
    split at hc
    · cases hc
    · rcases List.mem_cons.mp hc with rfl | hc
      · exact .inr rfl
      · exact .inl (isHostChar_of_isDigit (Nat.isDigit_of_mem_toDigits (by decide) (by decide) hc))

theorem notMem_authority {c : Char} (hc : isHostChar c = false) (hcolon : c ≠ ':') :
    c ∉ t.host.toList ++ portText t.port := fun hmem => by
  rcases mem_authority h hmem with hhost | hcolon'
  · exact ne_of_isHostChar hhost hc rfl
  · exact hcolon hcolon'

/-- All of the text may be echoed. -/
theorem isEchoable_echoText : ∀ c ∈ (echoText t).toList, isEchoable c = true := by
  intro c hc
  rw [toList_echoText] at hc
  rcases List.mem_append.mp hc with hc | hc
  · have hscheme : "https://".toList.all isEchoable = true := by decide
    exact List.all_eq_true.mp hscheme c hc
  rcases List.mem_append.mp hc with hc | hc
  · rcases mem_authority h hc with hhost | rfl
    · exact isEchoable_of_isHostChar hhost
    · rfl
  · exact h.path c hc

theorem trim_echoText : Text.trim (echoText t) = echoText t :=
  Text.trim_of_forall fun c hc => isWhitespace_of_isEchoable (isEchoable_echoText h c hc)

theorem hostAndPort_echoText : Target.hostAndPort (t.host.toList ++ portText t.port) = some (t.host.toList, t.port) := by
  have hcolon : ':' ∉ t.host.toList := notMem_host h rfl
  unfold portText
  split
  · rename_i hport
    rw [List.append_nil, Target.hostAndPort, Text.rsplitOnce_eq_none.mpr hcolon, hport]
  · have hdigits : ':' ∉ Nat.toDigits 10 t.port.toNat := fun hmem =>
      absurd (Nat.isDigit_of_mem_toDigits (by decide) (by decide) hmem) (by decide)
    rw [Target.hostAndPort, Text.rsplitOnce_append hdigits]
    dsimp only
    rw [parseU16_toDigits]
    rfl

/-- The fetcher reads the text as the target it was written from. -/
theorem parse_echoText : Target.parse (echoText t) = .ok t := by
  obtain ⟨rest, hrest⟩ := h.slash
  have hstrip : Text.stripPrefix (echoText t).toList "https://".toList =
      some (t.host.toList ++ portText t.port ++ t.path.toList) := by
    rw [toList_echoText, Text.stripPrefix, if_pos (List.isPrefixOf_iff_prefix.mpr (List.prefix_append ..)),
      List.drop_left]
  have hslash : ∀ c ∈ t.host.toList ++ portText t.port, decide (c ≠ '/') = true := fun c hc =>
    decide_eq_true fun heq => notMem_authority h (c := '/') rfl (by decide) (heq ▸ hc)
  have htake : (t.host.toList ++ portText t.port ++ t.path.toList).takeWhile (· ≠ '/') =
      t.host.toList ++ portText t.port := by
    rw [List.takeWhile_append_of_pos hslash, hrest, List.takeWhile_cons_of_neg (by simp), List.append_nil]
  have hdrop : (t.host.toList ++ portText t.port ++ t.path.toList).dropWhile (· ≠ '/') = t.path.toList := by
    rw [List.dropWhile_append_of_pos hslash, hrest, List.dropWhile_cons_of_neg (by simp)]
  have hmem : '/' ∈ t.host.toList ++ portText t.port ++ t.path.toList := by simp [hrest]
  have hblank : ¬ (t.host.toList = [] ∨ t.host.toList.any Text.isWhitespace = true) := by
    rintro (hnone | hblank)
    · exact h.host_ne_nil hnone
    · obtain ⟨c, hc, hspace⟩ := List.any_eq_true.mp hblank
      rw [isWhitespace_of_isEchoable (isEchoable_of_isHostChar (h.host c hc))] at hspace
      cases hspace
  have hlower : Text.toAsciiLowercase (String.ofList t.host.toList) = t.host := by
    rw [Text.toAsciiLowercase, String.toList_ofList, h.lower, String.ofList_toList]
  unfold Target.parse
  rw [trim_echoText h]
  dsimp only
  rw [hstrip]
  dsimp only
  rw [htake, if_pos hmem, hdrop, if_neg (notMem_authority h (c := '@') rfl (by decide)), hostAndPort_echoText h]
  dsimp only
  rw [if_neg hblank, hlower, String.ofList_toList, ← h.tls]

/-- The permission layer reads the host of the text, if it is one. -/
theorem fromUrl_echoText : (∃ host, Host.fromUrl (echoText t) = .ok host ∧ host.text = t.host) ↔
    isHostName t.host.toList = true := by
  constructor
  · rintro ⟨host, -, hhost⟩
    exact hhost ▸ host.wellFormed
  intro hname
  obtain ⟨rest, hrest⟩ := h.slash
  have hauthority : (t.host.toList ++ portText t.port).map Text.toAsciiLowercaseChar = t.host.toList ++ portText t.port := by
    rw [List.map_append, h.lower]
    congr 1
    unfold portText
    split
    · rfl
    · rw [List.map_cons, List.map_congr_left fun c hc =>
        toAsciiLowercaseChar_of_isDigit (Nat.isDigit_of_mem_toDigits (by decide) (by decide) hc), List.map_id']
      rfl
  have hlower : (Text.toAsciiLowercase (echoText t)).toList = "https://".toList ++
      (t.host.toList ++ portText t.port ++ '/' :: rest.map Text.toAsciiLowercaseChar) := by
    rw [Text.toAsciiLowercase, String.toList_ofList, toList_echoText, List.map_append, List.map_append, hauthority,
      hrest, List.map_cons]
    rfl
  have hstrip : Text.stripPrefix (Text.toAsciiLowercase (echoText t)).toList "https://".toList =
      some (t.host.toList ++ portText t.port ++ '/' :: rest.map Text.toAsciiLowercaseChar) := by
    rw [hlower, Text.stripPrefix, if_pos (List.isPrefixOf_iff_prefix.mpr (List.prefix_append ..)), List.drop_left]
  have htake : (t.host.toList ++ portText t.port ++ '/' :: rest.map Text.toAsciiLowercaseChar).takeWhile
      (fun c => decide (c ≠ '/' ∧ c ≠ '?' ∧ c ≠ '#')) = t.host.toList ++ portText t.port := by
    rw [List.takeWhile_append_of_pos, List.takeWhile_cons_of_neg (by simp), List.append_nil]
    intro c hc
    refine decide_eq_true ⟨?_, ?_, ?_⟩ <;> rintro rfl
    · exact notMem_authority h rfl (by decide) hc
    · exact notMem_authority h rfl (by decide) hc
    · exact notMem_authority h rfl (by decide) hc
  have hbefore : (t.host.toList ++ portText t.port).takeWhile (· ≠ ':') = t.host.toList := by
    have hcolon : ∀ c ∈ t.host.toList, decide (c ≠ ':') = true := fun c hc =>
      decide_eq_true fun heq => notMem_host h (c := ':') rfl (heq ▸ hc)
    rw [List.takeWhile_append_of_pos hcolon]
    unfold portText
    split
    · rw [List.takeWhile_nil, List.append_nil]
    · rw [List.takeWhile_cons_of_neg (by simp), List.append_nil]
  have hsame : Text.toAsciiLowercase (String.ofList t.host.toList) = t.host := by
    rw [Text.toAsciiLowercase, String.toList_ofList, h.lower, String.ofList_toList]
  have hparse : Host.parse (String.ofList t.host.toList) = some ⟨t.host, hname⟩ := by
    simp only [Host.parse, hsame, hname, dite_true]
  refine ⟨⟨t.host, hname⟩, ?_, rfl⟩
  unfold Host.fromUrl
  dsimp only
  rw [trim_echoText h, hstrip, Option.orElse_some]
  dsimp only
  rw [htake, if_neg (notMem_authority h (c := '@') rfl (by decide)),
    if_neg (not_or.mpr ⟨notMem_authority h (c := '[') rfl (by decide), notMem_authority h (c := ']') rfl (by decide)⟩),
    hbefore, hparse]

end

/-! ## The two rules for hosts -/

/-- A name without an empty label neither begins nor ends with a dot. -/
theorem DnsShaped.edges {host : String} (h : DnsShaped host) :
    host.toList.head? ≠ some '.' ∧ host.toList.getLast? ≠ some '.' := by
  have hlabels := fun label hlabel => (h.labels label hlabel).1
  constructor
  · intro hhead
    obtain ⟨rest, hrest⟩ := List.head?_eq_some_iff.mp hhead
    have hsplit : host.toList.splitOn '.' = [] :: rest.splitOn '.' := by
      rw [hrest]
      exact List.splitOn_append_cons_self (a := '.') [] rest
    exact hlabels [] (hsplit ▸ List.mem_cons_self) rfl
  · intro hlast
    obtain ⟨front, hfront⟩ := List.getLast?_eq_some_iff.mp hlast
    have hsplit : host.toList.splitOn '.' = front.splitOn '.' ++ [[]] := by
      rw [hfront, List.splitOn_append_cons_self]
      rfl
    exact hlabels [] (hsplit ▸ List.mem_append_right _ List.mem_cons_self) rfl

/-- The two rules for the names of hosts differ in the hyphens at the ends of labels. -/
theorem isHostName_iff {host : String} (h : DnsShaped host) : isHostName host.toList = true ↔ NoEdgeHyphen host := by
  have hshort : host.toList.length ≤ 253 := (Text.length_le_utf8ByteSize host).trans h.short
  have hlabels : ∀ label ∈ host.toList.splitOn '.', (isLabel label = true ↔
      label.head? ≠ some '-' ∧ label.getLast? ≠ some '-') := by
    intro label hlabel
    obtain ⟨hne, hlength, hchars⟩ := h.labels label hlabel
    have hlength : label.length ≤ 63 := (Text.length_le_byteLen label).trans hlength
    have hall : (label.all fun c => c.isAlphanum || c == '-') = true :=
      List.all_eq_true.mpr fun c hc => by simpa using hchars c hc
    simp only [isLabel, hall, Bool.and_true, Bool.and_eq_true, decide_eq_true_eq, Bool.not_eq_true']
    simp [hne, hlength]
  unfold isHostName NoEdgeHyphen
  rw [Bool.and_eq_true, List.all_eq_true]
  simp only [Bool.and_eq_true, decide_eq_true_eq, Bool.not_eq_true']
  rw [forall₂_congr hlabels]
  simp [h.ne_nil, hshort, h.edges]

theorem sanitizeLocation_of_ok {raw : String} {t : Target} (h : Target.parse raw = .ok t) :
    sanitizeLocation raw =
      if hostIsSafe t.host then if pathIsSafe t.path then .url (echoText t) else .hostOnly t.host else .unusable := by
  unfold sanitizeLocation
  rw [h]
  dsimp only
  cases hostIsSafe t.host <;> rfl

/-- A target whose host and path are safe is written as one that is read again, and read by the permission
layer exactly if no label has a hyphen at an end. -/
theorem echoes_echoText_iff {raw : String} {t : Target} (h : Target.parse raw = .ok t)
    (hhost : hostIsSafe t.host = true) (hpath : pathIsSafe t.path = true) :
    Echoes raw (echoText t) t ↔ NoEdgeHyphen t.host := by
  obtain ⟨hshape, hhostWords⟩ := dnsShaped_of_hostIsSafe hhost
  obtain ⟨hshort, hchars, hpathWords⟩ := of_pathIsSafe hpath
  obtain ⟨htls, hlower, hslash⟩ := parts_of_parse h
  have hechoable : Echoable t := ⟨htls, hlower, hshape.ne_nil, fun c => hshape.isHostChar, hchars, hslash⟩
  rw [← isHostName_iff hshape, ← fromUrl_echoText hechoable]
  exact ⟨fun hechoes => hechoes.permitted, fun hpermitted => ⟨h, isEchoable_echoText hechoable, hshape, hhostWords,
    hshort, hpathWords, parse_echoText hechoable, hpermitted⟩⟩

/-- Where the host and the path are safe, the echo is faithful exactly if no label has a hyphen at an end. -/
theorem echoedFaithfully_of_safe {raw : String} {t : Target} (h : Target.parse raw = .ok t)
    (hhost : hostIsSafe t.host = true) (hpath : pathIsSafe t.path = true) :
    EchoedFaithfully raw ↔ NoEdgeHyphen t.host := by
  have hurl : sanitizeLocation raw = .url (echoText t) := by
    rw [sanitizeLocation_of_ok h, if_pos hhost, if_pos hpath]
  rw [← echoes_echoText_iff h hhost hpath]
  constructor
  · intro hfaithful
    obtain ⟨t', hechoes⟩ := hfaithful.url hurl
    obtain rfl := Except.ok.inj (h.symm.trans hechoes.parsed)
    exact hechoes
  · intro hechoes
    refine ⟨fun hhostOnly => ?_, fun hurl' => ⟨t, ?_⟩⟩
    · rw [hurl] at hhostOnly
      nomatch hhostOnly
    · obtain rfl := RedirectTo.url.inj (hurl.symm.trans hurl')
      exact hechoes

/-- Any other location echoes nothing, or a host. -/
theorem echoedFaithfully_of_not_safe {raw : String}
    (h : ∀ t, Target.parse raw = .ok t → ¬ (hostIsSafe t.host = true ∧ pathIsSafe t.path = true)) :
    EchoedFaithfully raw := by
  cases hparse : Target.parse raw with
  | error e =>
    have hnothing : sanitizeLocation raw = .unusable := by
      unfold sanitizeLocation
      rw [hparse]
    constructor
    · exact fun hhostOnly => nomatch hnothing.symm.trans hhostOnly
    · exact fun hurl => nomatch hnothing.symm.trans hurl
  | ok t =>
    have hsanitized := sanitizeLocation_of_ok hparse
    by_cases hhost : hostIsSafe t.host = true
    · rw [if_pos hhost, if_neg fun hpath => h t hparse ⟨hhost, hpath⟩] at hsanitized
      refine ⟨fun hhostOnly => ?_, fun hurl => nomatch hsanitized.symm.trans hurl⟩
      obtain rfl := RedirectTo.hostOnly.inj (hsanitized.symm.trans hhostOnly)
      exact ⟨(dnsShaped_of_hostIsSafe hhost).1, t, hparse, rfl⟩
    · rw [if_neg hhost] at hsanitized
      constructor
      · exact fun hhostOnly => nomatch hsanitized.symm.trans hhostOnly
      · exact fun hurl => nomatch hsanitized.symm.trans hurl

/-- **The echo of a location.** What is echoed is faithful except where a label of the host begins or ends with
a hyphen, which the permission layer refuses. -/
theorem echoedFaithfully_iff (raw : String) : EchoedFaithfully raw ↔
    ∀ t, Target.parse raw = .ok t → hostIsSafe t.host = true → pathIsSafe t.path = true → NoEdgeHyphen t.host := by
  constructor
  · intro h t hparse hhost hpath
    exact (echoedFaithfully_of_safe hparse hhost hpath).mp h
  · intro h
    by_cases hsafe : ∃ t, Target.parse raw = .ok t ∧ hostIsSafe t.host = true ∧ pathIsSafe t.path = true
    · obtain ⟨t, hparse, hhost, hpath⟩ := hsafe
      have hhyphen : NoEdgeHyphen t.host := h t hparse hhost hpath
      exact (echoedFaithfully_of_safe hparse hhost hpath).mpr hhyphen
    · exact echoedFaithfully_of_not_safe fun t hparse hboth => hsafe ⟨t, hparse, hboth⟩

/-- A host that the fetcher goes to, and that is echoed, but that the permission layer refuses. -/
theorem edge_hyphen_refused : ¬ ∀ raw, EchoedFaithfully raw := by
  intro h
  have hparse : Target.parse "https://-a.example/" = .ok ⟨"-a.example", 443, "/", true⟩ := by decide
  have hhyphen := (echoedFaithfully_of_safe hparse (by decide) (by decide)).mp (h _)
  exact (hhyphen "-a".toList (by decide)).1 rfl

end MarloweAgent.Exec
