import Mathlib.Data.List.TakeWhile
import MarloweAgent.Library.Http
import MarloweAgent.Permission.Egress

/-! Where a URL goes. The permission layer reads a host out of the URL and the fetcher
reads a destination out of the same text, each with a parser of its own; the fetcher then
writes the destination's path into the head of its request as it stands. -/

namespace MarloweAgent.Net
open Contract Library Permission

inductive FetchError
  | unsupported (url detail : String)
  | unreachable (host detail : String)
  | tls (host detail : String)
  | malformed (host detail : String)
  | tooLarge (host : String) (limit : Nat)
  | decode (host encoding detail : String)
  deriving DecidableEq, Repr

def FetchError.render : FetchError → String
  | unsupported url detail => s!"{url} is not a URL this tool will fetch: {detail}"
  | unreachable host detail => s!"could not reach {host}: {detail}"
  | tls host detail => s!"TLS to {host} failed: {detail}"
  | malformed host detail => s!"malformed response from {host}: {detail}"
  | tooLarge host limit => s!"{host} returned a body larger than the {limit} byte cap"
  | decode host encoding detail =>
    s!"{host} sent {encoding}-encoded content that would not decode: {detail}"

/-- `str::parse::<u16>`: digits, after an optional plus sign. -/
def parseU16 (s : List Char) : Option UInt16 :=
  let digits := (Text.stripPrefix s ['+']).getD s
  if digits ≠ [] ∧ digits.all Char.isDigit then
    let n := digits.foldl (fun n c => n * 10 + (c.toNat - '0'.toNat)) 0
    if h : n < 2 ^ 16 then some (UInt16.ofNatLT n h) else none
  else none

structure Target where
  host : String
  port : UInt16
  path : String
  tls : Bool
  deriving DecidableEq

namespace Target

/-- The host and the port of an authority, which are split at its last colon. -/
def hostAndPort (authority : List Char) : Option (List Char × UInt16) :=
  match Text.rsplitOnce authority ':' with
  | some (host, port) => (parseU16 port).map (host, ·)
  | none => some (authority, 443)

def parse (url : String) : Except FetchError Target :=
  let url := Text.trim url
  let unsupported (detail : String) : Except FetchError Target := .error (.unsupported url detail)
  match Text.stripPrefix url.toList "https://".toList with
  | none =>
    if Text.startsWith url "http://" then
      unsupported "only https is supported; plaintext http is refused, not upgraded"
    else unsupported "the URL must begin with https://"
  | some rest =>
    let authority := rest.takeWhile (· ≠ '/')
    let path := if '/' ∈ rest then rest.dropWhile (· ≠ '/') else ['/']
    if '@' ∈ authority then unsupported "userinfo in the authority is not accepted"
    else
      match hostAndPort authority with
      | none => unsupported "the port is not a number"
      | some (host, port) =>
        if host = [] ∨ host.any Text.isWhitespace then
          unsupported "the host is empty or contains whitespace"
        else
          .ok
            { host := Text.toAsciiLowercase (String.ofList host)
              port
              path := String.ofList path
              tls := true }

/-- The head that `try_fetch` writes. -/
def requestHead (target : Target) : String :=
  s!"GET {target.path} HTTP/1.1\r\nHost: {target.host}\r\nUser-Agent: marlowe\r\nAccept: */*\r\n" ++
  "Accept-Encoding: gzip, br\r\nConnection: keep-alive\r\n\r\n"

/-- The headers the client means to send. -/
def ownHeaders (target : Target) : List (List Char × List Char) :=
  [("Host".toList, target.host.toList),
    ("User-Agent".toList, "marlowe".toList),
    ("Accept".toList, "*/*".toList),
    ("Accept-Encoding".toList, "gzip, br".toList),
    ("Connection".toList, "keep-alive".toList)]

/-- What is on the wire is one request, with the client's own headers and no others. -/
def SendsOne (target : Target) : Prop :=
  ∃ path, Http.requests target.requestHead.toList =
    some [{ method := "GET".toList, target := path, fields := target.ownHeaders }]

end Target

/-! ## The two readings of one URL -/

/-- The part of a URL that both parsers read after the scheme. -/
def afterScheme (url : String) : List Char := (Text.trim url).toList.drop "https://".toList.length

/-- Up to the first slash. -/
def authorityOf (url : String) : List Char := (afterScheme url).takeWhile (· ≠ '/')

/-- From the first slash on. -/
def pathOf (url : String) : List Char := (afterScheme url).dropWhile (· ≠ '/')

/-- A URL that both parsers read alike, and whose path can stand in a request line: no query
or fragment before the first slash, one colon at most, and neither a blank nor a control
character in the path. -/
def PlainUrl (url : String) : Prop :=
  '?' ∉ authorityOf url ∧ '#' ∉ authorityOf url ∧ (authorityOf url).count ':' ≤ 1 ∧
    (pathOf url).all Http.isTargetChar = true

instance (url : String) : Decidable (PlainUrl url) := inferInstanceAs (Decidable (_ ∧ _))

/-- A character that ends the host for the permission layer. -/
def endsHost (c : Char) : Bool := c = '?' || c = '#' || c = ':'

/-- What a target is made of. -/
theorem parse_ok {url : String} {t : Target} (h : Target.parse url = .ok t) :
    (Text.trim url).toList = "https://".toList ++ afterScheme url ∧
      (∃ host, Target.hostAndPort (authorityOf url) = some (host, t.port) ∧
        t.host.toList = host.map Text.toAsciiLowercaseChar) ∧
      t.path.toList ≠ [] ∧ (t.path.toList = pathOf url ∨ pathOf url = [] ∧ t.path.toList = ['/']) := by
  simp only [Target.parse] at h
  split at h
  next => split at h <;> cases h
  next rest hrest =>
    have htext := Text.stripPrefix_eq_some hrest
    have hafter : afterScheme url = rest := by
      unfold afterScheme
      rw [htext, List.drop_left]
    split at h
    next => cases h
    next =>
      split at h
      next => cases h
      next host port hsplit =>
        split at h
        next => cases h
        next =>
          cases h
          refine ⟨by rw [htext, hafter], ⟨host, ?_, ?_⟩, ?_, ?_⟩
          · rw [authorityOf, hafter]
            exact hsplit
          · simp [Text.toAsciiLowercase]
          · by_cases hslash : '/' ∈ rest <;> simp [hslash]
          · rw [pathOf, hafter]
            by_cases hslash : '/' ∈ rest
            · exact .inl (by simp [hslash])
            · refine .inr ⟨?_, by simp [hslash]⟩
              rw [List.dropWhile_eq_nil_iff]
              intro c hc
              simpa using fun heq : c = '/' => hslash (heq ▸ hc)

/-- The first of several ends of a text is the first end of the text up to the others. -/
theorem host_part (rest : List Char) :
    (((rest.map Text.toAsciiLowercaseChar).takeWhile fun c => c ≠ '/' ∧ c ≠ '?' ∧ c ≠ '#').takeWhile
        (· ≠ ':')).map Text.toAsciiLowercaseChar =
      ((rest.takeWhile (· ≠ '/')).takeWhile (! endsHost ·)).map Text.toAsciiLowercaseChar := by
  induction rest with
  | nil => rfl
  | cons c rest ih =>
    have hslash : Text.toAsciiLowercaseChar c = '/' ↔ c = '/' := Text.toAsciiLowercaseChar_eq_iff rfl
    have hquery : Text.toAsciiLowercaseChar c = '?' ↔ c = '?' := Text.toAsciiLowercaseChar_eq_iff rfl
    have hfragment : Text.toAsciiLowercaseChar c = '#' ↔ c = '#' := Text.toAsciiLowercaseChar_eq_iff rfl
    have hcolon : Text.toAsciiLowercaseChar c = ':' ↔ c = ':' := Text.toAsciiLowercaseChar_eq_iff rfl
    by_cases hends : c = '/' ∨ endsHost c
    · simp only [endsHost, Bool.or_eq_true, decide_eq_true_eq] at hends
      rcases hends with rfl | (rfl | rfl) | rfl <;> rfl
    · simp only [endsHost, Bool.or_eq_true, decide_eq_true_eq, not_or] at hends
      obtain ⟨h1, ⟨h2, h3⟩, h4⟩ := hends
      simpa [hslash, hquery, hfragment, hcolon, h1, h2, h3, h4, endsHost] using ih

/-- Where the permission layer looks for the host of an `https` URL. -/
theorem fromUrl_ok {url : String} {h : Host} (hurl : Host.fromUrl url = .ok h)
    (htext : (Text.trim url).toList = "https://".toList ++ afterScheme url) :
    h.text.toList = ((authorityOf url).takeWhile (! endsHost ·)).map Text.toAsciiLowercaseChar := by
  have hlower : (Text.toAsciiLowercase (Text.trim url)).toList =
      "https://".toList ++ (afterScheme url).map Text.toAsciiLowercaseChar := by
    rw [Text.toAsciiLowercase, String.toList_ofList, htext, List.map_append]
    rfl
  have hstrip : Text.stripPrefix (Text.toAsciiLowercase (Text.trim url)).toList "https://".toList =
      some ((afterScheme url).map Text.toAsciiLowercaseChar) := by
    rw [hlower, Text.stripPrefix, if_pos (List.isPrefixOf_iff_prefix.mpr (List.prefix_append ..)),
      List.drop_left]
  unfold Host.fromUrl at hurl
  dsimp only at hurl
  rw [hstrip, Option.orElse_some] at hurl
  dsimp only at hurl
  split at hurl
  next => cases hurl
  next =>
    split at hurl
    next => cases hurl
    next =>
      split at hurl
      next host hparse =>
        cases hurl
        have hname := Host.text_of_parse hparse
        rw [hname, String.toList_ofList]
        exact host_part (afterScheme url)
      next => cases hurl

/-- A port is digits, and perhaps a plus sign. -/
theorem chars_of_parseU16 {s : List Char} {n : UInt16} (h : parseU16 s = some n) :
    ∀ c ∈ s, c = '+' ∨ c.isDigit := by
  simp only [parseU16] at h
  split at h
  next hdigits =>
    cases hplus : Text.stripPrefix s ['+'] with
    | none =>
      rw [hplus] at hdigits
      exact fun c hc => .inr (List.all_eq_true.mp hdigits.2 c hc)
    | some rest =>
      rw [hplus] at hdigits
      rw [Text.stripPrefix_eq_some hplus]
      intro c hc
      rcases List.mem_cons.mp hc with rfl | hc
      · exact .inl rfl
      · exact .inr (List.all_eq_true.mp hdigits.2 c hc)
  next => cases h

theorem hostAndPort_ok {authority host : List Char} {port : UInt16}
    (h : Target.hostAndPort authority = some (host, port)) :
    (authority = host ∧ ':' ∉ host) ∨
      ∃ digits, authority = host ++ ':' :: digits ∧ ∀ c ∈ digits, endsHost c = false := by
  unfold Target.hostAndPort at h
  split at h
  next before digits hsplit =>
    obtain ⟨rfl, -⟩ := Text.rsplitOnce_eq_some hsplit
    obtain ⟨n, hn, heq⟩ := Option.map_eq_some_iff.mp h
    cases heq
    refine .inr ⟨digits, rfl, fun c hc => ?_⟩
    rcases chars_of_parseU16 hn c hc with rfl | hdigit
    · rfl
    · cases hends : endsHost c with
      | false => rfl
      | true =>
        simp only [endsHost, Bool.or_eq_true, decide_eq_true_eq] at hends
        rcases hends with (rfl | rfl) | rfl <;> cases hdigit
  next hnone =>
    cases h
    exact .inl ⟨rfl, Text.rsplitOnce_eq_none.mp hnone⟩

theorem forall_endsHost_iff {cs : List Char} :
    (∀ c ∈ cs, endsHost c = false) ↔ '?' ∉ cs ∧ '#' ∉ cs ∧ cs.count ':' = 0 := by
  rw [List.count_eq_zero]
  constructor
  · intro h
    exact ⟨fun hc => Bool.noConfusion (h _ hc), fun hc => Bool.noConfusion (h _ hc),
      fun hc => Bool.noConfusion (h _ hc)⟩
  · rintro ⟨h1, h2, h3⟩ c hc
    simp only [endsHost, Bool.or_eq_false_iff, decide_eq_false_iff_not]
    exact ⟨⟨fun heq => h1 (heq ▸ hc), fun heq => h2 (heq ▸ hc)⟩, fun heq => h3 (heq ▸ hc)⟩

@[simp] theorem endsHost_toAsciiLowercaseChar (c : Char) :
    endsHost (Text.toAsciiLowercaseChar c) = endsHost c := by
  have hquery : Text.toAsciiLowercaseChar c = '?' ↔ c = '?' := Text.toAsciiLowercaseChar_eq_iff rfl
  have hfragment : Text.toAsciiLowercaseChar c = '#' ↔ c = '#' := Text.toAsciiLowercaseChar_eq_iff rfl
  have hcolon : Text.toAsciiLowercaseChar c = ':' ↔ c = ':' := Text.toAsciiLowercaseChar_eq_iff rfl
  simp only [endsHost, hquery, hfragment, hcolon]

/-- A host without an end of host in it is the host of its authority. -/
theorem takeWhile_endsHost {authority host : List Char} {port : UInt16}
    (h : Target.hostAndPort authority = some (host, port)) (hhost : ∀ c ∈ host, endsHost c = false) :
    authority.takeWhile (! endsHost ·) = host := by
  rcases hostAndPort_ok h with ⟨rfl, -⟩ | ⟨digits, rfl, -⟩
  · exact List.takeWhile_eq_self_iff.mpr fun c hc => by simp [hhost c hc]
  · rw [List.takeWhile_append_of_pos fun c hc => by simp [hhost c hc]]
    simp [endsHost]

/-- The two parsers agree on the host where the authority has no query, no fragment and at
most one colon. -/
theorem host_eq_iff {url : String} {h : Host} {t : Target} (hurl : Host.fromUrl url = .ok h)
    (ht : Target.parse url = .ok t) :
    t.host = h.text ↔
      '?' ∉ authorityOf url ∧ '#' ∉ authorityOf url ∧ (authorityOf url).count ':' ≤ 1 := by
  obtain ⟨htext, ⟨host, hsplit, hhost⟩, -, -⟩ := parse_ok ht
  have hchecked := fromUrl_ok hurl htext
  rw [← String.toList_inj, hhost, hchecked]
  constructor
  · intro heq
    -- The permission layer's host has no end of host in it, whatever the authority is.
    have hclean : ∀ c ∈ host, endsHost c = false := by
      intro c hc
      have hmem := List.mem_map_of_mem (f := Text.toAsciiLowercaseChar) hc
      rw [heq] at hmem
      obtain ⟨d, hd, hlower⟩ := List.mem_map.mp hmem
      have hends := List.mem_takeWhile_imp hd
      rw [← endsHost_toAsciiLowercaseChar, ← hlower, endsHost_toAsciiLowercaseChar]
      simpa using hends
    obtain ⟨hq, hf, hcount⟩ := forall_endsHost_iff.mp hclean
    rcases hostAndPort_ok hsplit with ⟨hauth, -⟩ | ⟨digits, hauth, hdigits⟩
    · rw [hauth]
      exact ⟨hq, hf, by omega⟩
    · obtain ⟨hq', hf', hcount'⟩ := forall_endsHost_iff.mp hdigits
      rw [hauth]
      simp [hq, hf, hq', hf', hcount, hcount']
  · rintro ⟨hq, hf, hcount⟩
    have hclean : ∀ c ∈ host, endsHost c = false := by
      rw [forall_endsHost_iff]
      rcases hostAndPort_ok hsplit with ⟨hauth, hnone⟩ | ⟨digits, hauth, -⟩
      · rw [hauth] at hq hf
        exact ⟨hq, hf, List.count_eq_zero.mpr hnone⟩
      · rw [hauth] at hq hf hcount
        simp only [List.mem_append, not_or, List.count_append, List.count_cons_self] at hq hf hcount
        exact ⟨hq.1, hf.1, by omega⟩
    rw [takeWhile_endsHost hsplit hclean]

/-! ## The head on the wire -/

/-- The lines of the head that do not depend on the path. -/
def fixedLines (t : Target) : List (List Char) :=
  ["Host: ".toList ++ t.host.toList, "User-Agent: marlowe".toList, "Accept: */*".toList,
    "Accept-Encoding: gzip, br".toList, "Connection: keep-alive".toList, []]

/-- The line of the head that does. -/
def firstLine (t : Target) : List Char :=
  "GET".toList ++ ' ' :: (t.path.toList ++ " HTTP/1.1".toList)

theorem requestHead_toList (t : Target) :
    t.requestHead.toList = Http.write (firstLine t :: fixedLines t) := by
  simp only [Target.requestHead, firstLine, fixedLines, Http.write, List.flatMap_cons, List.flatMap_nil,
    String.toList_append, List.append_assoc, List.cons_append, List.nil_append]
  rfl

theorem lines_fixedLines {t : Target} (hhost : '\r' ∉ t.host.toList) :
    Http.lines (Http.write (fixedLines t)) = fixedLines t ++ [[]] := by
  apply Http.lines_write
  intro line hline
  simp only [fixedLines, List.mem_cons, List.not_mem_nil, or_false] at hline
  rcases hline with rfl | rfl | rfl | rfl | rfl | rfl
  · simpa using hhost
  all_goals decide

/-- One request is on the wire exactly where the path can stand in a request line. -/
theorem sendsOne_iff {t : Target} (hpath : t.path.toList ≠ [])
    (hhost : t.host.toList.all Http.isTargetChar = true) :
    t.SendsOne ↔ t.path.toList.all Http.isTargetChar = true := by
  have hreturn : '\r' ∉ t.host.toList := Http.notMem_of_all hhost (by decide)
  have hlines : Http.lines t.requestHead.toList =
      Http.lines (firstLine t) ++ (fixedLines t ++ [[]]) := by
    rw [requestHead_toList, Http.write_cons, Http.lines_append, lines_fixedLines hreturn]
  have hget : "GET".toList ≠ [] ∧ "GET".toList.all Http.isTokenChar = true := by decide
  have hfirst : Http.requestLine (firstLine t) = _ := Http.requestLine_written hget.1 hget.2
  constructor
  · rintro ⟨path, hone⟩
    -- Six lines for the headers leave one for the path.
    have hlength := Http.length_lines_of_requests hone
    rw [hlines] at hlength
    have hsingle : (Http.lines (firstLine t)).length = 1 := by
      simp only [List.length_append, fixedLines, Target.ownHeaders, List.length_cons, List.length_nil] at hlength
      omega
    obtain ⟨line, hline⟩ := List.length_eq_one_iff.mp hsingle
    rw [hline, ← Http.eq_of_lines_eq hline] at hlines
    have hread := Http.requestLine_of_requests hone hlines (by simp)
    rw [hfirst] at hread
    split at hread
    next hok => exact hok.2
    next => cases hread
  · intro hclean
    refine ⟨t.path.toList, ?_⟩
    have hline : Http.lines (firstLine t) = [firstLine t] := by
      apply Http.lines_of_notMem
      have hpathReturn : '\r' ∉ t.path.toList := Http.notMem_of_all hclean (by decide)
      simpa [firstLine] using hpathReturn
    have hhostField : Http.field ("Host: ".toList ++ t.host.toList) = some ("Host".toList, t.host.toList) :=
      Http.field_written (show "Host".toList ≠ [] by decide) (show "Host".toList.all _ = true by decide) hhost
    have hagent : Http.field "User-Agent: marlowe".toList =
        some ("User-Agent".toList, "marlowe".toList) := by decide
    have haccept : Http.field "Accept: */*".toList = some ("Accept".toList, "*/*".toList) := by decide
    have hencoding : Http.field "Accept-Encoding: gzip, br".toList =
        some ("Accept-Encoding".toList, "gzip, br".toList) := by decide
    have hconnection : Http.field "Connection: keep-alive".toList =
        some ("Connection".toList, "keep-alive".toList) := by decide
    rw [if_pos ⟨hpath, hclean⟩] at hfirst
    have hread : (firstLine t :: fixedLines t).foldl Http.readLine (some ⟨[], none⟩) =
        some ⟨[⟨"GET".toList, t.path.toList, t.ownHeaders⟩], none⟩ := by
      have hstart : Http.readLine (some ⟨[], none⟩) (firstLine t) =
          some ⟨[], some ⟨"GET".toList, t.path.toList, []⟩⟩ := by
        simp [Http.readLine, hfirst]
      simp only [fixedLines, List.foldl_cons, List.foldl_nil]
      rw [hstart, Http.readLine_field (by simp) hhostField, Http.readLine_field (by decide) hagent,
        Http.readLine_field (by decide) haccept, Http.readLine_field (by decide) hencoding,
        Http.readLine_field (by decide) hconnection]
      rfl
    rw [hline, ← List.append_assoc] at hlines
    have hlast : (Http.lines t.requestHead.toList).getLast? = some [] := by
      rw [hlines, List.getLast?_concat]
    have hinit : (Http.lines t.requestHead.toList).dropLast = firstLine t :: fixedLines t := by
      rw [hlines, List.dropLast_concat]
      rfl
    rw [Http.requests, if_pos hlast, hinit, hread]

/-- A checked host can stand in a header. -/
theorem host_all_isTargetChar (h : Host) : h.text.toList.all Http.isTargetChar = true := by
  rw [List.all_eq_true]
  intro c hc
  have hcode : 0x2D ≤ c.toNat ∧ c.toNat ≤ 0x7A := by
    rcases h.mem_text hc with halnum | rfl | rfl
    · have hcode := Text.code_of_isAlphanum halnum
      omega
    · decide
    · decide
  simp only [Http.isTargetChar, Bool.and_eq_true, decide_eq_true_eq]
  omega

/-- One URL is one request, to the host that was checked, exactly where it is plain. -/
theorem one_request_iff {url : String} {h : Host} {t : Target} (hurl : Host.fromUrl url = .ok h)
    (ht : Target.parse url = .ok t) : t.host = h.text ∧ t.SendsOne ↔ PlainUrl url := by
  obtain ⟨-, -, hne, hpath⟩ := parse_ok ht
  have hchars : t.path.toList.all Http.isTargetChar = true ↔
      (pathOf url).all Http.isTargetChar = true := by
    rcases hpath with hpath | ⟨hnone, hslash⟩
    · rw [hpath]
    · rw [hnone, hslash]
      decide
  constructor
  · rintro ⟨hhost, hone⟩
    have hclean : t.host.toList.all Http.isTargetChar = true := hhost ▸ host_all_isTargetChar h
    obtain ⟨hq, hf, hcount⟩ := (host_eq_iff hurl ht).mp hhost
    exact ⟨hq, hf, hcount, hchars.mp ((sendsOne_iff hne hclean).mp hone)⟩
  · rintro ⟨hq, hf, hcount, hclean⟩
    have hhost := (host_eq_iff hurl ht).mpr ⟨hq, hf, hcount⟩
    exact ⟨hhost, (sendsOne_iff hne (hhost ▸ host_all_isTargetChar h)).mpr (hchars.mpr hclean)⟩

theorem one_request_plain :
    ∃ h t, Host.fromUrl "https://A.example:8443/x?q=1#f" = .ok h ∧
      Target.parse "https://A.example:8443/x?q=1#f" = .ok t ∧ t.host = h.text ∧ t.SendsOne := by
  have hurl : Host.fromUrl "https://A.example:8443/x?q=1#f" = .ok ⟨"a.example", by decide⟩ := by
    decide
  have ht : Target.parse "https://A.example:8443/x?q=1#f" = .ok ⟨"a.example", 8443, "/x?q=1#f", true⟩ := by
    decide
  exact ⟨_, _, hurl, ht, (one_request_iff hurl ht).mpr (by decide)⟩

/-- The path's line ends are the head's: the server reads a header that the client never wrote. -/
theorem header_injected :
    ∃ url h t, Host.fromUrl url = .ok h ∧ Target.parse url = .ok t ∧
      Http.requests t.requestHead.toList =
        some [{ method := "GET".toList
                target := "/x".toList
                fields := ("X-Injected".toList, "1".toList) :: ("X-Rest".toList, "y HTTP/1.1".toList) ::
                  t.ownHeaders }] ∧
      ¬(t.host = h.text ∧ t.SendsOne) := by
  refine ⟨"https://a.example/x HTTP/1.1\r\nX-Injected: 1\r\nX-Rest: y", ⟨"a.example", by decide⟩,
    ⟨"a.example", 443, "/x HTTP/1.1\r\nX-Injected: 1\r\nX-Rest: y", true⟩, by decide,
    by decide, by rw [requestHead_toList]; decide, ?_⟩
  rintro ⟨-, path, hone⟩
  have hlength : (Http.lines (Target.requestHead
      ⟨"a.example", 443, "/x HTTP/1.1\r\nX-Injected: 1\r\nX-Rest: y", true⟩).toList).length = 8 :=
    Http.length_lines_of_requests hone
  rw [requestHead_toList] at hlength
  exact absurd hlength (by decide)

end MarloweAgent.Net
