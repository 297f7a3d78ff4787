import MarloweAgent.Tools.Manifest

/-! Egress policy and host names. A `Host` exists only when its text passes the
name check, so a granted host can never be read as a wildcard pattern. -/

namespace MarloweAgent.Permission
open Contract Tools

inductive HostError
  | unsupportedScheme (url : String)
  | userinfo (url : String)
  | unsupportedAuthority (url : String)
  | malformedHost (url : String)
  deriving DecidableEq, Repr

def HostError.render : HostError → String
  | unsupportedScheme url =>
    s!"`{url}` has no http/https scheme; egress is only adjudicated for schemes it can parse"
  | userinfo url =>
    s!"`{url}` carries userinfo before `@`. The form is refused rather than parsed: it is the " ++
    "classic way to make a URL read as one host and resolve as another"
  | unsupportedAuthority url => s!"`{url}` uses an address literal or an unsupported authority form"
  | malformedHost url => s!"`{url}` has an empty or malformed host"

def isLabel (label : List Char) : Bool :=
  !label.isEmpty && label.length ≤ 63 && label.head? ≠ some '-' && label.getLast? ≠ some '-'
    && label.all fun c => c.isAlphanum || c == '-'

/-- The check of `Host::parse`, on a lowercased name. -/
def isHostName (host : List Char) : Bool :=
  !host.isEmpty && host.length ≤ 253 && host.head? ≠ some '.' && host.getLast? ≠ some '.'
    && (host.splitOn '.').all isLabel

structure Host where
  text : String
  wellFormed : isHostName text.toList = true
  deriving DecidableEq

namespace Host

def parse (host : String) : Option Host :=
  let host := Text.toAsciiLowercase host
  if h : isHostName host.toList = true then some ⟨host, h⟩ else none

def fromUrl (url : String) : Except HostError Host :=
  let lower := (Text.toAsciiLowercase (Text.trim url)).toList
  match (Text.stripPrefix lower "https://".toList).orElse
      fun _ => Text.stripPrefix lower "http://".toList with
  | none => .error (.unsupportedScheme url)
  | some rest =>
    let authority := rest.takeWhile fun c => c ≠ '/' ∧ c ≠ '?' ∧ c ≠ '#'
    if '@' ∈ authority then .error (.userinfo url)
    else if '[' ∈ authority ∨ ']' ∈ authority then .error (.unsupportedAuthority url)
    else
      match parse (String.ofList (authority.takeWhile (· ≠ ':'))) with
      | some host => .ok host
      | none => .error (.malformedHost url)

theorem text_of_parse {name : String} {h : Host} (hparse : parse name = some h) :
    h.text.toList = name.toList.map Text.toAsciiLowercaseChar := by
  simp only [parse] at hparse
  split at hparse
  next =>
    cases hparse
    simp [Text.toAsciiLowercase]
  next => cases hparse

theorem mem_text (h : Host) {c : Char} (hc : c ∈ h.text.toList) :
    c.isAlphanum ∨ c = '-' ∨ c = '.' := by
  have hname := h.wellFormed
  unfold isHostName at hname
  obtain ⟨-, hlabels⟩ := Bool.and_eq_true_iff.mp hname
  by_cases hdot : c = '.'
  · exact .inr (.inr hdot)
  · obtain ⟨label, hlabel, hmem⟩ := Text.mem_splitOn hc hdot
    have hok := List.all_eq_true.mp hlabels label hlabel
    unfold isLabel at hok
    have hchar := List.all_eq_true.mp (Bool.and_eq_true_iff.mp hok).2 c hmem
    simpa [hdot] using hchar

end Host

def patternAdmits (pattern : String) (host : Host) : Bool :=
  let pattern := Text.toAsciiLowercase (Text.trim pattern)
  if pattern = "*" then true
  else
    match Text.stripPrefix pattern.toList "*.".toList with
    | some suffix =>
      match Text.stripSuffix host.text.toList suffix with
      | none => false
      | some rest => rest.getLast? = some '.' && 1 < rest.length
    | none => host.text = pattern

inductive EgressPolicy
  | denyAll
  | allow (hosts : List HostPattern)
  | allowAnyHost
  | allowApproved (granted : List HostPattern)
  deriving DecidableEq, Repr

def declaredAdmits (declared : List HostPattern) (host : Host) : Bool :=
  declared.any (patternAdmits ·.text host)

namespace EgressPolicy

def grants (policy : EgressPolicy) (host : Host) : Bool :=
  match policy with
  | denyAll => false
  | allowAnyHost => true
  | allow hosts => hosts.any (patternAdmits ·.text host)
  | allowApproved granted => granted.any (patternAdmits ·.text host)

def mayAsk : EgressPolicy → Bool
  | allowApproved _ => true
  | _ => false

/-- Widen by one host. Only a policy that may ask can be widened. -/
def grant (policy : EgressPolicy) (host : Host) : EgressPolicy :=
  match policy with
  | allowApproved granted =>
    if granted.any (patternAdmits ·.text host) then allowApproved granted
    else allowApproved (granted ++ [⟨host.text⟩])
  | other => other

def permits (policy : EgressPolicy) (host : Host) (declared : List HostPattern) : Bool :=
  policy.grants host && declaredAdmits declared host

@[simp] theorem grants_denyAll (host : Host) : denyAll.grants host = false := rfl

end EgressPolicy

end MarloweAgent.Permission
