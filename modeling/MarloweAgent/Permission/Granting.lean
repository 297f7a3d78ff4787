import MarloweAgent.Library.Wildcard
import MarloweAgent.Permission.Egress
import MarloweAgent.Permission.RequestedPath

/-! What a declared glob and a host pattern admit, and what a grant widens. -/

namespace MarloweAgent.Permission
open Contract Library Tools

/-- `*` is any run of characters of the segment. -/
def SegmentMatches (pat s : List Char) : Prop := Matches '*' Eq pat s

/-- `**` is any run of segments, and each other part matches one. -/
def GlobMatches (pat seg : List (List Char)) : Prop := Matches ['*', '*'] SegmentMatches pat seg

theorem stripPrefix_eq_some_iff {s pre rest : List Char} :
    Text.stripPrefix s pre = some rest ↔ s = pre ++ rest := by
  refine ⟨Text.stripPrefix_eq_some, ?_⟩
  rintro rfl
  rw [Text.stripPrefix, if_pos (List.isPrefixOf_iff_prefix.mpr (List.prefix_append pre rest)),
    List.drop_left]

/-- Each literal is found where it first occurs after the one before. -/
theorem findMiddles_iff (middles : List (List Char)) (last s : List Char) :
    (∃ rest, findMiddles middles s = some rest ∧ last <:+ rest) ↔ Floats (middles ++ [last]) s := by
  induction middles generalizing s with
  | nil =>
    constructor
    · rintro ⟨rest, hfound, hlast⟩
      exact Option.some.inj hfound ▸ hlast
    · exact fun hlast => ⟨s, rfl, hlast⟩
  | cons middle more ih =>
    have hne : more ++ [last] ≠ [] := by simp
    rw [findMiddles, List.cons_append]
    split
    next hempty =>
      rw [List.isEmpty_iff.mp hempty, floats_nil_cons hne]
      exact ih s
    next =>
      split
      next i hfind =>
        obtain ⟨hfound, hleft⟩ := Text.find_eq_some hfind
        rw [floats_cons_iff hne hfound hleft]
        exact ih _
      next hfind =>
        refine iff_of_false ?_ (not_floats_cons (Text.find_eq_none hfind))
        rintro ⟨rest, hfound, -⟩
        cases hfound

theorem matchWithinSegment_iff (pat s : List Char) :
    matchWithinSegment pat s = true ↔ SegmentMatches pat s := by
  rw [SegmentMatches, matches_iff_anchored, matchWithinSegment]
  match hparts : pat.splitOn '*' with
  | [] => exact iff_of_false nofun id
  | [whole] =>
    show decide (whole = s) = true ↔ s = whole
    rw [decide_eq_true_iff]
    exact eq_comm
  | first :: lit :: more =>
    have hlast : (lit :: more).dropLast ++ [(lit :: more).getLast?.getD []] = lit :: more := by
      rw [List.getLast?_eq_some_getLast (List.cons_ne_nil lit more), Option.getD_some]
      exact List.dropLast_append_getLast (List.cons_ne_nil lit more)
    dsimp only
    split
    next hstrip =>
      refine iff_of_false nofun ?_
      rintro ⟨rest, hs, -⟩
      exact absurd (hstrip.symm.trans (stripPrefix_eq_some_iff.mpr hs)) nofun
    next rest hstrip =>
      have hs : s = first ++ rest := stripPrefix_eq_some_iff.mp hstrip
      have hfloats := findMiddles_iff (lit :: more).dropLast ((lit :: more).getLast?.getD []) rest
      rw [hlast] at hfloats
      have hanchored : Anchored (first :: lit :: more) s ↔ Floats (lit :: more) rest := by
        constructor
        · rintro ⟨rest', hs', hrest⟩
          exact List.append_cancel_left (hs'.symm.trans hs) ▸ hrest
        · exact fun hrest => ⟨rest, hs, hrest⟩
      rw [hanchored, ← hfloats]
      split
      next hnone =>
        refine iff_of_false nofun ?_
        rintro ⟨_, hsome, -⟩
        exact absurd (hnone.symm.trans hsome) nofun
      next rest' hsome =>
        rw [List.isSuffixOf_iff_suffix]
        constructor
        · exact fun hsuffix => ⟨rest', hsome, hsuffix⟩
        · rintro ⟨_, hsome', hsuffix⟩
          exact Option.some.inj (hsome.symm.trans hsome') ▸ hsuffix

theorem matchSegments_iff (pat seg : List (List Char)) :
    matchSegments pat seg = true ↔ GlobMatches pat seg := by
  induction pat generalizing seg with
  | nil =>
    unfold matchSegments
    rw [List.isEmpty_iff]
    exact matches_nil_iff.symm
  | cons p pat ih =>
    unfold matchSegments
    split
    next hwild =>
      subst hwild
      rw [GlobMatches, matches_wild_iff, List.any_eq_true]
      constructor
      · rintro ⟨skip, -, hrest⟩
        exact ⟨seg.take skip, seg.drop skip, (List.take_append_drop skip seg).symm, (ih _).mp hrest⟩
      · rintro ⟨run, rest, rfl, hrest⟩
        refine ⟨run.length, List.mem_range.mpr (by rw [List.length_append]; omega), ?_⟩
        rw [List.drop_left]
        exact (ih rest).mpr hrest
    next hne =>
      rw [GlobMatches, matches_cons_iff hne]
      cases seg with
      | nil =>
        refine iff_of_false nofun ?_
        rintro ⟨s, rest, hnil, -⟩
        cases hnil
      | cons s seg =>
        rw [Bool.and_eq_true, matchWithinSegment_iff, ih]
        constructor
        · rintro ⟨hone, hrest⟩
          exact ⟨s, seg, rfl, hone, hrest⟩
        · rintro ⟨_, _, heq, hone, hrest⟩
          cases heq
          exact ⟨hone, hrest⟩

/-- The segments a declared glob is matched by. -/
def globSegments (unicode : Normalizer) (pattern : PathGlob) : List (List Char) :=
  let pattern := (unicode.normalizeForMatch pattern.text).toList
  segments ((Text.stripPrefix pattern ['.', '/']).getD pattern)

/-- The matcher is the declarative reading of the glob, and a declaration admits what one of its
globs matches: nothing, if it has none. -/
theorem globs_admit (unicode : Normalizer) :
    (∀ pat seg, matchSegments pat seg = true ↔ GlobMatches pat seg) ∧
      (∀ declared request, admits unicode declared request = true ↔
        ∃ glob ∈ declared,
          GlobMatches (globSegments unicode glob) (segments request.asRelative.toList)) ∧
      ∀ request, admits unicode [] request = false := by
  refine ⟨matchSegments_iff, fun declared request => ?_, fun _ => rfl⟩
  rw [admits, List.any_eq_true]
  simp only [matchesOne, matchSegments_iff]
  rfl

end MarloweAgent.Permission

/-! ## Granting

What a host pattern admits, and what a grant widens. A host is read by `parse`, so its text
is in lower case and no pattern but its own spelling admits it alone. -/

namespace MarloweAgent.Permission
open Contract Library Tools

/-- A host is what `parse` reads. -/
def Host.Parsed (host : Host) : Prop := ∃ name, Host.parse name = some host

/-- A pattern as it is compared. -/
def spelled (pattern : String) : String := Text.toAsciiLowercase (Text.trim pattern)

/-- The host's own name, some longer name under the suffix, or any name at all. -/
def Admits (pattern : String) (host : Host) : Prop :=
  pattern = "*" ∨ pattern = host.text ∨
    ∃ front suffix : List Char, pattern.toList = '*' :: '.' :: suffix ∧ front ≠ [] ∧
      host.text.toList = front ++ '.' :: suffix

section Host

variable {host : Host}

theorem Host.star_not_mem (host : Host) : '*' ∉ host.text.toList := by
  intro h
  rcases host.mem_text h with h | h | h
  · exact absurd h (by decide)
  · exact absurd h (by decide)
  · exact absurd h (by decide)

theorem Host.isWhitespace_eq_false {c : Char} (hc : c ∈ host.text.toList) :
    Text.isWhitespace c = false := by
  have hcode : 48 ≤ c.toNat ∧ c.toNat ≤ 57 ∨ 65 ≤ c.toNat ∧ c.toNat ≤ 90 ∨
      97 ≤ c.toNat ∧ c.toNat ≤ 122 ∨ c.toNat = 45 ∨ c.toNat = 46 := by
    rcases host.mem_text hc with h | rfl | rfl
    · have hletters := Text.code_of_isAlphanum h
      omega
    · exact .inr (.inr (.inr (.inl rfl)))
    · exact .inr (.inr (.inr (.inr rfl)))
  simp only [Text.isWhitespace, Bool.or_eq_false_iff, Bool.and_eq_false_iff,
    decide_eq_false_iff_not, beq_eq_false_iff_ne]
  omega

theorem Host.trim_text : Text.trim host.text = host.text := by
  have hkeep : ∀ cs : List Char, (∀ c ∈ cs, Text.isWhitespace c = false) →
      cs.dropWhile Text.isWhitespace = cs := by
    intro cs hcs
    cases cs with
    | nil => rfl
    | cons c rest => rw [List.dropWhile_cons_of_neg (by simp [hcs c List.mem_cons_self])]
  have hall : ∀ c ∈ host.text.toList, Text.isWhitespace c = false :=
    fun c hc => Host.isWhitespace_eq_false hc
  rw [Text.trim, hkeep _ hall, hkeep _ (fun c hc => hall c (List.mem_reverse.mp hc)),
    List.reverse_reverse, String.ofList_toList]

/-- A host's text is its own spelling. -/
theorem Host.Parsed.spelled_text (h : host.Parsed) : spelled host.text = host.text := by
  obtain ⟨name, hparse⟩ := h
  rw [spelled, Host.trim_text, Text.toAsciiLowercase, Host.text_of_parse hparse, List.map_map]
  have hidem : Text.toAsciiLowercaseChar ∘ Text.toAsciiLowercaseChar = Text.toAsciiLowercaseChar :=
    funext Text.toAsciiLowercaseChar_idem
  rw [hidem, ← Host.text_of_parse hparse, String.ofList_toList]

end Host

theorem stripSuffix_eq_some_iff {s suf rest : List Char} :
    Text.stripSuffix s suf = some rest ↔ s = rest ++ suf := by
  unfold Text.stripSuffix
  constructor
  · intro h
    split at h
    next hsuf =>
      cases h
      exact (List.suffix_iff_eq_append.mp (List.isSuffixOf_iff_suffix.mp hsuf)).symm
    next => cases h
  · rintro rfl
    rw [if_pos (List.isSuffixOf_iff_suffix.mpr (List.suffix_append rest suf)), List.length_append,
      Nat.add_sub_cancel, List.take_left]

/-- A suffix pattern admits the longer names under it. -/
theorem suffix_admits_iff {host suffix : List Char} :
    (match Text.stripSuffix host suffix with
      | none => false
      | some rest => rest.getLast? = some '.' && 1 < rest.length) = true ↔
    ∃ front, front ≠ [] ∧ host = front ++ '.' :: suffix := by
  split
  next hnone =>
    refine iff_of_false nofun ?_
    rintro ⟨front, -, hhost⟩
    have hsome : Text.stripSuffix host suffix = some (front ++ ['.']) :=
      stripSuffix_eq_some_iff.mpr (by rw [hhost, List.append_assoc]; rfl)
    exact absurd (hnone.symm.trans hsome) nofun
  next rest hsome =>
    obtain rfl : host = rest ++ suffix := stripSuffix_eq_some_iff.mp hsome
    rw [Bool.and_eq_true, decide_eq_true_iff, decide_eq_true_iff]
    constructor
    · rintro ⟨hlast, hlong⟩
      obtain ⟨front, rfl⟩ := List.getLast?_eq_some_iff.mp hlast
      refine ⟨front, ?_, by rw [List.append_assoc]; rfl⟩
      rintro rfl
      simp at hlong
    · rintro ⟨front, hfront, hhost⟩
      have hrest : rest = front ++ ['.'] := by
        refine List.append_cancel_right (hhost.trans ?_)
        rw [List.append_assoc]
        rfl
      have hpos := List.length_pos_iff.mpr hfront
      rw [hrest]
      exact ⟨List.getLast?_concat, by simp; omega⟩

theorem patternAdmits_iff (pattern : String) (host : Host) :
    patternAdmits pattern host = true ↔ Admits (spelled pattern) host := by
  unfold patternAdmits
  rw [show Text.toAsciiLowercase (Text.trim pattern) = spelled pattern from rfl]
  generalize spelled pattern = p
  dsimp only
  split
  next hstar => exact iff_of_true rfl (.inl hstar)
  next hstar =>
    split
    next suffix hsuffix =>
      have hp : p.toList = '*' :: '.' :: suffix := stripPrefix_eq_some_iff.mp hsuffix
      refine suffix_admits_iff.trans ?_
      constructor
      · rintro ⟨front, hfront, hhost⟩
        exact .inr (.inr ⟨front, suffix, hp, hfront, hhost⟩)
      · rintro (h | h | ⟨front, suffix', hp', hfront, hhost⟩)
        · exact absurd h hstar
        · refine absurd ?_ host.star_not_mem
          rw [← h, hp]
          exact List.mem_cons_self
        · rw [hp] at hp'
          cases hp'
          exact ⟨front, hfront, hhost⟩
    next hsuffix =>
      rw [decide_eq_true_iff]
      constructor
      · exact fun h => .inr (.inl h.symm)
      · rintro (h | h | ⟨front, suffix, hp, -, -⟩)
        · exact absurd h hstar
        · exact h.symm
        · cases hsuffix.symm.trans (stripPrefix_eq_some_iff.mpr hp)

/-! ## Grants -/

/-- The name of a host admits that host alone. -/
theorem name_admits_iff {host other : Host} (h : host.Parsed) :
    patternAdmits host.text other = true ↔ other = host := by
  rw [patternAdmits_iff, h.spelled_text]
  have hstar := host.star_not_mem
  constructor
  · rintro (heq | heq | ⟨front, suffix, hp, -, -⟩)
    · rw [heq] at hstar
      exact absurd (by decide) hstar
    · cases host
      cases other
      cases heq
      rfl
    · rw [hp] at hstar
      exact absurd List.mem_cons_self hstar
  · rintro rfl
    exact .inr (.inl rfl)

namespace EgressPolicy

/-- Only a policy that may ask is widened. -/
theorem grant_of_not_mayAsk {policy : EgressPolicy} (h : policy.mayAsk = false) (host : Host) :
    policy.grant host = policy := by
  cases policy with
  | denyAll | allow | allowAnyHost => rfl
  | allowApproved granted => cases h

@[simp] theorem mayAsk_grant (policy : EgressPolicy) (host : Host) :
    (policy.grant host).mayAsk = policy.mayAsk := by
  cases policy with
  | denyAll | allow | allowAnyHost => rfl
  | allowApproved granted =>
    simp only [grant]
    split <;> rfl

/-- One grant adds one host. -/
theorem grants_grant_iff {policy : EgressPolicy} (hask : policy.mayAsk = true) {host : Host}
    (h : host.Parsed) (other : Host) :
    (policy.grant host).grants other = true ↔ policy.grants other = true ∨ other = host := by
  cases policy with
  | denyAll | allow | allowAnyHost => cases hask
  | allowApproved granted =>
    simp only [grant]
    split
    next hgranted =>
      refine ⟨.inl, ?_⟩
      rintro (hother | rfl)
      · exact hother
      · exact hgranted
    next =>
      simp only [grants, List.any_append, Bool.or_eq_true, List.any_cons, List.any_nil,
        Bool.or_false, name_admits_iff h]

/-- Any number of grants add just the hosts they name. -/
theorem grants_foldl_iff {policy : EgressPolicy} (hask : policy.mayAsk = true) {hosts : List Host}
    (h : ∀ host ∈ hosts, host.Parsed) (other : Host) :
    (hosts.foldl grant policy).grants other = true ↔ policy.grants other = true ∨ other ∈ hosts := by
  induction hosts generalizing policy with
  | nil => simp
  | cons host rest ih =>
    obtain ⟨hhost, hrest⟩ := List.forall_mem_cons.mp h
    rw [List.foldl_cons, ih ((mayAsk_grant policy host).trans hask) hrest,
      grants_grant_iff hask hhost, List.mem_cons, or_assoc]

theorem foldl_grant_of_not_mayAsk {policy : EgressPolicy} (h : policy.mayAsk = false)
    (hosts : List Host) : hosts.foldl grant policy = policy := by
  induction hosts with
  | nil => rfl
  | cons host rest ih => rw [List.foldl_cons, grant_of_not_mayAsk h, ih]

theorem permits_iff {policy : EgressPolicy} {declared : List HostPattern} {host : Host} :
    policy.permits host declared = true ↔
      policy.grants host = true ∧ ∃ pattern ∈ declared, patternAdmits pattern.text host = true := by
  rw [permits, Bool.and_eq_true, declaredAdmits, List.any_eq_true]

end EgressPolicy

/-- The egress law: what permits, what admits, and what any number of grants change. -/
theorem egress_law {hosts : List Host} (h : ∀ host ∈ hosts, host.Parsed) (policy : EgressPolicy)
    (declared : List HostPattern) (pattern : String) (host : Host) :
    (policy.permits host declared = true ↔
        policy.grants host = true ∧ ∃ p ∈ declared, patternAdmits p.text host = true) ∧
      (patternAdmits pattern host = true ↔ Admits (spelled pattern) host) ∧
      (policy.mayAsk = false → hosts.foldl EgressPolicy.grant policy = policy) ∧
      (policy.mayAsk = true → ((hosts.foldl EgressPolicy.grant policy).grants host = true ↔
        policy.grants host = true ∨ host ∈ hosts)) :=
  ⟨EgressPolicy.permits_iff, patternAdmits_iff pattern host,
    fun hno => EgressPolicy.foldl_grant_of_not_mayAsk hno hosts,
    fun hask => EgressPolicy.grants_foldl_iff hask h host⟩

def exampleHost : Host := ⟨"a.b", by decide⟩

theorem exampleHost_parsed : exampleHost.Parsed := ⟨"A.b", by decide⟩

theorem exampleHost_egress_law :
    ((EgressPolicy.allowApproved []).permits exampleHost [⟨"*.b"⟩] = true ↔
        (EgressPolicy.allowApproved []).grants exampleHost = true ∧
          ∃ p ∈ [(⟨"*.b"⟩ : HostPattern)], patternAdmits p.text exampleHost = true) ∧
      (patternAdmits "*.b" exampleHost = true ↔ Admits (spelled "*.b") exampleHost) ∧
      ((EgressPolicy.allowApproved []).mayAsk = false →
        [exampleHost].foldl EgressPolicy.grant (.allowApproved []) = .allowApproved []) ∧
      ((EgressPolicy.allowApproved []).mayAsk = true →
        (([exampleHost].foldl EgressPolicy.grant (.allowApproved [])).grants exampleHost = true ↔
          (EgressPolicy.allowApproved []).grants exampleHost = true ∨ exampleHost ∈ [exampleHost])) :=
  egress_law (fun _ hmem => List.mem_singleton.mp hmem ▸ exampleHost_parsed)
    (.allowApproved []) [⟨"*.b"⟩] "*.b" exampleHost

/-- A lone star admits every host. -/
theorem star_admits : ¬ ∀ (pattern : String) (host : Host), host.Parsed →
    (patternAdmits pattern host = true ↔ pattern = host.text ∨
      ∃ front suffix : List Char, pattern.toList = '*' :: '.' :: suffix ∧ front ≠ [] ∧
        host.text.toList = front ++ '.' :: suffix) := by
  intro h
  rcases (h "*" exampleHost exampleHost_parsed).mp (by decide) with heq | ⟨_, suffix, hp, -, -⟩
  · exact absurd heq (by decide)
  · have hlength := congrArg List.length hp
    simp at hlength

end MarloweAgent.Permission
