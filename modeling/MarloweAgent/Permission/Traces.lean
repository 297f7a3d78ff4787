import MarloweAgent.Permission.Walk

/-! What an adjudication leaves behind. Path arguments are opened, and may be
created, before the hosts and the tier are looked at; so a request may be turned
down, or sent to a person, with a file already open for writing. -/

namespace MarloweAgent.Permission
open Contract Library Tools

/-! ## The arguments a request opens and asks about -/

/-- The text given for a declared path parameter, and how it is opened. -/
structure PathArg where
  value : String
  access : Access
  deriving DecidableEq, Repr

def declaredAccess : ParamType → Option Access
  | .path => some .read
  | .writePath => some .createOrOpen
  | _ => none

def pathArg (req : Request) (spec : ParamSpec) : Option PathArg :=
  match declaredAccess spec.ty, (req.args.get spec.name).bind ArgValue.asText with
  | some access, some value => some ⟨value, access⟩
  | _, _ => none

def urlArg (req : Request) (spec : ParamSpec) : Option String :=
  match spec.ty with
  | .url => (req.args.get spec.name).bind ArgValue.asText
  | _ => none

def Request.pathArgs (req : Request) : List PathArg := req.manifest.params.filterMap (pathArg req)

def Request.urlArgs (req : Request) : List String := req.manifest.params.filterMap (urlArg req)

/-- Nobody can be asked about this URL: it is not one, or its host is out of reach. -/
def hostRefused (req : Request) (url : String) : Bool :=
  match Host.fromUrl url with
  | .error _ => true
  | .ok host =>
    !req.egress.permits host req.manifest.hosts
      && !(req.egress.mayAsk && declaredAdmits req.manifest.hosts host)

/-- A person is asked about this URL's host. -/
def hostAsked (req : Request) (url : String) : Bool :=
  match Host.fromUrl url with
  | .error _ => false
  | .ok host =>
    !req.egress.permits host req.manifest.hosts
      && (req.egress.mayAsk && declaredAdmits req.manifest.hosts host)

/-- Nobody need be asked about the request. -/
structure Granted (req : Request) : Prop where
  reversible : req.manifest.consequence ≠ .irreversible
  hosts : req.urlArgs.any (hostAsked req) = false
  tier : requiredTier req.manifest.consequence ≤ effectiveTier req

/-- Open the arguments in turn, stopping at the first that does not open. -/
def openArgs {σ : Type} (scope : PathScope σ) (req : Request) : List PathArg → Stateful σ Bool
  | [] => pure true
  | arg :: rest => do
    match ← scope.openPath req.manifest.paths req.workspace arg.value arg.access with
    | .ok _ => openArgs scope req rest
    | .error _ => pure false

/-! ## What the stages of an adjudication do -/

section Stages

variable {σ : Type} {scope : PathScope σ} {id : Nat} {req : Request} {s : σ}

theorem insert_ne_empty {m : OrderedMap String ScopedPath} {name : String} {path : ScopedPath} :
    m.insert name path ≠ OrderedMap.empty := by
  intro h
  have hget := m.get?_insert_self name path
  rw [h] at hget
  cases hget

/-- One step of `openPaths`, by what the declaration asks of it. -/
theorem openPaths_cons (spec : ParamSpec) (rest : List ParamSpec)
    (handles : OrderedMap String ScopedPath) :
    openPaths scope req (spec :: rest) handles =
      match pathArg req spec with
      | some arg => do
        match ← scope.openPath req.manifest.paths req.workspace arg.value arg.access with
        | .ok handle => openPaths scope req rest (handles.insert spec.name handle)
        | .error detail => pure (.error (.undeclaredPath arg.value detail))
      | none => openPaths scope req rest handles := by
  simp only [openPaths, pathArg, declaredAccess]
  cases spec.ty <;> cases (req.args.get spec.name).bind ArgValue.asText <;> rfl

/-- What opening the declared paths comes to, in terms of the path arguments. -/
structure OpensAs (scope : PathScope σ) (req : Request) (args : List PathArg)
    (handles : OrderedMap String ScopedPath) (s : σ)
    (result : Except BlockReason (OrderedMap String ScopedPath) × σ) : Prop where
  state : result.2 = ((openArgs scope req args).run s).2
  all : result.1.isOk = ((openArgs scope req args).run s).1
  empty : ∀ opened, result.1 = .ok opened →
    (opened = OrderedMap.empty ↔ args = [] ∧ handles = OrderedMap.empty)

theorem openPaths_opens (scope : PathScope σ) (req : Request) (s : σ) (specs : List ParamSpec)
    (handles : OrderedMap String ScopedPath) :
    OpensAs scope req (specs.filterMap (pathArg req)) handles s
      ((openPaths scope req specs handles).run s) := by
  induction specs generalizing handles s with
  | nil =>
    refine ⟨rfl, rfl, fun opened h => ?_⟩
    cases h
    simp
  | cons spec rest ih =>
    rw [openPaths_cons]
    cases harg : pathArg req spec with
    | none =>
      rw [List.filterMap_cons_none harg]
      exact ih s handles
    | some arg =>
      rw [List.filterMap_cons_some harg]
      simp only [Stateful.run_bind]
      cases hopen : ((scope.openPath req.manifest.paths req.workspace arg.value arg.access).run s).1 with
      | error detail =>
        refine ⟨by simp [openArgs, hopen], ?_, ?_⟩
        · simp [openArgs, hopen, Except.isOk, Except.toBool]
        · intro opened h
          cases h
      | ok handle =>
        have hrest := ih ((scope.openPath req.manifest.paths req.workspace arg.value
          arg.access).run s).2 (handles.insert spec.name handle)
        refine ⟨by simpa [openArgs, hopen] using hrest.state,
          by simpa [openArgs, hopen] using hrest.all, fun opened h => ?_⟩
        have hiff := hrest.empty opened h
        simp [insert_ne_empty] at hiff
        simp [hiff]

theorem host_of_ok (req : Request) {url : String} {host : Host} (h : Host.fromUrl url = .ok host) :
    hostRefused req url = (!req.egress.permits host req.manifest.hosts
        && !(req.egress.mayAsk && declaredAdmits req.manifest.hosts host)) ∧
      hostAsked req url = (!req.egress.permits host req.manifest.hosts
        && (req.egress.mayAsk && declaredAdmits req.manifest.hosts host)) := by
  unfold hostRefused hostAsked
  rw [h]
  exact ⟨rfl, rfl⟩

theorem hostRefused_of_error {url : String} {e : HostError} (h : Host.fromUrl url = .error e) :
    hostRefused req url = true := by
  unfold hostRefused
  rw [h]

/-- A parameter with no URL is passed over. -/
theorem checkHosts_cons_none {spec : ParamSpec} {rest : List ParamSpec} {needs : Bool}
    {reasons : List Reason} (h : urlArg req spec = none) :
    checkHosts req (spec :: rest) needs reasons = checkHosts req rest needs reasons := by
  unfold urlArg at h
  conv_lhs => unfold checkHosts
  cases hty : spec.ty <;> simp only [hty] at h ⊢
  rw [h]

theorem checkHosts_cons_some {spec : ParamSpec} {rest : List ParamSpec} {needs : Bool}
    {reasons : List Reason} {url : String} (h : urlArg req spec = some url) :
    checkHosts req (spec :: rest) needs reasons =
      match Host.fromUrl url with
      | .error e => .error (.egressNotAllowed e.render, reasons)
      | .ok host =>
        if req.egress.permits host req.manifest.hosts then checkHosts req rest needs reasons
        else if req.egress.mayAsk && declaredAdmits req.manifest.hosts host then
          checkHosts req rest true (reasons ++ [.egressHostNeedsApproval host.text])
        else .error (.egressNotAllowed host.text, reasons) := by
  have hty : spec.ty = .url := by
    unfold urlArg at h
    split at h
    · assumption
    · cases h
  have hval : (req.args.get spec.name).bind ArgValue.asText = some url := by
    simpa only [urlArg, hty] using h
  conv_lhs => unfold checkHosts
  cases hhost : Host.fromUrl url <;> simp only [hty, hval, hhost]

/-- What the host check comes to, in terms of the URL arguments. -/
theorem checkHosts_cases (req : Request) (specs : List ParamSpec) (needs : Bool)
    (reasons : List Reason) :
    match checkHosts req specs needs reasons with
    | .error _ => (specs.filterMap (urlArg req)).any (hostRefused req) = true
    | .ok (asked, _) =>
      (specs.filterMap (urlArg req)).any (hostRefused req) = false ∧
        asked = (needs || (specs.filterMap (urlArg req)).any (hostAsked req)) := by
  induction specs generalizing needs reasons with
  | nil => exact ⟨rfl, (Bool.or_false needs).symm⟩
  | cons spec rest ih =>
    cases harg : urlArg req spec with
    | none =>
      rw [checkHosts_cons_none harg, List.filterMap_cons_none harg]
      exact ih needs reasons
    | some url =>
      rw [checkHosts_cons_some harg, List.filterMap_cons_some harg]
      cases hhost : Host.fromUrl url with
      | error e => simp only [List.any_cons, hostRefused_of_error hhost, Bool.true_or]
      | ok host =>
        obtain ⟨hrefused, hasked⟩ := host_of_ok req hhost
        by_cases hp : req.egress.permits host req.manifest.hosts = true
        · have hr : hostRefused req url = false := by rw [hrefused, hp]; rfl
          have ha : hostAsked req url = false := by rw [hasked, hp]; rfl
          simp only [if_pos hp, List.any_cons, hr, ha, Bool.false_or]
          exact ih needs reasons
        · by_cases hask : (req.egress.mayAsk && declaredAdmits req.manifest.hosts host) = true
          · have hr : hostRefused req url = false := by rw [hrefused, hask]; simp
            have ha : hostAsked req url = true := by rw [hasked, hask]; simpa using hp
            have h := ih true (reasons ++ [.egressHostNeedsApproval host.text])
            simp only [Bool.true_or] at h
            simp only [if_neg hp, if_pos hask, List.any_cons, hr, ha, Bool.false_or, Bool.true_or,
              Bool.or_true]
            exact h
          · have hr : hostRefused req url = true := by
              simp only [Bool.not_eq_true] at hp hask
              rw [hrefused, hp, hask]
              rfl
            simp only [if_neg hp, if_neg hask, List.any_cons, hr, Bool.true_or]

theorem settleTier_handles {needs : Bool} {reasons : List Reason}
    {handles : OrderedMap String ScopedPath} :
    (settleTier id req needs reasons handles).handles = handles := by
  unfold settleTier
  dsimp only
  split
  · rfl
  · split
    · rfl
    · split <;> rfl

theorem settleTier_allowed {needs : Bool} {reasons : List Reason}
    {handles : OrderedMap String ScopedPath} (hn : needs = req.urlArgs.any (hostAsked req)) :
    (settleTier id req needs reasons handles).decision.outcome = .allowed ↔ Granted req := by
  subst hn
  unfold settleTier
  dsimp only
  by_cases hi : req.manifest.consequence = .irreversible
  · rw [if_pos hi]
    exact ⟨fun h => (by cases h), fun h => absurd hi h.reversible⟩
  · rw [if_neg hi]
    by_cases ha : req.urlArgs.any (hostAsked req) = true
    · rw [if_pos ha]
      exact ⟨fun h => (by cases h), fun h => absurd ha (by simp [h.hosts])⟩
    · rw [if_neg ha]
      by_cases ht : requiredTier req.manifest.consequence ≤ effectiveTier req
      · rw [if_pos ht]
        exact ⟨fun _ => ⟨hi, by simpa using ha, ht⟩, fun _ => rfl⟩
      · rw [if_neg ht]
        exact ⟨fun h => (by cases h), fun h => absurd h.tier ht⟩

/-- A request passes the first two stages exactly when it is cleared. -/
theorem cleared_iff :
    Cleared req ↔ req.exposed.contains req.manifest.tool = true ∧
      (if .inert < req.manifest.consequence then untrustedTarget req else none) = none := by
  constructor
  · intro h
    refine ⟨h.exposed, ?_⟩
    split
    · rename_i hc
      refine Option.map_eq_none_iff.mpr (List.find?_eq_none.mpr ?_)
      rintro ⟨name, value⟩ hmem hbad
      simp only [Bool.and_eq_true, decide_eq_true_eq] at hbad
      exact h.targets hc name value hmem hbad.1 (of_decide_eq_true hbad.2)
    · rfl
  · rintro ⟨hexp, hnone⟩
    refine ⟨hexp, fun hc => ?_⟩
    rw [if_pos hc] at hnone
    exact untrustedTarget_none hnone

/-- A request turned down at the first two stages opens nothing. -/
theorem adjudicate_uncleared (scope : PathScope σ) (id : Nat) (s : σ) (h : ¬ Cleared req) :
    ((adjudicate scope id req).run s).2 = s ∧
      ((adjudicate scope id req).run s).1.handles = OrderedMap.empty := by
  rw [cleared_iff] at h
  unfold adjudicate
  dsimp only
  split
  · exact ⟨rfl, rfl⟩
  · rename_i hexp
    split
    · exact ⟨rfl, rfl⟩
    · rename_i htarget
      exact absurd ⟨by simpa using hexp, htarget⟩ h

/-- How a cleared request ends. -/
structure Ends (scope : PathScope σ) (req : Request) (s : σ) (result : Adjudication × σ) : Prop where
  state : result.2 = ((openArgs scope req req.pathArgs).run s).2
  refused : ((openArgs scope req req.pathArgs).run s).1 = false ∨
      req.urlArgs.any (hostRefused req) = true →
    result.1.decision.outcome ≠ .allowed ∧ result.1.handles = OrderedMap.empty
  opened : ((openArgs scope req req.pathArgs).run s).1 = true →
    req.urlArgs.any (hostRefused req) = false →
    (result.1.decision.outcome = .allowed ↔ Granted req) ∧
      (result.1.handles = OrderedMap.empty ↔ req.pathArgs = [])

theorem adjudicate_cleared (h : Cleared req) : Ends scope req s ((adjudicate scope id req).run s) := by
  obtain ⟨hexp, htarget⟩ := cleared_iff.mp h
  have hopens := openPaths_opens scope req s req.manifest.params OrderedMap.empty
  unfold adjudicate
  simp only [hexp, htarget, Bool.not_true, Bool.false_eq_true, if_false, Stateful.run_bind]
  have hall := hopens.all
  cases hpaths : ((openPaths scope req req.manifest.params OrderedMap.empty).run s).1 with
  | error reason =>
    rw [hpaths] at hall
    refine ⟨hopens.state, fun _ => ⟨fun h => (by cases h), rfl⟩, fun hall' => ?_⟩
    rw [Request.pathArgs, ← hall] at hall'
    cases hall'
  | ok handles =>
    rw [hpaths] at hall
    have hhosts := checkHosts_cases req req.manifest.params false
      ([Reason.consequenceLevel req.manifest.consequence] ++
        [if .inert < req.manifest.consequence then .allTargetsTrusted else .inertNoTargetCheck])
    dsimp only
    split
    · rename_i herr
      rw [herr] at hhosts
      refine ⟨hopens.state, fun _ => ⟨fun h => (by cases h), rfl⟩, fun _ hno => ?_⟩
      rw [Request.urlArgs, hhosts] at hno
      cases hno
    · rename_i hok
      rw [hok] at hhosts
      refine ⟨hopens.state, fun hbad => ?_, fun _ _ => ?_⟩
      · rcases hbad with hbad | hbad
        · rw [Request.pathArgs, ← hall] at hbad
          cases hbad
        · rw [Request.urlArgs, hhosts.1] at hbad
          cases hbad
      · refine ⟨settleTier_allowed (by rw [hhosts.2, Bool.false_or]; rfl), ?_⟩
        rw [Stateful.run_pure, settleTier_handles]
        simpa [Request.pathArgs] using hopens.empty handles hpaths

end Stages

/-! ## What is left on the disk -/

section Disk

variable {unicode : Normalizer} {resolve : FileTree → String → Except Errno Nat} {id : Nat}
  {req : Request} {tree : FileTree}

def PathArg.writes (unicode : Normalizer) (arg : PathArg) : Bool :=
  writesTo unicode arg.value arg.access

/-- The path arguments, up to one that names a file to write, all open. -/
def WritesOnTheWay (unicode : Normalizer) (resolve : FileTree → String → Except Errno Nat)
    (req : Request) (tree : FileTree) (args : List PathArg) : Prop :=
  ∃ before arg after, args = before ++ arg :: after ∧ arg.writes unicode = true ∧
    ((openArgs (workspaceScope unicode resolve) req (before ++ [arg])).run tree).1 = true

/-- The log of files opened for writing never shrinks, and when it stays as long
nothing has changed. -/
theorem openArgs_grows (unicode : Normalizer) (resolve : FileTree → String → Except Errno Nat)
    (req : Request) (tree : FileTree) (args : List PathArg) :
    ((openArgs (workspaceScope unicode resolve) req args).run tree).2 = tree ∨
      tree.writing.length <
        ((openArgs (workspaceScope unicode resolve) req args).run tree).2.writing.length := by
  induction args generalizing tree with
  | nil => exact .inl rfl
  | cons arg rest ih =>
    have hone := workspaceScope_leaves unicode resolve req.manifest.paths req.workspace arg.value
      arg.access tree
    simp only [openArgs, Stateful.run_bind]
    generalize ((workspaceScope unicode resolve).openPath req.manifest.paths req.workspace arg.value
      arg.access).run tree = opened at hone ⊢
    obtain ⟨result, next⟩ := opened
    unfold LeavesOpen at hone
    have hnext : next = tree ∨ tree.writing.length < next.writing.length := by
      split at hone
      · exact .inr (by simp only at hone; omega)
      · exact .inl hone
    cases result with
    | error detail => simpa using hnext
    | ok handle =>
      rcases hnext with rfl | hlt
      · exact ih _
      · rcases ih next with hsame | hmore
        · exact .inr (by simpa [hsame] using hlt)
        · exact .inr (by simp only; omega)

/-- What opening one argument first comes to. -/
theorem openArgs_cons_true {arg : PathArg} {rest : List PathArg} :
    ((openArgs (workspaceScope unicode resolve) req (arg :: rest)).run tree).1 = true ↔
      ∃ handle next,
        ((workspaceScope unicode resolve).openPath req.manifest.paths req.workspace arg.value
            arg.access).run tree = (.ok handle, next) ∧
          ((openArgs (workspaceScope unicode resolve) req rest).run next).1 = true := by
  simp only [openArgs, Stateful.run_bind]
  generalize ((workspaceScope unicode resolve).openPath req.manifest.paths req.workspace arg.value
    arg.access).run tree = opened
  obtain ⟨result, next⟩ := opened
  cases result <;> simp

theorem writesOnTheWay_cons {arg : PathArg} {rest : List PathArg} :
    WritesOnTheWay unicode resolve req tree (arg :: rest) ↔
      ∃ handle next,
        ((workspaceScope unicode resolve).openPath req.manifest.paths req.workspace arg.value
            arg.access).run tree = (.ok handle, next) ∧
          (arg.writes unicode = true ∨ WritesOnTheWay unicode resolve req next rest) := by
  constructor
  · rintro ⟨before, w, after, heq, hw, hopen⟩
    cases before with
    | nil =>
      cases heq
      obtain ⟨handle, next, hone, _⟩ := openArgs_cons_true.mp hopen
      exact ⟨handle, next, hone, .inl hw⟩
    | cons b before =>
      cases heq
      obtain ⟨handle, next, hone, hmore⟩ := openArgs_cons_true.mp hopen
      exact ⟨handle, next, hone, .inr ⟨before, w, after, rfl, hw, hmore⟩⟩
  · rintro ⟨handle, next, hone, hw | ⟨before, w, after, rfl, hw, hmore⟩⟩
    · exact ⟨[], arg, rest, rfl, hw, openArgs_cons_true.mpr ⟨handle, next, hone, rfl⟩⟩
    · exact ⟨arg :: before, w, after, rfl, hw, openArgs_cons_true.mpr ⟨handle, next, hone, hmore⟩⟩

/-- Opening the path arguments leaves the disk as it was unless one of them writes. -/
theorem openArgs_same_iff (args : List PathArg) :
    ((openArgs (workspaceScope unicode resolve) req args).run tree).2 = tree ↔
      ¬ WritesOnTheWay unicode resolve req tree args := by
  induction args generalizing tree with
  | nil =>
    refine ⟨fun _ => ?_, fun _ => rfl⟩
    rintro ⟨before, arg, after, h, _⟩
    cases before <;> cases h
  | cons arg rest ih =>
    have hone := workspaceScope_leaves unicode resolve req.manifest.paths req.workspace arg.value
      arg.access tree
    rw [writesOnTheWay_cons]
    simp only [openArgs, Stateful.run_bind]
    generalize ((workspaceScope unicode resolve).openPath req.manifest.paths req.workspace arg.value
      arg.access).run tree = opened at hone ⊢
    obtain ⟨result, next⟩ := opened
    unfold LeavesOpen at hone
    cases result with
    | error detail =>
      have hnext : next = tree := by simpa [Except.isOk, Except.toBool] using hone
      simp [hnext]
    | ok handle =>
      by_cases hw : arg.writes unicode = true
      · -- The log is already longer, and it stays longer.
        rw [if_pos (by simpa [Except.isOk, Except.toBool, PathArg.writes] using hw)] at hone
        have hmore := openArgs_grows unicode resolve req next rest
        simp only at hone
        constructor
        · intro hsame
          simp only at hsame
          rw [hsame] at hmore
          rcases hmore with rfl | hlt <;> omega
        · intro hno
          exact absurd ⟨handle, next, rfl, .inl hw⟩ hno
      · rw [if_neg (by simpa [Except.isOk, Except.toBool, PathArg.writes] using hw)] at hone
        simp only at hone
        subst hone
        simp [ih, hw]

/-- The request is allowed, or it leaves the disk as it was and keeps nothing open. -/
def LeavesNoTrace (unicode : Normalizer) (resolve : FileTree → String → Except Errno Nat) (id : Nat)
    (req : Request) (tree : FileTree) : Prop :=
  ((adjudicate (workspaceScope unicode resolve) id req).run tree).1.decision.outcome ≠ .allowed →
    ((adjudicate (workspaceScope unicode resolve) id req).run tree).2 = tree ∧
      ((adjudicate (workspaceScope unicode resolve) id req).run tree).1.handles = OrderedMap.empty

/-- What a request must be like for a decision other than `allowed` to leave nothing. -/
structure Traceless (unicode : Normalizer) (resolve : FileTree → String → Except Errno Nat)
    (req : Request) (tree : FileTree) : Prop where
  /-- A request that cannot be carried out has opened nothing for writing by then. -/
  refused : ((openArgs (workspaceScope unicode resolve) req req.pathArgs).run tree).1 = false ∨
      req.urlArgs.any (hostRefused req) = true →
    ¬ WritesOnTheWay unicode resolve req tree req.pathArgs
  /-- A request a person is asked about names no path. -/
  asked : ((openArgs (workspaceScope unicode resolve) req req.pathArgs).run tree).1 = true →
    req.urlArgs.any (hostRefused req) = false → ¬ Granted req → req.pathArgs = []

/-- **When a refusal leaves no trace.** -/
theorem leavesNoTrace_iff :
    LeavesNoTrace unicode resolve id req tree ↔
      (Cleared req → Traceless unicode resolve req tree) := by
  by_cases hc : Cleared req
  · have hends : Ends (workspaceScope unicode resolve) req tree
        ((adjudicate (workspaceScope unicode resolve) id req).run tree) := adjudicate_cleared hc
    constructor
    · intro h _
      refine ⟨fun hbad => ?_, fun hall hhost hgrant => ?_⟩
      · have hno := (h (hends.refused hbad).1).1
        rw [hends.state] at hno
        exact (openArgs_same_iff req.pathArgs).mp hno
      · obtain ⟨hallowed, hempty⟩ := hends.opened hall hhost
        exact hempty.mp (h (fun ho => hgrant (hallowed.mp ho))).2
    · intro h hout
      obtain ⟨hrefused, hasked⟩ := h hc
      by_cases hbad : ((openArgs (workspaceScope unicode resolve) req req.pathArgs).run tree).1 =
          false ∨ req.urlArgs.any (hostRefused req) = true
      · exact ⟨hends.state.trans ((openArgs_same_iff req.pathArgs).mpr (hrefused hbad)),
          (hends.refused hbad).2⟩
      · obtain ⟨hall, hhost⟩ := not_or.mp hbad
        rw [Bool.not_eq_false] at hall
        rw [Bool.not_eq_true] at hhost
        obtain ⟨hallowed, hempty⟩ := hends.opened hall hhost
        have hnone := hasked hall hhost (fun hg => hout (hallowed.mpr hg))
        refine ⟨?_, hempty.mpr hnone⟩
        rw [hends.state, hnone]
        rfl
  · have hleft := adjudicate_uncleared (workspaceScope unicode resolve) id tree hc
    exact ⟨fun _ h => absurd h hc, fun _ _ => hleft⟩

end Disk

/-! ## A draft nobody approved -/

/-- The path and content of `write`. -/
def writeTool : CapabilityManifest where
  tool := ⟨"write"⟩
  paths := [⟨"./**"⟩]
  hosts := []
  consequence := .reversible
  params := [⟨"path", .target, .writePath, true⟩, ⟨"content", .payload, .text, true⟩]

/-- A run whose tier makes every write a question asks to write a new file. -/
def draftRequest : Request where
  manifest := writeTool
  args := (Args.empty.withText "path" "notes.md").withText "content" "draft"
  taint := TaintSet.empty.insert "path" .userAsserted
  exposed := ⟨[⟨"write"⟩], by decide, by decide⟩
  egress := .denyAll
  workspace := "/ws"
  tier := .suggest
  novelty := none

def emptyWorkspace : FileTree := ⟨[.directory [] ⟨true, true⟩], []⟩

/-- The draft waits for an approval, and the file is there already. -/
theorem draft_leaves_a_file :
    ¬ LeavesNoTrace ⟨fun _ => true, id⟩ (fun _ _ => .ok 0) 1 draftRequest emptyWorkspace := by
  intro h
  have hcreated := (h (by decide)).1
  exact absurd hcreated (by decide)

end MarloweAgent.Permission
