import MarloweAgent.Library.FileTree
import MarloweAgent.Permission.Adjudicate
import MarloweAgent.Permission.RequestedPath

/-! The handle walk and the workspace scope over it. A path is opened one name at a
time beneath a directory already held; only the last name is opened the way the
caller asked. How the host resolves the workspace's own path is a parameter. -/

namespace MarloweAgent.Permission
open Contract Library Tools

inductive ScopeError
  | malformed (requested : String) (source : RequestError)
  | undeclared (requested : String)
  | outsideScope (requested : String)
  | unopenable (requested detail : String)
  deriving DecidableEq, Repr

def ScopeError.render : ScopeError → String
  | malformed requested source =>
    s!"`{requested}` is not a well-formed workspace-relative path: {source.render}"
  | undeclared requested =>
    s!"`{requested}` is not inside any path this tool declared. Undeclared access is denied " ++
    "at the boundary, not warned about (brief §8.2)"
  | outsideScope requested =>
    s!"`{requested}` resolves outside the workspace. A link in the path pointed out of " ++
    "scope and was refused rather than followed"
  | unopenable requested detail =>
    s!"`{requested}` could not be opened: {detail}. " ++
    "This is NOT a scoping refusal and NOT a permission denial — an undeclared path says so in " ++
    "those words. If the detail above says the file does not exist, then it does not exist: " ++
    "confirm with `glob` before concluding that access was blocked"

/-- `PathBuf::push` of a relative component. -/
def pushComponent (path component : String) : String :=
  if path.isEmpty ∨ path.toList.getLast? = some '/' then path ++ component
  else path ++ "/" ++ component

/-- Every directory on the way is opened read-only, whatever the access. -/
def leafFlags : Access → OpenFlags
  | .read => ⟨false, false, false⟩
  | .readWrite => ⟨false, true, false⟩
  | .createOrOpen => ⟨false, true, true⟩

def prefixFlags : OpenFlags := ⟨true, false, false⟩

def walkError (requested accumulated : String) (e : Errno) : ScopeError :=
  if e = .loop ∨ e = .mlink then .outsideScope requested
  else .unopenable requested (accumulated ++ ": " ++ e.render)

/-- The object a walk ended on and the path that named it. -/
structure Opened where
  handle : Nat
  resolved : String
  deriving DecidableEq, Repr

/-- The walk from the open directory `dir`, reached as `accumulated`. -/
def walkFrom (requested : String) (access : Access) :
    Nat → String → List String → Stateful FileTree (Except ScopeError Opened)
  | dir, accumulated, [] => pure (.ok ⟨dir, accumulated⟩)
  | dir, accumulated, component :: rest => do
    let accumulated := pushComponent accumulated component
    let flags := if rest.isEmpty then leafFlags access else prefixFlags
    match ← FileTree.openAt dir component flags with
    | .error e => pure (.error (walkError requested accumulated e))
    | .ok opened => walkFrom requested access opened accumulated rest

/-- Opening the workspace root, whose own path the host resolves through links. -/
def openRoot (resolve : FileTree → String → Except Errno Nat) (root : String) (tree : FileTree) :
    Except Errno Nat := do
  let n ← resolve tree root
  match tree.nodes[n]? with
  | some (.directory _ may) => if may.read then pure n else .error .acces
  | _ => .error .notdir

def openWithin (resolve : FileTree → String → Except Errno Nat) (root : String)
    (request : RequestedPath) (access : Access) : Stateful FileTree (Except ScopeError Opened) := do
  match openRoot resolve root (← Stateful.read) with
  | .error e => pure (.error (.unopenable root e.render))
  | .ok dir => walkFrom request.asRelative access dir root request.components

/-- `WorkspaceScope::open`. -/
def workspaceOpen (unicode : Normalizer) (resolve : FileTree → String → Except Errno Nat)
    (declared : List PathGlob) (workspace requested : String) (access : Access) :
    Stateful FileTree (Except ScopeError ScopedPath) :=
  match validate unicode requested with
  | .error source => pure (.error (.malformed requested source))
  | .ok parsed =>
    if !admits unicode declared parsed then pure (.error (.undeclared parsed.asRelative))
    else do
      match ← openWithin resolve workspace parsed access with
      | .error e => pure (.error e)
      | .ok opened => pure (.ok ⟨opened.handle, opened.resolved, parsed.asRelative⟩)

def workspaceScope (unicode : Normalizer) (resolve : FileTree → String → Except Errno Nat) :
    PathScope FileTree :=
  ⟨fun declared workspace requested access => do
    match ← workspaceOpen unicode resolve declared workspace requested access with
    | .error e => pure (.error e.render)
    | .ok path => pure (.ok path)⟩

/-! ## What one open leaves behind -/

/-- An open under this access writes: it names an object below the root, for writing. -/
def Access.writes (access : Access) (components : List String) : Bool :=
  access ≠ .read && !components.isEmpty

/-- How a walk may leave the tree: as it found it, or with one object more opened
for writing, which it does exactly when it succeeds and was asked to write. -/
def LeavesOpen (writes : Bool) (succeeded : Bool) (before after : FileTree) : Prop :=
  if writes && succeeded then after.writing.length = before.writing.length + 1 else after = before

section Spec

variable {requested accumulated root workspace : String} {access : Access} {dir : Nat}
  {tree : FileTree} {resolve : FileTree → String → Except Errno Nat} {unicode : Normalizer}
  {declared : List PathGlob}

theorem leafFlags_write (h : access ≠ .read) : (leafFlags access).write = true := by
  cases access with
  | read => exact absurd rfl h
  | readWrite => rfl
  | createOrOpen => rfl

/-- The last name of a walk. -/
theorem openAt_leaf_leaves (access : Access) (dir : Nat) (tree : FileTree) (component : String)
    (rest : List String) :
    LeavesOpen (access.writes (component :: rest))
      ((FileTree.openAt dir component (leafFlags access)).run tree).1.isOk tree
      ((FileTree.openAt dir component (leafFlags access)).run tree).2 := by
  by_cases hr : access = .read
  · subst hr
    exact FileTree.openAt_read tree dir component rfl rfl
  · rcases FileTree.openAt_write tree dir component (leafFlags_write hr) with ⟨⟨e, he⟩, hsame⟩ | ⟨⟨n, hn⟩, hmore⟩
    · simp [LeavesOpen, he, hsame, Except.isOk, Except.toBool]
    · simp [LeavesOpen, Access.writes, hr, hn, hmore, Except.isOk, Except.toBool]

theorem walkFrom_leaves (components : List String) :
    LeavesOpen (access.writes components)
      ((walkFrom requested access dir accumulated components).run tree).1.isOk tree
      ((walkFrom requested access dir accumulated components).run tree).2 := by
  induction components generalizing dir accumulated tree with
  | nil => simp [walkFrom, LeavesOpen, Access.writes]
  | cons component rest ih =>
    simp only [walkFrom, Stateful.run_bind]
    cases rest with
    | nil =>
      have hleaf := openAt_leaf_leaves access dir tree component []
      simp only [List.isEmpty_nil, if_true]
      cases h : ((FileTree.openAt dir component (leafFlags access)).run tree).1 with
      | error e => simpa [h, Except.isOk, Except.toBool] using hleaf
      | ok opened => simpa [h, walkFrom, Except.isOk, Except.toBool] using hleaf
    | cons next more =>
      have hsame : ((FileTree.openAt dir component prefixFlags).run tree).2 = tree :=
        FileTree.openAt_read tree dir component rfl rfl
      simp only [List.isEmpty_cons, Bool.false_eq_true, if_false]
      rw [hsame]
      cases ((FileTree.openAt dir component prefixFlags).run tree).1 with
      | error e => simp [LeavesOpen, Except.isOk, Except.toBool]
      | ok opened => exact ih

theorem openWithin_leaves (resolve : FileTree → String → Except Errno Nat) (root : String)
    (access : Access) (tree : FileTree) (request : RequestedPath) :
    LeavesOpen (access.writes request.components)
      ((openWithin resolve root request access).run tree).1.isOk tree
      ((openWithin resolve root request access).run tree).2 := by
  simp only [openWithin, Stateful.run_bind, Stateful.run_read]
  cases openRoot resolve root tree with
  | error e => simp [LeavesOpen, Except.isOk, Except.toBool]
  | ok dir => exact walkFrom_leaves request.components

/-- Whether opening this request writes, judged from its text alone. -/
def writesTo (unicode : Normalizer) (requested : String) (access : Access) : Bool :=
  match validate unicode requested with
  | .error _ => false
  | .ok parsed => access.writes parsed.components

theorem workspaceOpen_leaves (unicode : Normalizer) (resolve : FileTree → String → Except Errno Nat)
    (declared : List PathGlob) (workspace requested : String) (access : Access) (tree : FileTree) :
    LeavesOpen (writesTo unicode requested access)
      ((workspaceOpen unicode resolve declared workspace requested access).run tree).1.isOk tree
      ((workspaceOpen unicode resolve declared workspace requested access).run tree).2 := by
  unfold workspaceOpen writesTo
  cases validate unicode requested with
  | error source => simp [LeavesOpen]
  | ok parsed =>
    dsimp only
    split
    · simp [LeavesOpen, Except.isOk, Except.toBool]
    · have h := openWithin_leaves resolve workspace access tree parsed
      rw [Stateful.run_bind]
      cases hw : ((openWithin resolve workspace parsed access).run tree).1 with
      | error e => simpa [hw, Except.isOk, Except.toBool] using h
      | ok opened => simpa [hw, Except.isOk, Except.toBool] using h

theorem workspaceScope_leaves (unicode : Normalizer) (resolve : FileTree → String → Except Errno Nat)
    (declared : List PathGlob) (workspace requested : String) (access : Access) (tree : FileTree) :
    LeavesOpen (writesTo unicode requested access)
      (((workspaceScope unicode resolve).openPath declared workspace requested access).run tree).1.isOk
      tree (((workspaceScope unicode resolve).openPath declared workspace requested access).run tree).2 := by
  have h := workspaceOpen_leaves unicode resolve declared workspace requested access tree
  simp only [workspaceScope, Stateful.run_bind]
  cases hw : ((workspaceOpen unicode resolve declared workspace requested access).run tree).1 with
  | error e => simpa [hw, Except.isOk, Except.toBool] using h
  | ok path => simpa [hw, Except.isOk, Except.toBool] using h

end Spec

end MarloweAgent.Permission
