import MarloweAgent.Library.Stateful
import Mathlib.Data.List.Basic

/-! A file system as one process sees it: numbered objects, directories that name
them, and a log of what has been opened for writing. Opening is by one name under
a directory already held, and never through a symbolic link. -/

namespace MarloweAgent.Library

/-- What the process may do with an object. A directory it may read it may search. -/
structure Permissions where
  read : Bool
  write : Bool
  deriving DecidableEq, Repr

inductive FileNode
  | file (content : List UInt8) (may : Permissions)
  | directory (entries : List (String × Nat)) (may : Permissions)
  | symlink (target : String)
  deriving DecidableEq, Repr

inductive Errno
  | noent
  | acces
  | notdir
  | isdir
  | loop
  | mlink
  deriving DecidableEq, Repr

def Errno.render : Errno → String
  | noent => "No such file or directory (os error 2)"
  | acces => "Permission denied (os error 13)"
  | notdir => "Not a directory (os error 20)"
  | isdir => "Is a directory (os error 21)"
  | loop => "Too many levels of symbolic links (os error 40)"
  | mlink => "Too many links (os error 31)"

/-- `O_DIRECTORY`, `O_RDWR` (else `O_RDONLY`) and `O_CREAT`. -/
structure OpenFlags where
  directory : Bool
  write : Bool
  create : Bool
  deriving DecidableEq, Repr

/-- The objects by number, and the numbers opened for writing so far. -/
structure FileTree where
  nodes : List FileNode
  writing : List Nat
  deriving DecidableEq, Repr

namespace FileTree

def entry (entries : List (String × Nat)) (name : String) : Option Nat :=
  (entries.find? (·.1 = name)).map Prod.snd

/-- The tree once `n` is open for writing. -/
def noteWrite (tree : FileTree) (n : Nat) : FileTree := { tree with writing := tree.writing ++ [n] }

/-- A new empty file under `name` in the directory `dir`, which lists `entries`. -/
def addFile (tree : FileTree) (dir : Nat) (entries : List (String × Nat)) (may : Permissions)
    (name : String) : FileTree :=
  { tree with
    nodes := tree.nodes.set dir (.directory (entries ++ [(name, tree.nodes.length)]) may)
      ++ [.file [] ⟨true, true⟩] }

/-- Open an object that exists. A link is refused, never followed. -/
def openNode (tree : FileTree) (n : Nat) (flags : OpenFlags) : Except Errno Nat × FileTree :=
  match tree.nodes[n]? with
  | some (.file _ may) =>
    if flags.directory then (.error .notdir, tree)
    else if !may.read then (.error .acces, tree)
    else if !flags.write then (.ok n, tree)
    else if may.write then (.ok n, tree.noteWrite n)
    else (.error .acces, tree)
  | some (.directory _ may) =>
    if flags.write then (.error .isdir, tree)
    else if may.read then (.ok n, tree)
    else (.error .acces, tree)
  | some (.symlink _) => (.error (if flags.directory then .notdir else .loop), tree)
  | none => (.error .noent, tree)

/-- `openat` with `O_NOFOLLOW`, of one name under the directory `dir`. -/
def openAt (dir : Nat) (name : String) (flags : OpenFlags) : Stateful FileTree (Except Errno Nat) :=
  ⟨fun tree =>
    match tree.nodes[dir]? with
    | some (.directory entries may) =>
      match entry entries name with
      | some n => tree.openNode n flags
      | none =>
        if !flags.create then (.error .noent, tree)
        else if may.write then
          (.ok tree.nodes.length, (tree.addFile dir entries may name).noteWrite tree.nodes.length)
        else (.error .acces, tree)
    | some (.file _ _) => (.error .notdir, tree)
    | some (.symlink _) => (.error .notdir, tree)
    | none => (.error .noent, tree)⟩

/-! ## What an open leaves behind -/

section Opens

variable {tree : FileTree} {dir n : Nat} {name : String} {flags : OpenFlags}

@[simp] theorem noteWrite_length : (tree.noteWrite n).writing.length = tree.writing.length + 1 := by
  simp [noteWrite]

@[simp] theorem addFile_writing {entries : List (String × Nat)} {may : Permissions} :
    (tree.addFile dir entries may name).writing = tree.writing := rfl

theorem openNode_cases (tree : FileTree) (n : Nat) (flags : OpenFlags) :
    (tree.openNode n flags).2 = tree ∧ (flags.write = true → ∃ e, (tree.openNode n flags).1 = .error e) ∨
      flags.write = true ∧ (tree.openNode n flags).1 = .ok n ∧
        (tree.openNode n flags).2 = tree.noteWrite n := by
  unfold openNode
  cases tree.nodes[n]? with
  | none => exact .inl ⟨rfl, fun _ => ⟨_, rfl⟩⟩
  | some node =>
    cases node with
    | symlink target => exact .inl ⟨rfl, fun _ => ⟨_, rfl⟩⟩
    | directory entries may =>
      dsimp only
      cases hw : flags.write with
      | true => exact .inl ⟨rfl, fun _ => ⟨_, rfl⟩⟩
      | false => cases may.read <;> exact .inl ⟨rfl, by simp⟩
    | file content may =>
      dsimp only
      cases flags.directory with
      | true => exact .inl ⟨rfl, fun _ => ⟨_, rfl⟩⟩
      | false =>
        cases may.read with
        | false => exact .inl ⟨rfl, fun _ => ⟨_, rfl⟩⟩
        | true =>
          cases hw : flags.write with
          | false => exact .inl ⟨rfl, by simp⟩
          | true =>
            cases may.write with
            | true => exact .inr ⟨rfl, rfl, rfl⟩
            | false => exact .inl ⟨rfl, fun _ => ⟨_, rfl⟩⟩

/-- An open that asks for no more than to read leaves the tree as it was. -/
theorem openAt_read (tree : FileTree) (dir : Nat) (name : String) {flags : OpenFlags}
    (hw : flags.write = false) (hc : flags.create = false) :
    ((openAt dir name flags).run tree).2 = tree := by
  simp only [openAt]
  cases tree.nodes[dir]? with
  | none => rfl
  | some node =>
    cases node with
    | file content may => rfl
    | symlink target => rfl
    | directory entries may =>
      dsimp only
      cases entry entries name with
      | none => simp [hc]
      | some n =>
        rcases openNode_cases tree n flags with ⟨h, _⟩ | ⟨h, _⟩
        · exact h
        · rw [hw] at h
          cases h

/-- An open for writing either fails, and leaves the tree as it was, or is in the log. -/
theorem openAt_write (tree : FileTree) (dir : Nat) (name : String) {flags : OpenFlags}
    (hw : flags.write = true) :
    (∃ e, ((openAt dir name flags).run tree).1 = .error e) ∧
        ((openAt dir name flags).run tree).2 = tree ∨
      (∃ n, ((openAt dir name flags).run tree).1 = .ok n) ∧
        ((openAt dir name flags).run tree).2.writing.length = tree.writing.length + 1 := by
  simp only [openAt]
  cases tree.nodes[dir]? with
  | none => exact .inl ⟨⟨_, rfl⟩, rfl⟩
  | some node =>
    cases node with
    | file content may => exact .inl ⟨⟨_, rfl⟩, rfl⟩
    | symlink target => exact .inl ⟨⟨_, rfl⟩, rfl⟩
    | directory entries may =>
      dsimp only
      cases entry entries name with
      | some n =>
        rcases openNode_cases tree n flags with ⟨h, he⟩ | ⟨_, ho, h⟩
        · exact .inl ⟨he hw, h⟩
        · exact .inr ⟨⟨n, ho⟩, by simp [h]⟩
      | none =>
        cases flags.create with
        | false => exact .inl ⟨⟨_, rfl⟩, rfl⟩
        | true =>
          cases may.write with
          | false => exact .inl ⟨⟨_, rfl⟩, rfl⟩
          | true => exact .inr ⟨⟨_, rfl⟩, by simp⟩

end Opens

end FileTree

end MarloweAgent.Library
