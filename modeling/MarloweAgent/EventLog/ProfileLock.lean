import Mathlib.Logic.Function.Basic
import Mathlib.Logic.Relation

/-! The lock file of a profile root, on a system without mandatory locking. Processes
take the lock by creating the file exclusively; one that finds it there reads whose it
is and reclaims it from a process that has died. Every file-system call is a step of
its own, any of them may fail, and a process may die between any two. -/

namespace MarloweAgent.EventLog

abbrev Pid := Nat
abbrev Inode := Nat

/-- Where a process is in `ProfileLock::acquire`. After a read: the file that was read,
and the pid its text parsed to. -/
inductive Stage
  | idle
  | created (file : Inode)
  | occupied
  | judging (read : Option Inode) (holder : Option Pid)
  | stale (read : Option Inode) (holder : Option Pid)
  | removed
  | holding (file : Inode)
  deriving DecidableEq, Repr

/-- The file a stage has created and not let go of. -/
def Stage.file? : Stage → Option Inode
  | created file | holding file => some file
  | _ => none

/-- What was read, in a stage that still acts on it. -/
def Stage.reading? : Stage → Option (Option Inode × Option Pid)
  | judging read holder | stale read holder => some (read, holder)
  | _ => none

/-- One call on the file system, with whether it succeeds; or the end of the process. -/
inductive Move
  | create (ok : Bool)
  | write (ok : Bool)
  | read (ok : Bool)
  | probe
  | remove (ok : Bool)
  | recreate (ok : Bool)
  | drop (ok : Bool)
  | die
  deriving DecidableEq, Repr

/-- The profile root and the processes at its lock. `entry` is the file under the lock's
name, `content` the pid a file's text parses to; nothing reads `creator`. -/
structure LockDir where
  entry : Option Inode
  nextInode : Inode
  creator : Inode → Pid
  content : Inode → Option Pid
  alive : Pid → Bool
  stage : Pid → Stage

namespace LockDir

/-- A root without a lock file. -/
def fresh : LockDir :=
  { entry := none, nextInode := 0, creator := fun _ => 0, content := fun _ => none
    alive := fun _ => true, stage := fun _ => .idle }

def goto (dir : LockDir) (p : Pid) (stage : Stage) : LockDir :=
  { dir with stage := Function.update dir.stage p stage }

/-- `create_new` where the name is free: an empty file. -/
def newFile (dir : LockDir) (p : Pid) : LockDir :=
  { dir.goto p (.created dir.nextInode) with
    entry := some dir.nextInode
    nextInode := dir.nextInode + 1
    creator := Function.update dir.creator dir.nextInode p
    content := Function.update dir.content dir.nextInode none }

/-- `remove_file`, whatever file is there. -/
def unlink (dir : LockDir) : LockDir := { dir with entry := none }

/-- One step of one process; `none` where it cannot make that move. -/
def step (dir : LockDir) (p : Pid) (move : Move) : Option LockDir :=
  if !dir.alive p then none
  else
    match move, dir.stage p with
    | .create ok, .idle =>
      if ok then
        some (match dir.entry with
          | none => dir.newFile p
          | some _ => dir.goto p .occupied)
      else some dir
    -- an error of the write is swallowed
    | .write ok, .created file =>
      some ({ dir with
        content := if ok then Function.update dir.content file (some p) else dir.content }.goto p
          (.holding file))
    -- a file that cannot be read reads as the empty text
    | .read ok, .occupied =>
      some (dir.goto p
        (if ok then .judging dir.entry (dir.entry.bind dir.content) else .judging none none))
    | .probe, .judging read holder =>
      some (dir.goto p (if holder.any dir.alive then .idle else .stale read holder))
    | .remove ok, .stale _ _ => some ((if ok then dir.unlink else dir).goto p .removed)
    | .recreate ok, .removed =>
      some (if ok ∧ dir.entry = none then dir.newFile p else dir.goto p .idle)
    | .drop ok, .holding _ => some ((if ok then dir.unlink else dir).goto p .idle)
    | .die, _ => some { dir with alive := Function.update dir.alive p false }
    | _, _ => none

/-- The steps of several processes, in the order they happen. -/
def run (dir : LockDir) : List (Pid × Move) → Option LockDir
  | [] => some dir
  | (p, move) :: rest => (dir.step p move).bind fun dir' => run dir' rest

/-! ## What the lock is for -/

def Holds (dir : LockDir) (p : Pid) : Prop := dir.alive p = true ∧ ∃ file, dir.stage p = .holding file

/-- At most one live process holds the lock, and a drop takes away no file but the one
its own process created. -/
structure Exclusive (dir : LockDir) : Prop where
  single : ∀ p q, dir.Holds p → dir.Holds q → p = q
  own : ∀ p ok dir' file, dir.step p (.drop ok) = some dir' → dir.entry = some file →
    dir'.entry ≠ some file → dir.creator file = p

/-- A reclaim that removes a file removes one whose creator has died. -/
def careful (dir : LockDir) : Move → Bool
  | .remove true => dir.entry.all fun file => !dir.alive (dir.creator file)
  | _ => true

/-- Every step of a run is careful where it is taken. -/
def carefulRun (dir : LockDir) : List (Pid × Move) → Bool
  | [] => true
  | (p, move) :: rest =>
    dir.careful move && match dir.step p move with
      | some dir' => carefulRun dir' rest
      | none => true

/-! ## What one step can do -/

/-- A step that leaves the name in the directory alone: where the process goes, what it
may have written into its own file, and what it may have read. -/
structure Moved (dir : LockDir) (p : Pid) (stage : Stage) (content : Inode → Option Pid) : Prop where
  file : ∀ file, stage.file? = some file → (dir.stage p).file? = some file
  content : content = dir.content ∨
    ∃ file, (dir.stage p).file? = some file ∧ content = Function.update dir.content file (some p)
  reading : ∀ read holder, stage.reading? = some (read, holder) →
    (dir.stage p).reading? = some (read, holder) ∨ holder = none ∨
      (read = dir.entry ∧ holder = dir.entry.bind dir.content)
  dead : ∀ read holder, stage = .stale read (some holder) → dir.alive holder = false

theorem Moved.quiet {dir : LockDir} {p : Pid} {stage : Stage} (hfile : stage.file? = none)
    (hreading : stage.reading? = none) : dir.Moved p stage dir.content := by
  constructor
  case file => intro file h; rw [hfile] at h; cases h
  case content => exact .inl rfl
  case reading => intro read holder h; rw [hreading] at h; cases h
  case dead =>
    rintro read holder rfl
    cases hreading

theorem goto_self (dir : LockDir) (p : Pid) : dir.goto p (dir.stage p) = dir := by
  unfold goto
  rw [Function.update_eq_self]

theorem step_cases {dir dir' : LockDir} {p : Pid} {move : Move} (h : dir.step p move = some dir') :
    dir.alive p = true ∧
      ((∃ stage content, dir.Moved p stage content ∧ dir' = { dir with content }.goto p stage) ∨
      (dir.entry = none ∧ dir' = dir.newFile p) ∨
      (∃ stage, stage.file? = none ∧ stage.reading? = none ∧
        (move = .remove true ∨ ∃ file, dir.stage p = .holding file) ∧
        dir' = dir.unlink.goto p stage) ∨
      dir' = { dir with alive := Function.update dir.alive p false }) := by
  unfold step at h
  split at h
  · cases h
  rename_i halive
  refine ⟨by simpa using halive, ?_⟩
  split at h
  case h_1 ok hstage =>
    split at h
    · have hdir := Option.some.inj h
      split at hdir
      · rename_i hfree
        exact .inr (.inl ⟨hfree, hdir.symm⟩)
      · exact .inl ⟨_, _, .quiet rfl rfl, hdir.symm⟩
    · refine .inl ⟨.idle, _, .quiet rfl rfl, ?_⟩
      rw [← hstage]
      exact (Option.some.inj h).symm.trans (dir.goto_self p).symm
  case h_2 ok file hstage =>
    refine .inl ⟨_, _, ⟨?_, ?_, by simp [Stage.reading?], by simp⟩, (Option.some.inj h).symm⟩
    · intro file' hfile
      rwa [hstage]
    · cases ok with
      | true => exact .inr ⟨file, by rw [hstage]; rfl, rfl⟩
      | false => exact .inl rfl
  case h_3 ok hstage =>
    refine .inl ⟨_, dir.content, ⟨?_, .inl rfl, ?_, ?_⟩, (Option.some.inj h).symm⟩
    · intro file hfile
      cases ok <;> cases hfile
    · intro read holder hreading
      cases ok with
      | true =>
        cases hreading
        exact .inr (.inr ⟨rfl, rfl⟩)
      | false =>
        cases hreading
        exact .inr (.inl rfl)
    · intro read holder hstale
      cases ok <;> cases hstale
  case h_4 read holder hstage =>
    refine .inl ⟨_, dir.content, ⟨?_, .inl rfl, ?_, ?_⟩, (Option.some.inj h).symm⟩
    · intro file hfile
      split at hfile <;> cases hfile
    · intro read' holder' hreading
      split at hreading
      · cases hreading
      · rw [hstage]
        exact .inl hreading
    · intro read' holder' hstale
      split at hstale
      · cases hstale
      · rename_i hdead
        cases hstale
        simpa using hdead
  case h_5 ok read holder hstage =>
    cases ok with
    | true => exact .inr (.inr (.inl ⟨_, rfl, rfl, .inl rfl, (Option.some.inj h).symm⟩))
    | false => exact .inl ⟨_, _, .quiet rfl rfl, (Option.some.inj h).symm⟩
  case h_6 ok hstage =>
    split at h
    · rename_i hfree
      exact .inr (.inl ⟨hfree.2, (Option.some.inj h).symm⟩)
    · exact .inl ⟨_, _, .quiet rfl rfl, (Option.some.inj h).symm⟩
  case h_7 ok file hstage =>
    cases ok with
    | true =>
      exact .inr (.inr (.inl ⟨_, rfl, rfl, .inr ⟨file, hstage⟩, (Option.some.inj h).symm⟩))
    | false => exact .inl ⟨_, _, .quiet rfl rfl, (Option.some.inj h).symm⟩
  case h_8 stage => exact .inr (.inr (.inr (Option.some.inj h).symm))
  case h_9 => cases h

/-! ## Mutual exclusion -/

/-- The file a live process has created and not let go of is the one under the name. -/
def Guarded (dir : LockDir) : Prop :=
  ∀ p file, dir.alive p = true → (dir.stage p).file? = some file →
    dir.entry = some file ∧ dir.creator file = p

theorem fresh_guarded : fresh.Guarded := by
  intro p file _ h
  cases h

theorem Guarded.step {dir dir' : LockDir} (hdir : dir.Guarded) {p : Pid} {move : Move}
    (hcareful : dir.careful move = true) (h : dir.step p move = some dir') : dir'.Guarded := by
  obtain ⟨halive, ⟨stage, content, hmoved, rfl⟩ | ⟨hfree, rfl⟩ | ⟨stage, hfile, -, hwhy, rfl⟩ | rfl⟩ :=
    step_cases h
  · intro q file hq hheld
    by_cases hqp : q = p
    · subst hqp
      exact hdir q file hq (hmoved.file file (by simpa [goto] using hheld))
    · exact hdir q file hq (by simpa [goto, hqp] using hheld)
  · intro q file hq hheld
    by_cases hqp : q = p
    · subst hqp
      obtain rfl : dir.nextInode = file := by simpa [newFile, goto, Stage.file?] using hheld
      exact ⟨rfl, by simp [newFile]⟩
    · -- whoever held a file would have left it under the name
      have hother := hdir q file hq (by simpa [newFile, goto, hqp] using hheld)
      rw [hfree] at hother
      cases hother.1
  · intro q file hq hheld
    by_cases hqp : q = p
    · subst hqp
      simp [goto, hfile] at hheld
    · obtain ⟨hentry, hcreator⟩ := hdir q file hq (by simpa [goto, unlink, hqp] using hheld)
      rcases hwhy with rfl | ⟨own, hown⟩
      · have hdead : dir.alive q = false := by
          simpa [careful, hentry, hcreator] using hcareful
        have hlive : dir.alive q = true := hq
        rw [hdead] at hlive
        cases hlive
      · obtain ⟨hentry', hcreator'⟩ := hdir p own halive (by rw [hown]; rfl)
        obtain rfl : file = own := Option.some.inj (hentry.symm.trans hentry')
        exact absurd (hcreator.symm.trans hcreator') hqp
  · intro q file hq hheld
    by_cases hqp : q = p
    · subst hqp
      simp at hq
    · exact hdir q file (by simpa [hqp] using hq) hheld

/-- Only a holder can drop. -/
theorem holds_of_drop {dir dir' : LockDir} {p : Pid} {ok : Bool}
    (h : dir.step p (.drop ok) = some dir') : dir.Holds p := by
  unfold step at h
  split at h
  · cases h
  rename_i halive
  refine ⟨by simpa using halive, ?_⟩
  cases hstage : dir.stage p with
  | holding file => exact ⟨file, rfl⟩
  | idle | created | occupied | judging | stale | removed =>
    rw [hstage] at h
    cases h

theorem Guarded.exclusive {dir : LockDir} (hdir : dir.Guarded) : dir.Exclusive := by
  constructor
  case single =>
    rintro p q ⟨hp, file, hfile⟩ ⟨hq, file', hfile'⟩
    obtain ⟨hentry, hcreator⟩ := hdir p file hp (by rw [hfile]; rfl)
    obtain ⟨hentry', hcreator'⟩ := hdir q file' hq (by rw [hfile']; rfl)
    obtain rfl : file = file' := Option.some.inj (hentry.symm.trans hentry')
    exact hcreator.symm.trans hcreator'
  case own =>
    intro p ok dir' file h hentry _
    obtain ⟨hp, own, hown⟩ := holds_of_drop h
    obtain ⟨hentry', hcreator⟩ := hdir p own hp (by rw [hown]; rfl)
    obtain rfl : file = own := Option.some.inj (hentry.symm.trans hentry')
    exact hcreator

theorem Guarded.run {dir dir' : LockDir} (hdir : dir.Guarded) {moves : List (Pid × Move)}
    (hcareful : dir.carefulRun moves = true) (h : dir.run moves = some dir') : dir'.Guarded := by
  induction moves generalizing dir with
  | nil =>
    cases h
    exact hdir
  | cons first rest ih =>
    obtain ⟨p, move⟩ := first
    obtain ⟨next, hstep, hrest⟩ := Option.bind_eq_some_iff.mp h
    simp only [carefulRun, hstep, Bool.and_eq_true] at hcareful
    exact ih (hdir.step hcareful.1 hstep) hcareful.2 hrest

/-- **One holder.** In every interleaving whose reclaims remove the files of dead
processes only, at most one live process holds the lock in any state reached, and no
drop takes away another's file. -/
theorem exclusive_of_careful {moves : List (Pid × Move)} {dir : LockDir}
    (h : fresh.run moves = some dir) (hcareful : fresh.carefulRun moves = true) : dir.Exclusive :=
  (fresh_guarded.run hcareful h).exclusive

/-- A holder dies and its lock is reclaimed. -/
def reclaimed : List (Pid × Move) :=
  [(1, .create true), (1, .write true), (1, .die), (2, .create true), (2, .read true),
    (2, .probe), (2, .remove true), (2, .recreate true), (2, .write true)]

theorem exclusive_reclaimed : ∃ dir, fresh.run reclaimed = some dir ∧ dir.Exclusive :=
  ⟨_, rfl, @exclusive_of_careful reclaimed _ rfl rfl⟩

/-- The second process reads the lock file before the first has written its pid. -/
def raced : List (Pid × Move) :=
  [(1, .create true), (2, .create true), (2, .read true), (2, .probe), (2, .remove true),
    (2, .recreate true), (1, .write true), (2, .write true)]

/-- **The empty window.** A lock whose pid is not written yet looks stale: it is
reclaimed from a live process, both hold the lock, and the first to drop takes away
the other's file. -/
theorem raced_not_exclusive : ∃ dir, fresh.run raced = some dir ∧
    dir.Holds 1 ∧ dir.Holds 2 ∧
    (∃ dir', dir.step 1 (.drop true) = some dir' ∧ dir.entry = some 1 ∧ dir'.entry = none ∧
      dir.creator 1 = 2) ∧ ¬dir.Exclusive := by
  refine ⟨_, rfl, ⟨rfl, 0, rfl⟩, ⟨rfl, 1, rfl⟩, ⟨_, rfl, rfl, rfl, rfl⟩, fun h => ?_⟩
  have hsame := h.single 1 2 ⟨rfl, 0, rfl⟩ ⟨rfl, 1, rfl⟩
  cases hsame

/-! ## Where a reclaim goes wrong -/

/-- What the pids and files a process acts on have to do with each other. -/
structure Traced (dir : LockDir) : Prop where
  entry : ∀ file, dir.entry = some file → file < dir.nextInode
  file : ∀ p file, (dir.stage p).file? = some file → file < dir.nextInode ∧ dir.creator file = p
  content : ∀ file q, dir.content file = some q → file < dir.nextInode ∧ dir.creator file = q
  reading : ∀ p read q, (dir.stage p).reading? = some (read, some q) →
    ∃ file, read = some file ∧ file < dir.nextInode ∧ dir.creator file = q
  dead : ∀ p read q, dir.stage p = .stale read (some q) → dir.alive q = false

theorem fresh_traced : fresh.Traced := by
  constructor <;> intros <;> simp_all [fresh, Stage.file?, Stage.reading?]

theorem Traced.moved {dir : LockDir} (hdir : dir.Traced) {p : Pid} {stage : Stage}
    {content : Inode → Option Pid} (h : dir.Moved p stage content) :
    Traced ({ dir with content }.goto p stage) := by
  constructor
  case entry => exact hdir.entry
  case file =>
    intro q file hheld
    by_cases hqp : q = p
    · subst hqp
      exact hdir.file q file (h.file file (by simpa [goto] using hheld))
    · exact hdir.file q file (by simpa [goto, hqp] using hheld)
  case content =>
    intro file q hq
    rcases h.content with rfl | ⟨own, hown, rfl⟩
    · exact hdir.content file q hq
    · by_cases hfile : file = own
      · subst hfile
        obtain rfl : p = q := by simpa [goto] using hq
        exact hdir.file p file hown
      · exact hdir.content file q (by simpa [goto, hfile] using hq)
  case reading =>
    intro q read holder hread
    by_cases hqp : q = p
    · subst hqp
      rcases h.reading read (some holder) (by simpa [goto] using hread) with hold | hnone | ⟨rfl, hnow⟩
      · exact hdir.reading q read holder hold
      · cases hnone
      · obtain ⟨file, hentry, hcontent⟩ := Option.bind_eq_some_iff.mp hnow.symm
        exact ⟨file, hentry, hdir.content file holder hcontent⟩
    · exact hdir.reading q read holder (by simpa [goto, hqp] using hread)
  case dead =>
    intro q read holder hstale
    by_cases hqp : q = p
    · subst hqp
      exact h.dead read holder (by simpa [goto] using hstale)
    · exact hdir.dead q read holder (by simpa [goto, hqp] using hstale)

theorem Traced.newFile {dir : LockDir} (hdir : dir.Traced) (p : Pid) : (dir.newFile p).Traced := by
  have hkept : ∀ file q, file < dir.nextInode ∧ dir.creator file = q →
      file < (dir.newFile p).nextInode ∧ (dir.newFile p).creator file = q := by
    rintro file q ⟨hlt, hcreator⟩
    have hne : file ≠ dir.nextInode := Nat.ne_of_lt hlt
    exact ⟨Nat.lt_succ_of_lt hlt, by simpa [LockDir.newFile, hne] using hcreator⟩
  constructor
  case entry =>
    intro file hentry
    obtain rfl := Option.some.inj hentry
    exact Nat.lt_succ_self _
  case file =>
    intro q file hheld
    by_cases hqp : q = p
    · subst hqp
      obtain rfl : dir.nextInode = file := by simpa [LockDir.newFile, goto, Stage.file?] using hheld
      exact ⟨Nat.lt_succ_self _, by simp [LockDir.newFile]⟩
    · exact hkept file q (hdir.file q file (by simpa [LockDir.newFile, goto, hqp] using hheld))
  case content =>
    intro file q hq
    by_cases hfile : file = dir.nextInode
    · simp [LockDir.newFile, hfile] at hq
    · exact hkept file q (hdir.content file q (by simpa [LockDir.newFile, hfile] using hq))
  case reading =>
    intro q read holder hread
    by_cases hqp : q = p
    · subst hqp
      simp [LockDir.newFile, goto, Stage.reading?] at hread
    · obtain ⟨file, hfile, hcreator⟩ :=
        hdir.reading q read holder (by simpa [LockDir.newFile, goto, hqp] using hread)
      exact ⟨file, hfile, hkept file holder hcreator⟩
  case dead =>
    intro q read holder hstale
    by_cases hqp : q = p
    · subst hqp
      simp [LockDir.newFile, goto] at hstale
    · exact hdir.dead q read holder (by simpa [LockDir.newFile, goto, hqp] using hstale)

theorem Traced.step {dir dir' : LockDir} (hdir : dir.Traced) {p : Pid} {move : Move}
    (h : dir.step p move = some dir') : dir'.Traced := by
  obtain ⟨-, ⟨stage, content, hmoved, rfl⟩ | ⟨-, rfl⟩ | ⟨stage, hfile, hreading, -, rfl⟩ | rfl⟩ :=
    step_cases h
  · exact hdir.moved hmoved
  · exact hdir.newFile p
  · have hunlinked : dir.unlink.Traced := by
      refine ⟨?_, hdir.file, hdir.content, hdir.reading, hdir.dead⟩
      intro file hentry
      cases hentry
    exact hunlinked.moved (.quiet hfile hreading)
  · refine ⟨hdir.entry, hdir.file, hdir.content, hdir.reading, ?_⟩
    intro q read holder hstale
    have hdead := hdir.dead q read holder hstale
    by_cases hp : holder = p
    · simp [hp]
    · simp [hp, hdead]

theorem Traced.run {dir dir' : LockDir} (hdir : dir.Traced) {moves : List (Pid × Move)}
    (h : dir.run moves = some dir') : dir'.Traced := by
  induction moves generalizing dir with
  | nil =>
    cases h
    exact hdir
  | cons first rest ih =>
    obtain ⟨p, move⟩ := first
    obtain ⟨next, hstep, hrest⟩ := Option.bind_eq_some_iff.mp h
    exact ih (hdir.step hstep) hrest

/-- Only two windows are left: a reclaim that finds the very file it read, and read a
pid in it, is careful in every interleaving. -/
theorem careful_of_read {moves : List (Pid × Move)} {dir : LockDir} (h : fresh.run moves = some dir)
    {p holder : Pid} (hstage : dir.stage p = .stale dir.entry (some holder)) (ok : Bool) :
    dir.careful (.remove ok) = true := by
  have hdir := fresh_traced.run h
  obtain ⟨file, hentry, -, hcreator⟩ := hdir.reading p dir.entry holder (by rw [hstage]; rfl)
  have hdead := hdir.dead p _ holder hstage
  cases ok with
  | false => rfl
  | true => simp [careful, hentry, hcreator, hdead]

end LockDir

end MarloweAgent.EventLog
