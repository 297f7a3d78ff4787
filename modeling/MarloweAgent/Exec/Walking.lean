import MarloweAgent.Exec.Web
import MarloweAgent.Library.Worklist
import Mathlib.Data.List.Perm.Basic

/-! The walk that searches make under a directory. It says when it stopped at its cap and which
directories it did not enter, but not what it could not look at: a directory that cannot be listed
is passed over, and so is an entry whose metadata cannot be read. -/

namespace MarloweAgent.Exec
open Contract Library Tools Loop

/-! ## What there is to walk -/

/-- How far a walk gets with an entry: its directory may fail to yield it, and reading its metadata may
fail. -/
inductive Reach
  | seen
  | noMetadata
  | notYielded
  deriving DecidableEq, Repr

inductive FileEntry
  | file (name : String) (reach : Reach)
  | link (name : String) (reach : Reach)
  | other (name : String) (reach : Reach)
  | directory (name : String) (reach : Reach) (listable : Bool) (entries : List FileEntry)

namespace FileEntry

def name : FileEntry → String
  | file name _ | link name _ | other name _ | directory name _ _ _ => name

def reach : FileEntry → Reach
  | file _ reach | link _ reach | other _ reach | directory _ reach _ _ => reach

mutual

/-- How many directories there are. -/
def weight : FileEntry → Nat
  | directory _ _ _ entries => weights entries + 1
  | file _ _ | link _ _ | other _ _ => 0

def weights : List FileEntry → Nat
  | [] => 0
  | e :: rest => e.weight + weights rest

end

end FileEntry

/-- A directory on the queue: its path, whether it can be listed, and what is in it. -/
structure Pending where
  path : List String
  listable : Bool
  entries : List FileEntry

def Pending.weight (p : Pending) : Nat := FileEntry.weights p.entries + 1

/-! ## The walk -/

def walkFileCap : Nat := 2000

def walkSkip : List String := [".git", "target", "node_modules", ".venv", "__pycache__", "dist"]

/-- What one walk found, and what it did not. -/
structure Walk where
  files : List (List String)
  seen : Nat
  skipped : List String
  truncated : Bool
  deriving DecidableEq, Repr

/-- An entry as its directory yields it, with its path. -/
def itemOf (dir : List String) (e : FileEntry) : Option (List String × FileEntry) :=
  if e.reach = .notYielded then none else some (dir ++ [e.name], e)

/-- `read_dir`: a directory that cannot be listed has nothing in it. -/
def Pending.items (p : Pending) : List (List String × FileEntry) :=
  if p.listable then p.entries.filterMap (itemOf p.path) else []

/-- The directory that an entry puts on the queue. -/
def leads : List String × FileEntry → Option Pending
  | (path, .directory name .seen listable entries) =>
    if name ∈ walkSkip then none else some { path, listable, entries }
  | _ => none

/-- What an entry adds to what was found. -/
def Walk.meet (keep : List String → Bool) (walk : Walk) : List String × FileEntry → Walk
  | (_, .directory name .seen _ _) =>
    if name ∈ walkSkip ∧ name ∉ walk.skipped then { walk with skipped := walk.skipped ++ [name] } else walk
  | (path, .file _ .seen) =>
    { walk with
      seen := walk.seen + 1
      files := if keep path then walk.files ++ [path] else walk.files }
  | _ => walk

theorem leads_eq_some {path : List String} {e : FileEntry} {child : Pending}
    (h : leads (path, e) = some child) : ∃ name listable entries,
      e = .directory name .seen listable entries ∧ name ∉ walkSkip ∧ child = ⟨path, listable, entries⟩ := by
  unfold leads at h
  split at h
  next heq =>
    cases heq
    split at h
    next => cases h
    next hname =>
      cases h
      exact ⟨_, _, _, rfl, hname, rfl⟩
  next => cases h

/-- What a directory leads to weighs less than it. -/
theorem descending : Descending Pending.items leads Pending.weight := by
  refine ⟨fun p => ?_⟩
  have hentries : ∀ es : List FileEntry,
      (((es.filterMap (itemOf p.path)).filterMap leads).map Pending.weight).sum ≤ FileEntry.weights es := by
    intro es
    induction es with
    | nil => exact Nat.le_refl 0
    | cons e rest ih =>
      rw [FileEntry.weights, List.filterMap_filterMap, List.filterMap_cons]
      rw [List.filterMap_filterMap] at ih
      split
      next => exact Nat.le_add_left_of_le ih
      next child hchild =>
        obtain ⟨⟨path, d⟩, hitem, hlead⟩ := Option.bind_eq_some_iff.mp hchild
        obtain rfl : e = d := by
          unfold itemOf at hitem
          split at hitem
          next => cases hitem
          next => exact (Prod.mk.inj (Option.some.inj hitem)).2
        obtain ⟨name, listable, entries, rfl, -, rfl⟩ := leads_eq_some hlead
        rw [List.map_cons, List.sum_cons]
        exact Nat.add_le_add_left ih _
  unfold Pending.items
  split
  next => exact Nat.lt_succ_of_le (hentries p.entries)
  next => exact Nat.succ_pos _

/-- `collect`: the cap is looked at before each entry. -/
def collect (base : Pending) (cap : Nat) (keep : List String → Bool) : Walk :=
  let found := walk descending (fun walk => decide (cap ≤ walk.files.length))
    (fun walk => { walk with truncated := true }) (Walk.meet keep) [base] ⟨[], 0, [], false⟩
  { found with
    files := found.files.mergeSort (· ≤ ·)
    skipped := found.skipped.mergeSort (· ≤ ·) }

/-- `skipped_notice`. -/
def skippedNotice (skipped : List String) : String :=
  if skipped = [] then ""
  else
    "\n[not searched, because they are build output or version control: " ++ Text.join ", " skipped
      ++ ". Name one as `path` to look inside it.]"

/-! ## What there is to find -/

/-- What keeps a walk from a file: something on the way, or the file itself, cannot be looked at, or a
directory on the way is not entered. -/
inductive Obstacle
  | hidden
  | skipped (name : String)
  deriving DecidableEq, Repr

/-- A regular file under a directory, with the first obstacle on the way to it. -/
structure Found where
  path : List String
  obstacle : Option Obstacle
  deriving DecidableEq, Repr

def Found.behind (obstacle : Option Obstacle) (found : Found) : Found :=
  { found with obstacle := obstacle.or found.obstacle }

/-- Whether what is in a directory is hidden. -/
def unlisted (listable : Bool) : Option Obstacle := if listable then none else some .hidden

/-- The obstacle that an entry is. -/
def FileEntry.obstacle : FileEntry → Option Obstacle
  | directory name .seen listable _ => if name ∈ walkSkip then some (.skipped name) else unlisted listable
  | file _ .seen | link _ .seen | other _ .seen => none
  | _ => some .hidden

mutual

/-- The regular files that an entry is or has under it, and none behind a link. -/
def FileEntry.files (dir : List String) : FileEntry → List Found
  | e@(.file name _) => [⟨dir ++ [name], e.obstacle⟩]
  | e@(.directory name _ _ entries) => (filesIn (dir ++ [name]) entries).map (Found.behind e.obstacle)
  | .link _ _ | .other _ _ => []

def filesIn (dir : List String) : List FileEntry → List Found
  | [] => []
  | e :: rest => e.files dir ++ filesIn dir rest

end

/-- The regular files under a directory. -/
def Pending.files (p : Pending) : List Found :=
  (filesIn p.path p.entries).map (Found.behind (unlisted p.listable))

/-! ## The order of the walk -/

/-- The file that an item adds. -/
def keptPath (keep : List String → Bool) : List String × FileEntry → Option (List String)
  | (path, .file _ .seen) => if keep path then some path else none
  | _ => none

/-- The name that an item is skipped under. -/
def skipName : List String × FileEntry → Option String
  | (_, .directory name .seen _ _) => if name ∈ walkSkip then some name else none
  | _ => none

/-- The files that nothing keeps the walk from, as far as they are asked for. -/
def clear (keep : List String → Bool) (fs : List Found) : List (List String) :=
  (fs.filter fun f => f.obstacle = none ∧ keep f.path).map Found.path

theorem filesIn_eq (dir : List String) (es : List FileEntry) :
    filesIn dir es = es.flatMap (FileEntry.files dir) := by
  induction es with
  | nil => rfl
  | cons e rest ih => rw [filesIn, ih, List.flatMap_cons]

@[simp] theorem behind_none : Found.behind none = id := rfl

theorem clear_append (keep : List String → Bool) (fs gs : List Found) :
    clear keep (fs ++ gs) = clear keep fs ++ clear keep gs := by
  rw [clear, List.filter_append, List.map_append]
  rfl

/-- Behind an obstacle nothing is clear. -/
theorem clear_behind (keep : List String → Bool) (o : Obstacle) (fs : List Found) :
    clear keep (fs.map (Found.behind (some o))) = [] := by
  unfold clear
  rw [List.filter_map, List.filter_eq_nil_iff.mpr fun f _ => by simp [Found.behind]]
  rfl

section
variable {keep : List String → Bool}

/-- What an entry adds itself, and what is clear in the directory that it leads to, are its files. -/
theorem clear_files (dir : List String) (e : FileEntry) :
    (itemOf dir e).toList.filterMap (keptPath keep) ++
      ((itemOf dir e).bind leads).toList.flatMap (fun child => clear keep child.files) =
        clear keep (e.files dir) := by
  cases e with
  | file name reach =>
    cases reach <;> by_cases hkeep : keep (dir ++ [name]) = true <;>
      simp [itemOf, FileEntry.reach, FileEntry.name, keptPath, leads, FileEntry.files,
        FileEntry.obstacle, clear, hkeep]
  | link name reach => cases reach <;> rfl
  | other name reach => cases reach <;> rfl
  | directory name reach listable entries =>
    cases reach with
    | seen =>
      by_cases hname : name ∈ walkSkip
      · simp [itemOf, FileEntry.reach, FileEntry.name, keptPath, leads, FileEntry.files,
          FileEntry.obstacle, hname, clear_behind]
      · simp [itemOf, FileEntry.reach, FileEntry.name, keptPath, leads, FileEntry.files,
          FileEntry.obstacle, hname, Pending.files]
    | noMetadata =>
      simp [itemOf, FileEntry.reach, FileEntry.name, keptPath, leads, FileEntry.files,
        FileEntry.obstacle, clear_behind]
    | notYielded => simp [itemOf, FileEntry.reach, FileEntry.files, FileEntry.obstacle, clear_behind]

theorem clear_flatMap (dir : List String) (es : List FileEntry) :
    clear keep (es.flatMap (FileEntry.files dir)) = es.flatMap fun e => clear keep (e.files dir) := by
  induction es with
  | nil => rfl
  | cons e rest ih => rw [List.flatMap_cons, clear_append, ih, List.flatMap_cons]

/-- Without a cap the walk comes to each clear file, once. -/
theorem order_kept (p : Pending) :
    ((order descending p).filterMap (keptPath keep)).Perm (clear keep p.files) := by
  induction hsize : p.weight using Nat.strongRecOn generalizing p with
  | ind size ih =>
    subst hsize
    obtain ⟨path, listable, entries⟩ := p
    cases listable with
    | false =>
      have hnone : Pending.items ⟨path, false, entries⟩ = [] := rfl
      rw [order_eq, hnone, Pending.files, unlisted, if_neg Bool.false_ne_true, clear_behind]
      exact .nil
    | true =>
      have hitems : Pending.items ⟨path, true, entries⟩ = entries.filterMap (itemOf path) := rfl
      have hfiles : Pending.files ⟨path, true, entries⟩ = entries.flatMap (FileEntry.files path) := by
        rw [Pending.files, unlisted, if_pos rfl, behind_none, List.map_id, filesIn_eq]
      have hbelow : ∀ child ∈ (Pending.items ⟨path, true, entries⟩).filterMap leads,
          ((order descending child).filterMap (keptPath keep)).Perm (clear keep child.files) :=
        fun child hchild => ih _ (descending.lighter_of_mem hchild) child rfl
      have hown : (entries.filterMap (itemOf path)).filterMap (keptPath keep) =
          entries.flatMap fun e => (itemOf path e).toList.filterMap (keptPath keep) := by
        rw [List.filterMap_eq_flatMap_toList (itemOf path), List.filterMap_flatMap]
      have hchildren (f : Pending → List (List String)) :
          ((entries.filterMap (itemOf path)).filterMap leads).flatMap f =
            entries.flatMap fun e => ((itemOf path e).bind leads).toList.flatMap f := by
        rw [List.filterMap_filterMap, List.filterMap_eq_flatMap_toList, List.flatMap_assoc]
      rw [hitems] at hbelow
      rw [order_eq, hitems, List.filterMap_append, List.filterMap_flatMap, hown, hfiles, clear_flatMap]
      have hdeep := (List.reverse_perm ((entries.filterMap (itemOf path)).filterMap leads)).flatMap
        (g := fun child => clear keep child.files) fun child hchild => hbelow child (List.mem_reverse.mp hchild)
      rw [hchildren] at hdeep
      refine (hdeep.append_left _).trans ((List.flatMap_append_perm _ _ _).trans ?_)
      exact .of_eq (List.flatMap_congr fun e _ => clear_files path e)

/-- What is skipped is met under its name. -/
theorem order_skipped {p : Pending} {f : Found} {name : String} (hf : f ∈ p.files)
    (hname : f.obstacle = some (.skipped name)) : ∃ item ∈ order descending p, skipName item = some name := by
  induction hsize : p.weight using Nat.strongRecOn generalizing p f with
  | ind size ih =>
    subst hsize
    obtain ⟨g, hg, rfl⟩ := List.mem_map.mp hf
    cases hlistable : p.listable with
    | false =>
      rw [unlisted, hlistable] at hname
      cases hname
    | true =>
      rw [unlisted, hlistable, if_pos rfl] at hname
      rw [filesIn_eq] at hg
      obtain ⟨e, he, hg⟩ := List.mem_flatMap.mp hg
      have hitem : e.reach = .seen → (p.path ++ [e.name], e) ∈ p.items := fun hseen => by
        rw [Pending.items, if_pos hlistable]
        exact List.mem_filterMap.mpr ⟨e, he, if_neg (by rw [hseen]; decide)⟩
      cases e with
      | file name' reach =>
        rw [FileEntry.files, List.mem_singleton] at hg
        subst hg
        cases reach <;> cases hname
      | link => cases hg
      | other => cases hg
      | directory name' reach listable entries =>
        obtain ⟨d, hd, rfl⟩ := List.mem_map.mp hg
        cases reach with
        | noMetadata => cases hname
        | notYielded => cases hname
        | seen =>
          by_cases hskip : name' ∈ walkSkip
          · refine ⟨_, mem_order_of_mem_items descending (hitem rfl), ?_⟩
            simp only [Found.behind, FileEntry.obstacle, if_pos hskip] at hname
            cases hname
            exact if_pos hskip
          · have hlead : (⟨p.path ++ [name'], listable, entries⟩ : Pending) ∈ p.items.filterMap leads :=
              List.mem_filterMap.mpr ⟨_, hitem rfl, if_neg hskip⟩
            simp only [behind_none, id, FileEntry.obstacle, if_neg hskip] at hname
            obtain ⟨item, hmem, hitem⟩ :=
              ih _ (descending.lighter_of_mem hlead) (List.mem_map_of_mem hd) hname rfl
            exact ⟨item, mem_order_of_leads descending hlead hmem, hitem⟩

end

/-! ## What a walk found -/

section
variable {keep : List String → Bool} {cap : Nat}

theorem meet_files (w : Walk) (item : List String × FileEntry) :
    (w.meet keep item).files = w.files ++ (keptPath keep item).toList := by
  obtain ⟨path, e⟩ := item
  unfold Walk.meet keptPath
  cases e with
  | file name reach => cases reach <;> by_cases hkeep : keep path = true <;> simp [hkeep]
  | link | other => simp
  | directory name reach =>
    cases reach with
    | seen =>
      dsimp only
      split <;> simp
    | noMetadata | notYielded => simp

theorem meet_truncated (w : Walk) (item : List String × FileEntry) :
    (w.meet keep item).truncated = w.truncated := by
  unfold Walk.meet
  split
  · split <;> rfl
  · rfl
  · rfl

theorem meet_skipped (w : Walk) (item : List String × FileEntry) (name : String) :
    name ∈ (w.meet keep item).skipped ↔ name ∈ w.skipped ∨ skipName item = some name := by
  obtain ⟨path, e⟩ := item
  unfold Walk.meet skipName
  cases e with
  | file name' reach => cases reach <;> simp
  | link | other => simp
  | directory name' reach =>
    cases reach with
    | noMetadata | notYielded => simp
    | seen =>
      dsimp only
      by_cases hskip : name' ∈ walkSkip
      · by_cases hmet : name' ∈ w.skipped
        · simp only [hskip, hmet, not_true_eq_false, and_false, if_false, if_true, Option.some.injEq]
          exact ⟨.inl, fun h => h.elim id fun heq => heq ▸ hmet⟩
        · simp [hskip, hmet, eq_comm]
      · simp [hskip]

theorem foldl_meet_files (w : Walk) (items : List (List String × FileEntry)) :
    (items.foldl (Walk.meet keep) w).files = w.files ++ items.filterMap (keptPath keep) := by
  induction items generalizing w with
  | nil => rw [List.foldl_nil, List.filterMap_nil, List.append_nil]
  | cons item rest ih =>
    rw [List.foldl_cons, ih, meet_files, List.append_assoc]
    cases h : keptPath keep item <;> simp [h]

theorem foldl_meet_truncated (w : Walk) (items : List (List String × FileEntry)) :
    (items.foldl (Walk.meet keep) w).truncated = w.truncated := by
  induction items generalizing w with
  | nil => rfl
  | cons item rest ih => rw [List.foldl_cons, ih, meet_truncated]

theorem foldl_meet_skipped (w : Walk) (items : List (List String × FileEntry)) (name : String) :
    name ∈ (items.foldl (Walk.meet keep) w).skipped ↔
      name ∈ w.skipped ∨ ∃ item ∈ items, skipName item = some name := by
  induction items generalizing w with
  | nil => simp
  | cons item rest ih =>
    rw [List.foldl_cons, ih, meet_skipped, or_assoc]
    simp

/-- The walk comes to an entry with as many files as its cap allows. -/
def CapReached (base : Pending) (cap : Nat) (keep : List String → Bool) : Prop :=
  ∃ before item after, order descending base = before ++ item :: after ∧
    cap ≤ (before.filterMap (keptPath keep)).length

/-- A walk that does not reach its cap finds what is clear and names what it skips; one that does says so. -/
theorem collect_cases (base : Pending) (cap : Nat) (keep : List String → Bool) :
    (¬ CapReached base cap keep ∧ (collect base cap keep).truncated = false ∧
      (collect base cap keep).files.Perm (clear keep base.files) ∧
      ∀ item ∈ order descending base, ∀ name, skipName item = some name →
        name ∈ (collect base cap keep).skipped) ∨
    CapReached base cap keep ∧ (collect base cap keep).truncated = true := by
  have hwalk := walk_eq_scan descending (fun walk => decide (cap ≤ walk.files.length))
    (fun walk => { walk with truncated := true }) (Walk.meet keep) [base] ⟨[], 0, [], false⟩
  rw [List.flatMap_singleton] at hwalk
  rcases scan_cases (fun walk => decide (cap ≤ walk.files.length))
    (fun walk => { walk with truncated := true }) (Walk.meet keep) ⟨[], 0, [], false⟩
    (order descending base) with ⟨hall, hnever⟩ | ⟨before, item, after, hsplit, -, hfull, hstop⟩
  · refine .inl ⟨?_, ?_, ?_, ?_⟩
    · rintro ⟨before, item, after, hsplit, hcap⟩
      have hroom := hnever before item after hsplit
      dsimp only at hroom
      rw [foldl_meet_files, List.nil_append, decide_eq_false_iff_not] at hroom
      exact hroom hcap
    · rw [collect, hwalk, hall]
      exact foldl_meet_truncated _ _
    · rw [collect, hwalk, hall]
      refine (List.mergeSort_perm _ _).trans ?_
      rw [foldl_meet_files, List.nil_append]
      exact order_kept base
    · intro item hitem name hname
      rw [collect, hwalk, hall]
      exact List.mem_mergeSort.mpr ((foldl_meet_skipped _ _ name).mpr (.inr ⟨item, hitem, hname⟩))
  · refine .inr ⟨⟨before, item, after, hsplit, ?_⟩, ?_⟩
    · rw [foldl_meet_files, List.nil_append, decide_eq_true_iff] at hfull
      exact hfull
    · rw [collect, hwalk, hstop]

end

/-! ## What a walk says -/

/-- No directory on the way to a file is one that a walk skips. -/
def Found.entered (found : Found) : Bool :=
  match found.obstacle with
  | some (.skipped _) => false
  | _ => true

/-- A walk that does not say it stopped has found each file that is asked for and not in a skipped
directory, once; and where a file that is asked for is in a skipped directory, it names that. -/
def Accounts (base : Pending) (keep : List String → Bool) (walk : Walk) : Prop :=
  walk.truncated = false →
    walk.files.Perm ((base.files.filter fun f => f.entered ∧ keep f.path).map Found.path) ∧
      ∀ f ∈ base.files, keep f.path = true → ∀ name, f.obstacle = some (.skipped name) → name ∈ walk.skipped

/-- Nothing that is asked for is in a directory that cannot be listed, or cannot be looked at itself. -/
def Legible (base : Pending) (keep : List String → Bool) : Prop :=
  ∀ f ∈ base.files, keep f.path = true → f.obstacle ≠ some .hidden

/-- As many clear files as files that are not skipped: none of those is hidden. -/
theorem legible_of_length {base : Pending} {keep : List String → Bool}
    (h : (clear keep base.files).length =
      ((base.files.filter fun f => f.entered ∧ keep f.path).map Found.path).length) :
    Legible base keep := by
  intro f hf hkeep hhidden
  rw [clear, List.length_map, List.length_map] at h
  have hclear : (base.files.filter fun f => f.entered ∧ keep f.path).filter
      (fun f => f.obstacle = none ∧ keep f.path) =
      base.files.filter fun f => f.obstacle = none ∧ keep f.path := by
    rw [List.filter_filter]
    refine List.filter_congr fun g _ => ?_
    cases hg : g.obstacle <;> simp [Found.entered, hg]
  rw [← hclear, List.length_filter_eq_length_iff] at h
  have hnone := h f (List.mem_filter.mpr ⟨hf, by simp [Found.entered, hhidden, hkeep]⟩)
  simp [hhidden] at hnone

/-- What a walk does not say is what it could not look at: it says all that it missed just where its cap
is reached or nothing that is asked for is hidden. -/
theorem accounts_iff {base : Pending} {cap : Nat} {keep : List String → Bool} :
    Accounts base keep (collect base cap keep) ↔ CapReached base cap keep ∨ Legible base keep := by
  rcases collect_cases base cap keep with ⟨hbelow, htruncated, hfound, hskipped⟩ | ⟨hreached, htruncated⟩
  · constructor
    · intro haccounts
      have hall := (haccounts htruncated).1
      exact .inr (legible_of_length (hfound.symm.trans hall).length_eq)
    · rintro (hreached | hlegible)
      · exact absurd hreached hbelow
      · refine fun _ => ⟨?_, fun f hf _ name hname => ?_⟩
        · have hsame : clear keep base.files =
              (base.files.filter fun f => f.entered ∧ keep f.path).map Found.path := by
            refine congrArg _ (List.filter_congr fun f hf => ?_)
            by_cases hkeep : keep f.path = true
            · have hhidden := hlegible f hf hkeep
              cases hobstacle : f.obstacle with
              | none => simp [Found.entered, hobstacle]
              | some o =>
                cases o with
                | hidden => exact absurd hobstacle hhidden
                | skipped => simp [Found.entered, hobstacle]
            · simp [hkeep]
          exact hsame ▸ hfound
        · obtain ⟨item, hitem, hskip⟩ := order_skipped hf hname
          exact hskipped item hitem name hskip
  · exact ⟨fun _ => .inl hreached, fun _ hfalse => by rw [htruncated] at hfalse; cases hfalse⟩

/-- What is in a directory that cannot be listed is missed, and nothing says so. -/
theorem unlisted_missed : ¬ ∀ base cap keep, Accounts base keep (collect base cap keep) := by
  intro h
  have hdirectory := h ⟨["w"], true, [.directory "a" .seen false [.file "f" .seen]]⟩ walkFileCap (fun _ => true)
    (by decide +kernel)
  exact absurd hdirectory.1.length_eq (by decide +kernel)

end MarloweAgent.Exec
