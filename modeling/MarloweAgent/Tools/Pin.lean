import MarloweAgent.Tools.Manifest

/-! Tool descriptions and their pins. A description is what the user can read of what
a server says a tool does; a pin is the hash of one, and a connect compares what it
was told with what is pinned. The hash is a parameter. -/

namespace MarloweAgent.Tools
open Contract Library

def maxDescriptionChars : Nat := 1200

/-- A tool's prose: sanitised, trimmed and bounded. -/
structure Description where
  text : String
  bounded : text.toList.length ≤ maxDescriptionChars

namespace Description

/-- `Description::new`. -/
def new (raw : String) : Description :=
  let cleaned := Text.trim (Text.sanitizeProse raw)
  ⟨String.ofList (cleaned.toList.take maxDescriptionChars), by simp⟩

@[ext] theorem ext {a b : Description} (h : a.text = b.text) : a = b := by
  cases a
  cases b
  cases h
  rfl

instance : DecidableEq Description := fun a b =>
  decidable_of_iff (a.text = b.text) ⟨Description.ext, congrArg Description.text⟩

end Description

structure DescriptionPin where
  text : String
  deriving DecidableEq, Repr

def DescriptionPin.of (hash : String → String) (description : Description) : DescriptionPin :=
  ⟨hash description.text⟩

/-- What a connect found, the more serious of its findings only. -/
inductive PinVerdict
  | unchanged
  | changed (tools : List ToolId)
  | new (tools : List ToolId)
  deriving DecidableEq, Repr

/-- The descriptions on file, by tool. -/
structure PinnedDescriptions where
  tools : OrderedMap String DescriptionPin

namespace PinnedDescriptions

def new : PinnedDescriptions := ⟨OrderedMap.empty⟩

variable (hash : String → String)

def pin (pins : PinnedDescriptions) (tool : ToolId) (description : Description) :
    PinnedDescriptions :=
  ⟨pins.tools.insert tool.text (DescriptionPin.of hash description)⟩

/-- Pin every description of a list, in turn. -/
def pinAll (pins : PinnedDescriptions) (current : List (ToolId × Description)) :
    PinnedDescriptions :=
  current.foldl (fun pins (tool, description) => pins.pin hash tool description) pins

/-- The tools of a list whose description is not the pinned one. -/
def changedIn (pins : PinnedDescriptions) (current : List (ToolId × Description)) : List ToolId :=
  (current.filter fun (tool, description) =>
    match pins.tools.get? tool.text with
    | some pinned => pinned ≠ DescriptionPin.of hash description
    | none => false).map Prod.fst

/-- The tools of a list that are not pinned. -/
def newIn (pins : PinnedDescriptions) (current : List (ToolId × Description)) : List ToolId :=
  (current.filter fun (tool, _) => (pins.tools.get? tool.text).isNone).map Prod.fst

/-- `verdict`: a changed description outranks a new tool. -/
def verdict (pins : PinnedDescriptions) (current : List (ToolId × Description)) : PinVerdict :=
  if pins.changedIn hash current ≠ [] then .changed (pins.changedIn hash current)
  else if pins.newIn current ≠ [] then .new (pins.newIn current)
  else .unchanged

variable {hash} {pins : PinnedDescriptions} {current : List (ToolId × Description)}
  {tool : ToolId} {description : Description}

theorem mem_newIn (hmem : (tool, description) ∈ current) (h : pins.tools.get? tool.text = none) :
    tool ∈ pins.newIn current := by
  refine List.mem_map.mpr ⟨(tool, description), List.mem_filter.mpr ⟨hmem, ?_⟩, rfl⟩
  simp [h]

theorem mem_changedIn {pinned : DescriptionPin} (hmem : (tool, description) ∈ current)
    (h : pins.tools.get? tool.text = some pinned) (hne : pinned ≠ .of hash description) :
    tool ∈ pins.changedIn hash current := by
  refine List.mem_map.mpr ⟨(tool, description), List.mem_filter.mpr ⟨hmem, ?_⟩, rfl⟩
  simp [h, hne]

/-- What is pinned for a tool after a list is: what was, or one of the list's descriptions of it. -/
theorem pinAll_cases (pins : PinnedDescriptions) (name : String) :
    (pins.pinAll hash current).tools.get? name = pins.tools.get? name ∨
      ∃ tool description, (tool, description) ∈ current ∧ tool.text = name ∧
        (pins.pinAll hash current).tools.get? name = some (.of hash description) := by
  induction current generalizing pins with
  | nil => exact .inl rfl
  | cons entry rest ih =>
    obtain ⟨tool, description⟩ := entry
    rcases ih (pins.pin hash tool description) with heq | ⟨tool', description', hmem, hname, heq⟩
    · have hpin : (pins.pin hash tool description).tools.get? name = _ :=
        OrderedMap.get?_insert pins.tools tool.text name (.of hash description)
      by_cases hname : tool.text = name
      · rw [if_pos hname] at hpin
        exact .inr ⟨tool, description, List.mem_cons_self, hname, heq.trans hpin⟩
      · rw [if_neg hname] at hpin
        exact .inl (heq.trans hpin)
    · exact .inr ⟨tool', description', List.mem_cons_of_mem _ hmem, hname, heq⟩

variable (hash pins current) in
/-- With a description changed, the verdict names the tools that changed; with none
changed and one new, the new ones. -/
theorem verdict_cases :
    (pins.changedIn hash current ≠ [] ∧
        pins.verdict hash current = .changed (pins.changedIn hash current)) ∨
      (pins.changedIn hash current = [] ∧ pins.newIn current ≠ [] ∧
        pins.verdict hash current = .new (pins.newIn current)) ∨
      (pins.changedIn hash current = [] ∧ pins.newIn current = [] ∧
        pins.verdict hash current = .unchanged) := by
  by_cases hchanged : pins.changedIn hash current = []
  · by_cases hnew : pins.newIn current = []
    · exact .inr (.inr ⟨hchanged, hnew, by simp [verdict, hchanged, hnew]⟩)
    · exact .inr (.inl ⟨hchanged, hnew, by simp [verdict, hchanged, hnew]⟩)
  · exact .inl ⟨hchanged, if_pos hchanged⟩

end PinnedDescriptions

end MarloweAgent.Tools
