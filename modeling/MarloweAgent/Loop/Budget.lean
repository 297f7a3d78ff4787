import MarloweAgent.Loop.Profile

/-! Budgets, what remains of one, and the two slices a parent can cut from its
own: a grant to a spawned child and the slice a quarantined read runs on.
Counters saturate at their machine width. -/

namespace MarloweAgent.Loop

def u16Max : Nat := 2 ^ 16 - 1
def u32Max : Nat := 2 ^ 32 - 1
def u64Max : Nat := 2 ^ 64 - 1

/-- `saturating_add` at a width. -/
def satAdd (max a b : Nat) : Nat := min (a + b) max

/-- `saturating_mul` at a width. -/
def satMul (max a b : Nat) : Nat := min (a * b) max

theorem satAdd_le {max a b : Nat} : satAdd max a b ≤ a + b := Nat.min_le_left _ _

structure Budget where
  tokens : Nat := 0
  wallMs : Nat := 0
  toolCalls : Nat := 0
  subagents : Nat := 0
  depth : Nat := 0
  microsUsd : Nat := 0
  deriving DecidableEq, Repr

def minCallTokens : Nat := 512
def measuredChildFirstCallTokens : Nat := 3089
def minChildTokens : Nat := measuredChildFirstCallTokens + minCallTokens

structure CallLimits where
  maxOutputTokens : Nat
  route : ModelRoute
  deriving DecidableEq, Repr

/-- `BudgetShare`: an eighth, three or five of the original. -/
inductive BudgetShare
  | small
  | standard
  | large
  deriving DecidableEq, Repr

namespace BudgetShare

def numerator : BudgetShare → Nat
  | small => 1
  | standard => 3
  | large => 5

def applyU64 (share : BudgetShare) (v : Nat) : Nat := satMul u64Max v share.numerator / 8

def applyU32 (share : BudgetShare) (v : Nat) : Nat := (satMul u64Max v share.numerator / 8) % 2 ^ 32

end BudgetShare

inductive GrantRefused
  | noDepth
  | poolEmpty (dimension : String)
  | moreThanRemains (want left : Nat)
  | belowFloor (want min : Nat)
  | poolTooSmall (left min : Nat)
  deriving DecidableEq, Repr

def GrantRefused.render : GrantRefused → String
  | noDepth =>
    "this run is at the bottom of its declared depth and cannot spawn. A master allocates" ++
    "\x20         depth it was given; it cannot conjure more"
  | poolEmpty dimension => s!"the {dimension} pool is empty; there is nothing left to grant"
  | moreThanRemains want left =>
    s!"a grant of {want} tokens was asked for and {left} remain. A grant is deducted from the" ++
    "\x20         parent's pool, so it cannot exceed it"
  | belowFloor want min =>
    s!"a grant of {want} tokens was asked for and a child needs at least {min}: its first model" ++
    "\x20         call spends its whole brief before it emits a word, so a child granted less pauses" ++
    s!"\x20         before it speaks and returns nothing. Ask for {min} or more, or omit `budget_tokens`" ++
    "\x20         and take the share sized for the job"
  | poolTooSmall left min =>
    s!"{left} tokens remain and a child needs at least {min} to make one model call, so nothing" ++
    "\x20         can usefully be delegated from here. Do the work in this run"

/-- `at_least_one`: a slice of something left is never nothing. -/
def atLeastOne (sliced remaining : Nat) : Nat := if remaining = 0 then 0 else max sliced 1

theorem atLeastOne_le {sliced remaining : Nat} (h : sliced ≤ remaining) :
    atLeastOne sliced remaining ≤ remaining := by
  unfold atLeastOne
  split <;> omega

namespace Budget

/-- The first dimension that is spent up. -/
def exhausted (budget spent : Budget) : Option String :=
  if budget.tokens ≤ spent.tokens then some "tokens"
  else if budget.wallMs ≤ spent.wallMs then some "wall_ms"
  else if budget.toolCalls ≤ spent.toolCalls then some "tool_calls"
  else if budget.subagents ≤ spent.subagents then some "subagents"
  else if budget.microsUsd ≤ spent.microsUsd then some "micros_usd"
  else none

def remaining (budget spent : Budget) : Budget :=
  { tokens := budget.tokens - spent.tokens
    wallMs := budget.wallMs - spent.wallMs
    toolCalls := budget.toolCalls - spent.toolCalls
    subagents := budget.subagents - spent.subagents
    depth := budget.depth
    microsUsd := budget.microsUsd - spent.microsUsd }

def callLimits (budget spent : Budget) (route : ModelRoute) : CallLimits :=
  { maxOutputTokens := (budget.remaining spent).tokens, route }

def hasRoomForACall (budget spent : Budget) : Bool :=
  minCallTokens ≤ (budget.remaining spent).tokens

/-- Charge `other`; the depth is a level, not an amount. -/
def add (spent other : Budget) : Budget :=
  { spent with
    tokens := satAdd u64Max spent.tokens other.tokens
    wallMs := satAdd u64Max spent.wallMs other.wallMs
    toolCalls := satAdd u32Max spent.toolCalls other.toolCalls
    subagents := satAdd u16Max spent.subagents other.subagents
    microsUsd := satAdd u64Max spent.microsUsd other.microsUsd }

/-- What a child is granted, or why not. -/
def grant (budget spent : Budget) (share : BudgetShare) (explicit : Option Nat) :
    Except GrantRefused Budget :=
  let left := budget.remaining spent
  if budget.depth = 0 then .error .noDepth
  else if left.tokens = 0 then .error (.poolEmpty "tokens")
  else if explicit.any (left.tokens < ·) then
    .error (.moreThanRemains (explicit.getD 0) left.tokens)
  else if left.tokens < minChildTokens then .error (.poolTooSmall left.tokens minChildTokens)
  else if explicit.any (· < minChildTokens) then
    .error (.belowFloor (explicit.getD 0) minChildTokens)
  else
    let tokens := max (min (explicit.getD (share.applyU64 budget.tokens)) left.tokens) minChildTokens
    .ok
      { tokens := atLeastOne tokens left.tokens
        wallMs := atLeastOne (min (share.applyU64 budget.wallMs) left.wallMs) left.wallMs
        toolCalls := atLeastOne (min (share.applyU32 budget.toolCalls) left.toolCalls) left.toolCalls
        subagents := atLeastOne (left.subagents - 1) left.subagents
        depth := budget.depth - 1
        microsUsd := atLeastOne (min (share.applyU64 budget.microsUsd) left.microsUsd) left.microsUsd }

def quarantinedReadNumerator : Nat := 2
def quarantinedReadDenominator : Nat := 8

/-- The share a quarantined read takes of one dimension. -/
def readShare (original remaining : Nat) : Nat :=
  min (satMul u64Max original quarantinedReadNumerator / quarantinedReadDenominator) remaining

/-- The budget of a quarantined read, when enough is left for one. -/
def sliceForQuarantinedRead (budget spent : Budget) : Option Budget :=
  let left := budget.remaining spent
  if left.tokens = 0 ∨ left.wallMs = 0 then none
  else if left.tokens < minChildTokens then none
  else
    some
      { tokens := max (atLeastOne (readShare budget.tokens left.tokens) left.tokens) minChildTokens
        wallMs := atLeastOne (readShare budget.wallMs left.wallMs) left.wallMs
        toolCalls := 1
        subagents := 1
        depth := 0
        microsUsd := atLeastOne (readShare budget.microsUsd left.microsUsd) left.microsUsd }

/-! ## What a slice is worth -/

/-- At most what is left, in every amount. -/
structure FitsIn (slice left : Budget) : Prop where
  tokens : slice.tokens ≤ left.tokens
  wallMs : slice.wallMs ≤ left.wallMs
  toolCalls : slice.toolCalls ≤ left.toolCalls
  subagents : slice.subagents ≤ left.subagents
  microsUsd : slice.microsUsd ≤ left.microsUsd

theorem grant_fits {budget spent child : Budget} {share : BudgetShare} {explicit : Option Nat}
    (h : budget.grant spent share explicit = .ok child) :
    child.FitsIn (budget.remaining spent) ∧ child.depth < budget.depth := by
  unfold grant at h
  dsimp only at h
  split at h
  · cases h
  · rename_i hdepth
    repeat' split at h
    all_goals cases h
    rename_i hsmall _
    refine ⟨⟨?_, ?_, ?_, ?_, ?_⟩, by dsimp only; omega⟩
    · exact atLeastOne_le (by omega)
    · exact atLeastOne_le (Nat.min_le_right _ _)
    · exact atLeastOne_le (Nat.min_le_right _ _)
    · exact atLeastOne_le (Nat.sub_le _ _)
    · exact atLeastOne_le (Nat.min_le_right _ _)

/-- A quarantined read gets what is left in tokens, time and money, and one of
the two counters whatever is left of them. -/
theorem slice_spec {budget spent child : Budget}
    (h : budget.sliceForQuarantinedRead spent = some child) :
    child.tokens ≤ (budget.remaining spent).tokens ∧
      child.wallMs ≤ (budget.remaining spent).wallMs ∧
      child.microsUsd ≤ (budget.remaining spent).microsUsd ∧
      child.toolCalls = 1 ∧ child.subagents = 1 ∧ child.depth = 0 := by
  unfold sliceForQuarantinedRead at h
  dsimp only at h
  repeat' split at h
  all_goals cases h
  rename_i hsmall
  refine ⟨?_, ?_, ?_, rfl, rfl, rfl⟩
  · have := @atLeastOne_le (readShare budget.tokens (budget.remaining spent).tokens) _
      (Nat.min_le_right _ _)
    dsimp only
    omega
  · exact atLeastOne_le (Nat.min_le_right _ _)
  · exact atLeastOne_le (Nat.min_le_right _ _)

/-- Within its line in every counted dimension. -/
structure Within (spent budget : Budget) : Prop where
  tokens : spent.tokens ≤ budget.tokens
  toolCalls : spent.toolCalls ≤ budget.toolCalls
  subagents : spent.subagents ≤ budget.subagents

/-- Exactly the amounts that fit in what is left keep a saturating count within its
line, unless the line is at the counter's own maximum. -/
theorem satAdd_le_iff {max spent amount line : Nat} (h : spent ≤ line) :
    satAdd max spent amount ≤ line ↔ max ≤ line ∨ amount ≤ line - spent := by
  unfold satAdd
  omega

/-- A charge that fits keeps the line. -/
theorem Within.add {spent budget other : Budget} (h : spent.Within budget)
    (htokens : u64Max ≤ budget.tokens ∨ other.tokens ≤ (budget.remaining spent).tokens)
    (hcalls : u32Max ≤ budget.toolCalls ∨ other.toolCalls ≤ (budget.remaining spent).toolCalls)
    (hagents : u16Max ≤ budget.subagents ∨ other.subagents ≤ (budget.remaining spent).subagents) :
    (spent.add other).Within budget :=
  ⟨(satAdd_le_iff h.tokens).mpr htokens, (satAdd_le_iff h.toolCalls).mpr hcalls,
    (satAdd_le_iff h.subagents).mpr hagents⟩

end Budget

end MarloweAgent.Loop
