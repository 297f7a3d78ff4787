import MarloweAgent.Loop.Budget

/-! What a grant is worth to the child that gets it. The operators that can fail at their
width are written out, and never do. -/

namespace MarloweAgent.Loop

def u8Max : Nat := 2 ^ 8 - 1

/-! ## Operators that can fail -/

def checkedSub (a b : Nat) : Option Nat := if b ≤ a then some (a - b) else none

def checkedDiv (a b : Nat) : Option Nat := if b = 0 then none else some (a / b)

/-- `as u32`, where it loses nothing. -/
def castU32 (a : Nat) : Option Nat := if a ≤ u32Max then some a else none

namespace BudgetShare

def checkedU64 (share : BudgetShare) (v : Nat) : Option Nat :=
  checkedDiv (satMul u64Max v share.numerator) 8

def checkedU32 (share : BudgetShare) (v : Nat) : Option Nat := (share.checkedU64 v).bind castU32

theorem numerator_le (share : BudgetShare) : share.numerator ≤ 8 := by
  cases share <;> decide

theorem checkedU64_eq (share : BudgetShare) (v : Nat) :
    share.checkedU64 v = some (share.applyU64 v) := rfl

/-- A share is no more than what it is of. -/
theorem applyU64_le (share : BudgetShare) (v : Nat) : share.applyU64 v ≤ v := by
  have hmul : satMul u64Max v share.numerator ≤ v * 8 :=
    (Nat.min_le_left _ _).trans (Nat.mul_le_mul_left v share.numerator_le)
  exact Nat.div_le_of_le_mul (hmul.trans_eq (Nat.mul_comm v 8))

theorem checkedU32_eq (share : BudgetShare) {v : Nat} (h : v ≤ u32Max) :
    share.checkedU32 v = some (share.applyU32 v) := by
  have hle : share.applyU64 v ≤ u32Max := (share.applyU64_le v).trans h
  have hlt : share.applyU64 v < 2 ^ 32 := Nat.lt_of_le_pred (by decide) hle
  rw [checkedU32, checkedU64_eq, Option.bind_some, castU32, if_pos hle]
  exact congrArg some (Nat.mod_eq_of_lt hlt).symm

end BudgetShare

namespace Budget

/-- Every amount fits its counter. -/
structure InRange (b : Budget) : Prop where
  tokens : b.tokens ≤ u64Max
  wallMs : b.wallMs ≤ u64Max
  toolCalls : b.toolCalls ≤ u32Max
  subagents : b.subagents ≤ u16Max
  depth : b.depth ≤ u8Max
  microsUsd : b.microsUsd ≤ u64Max

/-- `grant`, where an operator that fails is nothing at all. -/
def checkedGrant (budget spent : Budget) (share : BudgetShare) (explicit : Option Nat) :
    Option (Except GrantRefused Budget) :=
  let left := budget.remaining spent
  if budget.depth = 0 then some (.error .noDepth)
  else if left.tokens = 0 then some (.error (.poolEmpty "tokens"))
  else if explicit.any (left.tokens < ·) then
    some (.error (.moreThanRemains (explicit.getD 0) left.tokens))
  else if left.tokens < minChildTokens then some (.error (.poolTooSmall left.tokens minChildTokens))
  else if explicit.any (· < minChildTokens) then
    some (.error (.belowFloor (explicit.getD 0) minChildTokens))
  else do
    let asked ← match explicit with
      | some want => some want
      | none => share.checkedU64 budget.tokens
    let wallMs ← share.checkedU64 budget.wallMs
    let toolCalls ← share.checkedU32 budget.toolCalls
    let depth ← checkedSub budget.depth 1
    let microsUsd ← share.checkedU64 budget.microsUsd
    some (.ok
      { tokens := atLeastOne (max (min asked left.tokens) minChildTokens) left.tokens
        wallMs := atLeastOne (min wallMs left.wallMs) left.wallMs
        toolCalls := atLeastOne (min toolCalls left.toolCalls) left.toolCalls
        subagents := atLeastOne (left.subagents - 1) left.subagents
        depth
        microsUsd := atLeastOne (min microsUsd left.microsUsd) left.microsUsd })

theorem checkedGrant_eq {budget : Budget} (h : budget.InRange) (spent : Budget)
    (share : BudgetShare) (explicit : Option Nat) :
    budget.checkedGrant spent share explicit = some (budget.grant spent share explicit) := by
  unfold checkedGrant grant
  dsimp only
  split_ifs with hdepth
  all_goals try rfl
  have hsub : checkedSub budget.depth 1 = some (budget.depth - 1) := if_pos (by omega)
  rw [BudgetShare.checkedU64_eq, BudgetShare.checkedU64_eq, BudgetShare.checkedU64_eq,
    BudgetShare.checkedU32_eq share h.toolCalls, hsub]
  cases explicit <;> rfl

/-! ## What is granted -/

/-- Something of every amount that is left. -/
structure Covers (left child : Budget) : Prop where
  tokens : 0 < left.tokens → 1 ≤ child.tokens
  wallMs : 0 < left.wallMs → 1 ≤ child.wallMs
  toolCalls : 0 < left.toolCalls → 1 ≤ child.toolCalls
  subagents : 0 < left.subagents → 1 ≤ child.subagents
  microsUsd : 0 < left.microsUsd → 1 ≤ child.microsUsd

/-- What a child is granted. -/
structure Granted (budget spent : Budget) (explicit : Option Nat) (child : Budget) : Prop where
  inRange : child.InRange
  fits : child.FitsIn (budget.remaining spent)
  covers : (budget.remaining spent).Covers child
  depth : child.depth + 1 = budget.depth
  floor : minChildTokens ≤ child.tokens
  honoured : ∀ want, explicit = some want → child.tokens = want
  room : child.hasRoomForACall {} = true
  alive : budget.exhausted spent = none → child.exhausted {} = none

/-- Why nothing is granted. -/
def Lacking (budget spent : Budget) (explicit : Option Nat) : Prop :=
  budget.depth = 0 ∨ (budget.remaining spent).tokens = 0 ∨
    (budget.remaining spent).tokens < minChildTokens ∨
    ∃ want, explicit = some want ∧ ((budget.remaining spent).tokens < want ∨ want < minChildTokens)

theorem one_le_atLeastOne {sliced remaining : Nat} (h : 0 < remaining) :
    1 ≤ atLeastOne sliced remaining := by
  unfold atLeastOne
  split <;> omega

/-- Nothing is spent up exactly if something of every amount is left. -/
theorem exhausted_eq_none_iff {budget spent : Budget} :
    budget.exhausted spent = none ↔
      spent.tokens < budget.tokens ∧ spent.wallMs < budget.wallMs ∧
        spent.toolCalls < budget.toolCalls ∧ spent.subagents < budget.subagents ∧
        spent.microsUsd < budget.microsUsd := by
  unfold exhausted
  split_ifs
  all_goals simp
  all_goals omega

theorem Covers.alive {budget spent child : Budget} (h : (budget.remaining spent).Covers child)
    (hleft : budget.exhausted spent = none) : child.exhausted {} = none := by
  obtain ⟨htokens, hwall, hcalls, hagents, hmicros⟩ := exhausted_eq_none_iff.mp hleft
  exact exhausted_eq_none_iff.mpr
    ⟨h.tokens (Nat.sub_pos_of_lt htokens), h.wallMs (Nat.sub_pos_of_lt hwall),
      h.toolCalls (Nat.sub_pos_of_lt hcalls), h.subagents (Nat.sub_pos_of_lt hagents),
      h.microsUsd (Nat.sub_pos_of_lt hmicros)⟩

theorem FitsIn.inRange {budget spent child : Budget} (h : child.FitsIn (budget.remaining spent))
    (hdepth : child.depth ≤ budget.depth) (hbudget : budget.InRange) : child.InRange where
  tokens := h.tokens.trans ((Nat.sub_le _ _).trans hbudget.tokens)
  wallMs := h.wallMs.trans ((Nat.sub_le _ _).trans hbudget.wallMs)
  toolCalls := h.toolCalls.trans ((Nat.sub_le _ _).trans hbudget.toolCalls)
  subagents := h.subagents.trans ((Nat.sub_le _ _).trans hbudget.subagents)
  depth := hdepth.trans hbudget.depth
  microsUsd := h.microsUsd.trans ((Nat.sub_le _ _).trans hbudget.microsUsd)

section Grant

variable {budget spent : Budget} {share : BudgetShare} {explicit : Option Nat}

theorem any_iff {p : Nat → Bool} :
    explicit.any p = true ↔ ∃ want, explicit = some want ∧ p want = true := by
  cases explicit <;> simp

theorem grant_refused (h : budget.Lacking spent explicit) :
    ∃ refused, budget.grant spent share explicit = .error refused := by
  unfold grant
  dsimp only
  split_ifs with hdepth htokens hmore hsmall hfloor
  · exact ⟨_, rfl⟩
  · exact ⟨_, rfl⟩
  · exact ⟨_, rfl⟩
  · exact ⟨_, rfl⟩
  · exact ⟨_, rfl⟩
  · rcases h with h | h | h | ⟨want, hsome, h | h⟩
    · exact absurd h hdepth
    · exact absurd h htokens
    · exact absurd h hsmall
    · exact absurd (any_iff.mpr ⟨want, hsome, decide_eq_true h⟩) hmore
    · exact absurd (any_iff.mpr ⟨want, hsome, decide_eq_true h⟩) hfloor

theorem grant_refused_iff :
    (∃ refused, budget.grant spent share explicit = .error refused) ↔
      budget.Lacking spent explicit := by
  refine ⟨fun ⟨refused, h⟩ => ?_, grant_refused⟩
  unfold grant at h
  dsimp only at h
  split_ifs at h with hdepth htokens hmore hsmall hfloor
  · exact .inl hdepth
  · exact .inr (.inl htokens)
  · obtain ⟨want, hsome, hwant⟩ := any_iff.mp hmore
    exact .inr (.inr (.inr ⟨want, hsome, .inl (of_decide_eq_true hwant)⟩))
  · exact .inr (.inr (.inl hsmall))
  · obtain ⟨want, hsome, hwant⟩ := any_iff.mp hfloor
    exact .inr (.inr (.inr ⟨want, hsome, .inr (of_decide_eq_true hwant)⟩))

/-- The tokens of a grant: what was asked for, or the share raised to the floor. -/
theorem grant_tokens {child : Budget} (h : budget.grant spent share explicit = .ok child) :
    minChildTokens ≤ child.tokens ∧ ∀ want, explicit = some want → child.tokens = want := by
  have hlacking : ¬ budget.Lacking spent explicit := fun hlacking => by
    obtain ⟨refused, herror⟩ : ∃ refused, budget.grant spent share explicit = .error refused :=
      grant_refused hlacking
    rw [h] at herror
    cases herror
  obtain ⟨-, hsome, henough, hasked⟩ :
      budget.depth ≠ 0 ∧ (budget.remaining spent).tokens ≠ 0 ∧
        minChildTokens ≤ (budget.remaining spent).tokens ∧
        ∀ want, explicit = some want → want ≤ (budget.remaining spent).tokens ∧ minChildTokens ≤ want := by
    unfold Lacking at hlacking
    push Not at hlacking
    exact hlacking
  unfold grant at h
  dsimp only at h
  split_ifs at h
  cases h
  dsimp only
  rw [atLeastOne, if_neg hsome]
  refine ⟨by omega, fun want hwant => ?_⟩
  obtain ⟨hle, hge⟩ := hasked want hwant
  rw [hwant, Option.getD_some]
  have hpos : 1 ≤ minChildTokens := by decide
  omega

theorem grant_covers {child : Budget} (h : budget.grant spent share explicit = .ok child) :
    (budget.remaining spent).Covers child ∧ child.depth + 1 = budget.depth := by
  unfold grant at h
  dsimp only at h
  split_ifs at h
  cases h
  refine ⟨⟨one_le_atLeastOne, one_le_atLeastOne, one_le_atLeastOne, one_le_atLeastOne,
    one_le_atLeastOne⟩, ?_⟩
  dsimp only
  omega

end Grant

/-- The law of a grant. -/
structure GrantLaw (budget spent : Budget) (share : BudgetShare) (explicit : Option Nat) : Prop where
  checked : budget.checkedGrant spent share explicit = some (budget.grant spent share explicit)
  granted : ∀ child, budget.grant spent share explicit = .ok child →
    Granted budget spent explicit child
  refused : budget.Lacking spent explicit →
    ∃ refused, budget.grant spent share explicit = .error refused
  only : budget.exhausted spent = none →
    (∃ refused, budget.grant spent share explicit = .error refused) → budget.Lacking spent explicit

/-- Every grant keeps the law, at every value of the counters. -/
theorem grant_lawful {budget : Budget} (h : budget.InRange) (spent : Budget) (share : BudgetShare)
    (explicit : Option Nat) : GrantLaw budget spent share explicit where
  checked := checkedGrant_eq h spent share explicit
  granted := by
    intro child hchild
    obtain ⟨hfits, hlower⟩ := grant_fits hchild
    obtain ⟨hcovers, hdepth⟩ := grant_covers hchild
    obtain ⟨hfloor, hhonoured⟩ := grant_tokens hchild
    have hroom : minCallTokens ≤ minChildTokens := by decide
    exact
      { inRange := hfits.inRange hlower.le h
        fits := hfits
        covers := hcovers
        depth := hdepth
        floor := hfloor
        honoured := hhonoured
        room := decide_eq_true (hroom.trans hfloor)
        alive := hcovers.alive }
  refused := grant_refused
  only := fun _ => grant_refused_iff.mp

/-- A budget generous enough for an interactive turn. -/
def interactive : Budget :=
  { tokens := 200000, wallMs := 10 * 60 * 1000, toolCalls := 200, subagents := 8, depth := 3
    microsUsd := 2000000 }

theorem interactive_inRange : interactive.InRange := by
  constructor <;> decide

theorem interactive_grant_lawful :
    GrantLaw interactive {} .standard (some 50000) :=
  grant_lawful interactive_inRange {} .standard (some 50000)

/-- A hundred tokens are refused, with everything left to grant them from. -/
theorem small_request_refused :
    ¬ ∀ (budget spent : Budget) (share : BudgetShare) (explicit : Option Nat), budget.InRange →
      ((∃ refused, budget.grant spent share explicit = .error refused) ↔
        budget.depth = 0 ∨ budget.exhausted spent ≠ none ∨
          (budget.remaining spent).tokens < minChildTokens ∨
          ∃ want, explicit = some want ∧ (budget.remaining spent).tokens < want) := by
  intro h
  have hrefused : interactive.grant {} .standard (some 100) = .error (.belowFloor 100 minChildTokens) := by
    decide
  rcases (h interactive {} .standard (some 100) interactive_inRange).mp ⟨_, hrefused⟩ with
    hno | hno | hno | ⟨want, hsome, hno⟩
  · exact absurd hno (by decide)
  · exact absurd (by decide) hno
  · exact absurd hno (by decide)
  · rw [← Option.some.inj hsome] at hno
    exact absurd hno (by decide)

end Budget

end MarloweAgent.Loop
