import Mathlib.Algebra.Ring.Int.Defs
import Mathlib.Algebra.Ring.Nat
import Mathlib.Order.Basic
import Mathlib.Order.Lattice
import Mathlib.Order.Nat

/-! The closed sets every crate shares: trust classes, channels, fidelity tiers,
payload kinds, and the caller-supplied clock. The order on `TrustClass` is the
propagation rule, so it is a linear order and worst case is `min`. -/

namespace MarloweAgent.Contract

inductive TrustClass
  | untrustedContent
  | agentInferred
  | agentObserved
  | userAsserted
  deriving DecidableEq, Repr

namespace TrustClass

/-- The discriminant. -/
def rank : TrustClass → Nat
  | untrustedContent => 0
  | agentInferred => 1
  | agentObserved => 2
  | userAsserted => 3

/-- The `Debug` rendering. -/
def debug : TrustClass → String
  | untrustedContent => "UntrustedContent"
  | agentInferred => "AgentInferred"
  | agentObserved => "AgentObserved"
  | userAsserted => "UserAsserted"

theorem rank_injective : Function.Injective rank := by
  intro a b h
  cases a <;> cases b <;> first | rfl | cases h

instance : LinearOrder TrustClass := LinearOrder.lift' rank rank_injective

theorem untrustedContent_le (c : TrustClass) : untrustedContent ≤ c := Nat.zero_le _

theorem le_userAsserted (c : TrustClass) : c ≤ userAsserted := by
  cases c <;> decide

theorem le_untrustedContent_iff {c : TrustClass} :
    c ≤ untrustedContent ↔ c = untrustedContent := by
  cases c <;> decide

end TrustClass

inductive Channel
  | terminal
  | voice
  | messaging
  | email
  | web
  | mcp
  | toolOutput
  | file
  | agent
  deriving DecidableEq, Repr

inductive Speaker
  | user
  | assistant
  | tool
  deriving DecidableEq, Repr

inductive Fidelity
  | tombstone
  | gist
  | summary
  | record
  deriving DecidableEq, Repr

namespace Fidelity

def rank : Fidelity → Nat
  | tombstone => 0
  | gist => 1
  | summary => 2
  | record => 3

theorem rank_injective : Function.Injective rank := by
  intro a b h
  cases a <;> cases b <;> first | rfl | cases h

instance : LinearOrder Fidelity := LinearOrder.lift' rank rank_injective

end Fidelity

inductive PayloadKind
  | episode
  | fact
  | entity
  | edge
  | procedure
  | commitment
  | person
  | relationship
  | voiceParams
  | noticing
  deriving DecidableEq, Repr

/-- The caller-supplied clock; nothing here reads a system clock. -/
structure Clock where
  nowMs : Int
  deriving DecidableEq, Repr

namespace Clock

/-- The sum as an `i64`: past the end it wraps. -/
def plusMs (clock : Clock) (delta : Int) : Int := (clock.nowMs + delta).bmod (2 ^ 64)

end Clock

end MarloweAgent.Contract
