import Mathlib.Data.List.Perm.Basic
import Mathlib.Logic.Basic

/-! Executions that make nested executions. A state takes steps; in between it may
enter a callee's state, let the callee run on its own, and leave it again. The
callee's execution is one of the same kind, so calls nest to any depth. -/

namespace MarloweAgent.Library

variable {σ : Type*}

/-- Executions over steps and calls. `leave caller done after` is the return from a
callee that ended in `done` to the `caller` that entered it. -/
inductive Calls (step enter : σ → σ → Prop) (leave : σ → σ → σ → Prop) : σ → σ → Prop
  | refl (s : σ) : Calls step enter leave s s
  | step {s t u : σ} (before : Calls step enter leave s t) (h : step t u) :
    Calls step enter leave s u
  | call {s t c d u : σ} (before : Calls step enter leave s t) (into : enter t c)
    (body : Calls step enter leave c d) (back : leave t d u) : Calls step enter leave s u

namespace Calls

variable {step enter : σ → σ → Prop} {leave : σ → σ → σ → Prop} {s t u c d : σ}

theorem of_step (h : step s t) : Calls step enter leave s t := .step (.refl s) h

theorem of_call (into : enter s c) (body : Calls step enter leave c d) (back : leave s d t) :
    Calls step enter leave s t :=
  .call (.refl s) into body back

theorem trans (h : Calls step enter leave s t) (h' : Calls step enter leave t u) :
    Calls step enter leave s u := by
  induction h' with
  | refl => exact h
  | step _ hs ih => exact .step (ih h) hs
  | call _ into body back ih _ => exact .call (ih h) into body back

/-- What holds between the two ends of every step and of every call, and composes,
holds between the two ends of every execution. -/
theorem relates {R : σ → σ → Prop} (refl : ∀ s, R s s) (trans : ∀ s t u, R s t → R t u → R s u)
    (hstep : ∀ s t, step s t → R s t)
    (hcall : ∀ s c d t, enter s c → R c d → leave s d t → R s t)
    (h : Calls step enter leave s t) : R s t := by
  induction h with
  | refl => exact refl _
  | step _ hs ih => exact trans _ _ _ ih (hstep _ _ hs)
  | call _ into _ back ih ihbody => exact trans _ _ _ ih (hcall _ _ _ _ into ihbody back)

/-- An invariant of states: every step keeps it, every callee starts with it, and
a caller has it again when its callee, having run, still does. -/
theorem keeps {I : σ → Prop} (hstep : ∀ s t, step s t → I s → I t)
    (henter : ∀ s c, enter s c → I s → I c)
    (hleave : ∀ s c d t, enter s c → Calls step enter leave c d → leave s d t → I s → I d → I t)
    (h : Calls step enter leave s t) (hs : I s) : I t := by
  induction h with
  | refl => exact hs
  | step _ hst ih => exact hstep _ _ hst (ih hs)
  | call _ into body back ih ihbody =>
    have ht := ih hs
    exact hleave _ _ _ _ into body back ht (ihbody (henter _ _ into ht))

end Calls

/-! ## Bracketed traces

What nested executions leave on one trace. Each event is of the execution that is innermost
at the time; it may open a callee, which is innermost from there on, or close the innermost
one for its caller. -/

/-- Whose event it is, and what it does to the executions that are open. -/
inductive Bracket (ι : Type*)
  | own (by_ : ι)
  | opens (by_ callee : ι)
  | closes (by_ callee : ι)

namespace Bracket

variable {ι ε : Type*} [DecidableEq ι]

/-- The executions that are open after an event, innermost first. -/
def after : List ι → Bracket ι → Option (List ι)
  | top :: rest, own a => if a = top then some (top :: rest) else none
  | top :: rest, opens a callee => if a = top then some (callee :: top :: rest) else none
  | top :: caller :: rest, closes a callee =>
    if callee = top ∧ a = caller then some (caller :: rest) else none
  | _, _ => none

/-- The executions that are open after a trace, none where it is not bracketed. -/
def openAfter (kind : ε → Bracket ι) (stack : List ι) (trace : List ε) : Option (List ι) :=
  trace.foldlM (fun stack e => after stack (kind e)) stack

def opened : Bracket ι → List ι
  | opens _ callee => [callee]
  | _ => []

def closed : Bracket ι → List ι
  | closes _ callee => [callee]
  | _ => []

variable {kind : ε → Bracket ι} {stack stack' stack'' : List ι} {trace trace' : List ε}

theorem openAfter_append (h : openAfter kind stack trace = some stack')
    (h' : openAfter kind stack' trace' = some stack'') :
    openAfter kind stack (trace ++ trace') = some stack'' := by
  unfold openAfter at *
  rw [List.foldlM_append, h]
  exact h'

/-- Events of the innermost execution leave it innermost. -/
theorem openAfter_own {top : ι} {rest : List ι} (h : ∀ e ∈ trace, kind e = own top) :
    openAfter kind (top :: rest) trace = some (top :: rest) := by
  induction trace with
  | nil => rfl
  | cons e trace ih =>
    obtain ⟨he, htrace⟩ := List.forall_mem_cons.mp h
    have hone : openAfter kind (top :: rest) [e] = some (top :: rest) := by
      simp [openAfter, he, after]
    exact openAfter_append hone (ih htrace)

/-- A callee's events between its opening and its closing. -/
theorem openAfter_call {caller callee : ι} {rest : List ι} {before last : ε}
    (hopens : kind before = opens caller callee) (hcloses : kind last = closes caller callee)
    (h : openAfter kind (callee :: caller :: rest) trace = some (callee :: caller :: rest)) :
    openAfter kind (caller :: rest) (before :: trace ++ [last]) = some (caller :: rest) := by
  have hfirst : openAfter kind (caller :: rest) [before] = some (callee :: caller :: rest) := by
    simp [openAfter, hopens, after]
  have hlast : openAfter kind (callee :: caller :: rest) [last] = some (caller :: rest) := by
    simp [openAfter, hcloses, after]
  have hopen : openAfter kind (caller :: rest) (before :: trace) = some (callee :: caller :: rest) :=
    openAfter_append hfirst h
  exact openAfter_append hopen hlast

theorem after_perm {b : Bracket ι} (h : after stack b = some stack') :
    (stack ++ b.opened).Perm (stack' ++ b.closed) := by
  unfold after at h
  split at h
  · split at h
    · cases h
      exact .refl _
    · cases h
  · split at h
    · cases h
      simp only [opened, closed, List.append_nil]
      exact List.perm_append_singleton _ _
    · cases h
  · split at h
    · rename_i heq
      cases h
      simp only [opened, closed, List.append_nil, heq.1]
      exact (List.perm_append_singleton _ _).symm
    · cases h
  · cases h

/-- What was open, or was opened, is open still or was closed: each as often as it was opened. -/
theorem openAfter_perm (h : openAfter kind stack trace = some stack') :
    (stack ++ trace.flatMap fun e => (kind e).opened).Perm
      (stack' ++ trace.flatMap fun e => (kind e).closed) := by
  induction trace generalizing stack with
  | nil =>
    cases h
    exact .refl _
  | cons e trace ih =>
    unfold openAfter at h
    rw [List.foldlM_cons] at h
    obtain ⟨mid, hmid, hrest⟩ := Option.bind_eq_some_iff.mp h
    have hone := (after_perm hmid).append_right (trace.flatMap fun e => (kind e).opened)
    have hmore := (ih hrest).append_right (kind e).closed
    simp only [List.flatMap_cons, ← List.append_assoc]
    refine hone.trans (.trans ?_ (hmore.trans ?_))
    · simpa only [List.append_assoc] using List.perm_append_comm.append_left mid
    · simpa only [List.append_assoc] using List.perm_append_comm.append_left stack'

end Bracket

end MarloweAgent.Library
