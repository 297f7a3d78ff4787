import Mathlib.Data.List.Infix
import Mathlib.Data.List.Nodup

/-! Calls and the replies to them, in one sequence. A turn may announce calls, each under a
name, and another turn may reply to a call by its name. A reply that no earlier turn announced
can be demoted to an ordinary turn; nothing is done for a call that no later turn replies to. -/

namespace MarloweAgent.Library.Replies

inductive Turn (ι : Type)
  | calls (names : List ι)
  | reply (name : Option ι)
  | other
  deriving DecidableEq, Repr

variable {ι : Type}

namespace Turn

/-- The calls a turn announces. -/
def called : Turn ι → List ι
  | calls names => names
  | _ => []

def replies [DecidableEq ι] (name : ι) (turn : Turn ι) : Bool := turn = .reply (some name)

end Turn

/-- All the calls of a sequence, in order. -/
def callsOf (turns : List (Turn ι)) : List ι := turns.flatMap Turn.called

@[simp] theorem callsOf_append (a b : List (Turn ι)) : callsOf (a ++ b) = callsOf a ++ callsOf b := by
  simp [callsOf]

@[simp] theorem callsOf_cons (turn : Turn ι) (turns : List (Turn ι)) :
    callsOf (turn :: turns) = turn.called ++ callsOf turns := by
  simp [callsOf]

@[simp] theorem callsOf_nil : callsOf ([] : List (Turn ι)) = [] := rfl

variable [DecidableEq ι]

/-- Demote every reply whose call is not known by then. -/
def demote (known : List ι) : List (Turn ι) → List (Turn ι)
  | [] => []
  | .calls names :: rest => .calls names :: demote (known ++ names) rest
  | .reply none :: rest => .other :: demote known rest
  | .reply (some name) :: rest =>
    (if name ∈ known then .reply (some name) else .other) :: demote known rest
  | .other :: rest => .other :: demote known rest

/-- Every reply is to one call that came before it. -/
def AnswersOne (turns : List (Turn ι)) : Prop :=
  ∀ before name after, turns = before ++ .reply name :: after →
    ∃ call, name = some call ∧ (callsOf before).count call = 1

/-- Every call has one reply after it. -/
def AnsweredOnce (turns : List (Turn ι)) : Prop :=
  ∀ before turn after, turns = before ++ turn :: after → ∀ name ∈ turn.called,
    after.countP (Turn.replies name) = 1

theorem answeredOnce_cons {turn : Turn ι} {turns : List (Turn ι)} :
    AnsweredOnce (turn :: turns) ↔
      (∀ name ∈ turn.called, turns.countP (Turn.replies name) = 1) ∧ AnsweredOnce turns := by
  constructor
  · intro h
    exact ⟨h [] turn turns rfl, fun before t after heq => h (turn :: before) t after (by rw [heq]; rfl)⟩
  · rintro ⟨hfirst, hrest⟩ before t after heq
    cases before with
    | nil =>
      cases heq
      exact hfirst
    | cons first before =>
      cases heq
      exact hrest before t after rfl

@[simp] theorem callsOf_demote (known : List ι) (turns : List (Turn ι)) :
    callsOf (demote known turns) = callsOf turns := by
  fun_induction demote known turns with
  | case1 => rfl
  | case2 known names rest ih => simp [ih, Turn.called]
  | case3 known rest ih => simp [ih, Turn.called]
  | case4 known name rest ih => split <;> simp [ih, Turn.called]
  | case5 known rest ih => simp [ih, Turn.called]

/-- The replies to a known call all stay. -/
theorem countP_demote {known : List ι} {turns : List (Turn ι)} {name : ι} (h : name ∈ known) :
    (demote known turns).countP (Turn.replies name) = turns.countP (Turn.replies name) := by
  fun_induction demote known turns with
  | case1 => rfl
  | case2 known names rest ih =>
    rw [List.countP_cons, List.countP_cons, ih (List.mem_append_left _ h)]
  | case3 known rest ih =>
    rw [List.countP_cons, List.countP_cons, ih h]
    simp [Turn.replies]
  | case4 known other rest ih =>
    rw [List.countP_cons, List.countP_cons, ih h]
    by_cases hother : other ∈ known
    · rw [if_pos hother]
    · have hne : other ≠ name := fun heq => hother (heq ▸ h)
      simp [hother, Turn.replies, hne]
  | case5 known rest ih => rw [List.countP_cons, List.countP_cons, ih h]

theorem answeredOnce_demote (known : List ι) (turns : List (Turn ι)) :
    AnsweredOnce (demote known turns) ↔ AnsweredOnce turns := by
  fun_induction demote known turns with
  | case1 => exact Iff.rfl
  | case2 known names rest ih =>
    rw [answeredOnce_cons, answeredOnce_cons, ih]
    refine and_congr_left fun _ => forall₂_congr fun name hname => ?_
    have hknown : name ∈ known ++ names := List.mem_append_right _ hname
    rw [countP_demote hknown]
  | case3 known rest ih => simp [answeredOnce_cons, ih, Turn.called]
  | case4 known name rest ih => split <;> simp [answeredOnce_cons, ih, Turn.called]
  | case5 known rest ih => simp [answeredOnce_cons, ih, Turn.called]

/-- What is left of the replies after demoting is to known calls. -/
theorem known_of_demote {known : List ι} {turns before after : List (Turn ι)} {name : Option ι}
    (h : demote known turns = before ++ .reply name :: after) :
    ∃ call, name = some call ∧ call ∈ known ++ callsOf before := by
  fun_induction demote known turns generalizing before with
  | case1 => cases before <;> cases h
  | case2 known names rest ih =>
    cases before with
    | nil => cases h
    | cons first before =>
      obtain ⟨rfl, hrest⟩ := List.cons.inj h
      obtain ⟨call, hname, hmem⟩ := ih hrest
      exact ⟨call, hname, by simpa [Turn.called, or_assoc] using hmem⟩
  | case3 known rest ih =>
    cases before with
    | nil => cases h
    | cons first before =>
      obtain ⟨rfl, hrest⟩ := List.cons.inj h
      obtain ⟨call, hname, hmem⟩ := ih hrest
      exact ⟨call, hname, by simpa [Turn.called] using hmem⟩
  | case4 known other rest ih =>
    cases before with
    | nil =>
      split at h
      next hother =>
        cases h
        exact ⟨other, rfl, by simpa using hother⟩
      next => cases h
    | cons first before =>
      obtain ⟨rfl, hrest⟩ := List.cons.inj h
      obtain ⟨call, hname, hmem⟩ := ih hrest
      refine ⟨call, hname, ?_⟩
      split <;> simpa [Turn.called] using hmem
  | case5 known rest ih =>
    cases before with
    | nil => cases h
    | cons first before =>
      obtain ⟨rfl, hrest⟩ := List.cons.inj h
      obtain ⟨call, hname, hmem⟩ := ih hrest
      exact ⟨call, hname, by simpa [Turn.called] using hmem⟩

/-- A call that is announced twice has a reply that is to both, or two replies. -/
theorem nodup_of_paired {turns : List (Turn ι)} (hone : AnswersOne turns) (honce : AnsweredOnce turns) :
    (callsOf turns).Nodup := by
  rw [List.nodup_iff_count_le_one]
  intro name
  by_contra hmany
  have hmem : name ∈ callsOf turns := List.count_pos_iff.mp (by omega)
  obtain ⟨turn, hturn, hname⟩ := List.mem_flatMap.mp hmem
  obtain ⟨before, after, rfl⟩ := List.append_of_mem hturn
  have hreply := honce before turn after rfl name hname
  obtain ⟨reply, hreplyMem, hreplies⟩ := List.countP_pos_iff.mp (by omega : 0 < after.countP (Turn.replies name))
  obtain rfl : reply = .reply (some name) := by simpa [Turn.replies] using hreplies
  obtain ⟨mid, post, rfl⟩ := List.append_of_mem hreplyMem
  -- The reply is to one call before it, so the other call comes after it.
  obtain ⟨call, hcall, hcount⟩ := hone (before ++ turn :: mid) (some name) post (by simp)
  obtain rfl := Option.some.inj hcall
  have hlater : 0 < (callsOf post).count name := by
    simp only [callsOf_append, callsOf_cons, List.count_append, Turn.called, List.count_nil] at hmany hcount
    omega
  obtain ⟨turn', hturn', hname'⟩ := List.mem_flatMap.mp (List.count_pos_iff.mp hlater)
  obtain ⟨before', after', rfl⟩ := List.append_of_mem hturn'
  have hsecond := honce (before ++ turn :: (mid ++ .reply (some name) :: before')) turn' after'
    (by simp) name hname'
  have hself : Turn.replies name (.reply (some name)) = true := by simp [Turn.replies]
  simp only [List.countP_append, List.countP_cons, hself, if_true] at hreply
  omega

/-- After demoting, calls and replies are paired exactly where no two calls have one name and
each has one reply after it. -/
theorem paired_demote_iff (turns : List (Turn ι)) :
    AnswersOne (demote [] turns) ∧ AnsweredOnce (demote [] turns) ↔
      (callsOf turns).Nodup ∧ AnsweredOnce turns := by
  rw [answeredOnce_demote]
  refine and_congr_left fun honce => ?_
  constructor
  · intro hone
    have hnodup := nodup_of_paired hone ((answeredOnce_demote [] turns).mpr honce)
    simpa using hnodup
  · intro hnodup before name after heq
    obtain ⟨call, hname, hmem⟩ := known_of_demote heq
    refine ⟨call, hname, ?_⟩
    have hcalls := congrArg callsOf heq
    rw [callsOf_demote] at hcalls
    rw [hcalls, callsOf_append] at hnodup
    exact List.count_eq_one_of_mem hnodup.of_append_left (by simpa using hmem)

/-- A call and its reply at the end are paired if the name is new. -/
theorem answeredOnce_append_exchange {turns : List (Turn ι)} {name : ι} (h : name ∉ callsOf turns) :
    AnsweredOnce (turns ++ [.calls [name], .reply (some name)]) ↔ AnsweredOnce turns := by
  induction turns with
  | nil =>
    simp only [List.nil_append, answeredOnce_cons]
    simp [Turn.called, Turn.replies, AnsweredOnce]
  | cons turn turns ih =>
    simp only [callsOf_cons, List.mem_append, not_or] at h
    rw [List.cons_append, answeredOnce_cons, answeredOnce_cons, ih h.2]
    refine and_congr_left fun _ => forall₂_congr fun other hother => ?_
    have hne : name ≠ other := fun heq => h.1 (heq ▸ hother)
    simp [Turn.replies, List.countP_append, hne]

end MarloweAgent.Library.Replies
