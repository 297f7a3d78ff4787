import MarloweAgent.Daemon.Project

/-! What a transcript is read for: its text, its lines, what it shows at all. A reading that
takes an entry's prose piece by piece sees a delta at the end, sees nothing of a sweep or of
tokens, and finds the prose of a retraction elsewhere. -/

namespace MarloweAgent.Daemon
open Library Loop Tools View

/-! ## The entries -/

theorem modelSpeech_eq_some {entry : View.Entry} {text : String} :
    modelSpeech entry = some text ↔ entry = .said (.model text) := by
  constructor
  · intro h
    cases entry with
    | said speech =>
      cases speech with
      | model t => rw [Option.some.inj h]
      | harness notice => cases h
    | _ => cases h
  · rintro rfl
    rfl

theorem thinking_eq_some {entry : View.Entry} {text : String} {tokens : Nat} {done : Bool} :
    thinking entry = some (text, tokens, done) ↔ entry = .reasoning text tokens done := by
  constructor
  · intro h
    cases entry with
    | reasoning t n d => cases h; rfl
    | _ => cases h
  · rintro rfl
    rfl

theorem closeFinished_true (entries : List View.Entry) :
    closeFinishedReasoning true entries = entries.map closeEntry := by
  induction entries with
  | nil => rfl
  | cons entry rest ih =>
    cases rest with
    | nil => rfl
    | cons next rest => simpa [closeFinishedReasoning] using ih

theorem closeFinished_false (entries : List View.Entry) :
    closeFinishedReasoning false entries =
      (entries.map closeEntry).dropLast ++ entries.getLast?.toList := by
  induction entries with
  | nil => rfl
  | cons entry rest ih =>
    cases rest with
    | nil => rfl
    | cons next rest => simpa [closeFinishedReasoning] using ih

/-- A sweep changes nothing that a closed entry shows the same. -/
theorem flatMap_closeFinished {β : Type} {f : View.Entry → List β}
    (hf : ∀ e, f (closeEntry e) = f e) (finished : Bool) (t : List View.Entry) :
    (closeFinishedReasoning finished t).flatMap f = t.flatMap f := by
  have hmap : ∀ t : List View.Entry, (t.map closeEntry).flatMap f = t.flatMap f := fun t => by
    rw [List.flatMap_map]
    exact congrArg (List.flatMap · t) (funext hf)
  cases finished with
  | true => rw [closeFinished_true, hmap]
  | false =>
    rw [closeFinished_false]
    rcases List.eq_nil_or_concat t with rfl | ⟨init, e, rfl⟩
    · rfl
    · simp [List.concat_eq_append, hmap]

/-- What a retraction does: nothing, where nothing was said; else the last speech goes to the
end of the thinking before it, or becomes thinking where it stands. -/
theorem retract_cases (tokens : Nat) (t : List View.Entry) :
    ((∀ e ∈ t, modelSpeech e = none) ∧ retract tokens t = t) ∨
      ∃ before spoken after, t = before ++ .said (.model spoken) :: after ∧
        (∀ e ∈ after, modelSpeech e = none) ∧
        splitLast modelSpeech t = some (before, spoken, after) ∧
        ((splitLast thinking before = none ∧
            retract tokens t = before ++ .reasoning spoken tokens false :: after) ∨
          ∃ earlier text total done between,
            before = earlier ++ .reasoning text total done :: between ∧
            (∀ e ∈ between, thinking e = none) ∧
            splitLast thinking before = some (earlier, (text, total, done), between) ∧
            retract tokens t =
              earlier ++ .reasoning (text ++ spoken) (satAdd u64Max total tokens) false ::
                between ++ after) := by
  unfold retract
  cases hspeech : splitLast modelSpeech t with
  | none => exact .inl ⟨splitLast_eq_none.mp hspeech, rfl⟩
  | some split =>
    obtain ⟨before, spoken, after⟩ := split
    obtain ⟨x, rfl, hx, hafter⟩ := splitLast_eq_some hspeech
    obtain rfl := modelSpeech_eq_some.mp hx
    refine .inr ⟨before, spoken, after, rfl, hafter, rfl, ?_⟩
    cases hthinking : splitLast thinking before with
    | none => exact .inl ⟨rfl, by simp only [hthinking]⟩
    | some split =>
      obtain ⟨earlier, ⟨text, total, done⟩, between⟩ := split
      obtain ⟨b, rfl, hb, hbetween⟩ := splitLast_eq_some hthinking
      obtain rfl := thinking_eq_some.mp hb
      exact .inr ⟨earlier, text, total, done, between, rfl, hbetween, rfl, by simp only [hthinking]⟩

/-! ## Readings -/

/-- What an entry is read as, its prose piece by piece. -/
structure Reading (β : Type) where
  entry : View.Entry → List β
  speech : String → List β
  thought : String → List β
  said : ∀ text, entry (.said (.model text)) = speech text
  reasoning : ∀ text tokens done, entry (.reasoning text tokens done) = thought text
  speech_append : ∀ a b, speech (a ++ b) = speech a ++ speech b
  thought_append : ∀ a b, thought (a ++ b) = thought a ++ thought b

namespace Reading

/-- What reads nothing of a text reads nothing of one that grows. -/
theorem nothing_append {β : Type} (_ _ : String) : ([] : List β) = [] ++ [] := rfl

variable {β : Type} (r : Reading β)

def of (t : List View.Entry) : List β := t.flatMap r.entry

@[simp] theorem of_nil : r.of [] = [] := rfl

@[simp] theorem of_cons (e : View.Entry) (t : List View.Entry) :
    r.of (e :: t) = r.entry e ++ r.of t :=
  List.flatMap_cons

@[simp] theorem of_append (t u : List View.Entry) : r.of (t ++ u) = r.of t ++ r.of u :=
  List.flatMap_append

theorem thought_empty : r.thought "" = [] := by
  have happend := r.thought_append "" ""
  rw [String.append_empty] at happend
  exact List.self_eq_append_left.mp happend

theorem speech_empty : r.speech "" = [] := by
  have happend := r.speech_append "" ""
  rw [String.append_empty] at happend
  exact List.self_eq_append_left.mp happend

@[simp] theorem entry_closeEntry (e : View.Entry) : r.entry (closeEntry e) = r.entry e := by
  cases e with
  | reasoning text tokens done =>
    rw [r.reasoning]
    exact r.reasoning _ _ _
  | _ => rfl

theorem of_closeFinished (finished : Bool) (t : List View.Entry) :
    r.of (closeFinishedReasoning finished t) = r.of t :=
  flatMap_closeFinished r.entry_closeEntry finished t

/-- A change at the end brings what the entry it would open brings. -/
theorem of_onLast {f : View.Entry → Option View.Entry} {entry : View.Entry}
    (h : ∀ x y, f x = some y → r.entry y = r.entry x ++ r.entry entry) (t : List View.Entry) :
    r.of (onLast f entry t) = r.of t ++ r.entry entry := by
  obtain ⟨init, x, y, rfl, hf, hchanged⟩ | ⟨-, hadded⟩ := onLast_cases f entry t
  · rw [hchanged]
    simp [h x y hf]
  · rw [hadded]
    simp

theorem of_say (delta : String) (t : List View.Entry) :
    r.of (say delta t) = r.of t ++ r.speech delta := by
  rw [← r.said delta]
  refine r.of_onLast (fun x y hy => ?_) t
  obtain ⟨text, hx, rfl⟩ := Option.map_eq_some_iff.mp hy
  obtain rfl := modelSpeech_eq_some.mp hx
  rw [r.said, r.said, r.said, r.speech_append]

theorem of_think (delta : String) (tokens : Nat) (t : List View.Entry) :
    r.of (think delta tokens t) = r.of t ++ r.thought delta := by
  rw [← r.reasoning delta tokens false]
  refine r.of_onLast (fun x y hy => ?_) t
  split at hy
  · cases hy
    rw [r.reasoning, r.reasoning, r.reasoning, r.thought_append]
  · cases hy

theorem of_settle (tokens : Nat) (t : List View.Entry) : r.of (settle tokens t) = r.of t := by
  unfold settle
  split
  next before text total done after hsplit =>
    obtain ⟨x, rfl, hx, -⟩ := splitLast_eq_some hsplit
    obtain rfl := thinking_eq_some.mp hx
    simp [r.reasoning]
  next => rfl

/-- A retraction moves the speech and loses nothing, where speech and thought read alike. -/
theorem of_retract (halike : r.speech = r.thought) (tokens : Nat) (t : List View.Entry) :
    (r.of (retract tokens t)).Perm (r.of t) := by
  obtain ⟨-, hnone⟩ | ⟨before, spoken, after, rfl, -, -, ⟨-, hplace⟩ |
    ⟨earlier, text, total, done, between, rfl, -, -, hmoved⟩⟩ := retract_cases tokens t
  · rw [hnone]
  · rw [hplace]
    simp only [of_append, of_cons, r.reasoning, r.said, halike]
    rfl
  · rw [hmoved]
    simp only [of_append, of_cons, r.reasoning, r.said, r.thought_append, halike,
      List.append_assoc, List.cons_append]
    -- the speech passes over what stands between
    refine List.Perm.append_left _ (List.Perm.append_left _ ?_)
    rw [← List.append_assoc, ← List.append_assoc]
    exact List.perm_append_comm.append_right _

end Reading

end MarloweAgent.Daemon
