import MarloweAgent.Daemon.Deciding
import MarloweAgent.Library.Trace

/-! Whose answer it is. An answer carries no number until the turn thread gives it the one it asks
about, so what ties it to the window is where the question of the current turn can be. -/

namespace MarloweAgent.Daemon.Approving
open Contract Library Permission

variable {token : String} {port : Nat} {calm : System → Prop} {s s' : System}

/-- Where the question is that the thread of the current turn asks: not yet drained, in the
window, or answered and on its way back. -/
inductive Placed : Client → List Prompt → Option Prompt → Option (Option Prompt) → Prop
  | nowhere {client : Client} : (∀ prompt, client ≠ .asking prompt) → Placed client [] none none
  | undrained (prompt : Prompt) : Placed (.asking prompt) [prompt] none none
  | shown (prompt : Prompt) : Placed (.asking prompt) [] (some prompt) none
  | answered (prompt : Prompt) : Placed (.asking prompt) [] none (some (some prompt))

/-- Answers are queued while a window is up, lines while none is. -/
def System.Queued (s : System) : Prop :=
  match s.ui with
  | .keys => s.shown = s.pending ∧ ∀ intent ∈ s.outbox, intent.answers = s.pending.isSome
  | .applying rest =>
    s.outbox = [] ∧ (∀ intent ∈ rest, intent.answers = s.pending.isSome) ∧
      (s.pending.isSome → rest.length ≤ 1)
  | .sending _ _ _ rest => s.outbox = [] ∧ rest = []

/-- What can be asked about on a connection was asked by its gate. -/
structure Turn.Known (turn : Turn) : Prop where
  down : ∀ event ∈ turn.down, ∀ prompt, event.question = some prompt → prompt ∈ turn.asked
  asking : ∀ prompt, turn.client = .asking prompt → prompt ∈ turn.asked

structure Fair (s : System) : Prop where
  known : ∀ t, (s.turns t).Known
  lines : ∀ t d reason, .approve d true reason ∈ (s.turns t).up →
    ∃ prompt ∈ (s.turns t).asked, prompt.decision = d ∧ .answered t (some prompt) true ∈ s.log
  placed : Placed (s.turns s.current).client (s.turns s.current).questions s.pending s.ui.showing
  queued : s.Queued
  recorded : ∀ granted reason showing rest, s.ui = .sending granted reason showing rest →
    .answered s.current showing granted ∈ s.log

theorem question_approval {asked prompt : Prompt} (h : (Event.approval asked).question = some prompt) :
    asked = prompt := by
  by_cases hzero : asked.decision ≠ 0
  · simpa [Event.question, hzero] using h
  · simp [Event.question, hzero] at h

theorem Turn.Known.local {turn turn' : Turn} (h : turn.Known) (hlocal : Local port turn turn') :
    turn'.Known := by
  cases hlocal with
  | @read event rest hclient hdown =>
    obtain ⟨client, told, heq, -, hasks, hreads⟩ := Turn.read_spec port hclient event rest
    have hevent : ∀ prompt, event.question = some prompt → prompt ∈ turn.asked :=
      h.down event (by simp [hdown])
    rw [heq]
    refine ⟨fun e he => h.down e (by simp [hdown, he]), fun prompt hprompt => ?_⟩
    cases hquestion : event.question with
    | some asked =>
      have hsame : client = .asking asked := hasks asked hquestion
      obtain rfl : asked = prompt := by simpa [hsame] using hprompt
      exact hevent asked hquestion
    | none =>
      have hclient' : client = .asking prompt := hprompt
      rcases hreads hquestion with hr | hg
      · rw [hr] at hclient'
        cases hclient'
      · rw [hg] at hclient'
        cases hclient'
  | eof | lose => exact ⟨h.down, fun prompt hprompt => by cases hprompt⟩
  | say hserving hwaiting htold =>
    refine ⟨fun e he prompt hquestion => ?_, h.asking⟩
    rcases List.mem_append.mp he with hold | hnew
    · exact h.down e hold prompt hquestion
    · rw [List.mem_singleton.mp hnew, htold] at hquestion
      cases hquestion
  | ask radius =>
    refine ⟨fun e he prompt hquestion => ?_, fun prompt hprompt => ?_⟩
    · rcases List.mem_append.mp he with hold | hnew
      · exact List.mem_append_left _ (h.down e hold prompt hquestion)
      · rw [List.mem_singleton.mp hnew] at hquestion
        have hsame := question_approval hquestion
        exact List.mem_append_right _ (List.mem_singleton.mpr hsame.symm)
    · exact List.mem_append_left _ (h.asking prompt hprompt)
  | close => exact ⟨h.down, h.asking⟩

theorem Placed.local {turn turn' : Turn} {pending : Option Prompt} {showing : Option (Option Prompt)}
    (h : Placed turn.client turn.questions pending showing) (hlocal : Local port turn turn') :
    Placed turn'.client turn'.questions pending showing := by
  have hreading : turn.client = .reading → turn.questions = [] ∧ pending = none ∧ showing = none := by
    intro hclient
    rw [hclient] at h
    generalize turn.questions = questions at h
    cases h
    exact ⟨rfl, rfl, rfl⟩
  cases hlocal with
  | @read event rest hclient hdown =>
    obtain ⟨client, told, heq, htold, hasks, hreads⟩ := Turn.read_spec port hclient event rest
    obtain ⟨hnil, rfl, rfl⟩ := hreading hclient
    have hquestions : { turn with down := rest, client := client, inbox := turn.inbox ++ [told] }.questions =
        event.question.toList := by
      unfold Turn.questions at hnil ⊢
      rw [List.filterMap_append, hnil, List.nil_append, ← htold]
      cases hq : told.question <;> simp [hq]
    rw [heq, hquestions]
    cases hquestion : event.question with
    | some asked =>
      change Placed client _ _ _
      rw [hasks asked hquestion]
      exact .undrained asked
    | none =>
      refine .nowhere fun prompt hprompt => ?_
      rcases hreads hquestion with hr | hg
      · rw [hr] at hprompt
        cases hprompt
      · rw [hg] at hprompt
        cases hprompt
  | eof hclient =>
    obtain ⟨hnil, rfl, rfl⟩ := hreading hclient
    change Placed _ turn.questions _ _
    rw [hnil]
    exact .nowhere fun _ h => by cases h
  | lose detail hclient =>
    obtain ⟨hnil, rfl, rfl⟩ := hreading hclient
    have hquestions : (turn.lose detail).questions = [] := by
      unfold Turn.questions at hnil ⊢
      simp [Turn.lose, hnil, Event.question]
    rw [hquestions]
    exact .nowhere fun _ h => by cases h
  | say | ask | close => exact h

namespace Placed

variable {client : Client} {questions : List Prompt} {pending : Option Prompt}

/-- Draining puts the question in the window. -/
theorem drained (h : Placed client questions pending none) :
    Placed client [] (questions.getLast?.or pending) none := by
  cases h with
  | nowhere hclient => exact .nowhere hclient
  | undrained prompt | shown prompt => exact .shown prompt

theorem answer {prompt : Prompt} (h : Placed client questions pending none)
    (hpending : pending = some prompt) : Placed client questions none (some pending) := by
  subst hpending
  cases h
  exact .answered prompt

theorem answered_inv {prompt : Prompt} {showing : Option Prompt}
    (h : Placed (.asking prompt) questions pending (some showing)) :
    questions = [] ∧ pending = none ∧ showing = some prompt := by
  cases h
  exact ⟨rfl, rfl, rfl⟩

theorem not_gone {showing : Option Prompt} : ¬ Placed .gone questions pending (some showing) := by
  intro h
  cases h

end Placed

theorem System.queued_nil (hui : s.ui = .applying []) (hempty : s.outbox = []) : s.Queued := by
  unfold System.Queued
  rw [hui]
  exact ⟨hempty, List.forall_mem_nil _, fun _ => Nat.zero_le _⟩

theorem asked_local {turn turn' : Turn} (h : Local port turn turn') {prompt : Prompt}
    (hprompt : prompt ∈ turn.asked) : prompt ∈ turn'.asked := by
  cases h with
  | @read event rest hclient hdown =>
    obtain ⟨client, told, heq, -⟩ := Turn.read_spec port hclient event rest
    rw [heq]
    exact hprompt
  | ask radius => exact List.mem_append_left _ hprompt
  | eof | lose | say | close => exact hprompt

namespace Fair

/-- One turn moves, and the surface stays where it is. -/
theorem of_turn (h : Fair s) {t : Nat} {turn : Turn} {facts : List Fact}
    (hs : s' = { s.put t turn with log := s.log ++ facts }) (hknown : turn.Known)
    (hup : ∀ d reason, .approve d true reason ∈ turn.up → .approve d true reason ∈ (s.turns t).up)
    (hasked : ∀ prompt ∈ (s.turns t).asked, prompt ∈ turn.asked)
    (hplaced : t = s.current →
      Placed (s.turns t).client (s.turns t).questions s.pending s.ui.showing →
      Placed turn.client turn.questions s.pending s.ui.showing) : Fair s' := by
  subst hs
  have hturns : ∀ u, ((s.put t turn).turns u = turn ∧ u = t) ∨
      ((s.put t turn).turns u = s.turns u ∧ u ≠ t) := by
    intro u
    by_cases hut : u = t
    · exact .inl ⟨by rw [hut, System.put_turns_self], hut⟩
    · exact .inr ⟨System.put_turns_of_ne s turn hut, hut⟩
  refine ⟨fun u => ?_, fun u d reason hline => ?_, ?_, h.queued, ?_⟩
  · change ((s.put t turn).turns u).Known
    rcases hturns u with ⟨heq, -⟩ | ⟨heq, -⟩
    · rw [heq]
      exact hknown
    · rw [heq]
      exact h.known u
  · change .approve d true reason ∈ ((s.put t turn).turns u).up at hline
    change ∃ prompt ∈ ((s.put t turn).turns u).asked, _ ∧ _ ∈ s.log ++ facts
    rcases hturns u with ⟨heq, rfl⟩ | ⟨heq, -⟩
    · rw [heq] at hline ⊢
      obtain ⟨prompt, hprompt, hd, hlog⟩ := h.lines u d reason (hup d reason hline)
      exact ⟨prompt, hasked prompt hprompt, hd, List.mem_append_left _ hlog⟩
    · rw [heq] at hline ⊢
      obtain ⟨prompt, hprompt, hd, hlog⟩ := h.lines u d reason hline
      exact ⟨prompt, hprompt, hd, List.mem_append_left _ hlog⟩
  · change Placed ((s.put t turn).turns s.current).client ((s.put t turn).turns s.current).questions _ _
    rcases hturns s.current with ⟨heq, hcurrent⟩ | ⟨heq, -⟩
    · rw [heq]
      exact hplaced hcurrent.symm (hcurrent ▸ h.placed)
    · rw [heq]
      exact h.placed
  · intro granted reason showing rest hui
    exact List.mem_append_left _ (h.recorded granted reason showing rest hui)

theorem of_put (h : Fair s) {t : Nat} {turn : Turn} (hknown : turn.Known)
    (hup : ∀ d reason, .approve d true reason ∈ turn.up → .approve d true reason ∈ (s.turns t).up)
    (hasked : ∀ prompt ∈ (s.turns t).asked, prompt ∈ turn.asked)
    (hplaced : t = s.current →
      Placed (s.turns t).client (s.turns t).questions s.pending s.ui.showing →
      Placed turn.client turn.questions s.pending s.ui.showing) : Fair (s.put t turn) :=
  h.of_turn (show _ = { s.put t turn with log := s.log ++ [] } by rw [List.append_nil]; rfl) hknown hup hasked hplaced

theorem of_local (h : Fair s) {t : Nat} {turn : Turn} (hlocal : Local port (s.turns t) turn) :
    Fair (s.put t turn) :=
  h.of_put ((h.known t).local hlocal) (fun _ _ hline => up_local hlocal ▸ hline)
    (fun _ => asked_local hlocal) fun _ hplaced => hplaced.local hlocal

theorem key (h : Fair s) (hui : s.ui = .keys) (hshown : s.shown ≠ none) (key : Key) :
    Fair (s.onPendingApprovalKey key) := by
  obtain ⟨reason, answers, heq, hanswers⟩ := s.onPendingApprovalKey_eq key
  rw [heq]
  refine ⟨h.known, h.lines, h.placed, ?_, h.recorded⟩
  have hqueued := h.queued
  unfold System.Queued at hqueued ⊢
  rw [hui] at hqueued
  simp only [hui]
  refine ⟨hqueued.1, fun intent hintent => ?_⟩
  rcases List.mem_append.mp hintent with hold | hnew
  · exact hqueued.2 intent hold
  · rw [hanswers intent hnew, ← hqueued.1, Option.isSome_iff_ne_none.mpr hshown]

theorem submit (h : Fair s) (hui : s.ui = .keys) (hshown : s.shown = none) (text : String) :
    Fair { s with outbox := s.outbox ++ [.send text] } := by
  refine ⟨h.known, h.lines, h.placed, ?_, h.recorded⟩
  have hqueued := h.queued
  unfold System.Queued at hqueued ⊢
  rw [hui] at hqueued
  simp only [hui]
  refine ⟨hqueued.1, fun intent hintent => ?_⟩
  rcases List.mem_append.mp hintent with hold | hnew
  · exact hqueued.2 intent hold
  · rw [List.mem_singleton.mp hnew, ← hqueued.1, hshown]
    rfl

theorem advance (h : Fair s) (hui : s.ui = .keys) (hcalm : s.unhurried) :
    Fair { s with ui := .applying s.outbox, outbox := [] } := by
  have hqueued := h.queued
  unfold System.Queued at hqueued
  rw [hui] at hqueued
  have hplaced := h.placed
  rw [hui] at hplaced
  refine ⟨h.known, h.lines, hplaced, ⟨rfl, hqueued.2, fun hsome => ?_⟩, fun _ _ _ _ h => by cases h⟩
  have hall : s.outbox.countP Intent.answers = s.outbox.length :=
    List.countP_eq_length.mpr fun intent hintent => (hqueued.2 intent hintent).trans hsome
  exact hall ▸ hcalm

theorem tick (h : Fair s) (hui : s.ui = .applying []) : Fair s.tick := by
  have hplaced := h.placed
  rw [hui] at hplaced
  refine ⟨fun u => ?_, fun u d reason hline => ?_, ?_, ?_, fun _ _ _ _ h => by cases h⟩
  · have hknown : { s.turns s.current with inbox := [] }.Known := ⟨(h.known _).down, (h.known _).asking⟩
    change ((s.put s.current _).turns u).Known
    by_cases hu : u = s.current
    · rw [hu, System.put_turns_self]
      exact hknown
    · rw [System.put_turns_of_ne s _ hu]
      exact h.known u
  · change .approve d true reason ∈ ((s.put s.current _).turns u).up at hline
    change ∃ prompt ∈ ((s.put s.current _).turns u).asked, _
    by_cases hu : u = s.current
    · rw [hu, System.put_turns_self] at hline ⊢
      exact h.lines _ d reason hline
    · rw [System.put_turns_of_ne s _ hu] at hline ⊢
      exact h.lines u d reason hline
  · change Placed ((s.put s.current _).turns s.current).client
      ((s.put s.current _).turns s.current).questions
      ((s.turns s.current).inbox.foldl System.raise s.pending) none
    rw [System.put_turns_self, System.foldl_raise]
    exact hplaced.drained
  · have hqueued := h.queued
    unfold System.Queued at hqueued
    rw [hui] at hqueued
    refine ⟨rfl, fun intent hintent => ?_⟩
    have hold : intent ∈ s.outbox := hintent
    rw [hqueued.1] at hold
    cases hold

/-- A line is sent only while no window is up, so no question is left behind in one. -/
theorem apply_send (h : Fair s) {text : String} {rest : List Intent}
    (hui : s.ui = .applying (.send text :: rest)) (offered : String) :
    Fair (s.apply offered rest (.send text)) := by
  have hqueued := h.queued
  unfold System.Queued at hqueued
  rw [hui] at hqueued
  obtain ⟨hempty, hanswers, hlength⟩ := hqueued
  have hnone : s.pending = none := by
    have hsend := hanswers (.send text) List.mem_cons_self
    exact Option.isNone_iff_eq_none.mp (by simpa [Intent.answers] using hsend)
  have hturns : ∀ u, (s.apply offered rest (.send text)).turns u =
      if u = s.started then .opened offered else s.turns u := fun u => Function.update_apply ..
  refine ⟨fun u => ?_, fun u d reason hline => ?_, ?_, ?_, fun _ _ _ _ h => by cases h⟩
  · rw [hturns]
    split_ifs
    · refine ⟨fun e he => ?_, fun prompt hprompt => ?_⟩
      · cases he
      · cases hprompt
    · exact h.known u
  · rw [hturns] at hline ⊢
    split_ifs at hline ⊢
    · cases hline
    · exact h.lines u d reason hline
  · have hcurrent : (s.apply offered rest (.send text)).current = s.started := Nat.add_sub_cancel ..
    rw [hcurrent, hturns, if_pos rfl]
    change Placed .reading [] s.pending none
    rw [hnone]
    exact .nowhere fun _ h => by cases h
  · exact ⟨hempty, fun intent hintent => hanswers intent (List.mem_cons_of_mem _ hintent),
      fun hsome => (Nat.le_succ _).trans (hlength hsome)⟩

/-- An answer is given only while a window is up: the one that the current thread asks about. -/
theorem apply_approve (h : Fair s) {granted : Bool} {reason : Option String} {rest : List Intent}
    (hui : s.ui = .applying (.approve granted reason :: rest)) (offered : String) :
    Fair (s.apply offered rest (.approve granted reason)) := by
  have hqueued := h.queued
  unfold System.Queued at hqueued
  rw [hui] at hqueued
  obtain ⟨hempty, hanswers, hlength⟩ := hqueued
  have hsome : s.pending.isSome = true := (hanswers _ List.mem_cons_self).symm
  have hrest : rest = [] := by
    have hle := hlength hsome
    exact List.length_eq_zero_iff.mp (by simpa using hle)
  have hplaced := h.placed
  rw [hui] at hplaced
  obtain ⟨prompt, hpending⟩ := Option.isSome_iff_exists.mp hsome
  unfold System.apply
  split_ifs with hstarted
  · refine ⟨h.known, h.lines, hplaced, ?_, fun _ _ _ _ h => by cases h⟩
    exact System.queued_nil (by rw [hrest]) hempty
  · refine ⟨h.known, fun u d reason hline => ?_, ?_, ⟨hempty, hrest⟩, ?_⟩
    · obtain ⟨asked, hasked, hd, hlog⟩ := h.lines u d reason hline
      exact ⟨asked, hasked, hd, List.mem_append_left _ hlog⟩
    · exact hplaced.answer hpending
    · intro granted' reason' showing' rest' heq
      obtain ⟨rfl, -, rfl, -⟩ := Ui.sending.inj heq
      exact List.mem_append_right _ List.mem_cons_self

theorem hand (h : Fair s) {granted : Bool} {reason : Option String} {showing : Option Prompt}
    {rest : List Intent} (hui : s.ui = .sending granted reason showing rest) {prompt : Prompt}
    (hclient : (s.turns s.current).client = .asking prompt) {turn : Turn}
    (hturn : turn = (s.turns s.current).reply prompt granted reason ∨
      ∃ detail, turn = (s.turns s.current).lose detail) :
    Fair { s.put s.current turn with ui := .applying rest } := by
  have hqueued := h.queued
  unfold System.Queued at hqueued
  rw [hui] at hqueued
  obtain ⟨hempty, hrest⟩ := hqueued
  have hplaced := h.placed
  rw [hui, hclient] at hplaced
  obtain ⟨hquestions, hpending, hshowing⟩ := hplaced.answered_inv
  have hasked : turn.asked = (s.turns s.current).asked := by
    obtain rfl | ⟨detail, rfl⟩ := hturn <;> rfl
  have hgone : ∀ asked, turn.client ≠ .asking asked := by
    intro asked hasking
    obtain rfl | ⟨detail, rfl⟩ := hturn <;> cases hasking
  have hdown : turn.down = (s.turns s.current).down := by
    obtain rfl | ⟨detail, rfl⟩ := hturn <;> rfl
  have hnone : turn.questions = [] := by
    obtain rfl | ⟨detail, rfl⟩ := hturn
    · exact hquestions
    · unfold Turn.questions at hquestions ⊢
      simp [Turn.lose, hquestions, Event.question]
  have hlines : ∀ d reason, .approve d true reason ∈ turn.up →
      .approve d true reason ∈ (s.turns s.current).up ∨ (d = prompt.decision ∧ granted = true) := by
    intro d reason' hline
    obtain rfl | ⟨detail, rfl⟩ := hturn
    · rcases List.mem_append.mp hline with hold | hnew
      · exact .inl hold
      · obtain ⟨rfl, rfl, -⟩ := Request.approve.inj (List.mem_singleton.mp hnew)
        exact .inr ⟨rfl, rfl⟩
    · exact .inl hline
  refine ⟨fun u => ?_, fun u d reason' hline => ?_, ?_, ?_, fun _ _ _ _ h => by cases h⟩
  · change ((s.put s.current turn).turns u).Known
    by_cases hu : u = s.current
    · rw [hu, System.put_turns_self]
      refine ⟨?_, fun asked h => absurd h (hgone asked)⟩
      rw [hdown, hasked]
      exact (h.known s.current).down
    · rw [System.put_turns_of_ne s _ hu]
      exact h.known u
  · change .approve d true reason' ∈ ((s.put s.current turn).turns u).up at hline
    change ∃ asked ∈ ((s.put s.current turn).turns u).asked, _
    by_cases hu : u = s.current
    · subst hu
      rw [System.put_turns_self] at hline ⊢
      rw [hasked]
      rcases hlines d reason' hline with hold | ⟨rfl, rfl⟩
      · exact h.lines _ d reason' hold
      · refine ⟨prompt, (h.known _).asking prompt hclient, rfl, ?_⟩
        rw [← hshowing]
        exact h.recorded _ _ _ _ hui
    · rw [System.put_turns_of_ne s _ hu] at hline ⊢
      exact h.lines u d reason' hline
  · change Placed ((s.put s.current turn).turns s.current).client
      ((s.put s.current turn).turns s.current).questions s.pending none
    rw [System.put_turns_self, hnone, hpending]
    exact .nowhere hgone
  · exact System.queued_nil (by rw [hrest]) hempty

theorem step (h : Fair s) (hcalm : s.unhurried) (hstep : Step token port s s') : Fair s' := by
  cases hstep with
  | key key hui hshown => exact h.key hui hshown key
  | submit text hui hshown => exact h.submit hui hshown text
  | advance hui => exact h.advance hui hcalm
  | @apply intent rest offered hui =>
    cases intent with
    | send text => exact h.apply_send hui offered
    | approve granted reason => exact h.apply_approve hui offered
  | tick hui => exact h.tick hui
  | hand hui hclient => exact h.hand hui hclient (.inl rfl)
  | handLost detail hui hclient => exact h.hand hui hclient (.inr ⟨detail, rfl⟩)
  | unheard hui hclient =>
    have hplaced := h.placed
    rw [hui, hclient] at hplaced
    exact absurd hplaced Placed.not_gone
  | unattended ht hclient =>
    refine h.of_put ⟨(h.known _).down, fun _ h => by cases h⟩ (fun d reason hline => ?_)
      (fun _ => id) fun heq => absurd heq ht.ne
    rcases List.mem_append.mp hline with hold | hnew
    · exact hold
    · cases (Request.approve.inj (List.mem_singleton.mp hnew)).2.1
  | unattendedLost detail ht hclient =>
    exact h.of_put ⟨(h.known _).down, fun _ h => by cases h⟩ (fun _ _ => id) (fun _ => id)
      fun heq => absurd heq ht.ne
  | «local» ht hlocal => exact h.of_local hlocal
  | accept ht =>
    exact h.of_put ⟨(h.known _).down, (h.known _).asking⟩ (fun _ _ => id) (fun _ => id) fun _ => id
  | refuse ht =>
    refine h.of_put ⟨fun e he prompt hquestion => ?_, (h.known _).asking⟩ (fun _ _ => id) (fun _ => id)
      fun _ => id
    rcases List.mem_append.mp he with hold | hnew
    · exact (h.known _).down e hold prompt hquestion
    · rw [List.mem_singleton.mp hnew] at hquestion
      cases hquestion
  | askUnwritten radius ht =>
    exact h.of_turn rfl
      ⟨fun e he prompt hq => List.mem_append_left _ ((h.known _).down e he prompt hq),
        fun prompt hp => List.mem_append_left _ ((h.known _).asking prompt hp)⟩
      (fun _ _ => id) (fun _ => List.mem_append_left _) fun _ => id
  | hear ht hwaiting hup =>
    refine h.of_turn rfl ⟨(h.known _).down, (h.known _).asking⟩ (fun d reason hline => ?_) (fun _ => id)
      fun _ => id
    rw [hup]
    exact List.mem_cons_of_mem _ hline
  | deaf ht hwaiting =>
    exact h.of_turn rfl ⟨(h.known _).down, (h.known _).asking⟩ (fun _ _ => id) (fun _ => id) fun _ => id

end Fair

theorem Fair.of_reaches (h : Reaches token port System.unhurried s) : Fair s := by
  induction h with
  | refl =>
    refine ⟨fun _ => ⟨fun _ he => ?_, fun _ hp => ?_⟩, fun _ _ _ hline => ?_, .nowhere fun _ hp => ?_,
      ⟨rfl, List.forall_mem_nil _⟩, fun _ _ _ _ hui => ?_⟩
    · cases he
    · cases hp
    · cases hline
    · cases hp
    · cases hui
  | tail _ hstep ih => exact ih.step hstep.1 hstep.2

/-- What a gate has granted was allowed before, in the window that showed its prompt. -/
def Meant (before : List Fact) (fact : Fact) : Prop :=
  ∀ t prompt, fact = .settled t prompt true → .answered t (some prompt) true ∈ before

theorem meant_of_hear (ho : Orderly token s) (hf : Fair s) {t : Nat} {prompt : Prompt} {line : Request}
    (hwaiting : (s.turns t).waiting = some prompt) (hline : line ∈ (s.turns t).up) :
    Meant s.log (.settled t prompt ((s.turns t).verdict prompt (some line))) := by
  intro u asked heq
  obtain ⟨rfl, rfl, hverdict⟩ := Fact.settled.inj heq
  obtain ⟨reason, rfl⟩ : ∃ reason, line = .approve prompt.decision true reason := by
    cases line with
    | other => cases hverdict
    | approve d granted reason =>
      by_cases hd : d = prompt.decision
      · have hgranted : granted = true := by
          simpa [Turn.verdict, SocketApprovals.settle, hd] using hverdict
        exact ⟨reason, by rw [hd, hgranted]⟩
      · simp [Turn.verdict, SocketApprovals.settle, hd] at hverdict
  obtain ⟨other, hother, hd, hlog⟩ := hf.lines t _ reason hline
  have hprompt : prompt ∈ (s.turns t).asked := by
    rw [← (ho.each t).asked, hwaiting]
    simp
  have hnodup : ((s.turns t).asked.map Prompt.decision).Nodup := by
    rw [(ho.each t).numbered]
    exact List.nodup_range'
  rwa [List.inj_on_of_nodup_map hnodup hother hprompt hd] at hlog

theorem meant_denied {before : List Fact} {t : Nat} {prompt : Prompt} :
    Meant before (.settled t prompt false) := by
  intro u asked heq
  cases (Fact.settled.inj heq).2.2

theorem meant_step (ho : Orderly token s) (hf : Fair s) (h : Throughout Meant s.log)
    (hstep : Step token port s s') : Throughout Meant s'.log := by
  cases hstep with
  | key key =>
    obtain ⟨reason, answers, heq, -⟩ := s.onPendingApprovalKey_eq key
    rw [heq]
    exact h
  | submit | advance | tick | hand | handLost | unheard | unattended | unattendedLost | «local» | accept
    | refuse => exact h
  | @apply intent rest offered hui =>
    cases intent with
    | send text => exact h
    | approve granted reason =>
      unfold System.apply
      split_ifs
      · exact h
      · exact h.concat fun t prompt heq => by cases heq
  | askUnwritten radius => exact h.concat meant_denied
  | hear ht hwaiting hup => exact h.concat (meant_of_hear ho hf hwaiting (by rw [hup]; simp))
  | deaf => exact h.concat meant_denied

/-- Two yeses in one batch: the second grants a decision that no window has shown. -/
example : ∃ s, Reaches "k" 4317 (fun _ => True) s ∧
    .settled 0 ⟨2, "send", "mail.example", false, none⟩ true ∈ s.log ∧
    ∀ prompt, .answered 0 (some prompt) true ∈ s.log → prompt.decision = 1 := by
  obtain ⟨s, h, hgranted⟩ := exists_reaches "k" 4317 (fun _ => True)
    (askedCues ++
      [.key (.char 'y'), .key (.char 'y'), .surface, .surface, .surface, .hear 0,
        .ask 0 ⟨"send", "mail.example", false, none⟩, .read 0, .surface, .surface, .hear 0])
    (fun s => decide (s.log =
      [.answered 0 (some ⟨1, "fetch", "docs.example", true, none⟩) true,
        .settled 0 ⟨1, "fetch", "docs.example", true, none⟩ true, .answered 0 none true,
        .settled 0 ⟨2, "send", "mail.example", false, none⟩ true]))
    (by decide)
  have hlog := of_decide_eq_true hgranted
  refine ⟨s, h, ?_, fun prompt hprompt => ?_⟩
  · simp [hlog]
  · rw [hlog] at hprompt
    obtain rfl : prompt = ⟨1, "fetch", "docs.example", true, none⟩ := by simpa using hprompt
    rfl

end MarloweAgent.Daemon.Approving
