import MarloweAgent.Daemon.Deciding

/-! A gate that waits is heard: whatever the interleaving has led to, what the daemon waits for is on its
way to it, or to the user. -/

namespace MarloweAgent.Daemon.Approving
open Permission

variable {token : String} {port : Nat} {calm : System → Prop} {s s' : System}

/-- A step of the turn threads and the surface alone: no key is pressed, nothing is lost and the
daemon does nothing. -/
inductive Unprompted (port : Nat) : System → System → Prop
  | advance {s : System} : s.ui = .keys →
      Unprompted port s { s with ui := .applying s.outbox, outbox := [] }
  | apply {s : System} {intent : Intent} {rest : List Intent} (offered : String) :
      s.ui = .applying (intent :: rest) → Unprompted port s (s.apply offered rest intent)
  | tick {s : System} : s.ui = .applying [] → Unprompted port s s.tick
  | hand {s : System} {granted reason showing rest} {prompt : Prompt} :
      s.ui = .sending granted reason showing rest →
      (s.turns s.current).client = .asking prompt →
      Unprompted port s { s.put s.current ((s.turns s.current).reply prompt granted reason) with
        ui := .applying rest }
  | unattended {s : System} {t : Nat} {prompt : Prompt} : t < s.current →
      (s.turns t).client = .asking prompt →
      Unprompted port s (s.put t ((s.turns t).reply prompt false none))
  | read {s : System} {t : Nat} {event : Event} {rest : List Event} : t < s.started →
      (s.turns t).client = .reading → (s.turns t).down = event :: rest →
      Unprompted port s (s.put t ((s.turns t).read port event rest))

theorem Unprompted.step (h : Unprompted port s s') : Step token port s s' := by
  cases h with
  | advance hui => exact .advance hui
  | apply offered hui => exact .apply offered hui
  | tick hui => exact .tick hui
  | hand hui hclient => exact .hand hui hclient
  | unattended ht hclient => exact .unattended ht hclient
  | read ht hclient hdown => exact .local ht (.read hclient hdown)

/-- What a gate waits for is on its way. -/
def Turn.Owed (turn : Turn) : Prop :=
  turn.up ≠ [] ∨ turn.client = .gone ∨ (∃ prompt, turn.client = .asking prompt) ∨
    turn.client = .reading ∧ ∃ event ∈ turn.down, event.question ≠ none

structure Live (s : System) : Prop where
  owed : ∀ t, (s.turns t).waiting ≠ none → (s.turns t).Owed
  /-- The question that the current thread asks is on its way through the surface. -/
  raised : ∀ prompt, (s.turns s.current).client = .asking prompt →
    (s.turns s.current).questions ≠ [] ∨ s.pending ≠ none ∨ s.ui.showing ≠ none
  drawn : s.ui = .keys → s.shown = s.pending

theorem Turn.Owed.local {turn turn' : Turn} {settled : List Prompt} (ho : Orders token turn settled)
    (h : turn.waiting ≠ none → turn.Owed) (hlocal : Local port turn turn') :
    turn'.waiting ≠ none → turn'.Owed := by
  intro hwaiting
  cases hlocal with
  | @read event rest hclient hdown =>
    obtain ⟨client, told, heq, -, hasks, hreads⟩ := Turn.read_spec port hclient event rest
    rw [heq] at hwaiting ⊢
    cases hquestion : event.question with
    | some prompt => exact .inr (.inr (.inl ⟨prompt, hasks prompt hquestion⟩))
    | none =>
      rcases hreads hquestion with hr | hg
      · rcases h hwaiting with hup | hgone | ⟨prompt, hasking⟩ | ⟨-, other, hmem, hother⟩
        · exact .inl hup
        · rw [hclient] at hgone
          cases hgone
        · rw [hclient] at hasking
          cases hasking
        · rw [hdown] at hmem
          rcases List.mem_cons.mp hmem with rfl | hrest
          · exact absurd hquestion hother
          · exact .inr (.inr (.inr ⟨hr, other, hrest, hother⟩))
      · exact .inr (.inl hg)
  | eof | lose => exact .inr (.inl rfl)
  | say hserving hnone => exact absurd hnone hwaiting
  | close hserving hnone => exact absurd hnone hwaiting
  | ask radius =>
    cases hclient : turn.client with
    | gone => exact .inr (.inl hclient)
    | asking prompt => exact .inr (.inr (.inl ⟨prompt, hclient⟩))
    | reading =>
      refine .inr (.inr (.inr ⟨hclient, .approval (turn.gate.prompt radius), by simp [Turn.ask], ?_⟩))
      simp [Event.question, SocketApprovals.prompt, ho.next]

theorem Live.raised_local {turn turn' : Turn} (hlocal : Local port turn turn') {prompt : Prompt}
    (hasking : turn'.client = .asking prompt) :
    turn'.questions ≠ [] ∨ (turn.client = .asking prompt ∧ turn'.questions = turn.questions) := by
  cases hlocal with
  | @read event rest hclient hdown =>
    obtain ⟨client, told, heq, htold, hasks, hreads⟩ := Turn.read_spec port hclient event rest
    rw [heq] at hasking ⊢
    cases hquestion : event.question with
    | some asked =>
      rw [hquestion] at htold
      exact .inl (by simp [Turn.questions, htold])
    | none =>
      have hclient' : client = .asking prompt := hasking
      rcases hreads hquestion with hr | hg
      · rw [hr] at hclient'
        cases hclient'
      · rw [hg] at hclient'
        cases hclient'
  | eof | lose => cases hasking
  | say | ask | close => exact .inr ⟨hasking, rfl⟩

namespace Live

/-- One turn moves, and the surface stays where it is. -/
theorem of_turn (h : Live s) {t : Nat} {turn : Turn} {facts : List Fact}
    (hs : s' = { s.put t turn with log := s.log ++ facts })
    (howed : ((s.turns t).waiting ≠ none → (s.turns t).Owed) → turn.waiting ≠ none → turn.Owed)
    (hraised : t = s.current → ∀ prompt, turn.client = .asking prompt →
      turn.questions ≠ [] ∨ ((s.turns t).client = .asking prompt ∧ turn.questions = (s.turns t).questions)) :
    Live s' := by
  subst hs
  refine ⟨fun u => ?_, fun prompt => ?_, h.drawn⟩
  · change ((s.put t turn).turns u).waiting ≠ none → ((s.put t turn).turns u).Owed
    by_cases hut : u = t
    · subst hut
      rw [System.put_turns_self]
      exact howed (h.owed u)
    · rw [System.put_turns_of_ne s turn hut]
      exact h.owed u
  · change ((s.put t turn).turns s.current).client = _ →
      ((s.put t turn).turns s.current).questions ≠ [] ∨ _
    by_cases hcurrent : s.current = t
    · rw [hcurrent, System.put_turns_self]
      intro hasking
      rcases hraised hcurrent.symm prompt hasking with hnew | ⟨hold, hsame⟩
      · exact .inl hnew
      · rw [hsame, ← hcurrent]
        exact h.raised prompt (hcurrent ▸ hold)
    · rw [System.put_turns_of_ne s turn hcurrent]
      exact h.raised prompt

theorem of_put (h : Live s) {t : Nat} {turn : Turn}
    (howed : ((s.turns t).waiting ≠ none → (s.turns t).Owed) → turn.waiting ≠ none → turn.Owed)
    (hraised : t = s.current → ∀ prompt, turn.client = .asking prompt →
      turn.questions ≠ [] ∨ ((s.turns t).client = .asking prompt ∧ turn.questions = (s.turns t).questions)) :
    Live (s.put t turn) :=
  h.of_turn (show _ = { s.put t turn with log := s.log ++ [] } by rw [List.append_nil]; rfl) howed hraised

theorem apply (h : Live s) {intent : Intent} {rest : List Intent} (hui : s.ui = .applying (intent :: rest))
    (offered : String) : Live (s.apply offered rest intent) := by
  cases intent with
  | send text =>
    have hturns : ∀ u, (s.apply offered rest (.send text)).turns u =
        if u = s.started then .opened offered else s.turns u := fun u => Function.update_apply ..
    refine ⟨fun u => ?_, fun prompt => ?_, fun h => by cases h⟩
    · rw [hturns]
      split_ifs
      · exact fun h => absurd rfl h
      · exact h.owed u
    · have hcurrent : (s.apply offered rest (.send text)).current = s.started := Nat.add_sub_cancel ..
      rw [hcurrent, hturns, if_pos rfl]
      intro hasking
      cases hasking
  | approve granted reason =>
    unfold System.apply
    split_ifs
    · refine ⟨h.owed, fun prompt hasking => ?_, fun h => by cases h⟩
      have hraised := h.raised prompt hasking
      rw [hui] at hraised
      exact hraised
    · exact ⟨h.owed, fun _ _ => .inr (.inr (Option.some_ne_none _)), fun h => by cases h⟩

theorem tick (h : Live s) (hui : s.ui = .applying []) : Live s.tick := by
  have hsame : ∀ u, (s.tick.turns u).waiting = (s.turns u).waiting ∧ (s.tick.turns u).client = (s.turns u).client ∧
      (s.tick.turns u).up = (s.turns u).up ∧ (s.tick.turns u).down = (s.turns u).down := by
    intro u
    change ((s.put s.current _).turns u).waiting = _ ∧ ((s.put s.current _).turns u).client = _ ∧
      ((s.put s.current _).turns u).up = _ ∧ ((s.put s.current _).turns u).down = _
    by_cases hu : u = s.current
    · rw [hu, System.put_turns_self]
      exact ⟨rfl, rfl, rfl, rfl⟩
    · rw [System.put_turns_of_ne s _ hu]
      exact ⟨rfl, rfl, rfl, rfl⟩
  refine ⟨fun u => ?_, fun prompt hasking => ?_, fun _ => rfl⟩
  · obtain ⟨hwaiting, hclient, hup, hdown⟩ := hsame u
    unfold Turn.Owed
    rw [hwaiting, hclient, hup, hdown]
    exact h.owed u
  · refine .inr (.inl ?_)
    have hraised := h.raised prompt ((hsame s.current).2.1.symm.trans hasking)
    rw [hui] at hraised
    change (s.turns s.current).inbox.foldl System.raise s.pending ≠ none
    rw [System.foldl_raise, Ne, Option.or_eq_none_iff, List.getLast?_eq_none_iff]
    rintro ⟨hnil, hnone⟩
    rcases hraised with hquestions | hpending | hshowing
    · exact hquestions hnil
    · exact hpending hnone
    · exact hshowing rfl

theorem handed (h : Live s) {turn : Turn} {rest : List Intent} (howed : turn.Owed)
    (hclient : ∀ prompt, turn.client ≠ .asking prompt) :
    Live { s.put s.current turn with ui := .applying rest } := by
  refine ⟨fun u => ?_, fun prompt => ?_, fun h => by cases h⟩
  · change ((s.put s.current turn).turns u).waiting ≠ none → ((s.put s.current turn).turns u).Owed
    by_cases hu : u = s.current
    · rw [hu, System.put_turns_self]
      exact fun _ => howed
    · rw [System.put_turns_of_ne s turn hu]
      exact h.owed u
  · change ((s.put s.current turn).turns s.current).client = _ → _
    rw [System.put_turns_self]
    exact fun hasking => absurd hasking (hclient prompt)

theorem step (ho : Orderly token s) (h : Live s) (hstep : Step token port s s') : Live s' := by
  cases hstep with
  | key key hui =>
    obtain ⟨reason, answers, heq, -⟩ := s.onPendingApprovalKey_eq key
    rw [heq]
    exact ⟨h.owed, h.raised, h.drawn⟩
  | submit => exact ⟨h.owed, h.raised, h.drawn⟩
  | advance hui =>
    refine ⟨h.owed, fun prompt hasking => ?_, fun h => by cases h⟩
    have hraised := h.raised prompt hasking
    rw [hui] at hraised
    exact hraised
  | apply offered hui => exact h.apply hui offered
  | tick hui => exact h.tick hui
  | hand => exact h.handed (.inl (by simp [Turn.reply])) fun _ hasking => by cases hasking
  | handLost => exact h.handed (.inr (.inl rfl)) fun _ hasking => by cases hasking
  | unheard hui hclient =>
    refine ⟨h.owed, fun prompt hasking => ?_, fun h => by cases h⟩
    rw [show (s.turns s.current).client = .asking prompt from hasking] at hclient
    cases hclient
  | unattended ht => exact h.of_put (fun _ _ => .inl (by simp [Turn.reply])) fun heq => absurd heq ht.ne
  | unattendedLost detail ht => exact h.of_put (fun _ _ => .inr (.inl rfl)) fun heq => absurd heq ht.ne
  | @«local» t turn ht hlocal =>
    exact h.of_put (fun howed => Turn.Owed.local (ho.each t) howed hlocal)
      fun _ _ => Live.raised_local hlocal
  | accept => exact h.of_put id fun _ _ hasking => .inr ⟨hasking, rfl⟩
  | refuse => 
    refine h.of_put (fun howed hwaiting => ?_) fun _ _ hasking => .inr ⟨hasking, rfl⟩
    rcases howed hwaiting with hup | hgone | hasking | ⟨hclient, event, hmem, hquestion⟩
    · exact .inl hup
    · exact .inr (.inl hgone)
    · exact .inr (.inr (.inl hasking))
    · exact .inr (.inr (.inr ⟨hclient, event, List.mem_append_left _ hmem, hquestion⟩))
  | askUnwritten radius ht hserving hnone =>
    exact h.of_turn rfl (fun _ hwaiting => absurd hnone hwaiting) fun _ _ hasking => .inr ⟨hasking, rfl⟩
  | hear | deaf =>
    exact h.of_turn rfl (fun _ hwaiting => absurd rfl hwaiting) fun _ _ hasking => .inr ⟨hasking, rfl⟩

theorem of_reaches (h : Reaches token port calm s) : Live s := by
  induction h with
  | refl =>
    refine ⟨fun _ h => absurd rfl h, fun _ hasking => ?_, fun _ => rfl⟩
    cases hasking
  | tail hreach hstep ih => exact ih.step (.of_reaches hreach) hstep.2

end Live

/-- The gate of the turn can go on, or the user has been asked and can answer. -/
def System.Heard (s : System) (t : Nat) : Prop :=
  (s.turns t).up ≠ [] ∨ (s.turns t).client = .gone ∨ (s.ui = .keys ∧ s.shown ≠ none ∧ t = s.current)

/-- Without anyone's doing, the question of the turn gets to where it can be answered. -/
def Proceeds (port : Nat) (s : System) (t : Nat) : Prop :=
  ∃ s', Relation.ReflTransGen (Unprompted port) s s' ∧ s'.Heard t ∧
    (s'.turns t).waiting = (s.turns t).waiting

theorem Proceeds.after {t : Nat} (hstep : Unprompted port s s')
    (hwaiting : (s'.turns t).waiting = (s.turns t).waiting) (h : Proceeds port s' t) :
    Proceeds port s t := by
  obtain ⟨last, hreach, hheard, hsame⟩ := h
  exact ⟨last, .head hstep hreach, hheard, hsame.trans hwaiting⟩

theorem proceeds_of_heard {t : Nat} (h : s.Heard t) : Proceeds port s t := ⟨s, .refl, h, rfl⟩

/-- A turn that the surface has left answers itself. -/
theorem proceeds_of_left {t : Nat} (ht : t < s.current) {prompt : Prompt}
    (hclient : (s.turns t).client = .asking prompt) : Proceeds port s t := by
  refine .after (.unattended ht hclient) ?_ (proceeds_of_heard (.inl ?_))
  · rw [System.put_turns_self]
    rfl
  · rw [System.put_turns_self]
    simp [Turn.reply]

theorem proceeds_of_sending {granted : Bool} {reason : Option String} {showing : Option Prompt}
    {rest : List Intent} (hui : s.ui = .sending granted reason showing rest) {prompt : Prompt}
    (hclient : (s.turns s.current).client = .asking prompt) : Proceeds port s s.current := by
  have hturn : ({ s.put s.current ((s.turns s.current).reply prompt granted reason) with
      ui := .applying rest } : System).turns s.current =
        (s.turns s.current).reply prompt granted reason := System.put_turns_self ..
  refine .after (.hand hui hclient) ?_ (proceeds_of_heard (.inl ?_))
  · rw [hturn]
    rfl
  · rw [hturn]
    simp [Turn.reply]

/-- The first intent of the batch, or the end of the batch, decides. -/
theorem proceeds_of_applying (h : Live s) {rest : List Intent} (hui : s.ui = .applying rest)
    (hstarted : s.started ≠ 0) {prompt : Prompt}
    (hclient : (s.turns s.current).client = .asking prompt) : Proceeds port s s.current := by
  have hlt : s.current < s.started := Nat.sub_lt (Nat.pos_of_ne_zero hstarted) Nat.one_pos
  cases rest with
  | nil =>
    have hsame : (s.tick.turns s.current).client = (s.turns s.current).client ∧
        (s.tick.turns s.current).waiting = (s.turns s.current).waiting := by
      change ((s.put s.current _).turns s.current).client = _ ∧ ((s.put s.current _).turns s.current).waiting = _
      rw [System.put_turns_self]
      exact ⟨rfl, rfl⟩
    refine .after (.tick hui) hsame.2 (proceeds_of_heard (.inr (.inr ⟨rfl, ?_, rfl⟩)))
    have hraised := (h.tick hui).raised prompt (hsame.1.trans hclient)
    have hnil : (s.tick.turns s.current).questions = [] := by
      change ((s.put s.current _).turns s.current).questions = []
      rw [System.put_turns_self]
      rfl
    rcases hraised with hquestions | hpending | hshowing
    · exact absurd hnil hquestions
    · exact hpending
    · exact absurd rfl hshowing
  | cons intent rest =>
    cases intent with
    | send text =>
      have hturn : (s.apply "" rest (.send text)).turns s.current = s.turns s.current :=
        Function.update_of_ne hlt.ne ..
      refine .after (.apply "" hui) (by rw [hturn]) (proceeds_of_left ?_ (hturn ▸ hclient))
      exact hlt.trans_eq (Nat.add_sub_cancel ..).symm
    | approve granted reason =>
      have heq : s.apply "" rest (.approve granted reason) = { s with
          pending := none
          ui := .sending granted (reason.filter (! isBlank ·)) s.pending rest
          log := s.log ++ [.answered s.current s.pending granted] } := if_neg hstarted
      refine .after (.apply "" hui) (by rw [heq]) ?_
      rw [heq]
      exact proceeds_of_sending rfl hclient

theorem proceeds_of_asking (h : Live s) {t : Nat} (ht : t < s.started) {prompt : Prompt}
    (hclient : (s.turns t).client = .asking prompt) : Proceeds port s t := by
  have hle : t ≤ s.current := Nat.le_sub_one_of_lt ht
  rcases hle.lt_or_eq with hlt | rfl
  · exact proceeds_of_left hlt hclient
  · have hstarted : s.started ≠ 0 := Nat.ne_of_gt (Nat.zero_lt_of_lt ht)
    cases hui : s.ui with
    | sending granted reason showing rest => exact proceeds_of_sending hui hclient
    | applying rest => exact proceeds_of_applying h hui hstarted hclient
    | keys =>
      by_cases hshown : s.shown = none
      · have hadvanced : Live { s with ui := .applying s.outbox, outbox := [] } := by
          refine ⟨h.owed, fun asked hasking => ?_, fun h => by cases h⟩
          have hraised := h.raised asked hasking
          rw [hui] at hraised
          exact hraised
        exact .after (.advance hui) rfl (proceeds_of_applying hadvanced rfl hstarted hclient)
      · exact proceeds_of_heard (.inr (.inr ⟨hui, hshown, rfl⟩))

/-- The thread reads until it has a question to ask, or ends. -/
theorem proceeds_of_reading (ho : Orderly token s) (h : Live s) {t : Nat} (ht : t < s.started)
    (hclient : (s.turns t).client = .reading)
    (hasked : ∃ event ∈ (s.turns t).down, event.question ≠ none) : Proceeds port s t := by
  generalize hdown : (s.turns t).down = lines at hasked
  induction lines generalizing s with
  | nil =>
    obtain ⟨event, hmem, -⟩ := hasked
    cases hmem
  | cons event rest ih =>
    obtain ⟨client, told, heq, -, hasks, hreads⟩ := Turn.read_spec port hclient event rest
    have hstep : Unprompted port s (s.put t ((s.turns t).read port event rest)) := .read ht hclient hdown
    have hturn : (s.put t ((s.turns t).read port event rest)).turns t =
        { s.turns t with down := rest, client := client, inbox := (s.turns t).inbox ++ [told] } := by
      rw [System.put_turns_self, heq]
    have hany : Step token port _ _ := hstep.step
    have ho' := ho.step hany
    have hlive := h.step ho hany
    refine .after hstep (by rw [hturn]) ?_
    cases hquestion : event.question with
    | some prompt => exact proceeds_of_asking hlive ht (by rw [hturn, hasks prompt hquestion])
    | none =>
      rcases hreads hquestion with hr | hg
      · refine ih ho' hlive ht (by rw [hturn, hr]) (by rw [hturn]) ?_
        obtain ⟨other, hmem, hother⟩ := hasked
        rcases List.mem_cons.mp hmem with rfl | hrest
        · exact absurd hquestion hother
        · exact ⟨other, hrest, hother⟩
      · exact proceeds_of_heard (.inr (.inl (by rw [hturn, hg])))

end MarloweAgent.Daemon.Approving
