import MarloweAgent.Daemon.Approving
import Mathlib.Data.List.Nodup
import Mathlib.Data.List.Range

/-! What every run of the exchange keeps. Whatever the parties do and lose, the gate of a turn settles
the decisions it asked for in order, each once, and only on a connection that offered the token; and no
answer grants two of them. -/

namespace MarloweAgent.Daemon.Approving
open Permission

variable {token : String} {port : Nat} {calm : System → Prop} {s s' : System}

/-! ## Each decision once

Whatever the parties do and lose, the gate of a turn settles the decisions it asked for in
order, each once, and only on a connection that offered the token. -/

def Fact.settledIn (t : Nat) : Fact → Option Prompt
  | .settled u prompt _ => if u = t then some prompt else none
  | .answered _ _ _ => none

/-- What a gate asked is what it settled and what it waits for, numbered from one. -/
structure Orders (token : String) (turn : Turn) (settled : List Prompt) : Prop where
  asked : settled ++ turn.waiting.toList = turn.asked
  numbered : turn.asked.map Prompt.decision = List.range' 1 turn.asked.length
  next : turn.gate.nextDecision = turn.asked.length + 1
  serving : turn.service = .serving → turn.offered = token
  offered : turn.asked ≠ [] → turn.offered = token

namespace Orders

variable {turn turn' : Turn} {settled : List Prompt}

/-- Only what the gate and its service are counts. -/
theorem congr (h : Orders token turn settled) (hgate : turn'.gate = turn.gate)
    (hwaiting : turn'.waiting = turn.waiting) (hasked : turn'.asked = turn.asked)
    (hoffered : turn'.offered = turn.offered)
    (hservice : turn'.service = .serving → turn'.offered = token) : Orders token turn' settled := by
  refine ⟨?_, ?_, ?_, hservice, ?_⟩
  · rw [hwaiting, hasked, h.asked]
  · rw [hasked, h.numbered]
  · rw [hgate, hasked, h.next]
  · rw [hasked, hoffered]
    exact h.offered

theorem numbered_concat (h : Orders token turn settled) (radius : BlastRadius) :
    (turn.asked ++ [turn.gate.prompt radius]).map Prompt.decision =
      List.range' 1 (turn.asked ++ [turn.gate.prompt radius]).length := by
  rw [List.map_append, h.numbered, List.length_append, List.length_singleton, List.range'_concat]
  simp [SocketApprovals.prompt, h.next, Nat.add_comm]

theorem ask (h : Orders token turn settled) (hserving : turn.service = .serving)
    (hwaiting : turn.waiting = none) (radius : BlastRadius) :
    Orders token (turn.ask radius) settled := by
  have hsettled : settled = turn.asked := by simpa [hwaiting] using h.asked
  refine ⟨?_, h.numbered_concat radius, ?_, h.serving, fun _ => h.serving hserving⟩
  · rw [hsettled]
    rfl
  · simp [Turn.ask, SocketApprovals.numbered, h.next]

theorem askUnwritten (h : Orders token turn settled) (hserving : turn.service = .serving)
    (hwaiting : turn.waiting = none) (radius : BlastRadius) :
    Orders token (turn.askUnwritten radius) (settled ++ [turn.gate.prompt radius]) := by
  have hsettled : settled = turn.asked := by simpa [hwaiting] using h.asked
  refine ⟨?_, h.numbered_concat radius, ?_, h.serving, fun _ => h.serving hserving⟩
  · simp [Turn.askUnwritten, hwaiting, hsettled]
  · simp [Turn.askUnwritten, SocketApprovals.numbered, h.next]

theorem nextDecision_settle (gate : SocketApprovals) (decision : Nat) (heard : Option Request) :
    (gate.settle decision heard).2.nextDecision = gate.nextDecision := by
  unfold SocketApprovals.settle
  split
  · split_ifs <;> rfl
  · rfl
  · rfl

theorem settle (h : Orders token turn settled) {prompt : Prompt}
    (hwaiting : turn.waiting = some prompt) (heard : Option Request) :
    Orders token (turn.settle prompt heard) (settled ++ [prompt]) := by
  refine ⟨?_, h.numbered, ?_, h.serving, h.offered⟩
  · have hasked := h.asked
    rw [hwaiting] at hasked
    simpa [Turn.settle] using hasked
  · rw [Turn.settle, nextDecision_settle, h.next]

end Orders

structure Orderly (token : String) (s : System) : Prop where
  each : ∀ t, Orders token (s.turns t) (s.log.filterMap (Fact.settledIn t))
  unstarted : ∀ t, s.started ≤ t → (s.turns t).asked = []

namespace Orderly

/-- The surface and the turn threads do not settle anything. -/
theorem of_surface (h : Orderly token s) (hturns : s'.turns = s.turns) (hstarted : s'.started = s.started)
    (hlog : ∀ t, s'.log.filterMap (Fact.settledIn t) = s.log.filterMap (Fact.settledIn t)) :
    Orderly token s' := by
  refine ⟨fun t => ?_, fun t ht => ?_⟩
  · rw [hturns, hlog t]
    exact h.each t
  · rw [hturns]
    exact h.unstarted t (hstarted ▸ ht)

/-- One turn moves, and the log says what it settled. -/
theorem of_turn (h : Orderly token s) {t : Nat} {turn : Turn} {facts : List Fact}
    (hfresh : s.started ≤ t → turn.asked = [])
    (hturns : s'.turns = (s.put t turn).turns) (hstarted : s'.started = s.started)
    (hlog : s'.log = s.log ++ facts)
    (hothers : ∀ u, u ≠ t → facts.filterMap (Fact.settledIn u) = [])
    (horders : Orders token (s.turns t) (s.log.filterMap (Fact.settledIn t)) →
      Orders token turn (s.log.filterMap (Fact.settledIn t) ++ facts.filterMap (Fact.settledIn t))) :
    Orderly token s' := by
  refine ⟨fun u => ?_, fun u hu => ?_⟩
  · rw [hturns, hlog, List.filterMap_append]
    by_cases hut : u = t
    · subst hut
      rw [System.put_turns_self]
      exact horders (h.each u)
    · rw [System.put_turns_of_ne s turn hut, hothers u hut, List.append_nil]
      exact h.each u
  · rw [hturns]
    by_cases hut : u = t
    · subst hut
      rw [System.put_turns_self]
      exact hfresh (hstarted ▸ hu)
    · rw [System.put_turns_of_ne s turn hut]
      exact h.unstarted u (hstarted ▸ hu)

/-- One turn moves, and settles nothing. -/
theorem of_put (h : Orderly token s) {t : Nat} {turn : Turn} (hfresh : s.started ≤ t → turn.asked = [])
    (hturns : s'.turns = (s.put t turn).turns) (hstarted : s'.started = s.started)
    (hlog : s'.log = s.log)
    (horders : ∀ settled, Orders token (s.turns t) settled → Orders token turn settled) :
    Orderly token s' :=
  h.of_turn hfresh hturns hstarted (hlog.trans (List.append_nil _).symm) (fun _ _ => rfl)
    fun ho => by simpa using horders _ ho

/-- The thread of a turn moves: nothing of its gate does. -/
theorem of_thread (h : Orderly token s) {t : Nat} {turn : Turn}
    (hturns : s'.turns = (s.put t turn).turns) (hstarted : s'.started = s.started)
    (hlog : s'.log = s.log) (hgate : turn.gate = (s.turns t).gate)
    (hwaiting : turn.waiting = (s.turns t).waiting) (hasked : turn.asked = (s.turns t).asked)
    (hoffered : turn.offered = (s.turns t).offered) (hservice : turn.service = (s.turns t).service) :
    Orderly token s' := by
  refine h.of_put (fun hle => hasked.trans (h.unstarted t hle)) hturns hstarted hlog fun _ ho => ?_
  exact ho.congr hgate hwaiting hasked hoffered fun hs => hoffered ▸ ho.serving (hservice ▸ hs)

theorem startTurn (h : Orderly token s) (offered : String) : Orderly token (s.startTurn offered) := by
  have hnone := h.unstarted s.started (Nat.le_refl _)
  have hnil : s.log.filterMap (Fact.settledIn s.started) = [] := by
    have hasked := (h.each s.started).asked
    rw [hnone] at hasked
    exact (List.append_eq_nil_iff.mp hasked).1
  refine ⟨fun u => ?_, fun u hu => ?_⟩
  · by_cases hus : u = s.started
    · subst hus
      change Orders token ((s.put s.started (.opened offered)).turns s.started)
        (s.log.filterMap (Fact.settledIn s.started))
      rw [System.put_turns_self, hnil]
      exact ⟨rfl, rfl, rfl, by simp [Turn.opened], by simp [Turn.opened]⟩
    · change Orders token ((s.put s.started (.opened offered)).turns u) _
      rw [System.put_turns_of_ne s _ hus]
      exact h.each u
  · have hsu : s.started + 1 ≤ u := hu
    have hus : u ≠ s.started := by omega
    change ((s.put s.started (.opened offered)).turns u).asked = []
    rw [System.put_turns_of_ne s _ hus]
    exact h.unstarted u (by omega)

theorem orders_local {turn turn' : Turn} {settled : List Prompt} (h : Local port turn turn')
    (ho : Orders token turn settled) : Orders token turn' settled := by
  cases h with
  | @read event rest hclient hdown =>
    obtain ⟨client, told, heq, -⟩ := Turn.read_spec port hclient event rest
    rw [heq]
    exact ho.congr rfl rfl rfl rfl ho.serving
  | eof | lose | say => exact ho.congr rfl rfl rfl rfl ho.serving
  | ask radius hserving hwaiting => exact ho.ask hserving hwaiting radius
  | close hserving => exact ho.congr rfl rfl rfl rfl fun h => by cases h

theorem step (h : Orderly token s) (hstep : Step token port s s') : Orderly token s' := by
  cases hstep with
  | key key =>
    obtain ⟨reason, answers, heq, -⟩ := s.onPendingApprovalKey_eq key
    rw [heq]
    exact h.of_surface rfl rfl fun _ => rfl
  | submit | advance | unheard => exact h.of_surface rfl rfl fun _ => rfl
  | @apply intent rest offered hui =>
    cases intent with
    | send text => exact (h.startTurn offered).of_surface rfl rfl fun _ => rfl
    | approve granted reason =>
      unfold System.apply
      split_ifs
      · exact h.of_surface rfl rfl fun _ => rfl
      · exact h.of_surface rfl rfl fun t => by simp [Fact.settledIn]
  | tick | hand | handLost | unattended | unattendedLost =>
    exact h.of_thread rfl rfl rfl rfl rfl rfl rfl rfl
  | «local» ht hlocal =>
    exact h.of_put (fun hle => absurd ht hle.not_gt) rfl rfl rfl fun _ => orders_local hlocal
  | accept ht hqueued hfree htoken =>
    exact h.of_put (fun hle => absurd ht hle.not_gt) rfl rfl rfl fun _ ho =>
      ho.congr rfl rfl rfl rfl fun _ => ((Auth.tokenMatches_iff ..).mp htoken).symm
  | refuse ht =>
    exact h.of_put (fun hle => absurd ht hle.not_gt) rfl rfl rfl fun _ ho =>
      ho.congr rfl rfl rfl rfl fun h => by cases h
  | askUnwritten radius ht hserving hwaiting =>
    exact h.of_turn (fun hle => absurd ht hle.not_gt) rfl rfl rfl
      (fun u hu => by simp [Fact.settledIn, Ne.symm hu])
      fun ho => by simpa [Fact.settledIn] using ho.askUnwritten hserving hwaiting radius
  | @hear t prompt line rest ht hwaiting =>
    refine h.of_turn (fun hle => absurd ht hle.not_gt) rfl rfl rfl
      (fun u hu => by simp [Fact.settledIn, Ne.symm hu]) fun ho => ?_
    have hsettled := ho.settle hwaiting (some line)
    have hread : Orders token { (s.turns t).settle prompt (some line) with up := rest } _ :=
      hsettled.congr rfl rfl rfl rfl ho.serving
    simpa [Fact.settledIn] using hread
  | deaf ht hwaiting =>
    refine h.of_turn (fun hle => absurd ht hle.not_gt) rfl rfl rfl
      (fun u hu => by simp [Fact.settledIn, Ne.symm hu]) fun ho => ?_
    simpa [Fact.settledIn] using ho.settle hwaiting none

theorem of_reaches (h : Reaches token port calm s) : Orderly token s := by
  induction h with
  | refl =>
    refine ⟨fun t => ⟨rfl, rfl, rfl, ?_, fun hasked => absurd rfl hasked⟩, fun _ _ => rfl⟩
    intro hserving
    cases hserving
  | tail _ hstep ih => exact ih.step hstep.2

end Orderly

/-! ## Each answer once

An answer is written on the connection of the turn that took it, and a gate grants only on a
line that grants. -/

def Request.grants : Request → Bool
  | .approve _ granted _ => granted
  | .other _ => false

def Fact.granted (t : Nat) : Fact → Bool
  | .settled u _ granted => u = t && granted
  | .answered _ _ _ => false

def Fact.allowed (t : Nat) : Fact → Bool
  | .answered u _ granted => u = t && granted
  | .settled _ _ _ => false

/-- The yes that the session is handing over. -/
def Ui.yes : Ui → Nat
  | .sending granted _ _ _ => granted.toNat
  | .keys | .applying _ => 0

@[simp] theorem Ui.yes_applying (rest : List Intent) : (Ui.applying rest).yes = 0 := rfl

@[simp] theorem Ui.yes_sending (granted : Bool) (reason : Option String) (showing : Option Prompt)
    (rest : List Intent) : (Ui.sending granted reason showing rest).yes = granted.toNat := rfl

/-- The yeses given to a turn that its gate has not read. -/
def System.unread (s : System) (t : Nat) : Nat :=
  (s.turns t).up.countP Request.grants + if t = s.current then s.ui.yes else 0

theorem System.unread_of_idle (h : s.ui.yes = 0) (t : Nat) :
    s.unread t = (s.turns t).up.countP Request.grants := by
  rw [System.unread, h, ite_self, Nat.add_zero]

/-- The gate of a turn has granted no more than was allowed to the turn and read. -/
def Spent (s : System) : Prop :=
  ∀ t, s.log.countP (Fact.granted t) + s.unread t ≤ s.log.countP (Fact.allowed t)

theorem verdict_le {turn : Turn} {prompt : Prompt} (line : Request) :
    (turn.verdict prompt (some line)).toNat ≤ line.grants.toNat := by
  cases line with
  | other => exact Nat.le_refl 0
  | approve d granted reason =>
    by_cases hd : d = prompt.decision
    · simp [Turn.verdict, SocketApprovals.settle, hd, Request.grants]
    · simp [Turn.verdict, SocketApprovals.settle, hd]

@[simp] theorem verdict_none (turn : Turn) (prompt : Prompt) : turn.verdict prompt none = false := rfl

theorem up_local {turn turn' : Turn} (h : Local port turn turn') : turn'.up = turn.up := by
  cases h with
  | @read event rest hclient hdown =>
    obtain ⟨client, told, heq, -⟩ := Turn.read_spec port hclient event rest
    rw [heq]
  | eof | lose | say | ask | close => rfl

namespace Spent

/-- What was read and what is unread grow by no more than what was allowed. -/
theorem of_le (h : Spent s) {facts : List Fact} (hlog : s'.log = s.log ++ facts)
    (hle : ∀ t, facts.countP (Fact.granted t) + s'.unread t ≤
      facts.countP (Fact.allowed t) + s.unread t) : Spent s' := by
  intro t
  have ht := h t
  have hmore := hle t
  rw [hlog, List.countP_append, List.countP_append]
  omega

theorem of_unread (h : Spent s) (hlog : s'.log = s.log) (hle : ∀ t, s'.unread t ≤ s.unread t) :
    Spent s' :=
  h.of_le (hlog.trans (List.append_nil _).symm) fun t => by simpa using hle t

/-- One turn moves. -/
theorem of_turn (h : Spent s) {t : Nat} {turn : Turn} {facts : List Fact}
    (hturns : s'.turns = (s.put t turn).turns) (hcurrent : s'.current = s.current)
    (hui : s'.ui.yes ≤ s.ui.yes) (hlog : s'.log = s.log ++ facts)
    (hothers : ∀ u, u ≠ t → facts.countP (Fact.granted u) = 0)
    (hup : facts.countP (Fact.granted t) + turn.up.countP Request.grants ≤
      (s.turns t).up.countP Request.grants) : Spent s' := by
  refine h.of_le hlog fun u => ?_
  unfold System.unread
  rw [hturns, hcurrent]
  have hyes : (if u = s.current then s'.ui.yes else 0) ≤ if u = s.current then s.ui.yes else 0 := by
    split_ifs
    · exact hui
    · exact Nat.le_refl 0
  by_cases hut : u = t
  · subst hut
    rw [System.put_turns_self]
    omega
  · rw [System.put_turns_of_ne s turn hut, hothers u hut]
    omega

theorem of_put (h : Spent s) {t : Nat} {turn : Turn} (hturns : s'.turns = (s.put t turn).turns)
    (hcurrent : s'.current = s.current) (hui : s'.ui.yes ≤ s.ui.yes) (hlog : s'.log = s.log)
    (hup : turn.up.countP Request.grants ≤ (s.turns t).up.countP Request.grants) : Spent s' :=
  h.of_turn hturns hcurrent hui (hlog.trans (List.append_nil _).symm) (fun _ _ => rfl)
    (by simpa using hup)

theorem apply_send (h : Spent s) {rest : List Intent} {intent : Intent}
    (hui : s.ui = .applying (intent :: rest)) (offered : String) (text : String) :
    Spent (s.apply offered rest (.send text)) := by
  refine h.of_unread rfl fun u => ?_
  have hidle : s.ui.yes = 0 := by rw [hui, Ui.yes_applying]
  rw [System.unread_of_idle hidle, System.unread_of_idle rfl]
  change ((s.put s.started (.opened offered)).turns u).up.countP Request.grants ≤ _
  by_cases hus : u = s.started
  · subst hus
    rw [System.put_turns_self]
    exact Nat.zero_le _
  · rw [System.put_turns_of_ne s _ hus]

theorem apply_approve (h : Spent s) {rest : List Intent} {intent : Intent}
    (hui : s.ui = .applying (intent :: rest)) (offered : String) (granted : Bool)
    (reason : Option String) : Spent (s.apply offered rest (.approve granted reason)) := by
  have hidle : s.ui.yes = 0 := by rw [hui, Ui.yes_applying]
  unfold System.apply
  split_ifs with hnone
  · refine h.of_unread rfl fun u => ?_
    rw [System.unread_of_idle hidle, System.unread_of_idle rfl]
  · refine h.of_le rfl fun u => ?_
    rw [System.unread_of_idle hidle]
    by_cases hu : s.current = u
    · subst hu
      cases granted <;> simp [System.unread, System.current, Fact.granted, Fact.allowed, Nat.add_comm]
    · have hcurrent : u ≠ s.started - 1 := Ne.symm hu
      simp [System.unread, System.current, Fact.granted, hcurrent]

theorem hand (h : Spent s) {granted : Bool} {reason : Option String} {showing : Option Prompt}
    {rest : List Intent} (hui : s.ui = .sending granted reason showing rest) (prompt : Prompt) :
    Spent { s.put s.current ((s.turns s.current).reply prompt granted reason) with
      ui := .applying rest } := by
  refine h.of_unread rfl fun u => ?_
  rw [System.unread_of_idle rfl, System.unread, hui]
  by_cases hu : u = s.current
  · subst hu
    change ((s.put s.current _).turns s.current).up.countP Request.grants ≤ _
    rw [System.put_turns_self]
    cases granted <;> simp [Turn.reply, Request.grants]
  · change ((s.put s.current _).turns u).up.countP Request.grants ≤ _
    rw [System.put_turns_of_ne s _ hu]
    exact Nat.le_add_right _ _

theorem step (h : Spent s) (hstep : Step token port s s') : Spent s' := by
  cases hstep with
  | key key =>
    obtain ⟨reason, answers, heq, -⟩ := s.onPendingApprovalKey_eq key
    rw [heq]
    exact h.of_unread rfl fun _ => Nat.le_refl _
  | submit => exact h.of_unread rfl fun _ => Nat.le_refl _
  | advance | unheard =>
    refine h.of_unread rfl fun t => ?_
    rw [System.unread_of_idle rfl]
    exact Nat.le_add_right _ _
  | @apply intent rest offered hui =>
    cases intent with
    | send text => exact h.apply_send hui offered text
    | approve granted reason => exact h.apply_approve hui offered granted reason
  | tick | handLost => exact h.of_put rfl rfl (Nat.zero_le _) rfl (Nat.le_refl _)
  | hand hui => exact h.hand hui _
  | unattended => exact h.of_put rfl rfl (Nat.le_refl _) rfl (by simp [Turn.reply, Request.grants])
  | unattendedLost | accept | refuse => exact h.of_put rfl rfl (Nat.le_refl _) rfl (Nat.le_refl _)
  | «local» ht hlocal => exact h.of_put rfl rfl (Nat.le_refl _) rfl (by rw [up_local hlocal])
  | askUnwritten | deaf =>
    exact h.of_turn rfl rfl (Nat.le_refl _) rfl (fun u hu => by simp [Fact.granted])
      (by simp [Fact.granted, Turn.settle, Turn.askUnwritten])
  | @hear t prompt line rest ht hwaiting hup =>
    refine h.of_turn rfl rfl (Nat.le_refl _) rfl (fun u hu => by simp [Fact.granted, Ne.symm hu]) ?_
    have hle : ((s.turns t).verdict prompt (some line)).toNat ≤ line.grants.toNat := verdict_le line
    rw [hup, List.countP_cons]
    cases hverdict : (s.turns t).verdict prompt (some line) <;>
      cases hgrants : line.grants <;> simp_all [Fact.granted, Nat.add_comm]

theorem of_reaches (h : Reaches token port calm s) : Spent s := by
  induction h with
  | refl =>
    intro t
    rw [System.unread_of_idle rfl]
    exact Nat.le_refl 0
  | tail _ hstep ih => exact ih.step hstep.2

end Spent

/-- **Each decision once, each answer once.** In every run, whatever is lost and however the
daemon, the turn threads and the surface interleave: a turn's gate settles its decisions in the
order it numbered them, each once; it settles one only for a client that offered the token; and
it grants no more of them than the user allowed in that turn. -/
theorem decided_once (h : Reaches token port calm s) (t : Nat) :
    ((s.log.filterMap (Fact.settledIn t)).map Prompt.decision =
        List.range' 1 (s.log.filterMap (Fact.settledIn t)).length ∧
      (s.log.filterMap (Fact.settledIn t) ≠ [] → (s.turns t).offered = token)) ∧
      s.log.countP (Fact.granted t) ≤ s.log.countP (Fact.allowed t) := by
  have ho := (Orderly.of_reaches h).each t
  refine ⟨⟨?_, ?_⟩, (Nat.le_add_right _ _).trans (Spent.of_reaches h t)⟩
  · have hnumbered := ho.numbered
    rw [← ho.asked, List.map_append, List.length_append, List.range'_append_1.symm] at hnumbered
    exact (List.append_inj hnumbered (by simp)).1
  · intro hsettled
    refine ho.offered ?_
    rw [← ho.asked]
    simp [hsettled]

theorem decided_once_allowed : ∃ s, Reaches "k" 4317 System.unhurried s ∧
    s.log.countP (Fact.granted 0) = 1 ∧
    ((s.log.filterMap (Fact.settledIn 0)).map Prompt.decision =
        List.range' 1 (s.log.filterMap (Fact.settledIn 0)).length ∧
      (s.log.filterMap (Fact.settledIn 0) ≠ [] → (s.turns 0).offered = "k")) ∧
      s.log.countP (Fact.granted 0) ≤ s.log.countP (Fact.allowed 0) := by
  obtain ⟨s, h, hone⟩ := exists_reaches "k" 4317 System.unhurried allowedCues
    (fun s => s.log.countP (Fact.granted 0) = 1) (by decide)
  exact ⟨s, h, by simpa using hone, decided_once h 0⟩

end MarloweAgent.Daemon.Approving
