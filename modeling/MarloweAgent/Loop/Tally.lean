import MarloweAgent.Loop.Execution
import MarloweAgent.Loop.Script

/-! What a run has spent, against everything that was used while it ran: its own model
answers and batches, and those of the runs nested in it, to any depth. Each is counted once
in the run's own count, which stops at its machine width. -/

namespace MarloweAgent.Loop
open Contract Library Tools Permission

variable {σ : Type} {sys : Outside σ}

/-! ## Counters -/

/-- The counters of a budget hold it. -/
structure Budget.Counts (b : Budget) : Prop where
  tokens : b.tokens ≤ u64Max
  toolCalls : b.toolCalls ≤ u32Max
  subagents : b.subagents ≤ u16Max
  microsUsd : b.microsUsd ≤ u64Max

theorem Budget.counts_add (b b' : Budget) : (b.add b').Counts :=
  ⟨Nat.min_le_right _ _, Nat.min_le_right _ _, Nat.min_le_right _ _, Nat.min_le_right _ _⟩

/-! ## What is used -/

/-- The tokens of a model's answer. -/
def Effect.tokens : Effect → Nat
  | .modelAnswered _ usage => usage.promptTokens + usage.completionTokens
  | _ => 0

/-- The cost of a model's answer. -/
def Effect.microsUsd : Effect → Nat
  | .modelAnswered _ usage => usage.microsUsd
  | _ => 0

/-- The calls of a batch, as the counter takes them. -/
def Effect.toolCalls : Effect → Nat
  | .hostCalled _ items => items.length % 2 ^ 32
  | _ => 0

/-- One for each nested run that came back. -/
def Effect.subagents : Effect → Nat
  | .returned .. => 1
  | _ => 0

def total (amount : Effect → Nat) (trace : List Effect) : Nat := (trace.map amount).sum

theorem total_append (amount : Effect → Nat) (trace trace' : List Effect) :
    total amount (trace ++ trace') = total amount trace + total amount trace' := by
  simp [total]

@[simp] theorem total_nil (amount : Effect → Nat) : total amount [] = 0 := rfl

@[simp] theorem total_cons (amount : Effect → Nat) (e : Effect) (trace : List Effect) :
    total amount (e :: trace) = amount e + total amount trace := List.sum_cons

theorem total_of_none {amount : Effect → Nat} {trace : List Effect} (h : ∀ e ∈ trace, amount e = 0) :
    total amount trace = 0 := by
  induction trace with
  | nil => rfl
  | cons e rest ih =>
    obtain ⟨he, hrest⟩ := List.forall_mem_cons.mp h
    rw [total_cons, he, ih hrest]

/-- An effect that uses nothing. -/
structure Effect.Idle (e : Effect) : Prop where
  tokens : e.tokens = 0
  microsUsd : e.microsUsd = 0
  toolCalls : e.toolCalls = 0
  subagents : e.subagents = 0

theorem Effect.PlainOf.idle {run : RunId} {e : Effect} (h : e.PlainOf run) : e.Idle := by
  cases e <;> first | exact ⟨rfl, rfl, rfl, rfl⟩ | cases h.plain

/-- The count after some effects is the count before and all that they used, as far as the
counters go. -/
structure Tallied (before after : Budget) (trace : List Effect) : Prop where
  tokens : after.tokens = min (before.tokens + total Effect.tokens trace) u64Max
  toolCalls : after.toolCalls = min (before.toolCalls + total Effect.toolCalls trace) u32Max
  subagents : after.subagents = min (before.subagents + total Effect.subagents trace) u16Max
  microsUsd : after.microsUsd = min (before.microsUsd + total Effect.microsUsd trace) u64Max

namespace Tallied

variable {before between after : Budget} {trace trace' : List Effect}

theorem counts (h : Tallied before after trace) : after.Counts := by
  refine ⟨?_, ?_, ?_, ?_⟩
  · exact h.tokens.le.trans (Nat.min_le_right _ _)
  · exact h.toolCalls.le.trans (Nat.min_le_right _ _)
  · exact h.subagents.le.trans (Nat.min_le_right _ _)
  · exact h.microsUsd.le.trans (Nat.min_le_right _ _)

/-- Nothing was used. -/
theorem of_idle (hb : before.Counts) (h : ∀ e ∈ trace, e.Idle) : Tallied before before trace := by
  have htokens := total_of_none fun e he => (h e he).tokens
  have hcalls := total_of_none fun e he => (h e he).toolCalls
  have hagents := total_of_none fun e he => (h e he).subagents
  have hmicros := total_of_none fun e he => (h e he).microsUsd
  obtain ⟨hb₁, hb₂, hb₃, hb₄⟩ := hb
  constructor <;> omega

theorem trans (h : Tallied before between trace) (h' : Tallied between after trace') :
    Tallied before after (trace ++ trace') := by
  have htokens := total_append Effect.tokens trace trace'
  have hcalls := total_append Effect.toolCalls trace trace'
  have hagents := total_append Effect.subagents trace trace'
  have hmicros := total_append Effect.microsUsd trace trace'
  obtain ⟨h₁, h₂, h₃, h₄⟩ := h
  obtain ⟨h₁', h₂', h₃', h₄'⟩ := h'
  constructor <;> omega

/-- What a nested run used, charged to its caller at once. -/
theorem nested {used : Budget} (h : Tallied {} used trace) (before : Budget) :
    Tallied before (before.add used) trace := by
  have h₁ : used.tokens = min (0 + total Effect.tokens trace) u64Max := h.tokens
  have h₂ : used.toolCalls = min (0 + total Effect.toolCalls trace) u32Max := h.toolCalls
  have h₃ : used.subagents = min (0 + total Effect.subagents trace) u16Max := h.subagents
  have h₄ : used.microsUsd = min (0 + total Effect.microsUsd trace) u64Max := h.microsUsd
  constructor
  · change min (before.tokens + used.tokens) u64Max = _
    omega
  · change min (before.toolCalls + used.toolCalls) u32Max = _
    omega
  · change min (before.subagents + used.subagents) u16Max = _
    omega
  · change min (before.microsUsd + used.microsUsd) u64Max = _
    omega

/-- And the nested run itself. -/
theorem back (before : Budget) (parent child charged charged' : Run) (outcome : LoopOutcome) :
    Tallied before (before.add { subagents := 1 })
      [.returned parent child outcome, .charged charged, .charged charged'] :=
  ⟨rfl, rfl, rfl, rfl⟩

end Tallied

/-! ## Over an execution -/

/-- What was added to the trace is what was added to the run's count. -/
def Tallies (m m' : Machine σ) : Prop :=
  m.run.spent.Counts → ∃ es, m'.trace = m.trace ++ es ∧ Tallied m.run.spent m'.run.spent es

namespace Tallies

theorem refl (m : Machine σ) : Tallies m m :=
  fun hm => ⟨[], (List.append_nil _).symm, .of_idle hm (by simp)⟩

theorem trans {m m' m'' : Machine σ} (h : Tallies m m') (h' : Tallies m' m'') : Tallies m m'' := by
  intro hm
  obtain ⟨es, htrace, hes⟩ := h hm
  obtain ⟨es', htrace', hes'⟩ := h' hes.counts
  refine ⟨es ++ es', ?_, hes.trans hes'⟩
  rw [htrace', htrace, List.append_assoc]

/-- A step that uses nothing. -/
theorem of_idle {m m' : Machine σ} {l : List Effect} (spent : m'.run.spent = m.run.spent)
    (trace : m'.trace = m.trace ++ l) (h : ∀ e ∈ l, e.Idle) : Tallies m m' := by
  intro hm
  refine ⟨l, trace, ?_⟩
  rw [spent]
  exact .of_idle hm h

/-- A use, and its charge. -/
theorem of_use {m : Machine σ} {e : Effect} {amount : Budget}
    (tokens : min e.tokens u64Max = min amount.tokens u64Max)
    (toolCalls : e.toolCalls = amount.toolCalls) (subagents : e.subagents = amount.subagents)
    (microsUsd : e.microsUsd = amount.microsUsd) : Tallies m ((m.note e).charged amount) := by
  intro hm
  refine ⟨[e, .charged { m.run with spent := m.run.spent.add amount }], List.append_assoc _ _ _, ?_⟩
  constructor
  · change min (m.run.spent.tokens + amount.tokens) u64Max = min (m.run.spent.tokens + (e.tokens + 0)) u64Max
    omega
  · change min (m.run.spent.toolCalls + amount.toolCalls) u32Max = _
    rw [← toolCalls]
    rfl
  · change min (m.run.spent.subagents + amount.subagents) u16Max = _
    rw [← subagents]
    rfl
  · change min (m.run.spent.microsUsd + amount.microsUsd) u64Max = _
    rw [← microsUsd]
    rfl

end Tallies

theorem Act.tallies {m m' : Machine σ} (h : Act sys m m') : Tallies m m' := by
  cases h with
  | tell es h =>
    obtain ⟨_, _, _, hrun⟩ := h.run
    exact .of_idle (by rw [hrun]) h.trace fun e he => (h.plain e he).idle
  | push | clear | enlist => exact .of_idle rfl (List.append_nil _).symm (by simp)
  | latch observed =>
    refine .of_idle ?_ (List.append_nil _).symm (by simp)
    rw [Run.latchTrustFloor_eq]
    rfl
  | «begin» | violation | call | took | used | adjudicated | groupStart | checkpoint =>
    exact .of_idle (l := [_]) rfl rfl (by simpa using ⟨rfl, rfl, rfl, rfl⟩)
  | asked decision granted =>
    refine .of_idle (l := [.asked m.run.id decision granted]) ?_ rfl (by simpa using ⟨rfl, rfl, rfl, rfl⟩)
    cases granted <;> rfl
  | compaction child summary p q first second fn sn h hf hs seen offered answer locals children cps
      state trace =>
    obtain ⟨_, _, _, hrun⟩ := h.run
    refine .of_idle (by rw [hrun]) trace ?_
    exact forall_compactionEffects hf hs (fun e he => he.idle) (fun _ _ _ => ⟨rfl, rfl, rfl, rfl⟩)
      ⟨rfl, rfl, rfl, rfl⟩
  | answer usage =>
    refine .of_use ?_ rfl rfl rfl
    exact (min_assoc _ _ _).trans (congrArg _ (min_self _)) |>.symm
  | host items wallMs h =>
    cases items with
    | nil =>
      intro hm
      refine ⟨[_], rfl, ?_⟩
      obtain ⟨h₁, h₂, h₃, h₄⟩ := hm
      constructor <;> simp [Machine.charged, Machine.note, Machine.withRun, Budget.add, satAdd, total,
        Effect.tokens, Effect.toolCalls, Effect.subagents, Effect.microsUsd]
    | cons item rest => exact .of_use rfl rfl rfl rfl

/-- **Coming back, the caller has counted all that its nested run used**, and the run. -/
theorem Tallies.call {m d fin : Machine σ} {child : Run} {state : SessionState} (hborn : Born m child)
    (hbody : Tallies (m.entered child state) d) (hfin : Finished d fin) (outcome : LoopOutcome) :
    Tallies m (fin.backIn m outcome) := by
  intro hm
  have hunspent : (m.entered child state).run.spent = {} := hborn.unspent
  have hzero : ({} : Budget).Counts := ⟨Nat.zero_le _, Nat.zero_le _, Nat.zero_le _, Nat.zero_le _⟩
  obtain ⟨es, htrace, hes⟩ := hbody (hunspent ▸ hzero)
  obtain ⟨es', htrace', hes'⟩ := hfin.trace
  obtain ⟨_, _, _, hrun⟩ := hfin.run
  have hspent : fin.run.spent = d.run.spent := by rw [hrun]
  rw [hunspent, ← hspent] at hes
  have hended : Tallied {} fin.run.spent (es ++ es') :=
    hes.trans (.of_idle hes.counts fun e he => (hes' e he).idle)
  have hspawned : Tallied m.run.spent m.run.spent [.spawned m.frame.ancestors m.run child] :=
    .of_idle hm (by simpa using ⟨rfl, rfl, rfl, rfl⟩)
  have hused := hspawned.trans (hended.nested m.run.spent)
  let charged : Run := { m.run with spent := m.run.spent.add fin.run.spent }
  have hback := Tallied.back charged.spent m.run fin.run charged
    { charged with spent := charged.spent.add { subagents := 1 } } outcome
  refine ⟨_, ?_, hused.trans hback⟩
  have hfinal : fin.trace = m.trace ++ .spawned m.frame.ancestors m.run child :: (es ++ es') := by
    rw [htrace', htrace]
    simp [Machine.entered]
  have hcharged : (fin.backIn m outcome).trace =
      ((fin.trace ++ [.returned m.run fin.run outcome]) ++ [.charged charged]) ++
        [.charged { charged with spent := charged.spent.add { subagents := 1 } }] := rfl
  rw [hcharged, hfinal]
  simp only [List.append_assoc, List.cons_append, List.nil_append]

/-- **What an execution adds to the count is what it used**, the runs it nests included. -/
theorem Runs.tallies {m m' : Machine σ} (h : Runs sys m m') : Tallies m m' := by
  refine Calls.relates Tallies.refl (fun _ _ _ => Tallies.trans) (fun _ _ => Act.tallies) ?_ h
  rintro m c d m' ⟨child, state, hborn, rfl⟩ hbody ⟨fin, outcome, hfin, rfl⟩
  exact hbody.call hborn hfin outcome

/-- **Spending is conserved over nested runs.** At the end of a drive the run's count is what it
was before and everything used since, by the run and by every run nested in it, to any depth:
the tokens and the cost of every model answer, the calls of every batch, and one subagent for
each nested run. Nothing is lost on the way up and nothing is counted twice; the counters stop
at their machine width. -/
theorem drive_tallied (sys : Outside σ) (ports : Ports σ) (engine : Engine) (run : Run)
    (state : SessionState) (provenance : Provenance) (env : σ) (fresh steps retries : Nat)
    (h : run.spent.Counts) :
    let ended := ((runDriveInner sys ports steps retries).run
      (.start engine run state provenance env fresh steps retries)).2
    Tallied run.spent ended.run.spent ended.trace := by
  intro ended
  let started := Machine.start engine run state provenance env fresh steps retries
  have hruns : Runs sys started ended := runDriveInner_runs ports started
  obtain ⟨es, htrace, hes⟩ := hruns.tallies h
  rw [htrace]
  exact hes

/-- A run told to fetch a page, which a nested run reads, with an answer's price on each. -/
def Script.paid : Machine Script :=
  start 100000 looks ample
    { answers :=
        [{ usage := ⟨100, 20, 3, 5⟩, step := .toolCall [⟨"a", look, .empty⟩] },
          { usage := ⟨70, 10, 2, 5⟩, step := .say "about:\na page\nsource_1:\npage" },
          { usage := ⟨120, 8, 3, 5⟩, step := .say "done" }]
      outcomes := [[result .untrustedContent "page"]] }

set_option maxRecDepth 20000 in
/-- The reader's eighty tokens are in its caller's count. -/
theorem drive_tallied_paid :
    let ended := Script.played Script.paid
    Tallied {} ended.run.spent ended.trace ∧ ended.run.spent.tokens = 328 ∧
      ended.run.spent.toolCalls = 1 ∧ ended.run.spent.subagents = 1 := by
  have hspent : (Script.played Script.paid).run.spent.tokens = 328 ∧
      (Script.played Script.paid).run.spent.toolCalls = 1 ∧
      (Script.played Script.paid).run.spent.subagents = 1 := by decide
  have hended := drive_tallied Script.outside Script.ports (Script.engine 100000)
    (.root 1 1 Script.looks Script.ample .answer) (.new 1 "M") .new Script.paid.env 2 0 0
    ⟨by decide, by decide, by decide, by decide⟩
  have hstart : Machine.start (Script.engine 100000) (.root 1 1 Script.looks Script.ample .answer)
    (.new 1 "M") .new Script.paid.env 2 0 0 = Script.paid := rfl
  rw [hstart] at hended
  exact ⟨hended, hspent⟩

end MarloweAgent.Loop
