import MarloweAgent.Library.Trace
import MarloweAgent.Loop.Execution
import MarloweAgent.Loop.Script

/-! Append before discard. A compaction asks for two records and then replaces the
volatile tier; that both were appended is guaranteed exactly when the recorder
accepts them all, because nobody looks. -/

namespace MarloweAgent.Loop
open Contract Library Tools Permission EventLog

variable {σ : Type} {sys : Outside σ}

/-- A record of a compaction, or the compaction. -/
def Effect.isCompaction : Effect → Bool
  | .recorded _ _ kind _ _ => kind = .sessionSummarized || kind = .sessionSpawned
  | .compacted _ _ _ => true
  | _ => false

/-- A compaction comes right after its two records, both of them appended. -/
def Effect.AppendedBefore (before : List Effect) : Effect → Prop
  | .compacted run state _ => ∃ earlier summary spawned, before.filter Effect.isCompaction = earlier ++
      [.recorded run state.session .sessionSummarized summary true,
        .recorded run state.session .sessionSpawned spawned true]
  | _ => True

/-- If it is a record of a compaction, the recorder accepted it. -/
def Effect.IsAppended (e : Effect) : Prop :=
  match e with
  | .recorded _ _ _ _ accepted => e.isCompaction = true → accepted = true
  | _ => True

theorem Effect.PlainOf.isCompaction {run : RunId} {e : Effect} (h : e.PlainOf run) :
    e.isCompaction = false := by
  cases e with
  | recorded _ _ kind _ _ =>
    have hplain := h.plain
    simp only [Effect.isPlain, Bool.and_eq_true, decide_eq_true_eq] at hplain
    simp [Effect.isCompaction, hplain]
  | compacted => cases h.plain
  | _ => rfl

theorem Effect.appendedBefore_of_not {e : Effect} (h : e.isCompaction = false)
    (before : List Effect) : e.AppendedBefore before := by
  cases e <;> trivial

theorem Effect.isAppended_of_not {e : Effect} (h : e.isCompaction = false) : e.IsAppended := by
  cases e with
  | recorded => intro hc; rw [h] at hc; cases hc
  | _ => trivial

/-- Compactions come after appended records exactly when every record was appended. -/
def Durable (trace : List Effect) : Prop :=
  Throughout Effect.AppendedBefore trace ↔ ∀ e ∈ trace, e.IsAppended

/-- Effects of other kinds change neither side. -/
theorem Durable.append {trace es : List Effect} (h : Durable trace)
    (hes : ∀ e ∈ es, e.isCompaction = false) : Durable (trace ++ es) := by
  unfold Durable
  constructor
  · intro hall
    exact List.forall_mem_append.mpr
      ⟨h.mp hall.of_append, fun e he => Effect.isAppended_of_not (hes e he)⟩
  · intro hall
    exact (h.mpr (List.forall_mem_append.mp hall).1).append fun e he =>
      Effect.appendedBefore_of_not (hes e he)

/-- A compaction adds one demand to each side, the same one. -/
theorem Durable.compaction {trace : List Effect} {run : RunId} {before after : SessionState}
    {p q : Payload} {first second : Bool} {firstNotice secondNotice : List Effect}
    (h : Durable trace) (hfirst : ∀ e ∈ firstNotice, e.PlainOf run)
    (hsecond : ∀ e ∈ secondNotice, e.PlainOf run) :
    Durable (trace ++ compactionEffects run before after p q first second firstNotice
      secondNotice) := by
  let records := Effect.recorded run before.session .sessionSummarized p first :: firstNotice ++
    .recorded run before.session .sessionSpawned q second :: secondNotice
  have hnone : ∀ notice : List Effect, (∀ e ∈ notice, e.PlainOf run) →
      notice.filter Effect.isCompaction = [] := by
    intro notice hn
    rw [List.filter_eq_nil_iff]
    intro e he
    rw [(hn e he).isCompaction]
    exact Bool.false_ne_true
  have hfilter : (trace ++ records).filter Effect.isCompaction =
      trace.filter Effect.isCompaction ++
        [.recorded run before.session .sessionSummarized p first,
          .recorded run before.session .sessionSpawned q second] := by
    simp [records, hnone _ hfirst, hnone _ hsecond, Effect.isCompaction]
  have hrecords : ∀ e ∈ records, ∀ earlier, e.AppendedBefore earlier := by
    intro e he earlier
    simp only [records, List.mem_append, List.mem_cons] at he
    rcases he with (rfl | he) | rfl | he
    · trivial
    · exact Effect.appendedBefore_of_not (hfirst e he).isCompaction earlier
    · trivial
    · exact Effect.appendedBefore_of_not (hsecond e he).isCompaction earlier
  have htrace : trace ++ compactionEffects run before after p q first second firstNotice
      secondNotice = (trace ++ records) ++ [.compacted run before after] := by
    simp [compactionEffects, records]
  rw [htrace]
  constructor
  · intro hall
    obtain ⟨earlier, p', q', hsplit⟩ := hall.at_last
    rw [hfilter] at hsplit
    obtain ⟨-, hpair⟩ := List.append_inj' hsplit rfl
    simp only [List.cons.injEq, Effect.recorded.injEq, true_and, and_true] at hpair
    obtain ⟨⟨-, rfl⟩, -, rfl⟩ := hpair
    have hold := h.mp hall.of_append.of_append
    intro e he
    simp only [records, List.mem_append, List.mem_cons, List.not_mem_nil, or_false] at he
    rcases he with (he | (rfl | he) | rfl | he) | rfl
    · exact hold e he
    · exact fun _ => rfl
    · exact Effect.isAppended_of_not (hfirst e he).isCompaction
    · exact fun _ => rfl
    · exact Effect.isAppended_of_not (hsecond e he).isCompaction
    · trivial
  · intro hall
    have hfirst' : first = true := hall (.recorded run before.session .sessionSummarized p first)
      (by simp [records]) rfl
    have hsecond' : second = true := hall (.recorded run before.session .sessionSpawned q second)
      (by simp [records]) rfl
    subst hfirst' hsecond'
    exact ((h.mpr fun e he => hall e (by simp [he])).append hrecords).concat ⟨_, p, q, hfilter⟩

theorem Act.durable {m m' : Machine σ} (h : Act sys m m') (hm : Durable m.trace) :
    Durable m'.trace := by
  cases h with
  | tell es h =>
    rw [h.trace]
    exact hm.append fun e he => (h.plain e he).isCompaction
  | push | clear | latch | enlist => exact hm
  | «begin» | violation | call | took | used | adjudicated | groupStart | checkpoint | asked =>
    exact hm.append (by simp [Effect.isCompaction])
  | answer => exact (hm.append (by simp [Effect.isCompaction])).append (by simp [Effect.isCompaction])
  | compaction child summary p q first second fn sn h hf hs seen offered answer locals children cps state trace =>
    rw [trace]
    exact hm.compaction hf hs
  | host items wallMs h =>
    have hcalled : Durable (if items.isEmpty then m else m.note (.hostCalled m.run items)).trace := by
      split
      · exact hm
      · exact hm.append (by simp [Effect.isCompaction])
    exact hcalled.append (by simp [Effect.isCompaction])

theorem Runs.durable {m m' : Machine σ} (h : Runs sys m m') (hm : Durable m.trace) :
    Durable m'.trace := by
  refine Calls.keeps (I := fun m => Durable m.trace) (fun _ _ => Act.durable) ?_ ?_ h hm
  · rintro m c ⟨child, state, -, rfl⟩ hm
    exact hm.append (by simp [Effect.isCompaction])
  · rintro m c d m' - - ⟨fin, outcome, hfin, rfl⟩ - hd
    obtain ⟨es, htrace, hes⟩ := hfin.trace
    have hended : Durable fin.trace := by
      rw [htrace]
      exact hd.append fun e he => (hes e he).isCompaction
    refine Durable.append (Durable.append (Durable.append hended ?_) ?_) ?_ <;>
      simp [Effect.isCompaction]

theorem driveInner_durable (ports : Ports σ) (m : Machine σ) (h : m.trace = []) :
    Durable ((runDriveInner sys ports m.frame.locals.steps m.frame.locals.contractRetries).run
      m).2.trace := by
  refine (runDriveInner_runs ports m).durable ?_
  rw [h]
  constructor
  · intro _ e he
    cases he
  · exact fun _ => .nil

/-- **Append before discard holds of a run exactly when the recorder accepts every
record of its compactions**, for every run, those nested in it included. -/
theorem compacted_after_append_iff (sys : Outside σ) (ports : Ports σ) (engine : Engine) (run : Run)
    (state : SessionState) (provenance : Provenance) (env : σ) (fresh steps retries : Nat) :
    let trace := ((runDriveInner sys ports steps retries).run
      (.start engine run state provenance env fresh steps retries)).2.trace
    Throughout Effect.AppendedBefore trace ↔ ∀ e ∈ trace, e.IsAppended :=
  driveInner_durable ports (.start engine run state provenance env fresh steps retries) rfl

/-! ## A recorder that refuses -/

/-- A window that is full when the run starts, and a recorder that refuses the first
two appends, which are the records of the compaction. -/
def Script.fullWindow : Machine Script :=
  .start (engine 300)
    (.root 1 1 looks
      { tokens := 100000, wallMs := 100000, toolCalls := 10, subagents := 5, microsUsd := 100 } .answer)
    ((SessionState.new 1 "M").push
      (.new .history (String.ofList (List.replicate 900 'x')) .agentInferred))
    .new { answers := [say "done"], appends := [false, false] } 2 0 0

set_option maxRecDepth 20000 in
/-- The volatile tier is replaced although neither record was appended. -/
theorem compacted_without_append :
    (∃ run before after, Effect.compacted run before after ∈ (Script.played Script.fullWindow).trace ∧
      after.volatile.map Block.source ≠ before.volatile.map Block.source) ∧
    ¬ Throughout Effect.AppendedBefore (Script.played Script.fullWindow).trace := by
  let refused : Effect → Bool
    | .recorded _ _ kind _ accepted => kind = .sessionSummarized && !accepted
    | _ => false
  let replaced : Effect → Bool
    | .compacted _ before after => decide
        (after.volatile.map Block.source ≠ before.volatile.map Block.source)
    | _ => false
  have hchecks : (Script.played Script.fullWindow).trace.any replaced = true ∧
      (Script.played Script.fullWindow).trace.any refused = true := by decide
  constructor
  · obtain ⟨e, he, hholds⟩ := List.any_eq_true.mp hchecks.1
    cases e with
    | compacted run before after => exact ⟨run, before, after, he, of_decide_eq_true hholds⟩
    | _ => cases hholds
  · intro hall
    obtain ⟨e, he, hholds⟩ := List.any_eq_true.mp hchecks.2
    have hdurable : Durable (Script.played Script.fullWindow).trace := by
      rw [Script.played_eq Script.fullWindow rfl rfl]
      exact driveInner_durable Script.ports Script.fullWindow rfl
    have happended := hdurable.mp hall e he
    cases e with
    | recorded run session kind payload accepted =>
      simp only [refused, Bool.and_eq_true, decide_eq_true_eq, Bool.not_eq_true'] at hholds
      have haccepted := happended (by simp [Effect.isCompaction, hholds.1])
      rw [hholds.2] at haccepted
      cases haccepted
    | _ => cases hholds

end MarloweAgent.Loop
