import MarloweAgent.Library.Trace
import MarloweAgent.Loop.Execution

/-! The floor a run latches outlives the blocks it was latched for: at each
adjudication it is at most the class of everything the run's model was ever shown. -/

namespace MarloweAgent.Loop
open Contract Library Tools Permission

variable {σ : Type} {sys : Outside σ}

/-- An adjudication made under a floor no better than anything in the states of the
run's model calls so far. -/
def Effect.UnderFloor : Effect → Prop
  | .adjudicated run seen _ _ => ∀ state ∈ seen, Bounds run.trustFloor state.sources
  | _ => True

theorem Effect.PlainOf.underFloor {run : RunId} {e : Effect} (h : e.PlainOf run) :
    e.UnderFloor := by
  cases e <;> first | trivial | cases h.plain

/-- The acting run's floor bounds all it was shown, and every adjudication so far
was made under such a floor. -/
structure Latched (m : Machine σ) : Prop where
  seen : ∀ state ∈ m.frame.seen, Bounds m.run.trustFloor state.sources
  trace : ∀ e ∈ m.trace, e.UnderFloor

namespace Latched

variable {m m' : Machine σ}

/-- A floor can only go down, and what it bounded it still bounds. -/
theorem lower (hm : Latched m) (hfloor : m'.run.trustFloor ≤ m.run.trustFloor)
    (hseen : m'.frame.seen = m.frame.seen) :
    ∀ state ∈ m'.frame.seen, Bounds m'.run.trustFloor state.sources := by
  rw [hseen]
  exact fun state hstate b hb => hfloor.trans (hm.seen state hstate b hb)

end Latched

theorem Act.latched {m m' : Machine σ} (h : Act sys m m') (hm : Latched m) : Latched m' := by
  have hfloor := h.kept.floor
  have hold := hm.trace
  cases h with
  | tell es h =>
    refine ⟨hm.lower hfloor h.seen, ?_⟩
    rw [h.trace]
    exact List.forall_mem_append.mpr ⟨hold, fun e he => (h.plain e he).underFloor⟩
  | push | clear | enlist => exact ⟨hm.seen, hold⟩
  | latch => exact ⟨hm.lower hfloor rfl, hold⟩
  | «begin» | violation | took | used | groupStart | checkpoint =>
    exact ⟨hm.seen, List.forall_mem_append.mpr ⟨hold, by simp [Effect.UnderFloor]⟩⟩
  | asked => exact ⟨hm.lower hfloor rfl, List.forall_mem_append.mpr ⟨hold, by simp [Effect.UnderFloor]⟩⟩
  | call view tools limits h hoffered =>
    refine ⟨?_, List.forall_mem_append.mpr ⟨hold, by simp [Effect.UnderFloor]⟩⟩
    -- the state the model is called from is bounded by the guard of the call
    exact List.forall_mem_append.mpr ⟨hm.seen, by simpa [Bounds] using h⟩
  | adjudicated tool req adjudication h =>
    exact ⟨hm.seen, List.forall_mem_append.mpr ⟨hold, by simpa [Effect.UnderFloor] using hm.seen⟩⟩
  | answer =>
    refine ⟨hm.seen, List.forall_mem_append.mpr ⟨List.forall_mem_append.mpr ⟨hold, ?_⟩, ?_⟩⟩ <;>
      simp [Effect.UnderFloor]
  | compaction child summary p q first second fn sn h hf hs seen offered answer locals children cps state trace =>
    refine ⟨hm.lower hfloor seen, ?_⟩
    rw [trace]
    exact List.forall_mem_append.mpr ⟨hold,
      forall_compactionEffects hf hs (fun e he => he.underFloor) (fun _ _ _ => trivial) trivial⟩
  | host items wallMs h =>
    split
    · exact ⟨hm.seen, List.forall_mem_append.mpr ⟨hold, by simp [Effect.UnderFloor]⟩⟩
    · refine ⟨hm.seen, List.forall_mem_append.mpr ⟨List.forall_mem_append.mpr ⟨hold, ?_⟩, ?_⟩⟩ <;>
        simp [Effect.UnderFloor]

/-- **The latch holds over whole runs**, and over the runs nested in them. -/
theorem Runs.latched {m m' : Machine σ} (h : Runs sys m m') (hm : Latched m) : Latched m' := by
  refine Calls.keeps (fun _ _ => Act.latched) ?_ ?_ h hm
  · rintro m c ⟨child, state, -, rfl⟩ hm
    exact ⟨by simp [Machine.entered],
      List.forall_mem_append.mpr ⟨hm.trace, by simp [Effect.UnderFloor]⟩⟩
  · rintro m c d m' - - ⟨fin, outcome, hfin, rfl⟩ hm hd
    obtain ⟨es, htrace, hes⟩ := hfin.trace
    refine ⟨hm.seen, ?_⟩
    have hended : ∀ e ∈ fin.trace, e.UnderFloor := by
      rw [htrace]
      exact List.forall_mem_append.mpr ⟨hd.trace, fun e he => (hes e he).underFloor⟩
    refine List.forall_mem_append.mpr ⟨List.forall_mem_append.mpr
      ⟨List.forall_mem_append.mpr ⟨hended, ?_⟩, ?_⟩, ?_⟩ <;> simp [Effect.UnderFloor]

theorem adjudications_underFloor (sys : Outside σ) (ports : Ports σ) (engine : Engine) (run : Run)
    (state : SessionState) (provenance : Provenance) (env : σ) (fresh steps retries : Nat) :
    ∀ e ∈ ((runDriveInner sys ports steps retries).run
      (.start engine run state provenance env fresh steps retries)).2.trace, e.UnderFloor := by
  have hstart : Latched (Machine.start engine run state provenance env fresh steps retries) := by
    constructor <;> simp [Machine.start]
  exact ((runDriveInner_runs ports _).latched hstart).trace

/-- **Shortening never raises the floor.** No sequence of operations raises the floor
of a session state; a view's floor is attained among the identity, governance,
context and volatile blocks it was assembled from, and none of them is below it; and in any run
the floor at each adjudication is at most the class of every block that was in the
state at any earlier model call, whatever has become of the block since. -/
theorem shortening_never_raises_the_floor (sys : Outside σ) (ports : Ports σ) (engine : Engine)
    (run : Run) (provenance : Provenance) (env : σ) (fresh steps retries : Nat)
    (assembler : Assembler) (state : SessionState) (ops : List SessionOp) :
    (state.applyAll ops).trustFloor ≤ state.trustFloor ∧
      (∀ b ∈ state.sources, (assembler.assemble state).trustFloor ≤ b.trust) ∧
      (∃ b ∈ state.sources, b.trust = (assembler.assemble state).trustFloor) ∧
      ∀ e ∈ ((runDriveInner sys ports steps retries).run
        (.start engine run state provenance env fresh steps retries)).2.trace, e.UnderFloor := by
  refine ⟨state.applyAll_trustFloor ops, ?_, ?_,
    adjudications_underFloor sys ports engine run state provenance env fresh steps retries⟩
  · rw [assemble_trustFloor]
    exact state.trustFloor_le
  · rw [assemble_trustFloor]
    exact floorOf_attained state.sources_ne_nil

/-- A context block counts too: under an untrusted project file, a view's floor is
below everything in its identity, governance and volatile tiers. -/
theorem view_floor_counts_context :
    ¬ ∀ (assembler : Assembler) (state : SessionState),
      (assembler.assemble state).trustFloor = floorOf (state.stableBlocks ++ state.volatile) := by
  intro h
  have hfile := h (.new 200000 8000)
    ((SessionState.new 0 "Marlowe.").push (.new .projectFiles "README" .untrustedContent))
  rw [assemble_trustFloor] at hfile
  cases hfile

end MarloweAgent.Loop
