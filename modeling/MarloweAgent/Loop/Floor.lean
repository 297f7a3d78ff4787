import MarloweAgent.Loop.Context

/-! Trust floors of blocks, views and session states. Shortening a window, by
truncation, omission, masking or compaction, changes what it says and never raises
the worst class it was drawn from. -/

namespace MarloweAgent.Loop
open Contract Library Permission
open Assembler (Trimming trimStep omittedNotice)

/-- The worst class among some blocks. -/
def floorOf (blocks : List Block) : TrustClass := ((blocks.map Block.trust).min?).getD .agentInferred

/-- Every block is of class `t` or better. -/
def Bounds (t : TrustClass) (blocks : List Block) : Prop := ∀ b ∈ blocks, t ≤ b.trust

theorem bounds_append {t : TrustClass} {blocks blocks' : List Block} :
    Bounds t (blocks ++ blocks') ↔ Bounds t blocks ∧ Bounds t blocks' :=
  List.forall_mem_append

theorem bounds_cons {t : TrustClass} {b : Block} {blocks : List Block} :
    Bounds t (b :: blocks) ↔ t ≤ b.trust ∧ Bounds t blocks :=
  List.forall_mem_cons

theorem bounds_nil {t : TrustClass} : Bounds t [] := fun _ h => by cases h

theorem le_floorOf_iff {t : TrustClass} {blocks : List Block} (h : blocks ≠ []) :
    t ≤ floorOf blocks ↔ Bounds t blocks := by
  unfold floorOf
  cases hmin : (blocks.map Block.trust).min? with
  | none => simp_all [List.min?_eq_none_iff]
  | some floor =>
    rw [Option.getD_some, List.le_min?_iff hmin]
    exact List.forall_mem_map

/-- The floor is the class of one of the blocks. -/
theorem floorOf_attained {blocks : List Block} (h : blocks ≠ []) :
    ∃ b ∈ blocks, b.trust = floorOf blocks := by
  unfold floorOf
  cases hmin : (blocks.map Block.trust).min? with
  | none => simp_all [List.min?_eq_none_iff]
  | some floor => exact List.mem_map.mp (List.min?_mem hmin)

/-- Blocks with the same lower bounds have the same floor. -/
theorem floorOf_eq {blocks blocks' : List Block} (h : blocks ≠ []) (h' : blocks' ≠ [])
    (hb : ∀ t, Bounds t blocks ↔ Bounds t blocks') : floorOf blocks = floorOf blocks' := by
  apply le_antisymm
  · rw [le_floorOf_iff h', ← hb, ← le_floorOf_iff h]
  · rw [le_floorOf_iff h, hb, ← le_floorOf_iff h']

/-- The worst class a view of this state is assembled from. -/
def SessionState.trustFloor (state : SessionState) : TrustClass := floorOf state.sources

theorem SessionState.sources_ne_nil (state : SessionState) : state.sources ≠ [] := by
  simp [sources, stableBlocks]

theorem SessionState.trustFloor_le (state : SessionState) :
    ∀ b ∈ state.sources, state.trustFloor ≤ b.trust :=
  (le_floorOf_iff state.sources_ne_nil).mp (le_refl _)

/-! ## Trimming -/

/-- What has been kept, and what has been omitted, is of class `t` or better. -/
def Assembler.Trimming.Bounded (t : TrustClass) (acc : Trimming) : Prop :=
  Bounds t acc.kept ∧ ∀ source entry, acc.omitted.get? source = some entry → t ≤ entry.2

/-- A step of the walk bounds what it bounded before, and the block it takes. -/
theorem trimStep_bounded (budgets : SourceKind → Nat) (t : TrustClass) (acc : Trimming) (b : Block) :
    (trimStep budgets acc b).Bounded t ↔ acc.Bounded t ∧ t ≤ b.trust := by
  unfold trimStep
  dsimp only
  split
  · simp only [Trimming.Bounded, bounds_append, bounds_cons, bounds_nil, and_true]
    tauto
  split
  · simp only [Trimming.Bounded, bounds_append, bounds_cons, bounds_nil, and_true]
    tauto
  split
  · simp only [Trimming.Bounded, bounds_append, bounds_cons, bounds_nil, and_true, Block.new]
    tauto
  -- omitted: the notice under this source keeps the worst class it has swallowed
  simp only [Trimming.Bounded, and_assoc, and_congr_right_iff]
  intro _
  constructor
  · intro h
    have hself := h b.source _ (OrderedMap.get?_insert_self _ _ _)
    refine ⟨?_, (le_min_iff.mp hself).2⟩
    intro source entry hentry
    by_cases hsource : source = b.source
    · subst hsource
      rw [hentry] at hself
      exact (le_min_iff.mp hself).1
    · exact h source entry (by rw [OrderedMap.get?_insert, if_neg (Ne.symm hsource)]; exact hentry)
  · rintro ⟨h, hb⟩ source entry hentry
    rw [OrderedMap.get?_insert] at hentry
    split at hentry
    · cases hentry
      refine le_min_iff.mpr ⟨?_, hb⟩
      cases hold : acc.omitted.get? b.source with
      | none => exact TrustClass.le_userAsserted _
      | some old => exact h _ _ hold
    · exact h source entry hentry

/-- **Trimming loses no lower bound and makes none up.** -/
theorem bounds_trimToBudget (assembler : Assembler) (t : TrustClass) (blocks : List Block) :
    Bounds t (assembler.trimToBudget blocks) ↔ Bounds t blocks := by
  have hwalk : ∀ (walk : List Block) (acc : Trimming),
      (walk.foldl (trimStep assembler.budgets) acc).Bounded t ↔ acc.Bounded t ∧ Bounds t walk := by
    intro walk
    induction walk with
    | nil => intro acc; simp [bounds_nil]
    | cons b rest ih =>
      intro acc
      rw [List.foldl_cons, ih, trimStep_bounded, bounds_cons, and_assoc]
  have hempty : (⟨[], fun _ => 0, OrderedMap.empty⟩ : Trimming).Bounded t :=
    ⟨bounds_nil, fun _ _ h => by cases h⟩
  have hreverse : ∀ l : List Block, Bounds t l.reverse ↔ Bounds t l := by
    intro l
    simp [Bounds]
  have hblocks := hwalk blocks.reverse ⟨[], fun _ => 0, OrderedMap.empty⟩
  rw [hreverse, and_iff_right hempty] at hblocks
  rw [← hblocks]
  unfold Assembler.trimToBudget
  rw [hreverse, bounds_append]
  refine and_congr_right fun _ => ?_
  constructor
  · intro h source entry hentry
    obtain ⟨count, trust⟩ := entry
    exact h (omittedNotice source count trust)
      (List.mem_map.mpr ⟨_, OrderedMap.mem_bindings_of_get? _ hentry, rfl⟩)
  · intro h b hb
    obtain ⟨⟨source, count, trust⟩, hmem, rfl⟩ := List.mem_map.mp hb
    exact h source (count, trust) (OrderedMap.get?_of_mem_bindings _ hmem)

theorem bounds_assemble (assembler : Assembler) (t : TrustClass) (state : SessionState) :
    Bounds t (assembler.assemble state).blocks ↔ Bounds t state.sources := by
  simp only [ContextView.blocks, Assembler.assemble, SessionState.sources, bounds_append,
    bounds_trimToBudget]

/-- **A view's floor is the floor of what it was assembled from**, however much of it
was cut or omitted. -/
theorem assemble_trustFloor (assembler : Assembler) (state : SessionState) :
    (assembler.assemble state).trustFloor = state.trustFloor :=
  floorOf_eq (by simp [ContextView.blocks, Assembler.assemble, SessionState.stableBlocks])
    state.sources_ne_nil fun t => bounds_assemble assembler t state

/-! ## Masking -/

theorem bounds_maskOldest (t : TrustClass) (n : Nat) (blocks : List Block) :
    Bounds t (Assembler.maskOldest n blocks).1 ↔ Bounds t blocks := by
  induction blocks generalizing n with
  | nil => exact Iff.rfl
  | cons b rest ih =>
    simp only [Assembler.maskOldest]
    split
    · split <;> simp [bounds_cons, ih, Assembler.maskBlock]
    · simp [bounds_cons, ih]

theorem bounds_clearToolResults (t : TrustClass) (state : SessionState) (keep : Nat) :
    Bounds t (Assembler.clearToolResults state keep).1.sources ↔ Bounds t state.sources := by
  simp only [Assembler.clearToolResults, SessionState.sources, SessionState.stableBlocks,
    bounds_append, bounds_maskOldest]

/-! ## Compaction -/

theorem bounds_takeLive (t : TrustClass) (blocks : List Block) :
    Bounds t blocks ↔
      Bounds t (Assembler.takeLive blocks).1 ∧ Bounds t (Assembler.takeLive blocks).2.toList := by
  induction blocks with
  | nil => simp [Assembler.takeLive, bounds_nil]
  | cons b rest ih =>
    rw [bounds_cons, ih, Assembler.takeLive]
    obtain ⟨others, live⟩ := Assembler.takeLive rest
    cases live with
    | some live =>
      simp only [bounds_cons]
      tauto
    | none =>
      dsimp only
      split <;> simp [bounds_cons, bounds_nil, and_comm]

/-- The summary is no better than anything it stands for. -/
theorem summaryBlock_trust {discarded : List Block} {t : TrustClass} {summary : String}
    (h : t ≤ (Assembler.summaryBlock discarded summary).trust) : Bounds t discarded := by
  unfold Assembler.summaryBlock Block.new at h
  dsimp only at h
  split at h
  · rename_i floor hfloor
    exact List.forall_mem_map.mp ((List.le_min?_iff hfloor).mp (le_min_iff.mp h).2)
  · rename_i hnone
    rw [List.min?_eq_none_iff, List.map_eq_nil_iff] at hnone
    rw [hnone]
    exact bounds_nil

theorem bounds_of_compact {t : TrustClass} (assembler : Assembler) (state : SessionState)
    (child : SessionId) (summary : String) (cache : PrefixCache)
    (h : Bounds t (assembler.compact state child summary cache).2.1.sources) :
    Bounds t state.sources := by
  simp only [Assembler.compact, SessionState.sources, SessionState.stableBlocks, bounds_append,
    bounds_cons] at h ⊢
  refine ⟨h.1, (bounds_takeLive t state.volatile).mpr ⟨summaryBlock_trust h.2.1, h.2.2⟩⟩

theorem bounds_of_push {t : TrustClass} (state : SessionState) (b : Block)
    (h : Bounds t (state.push b).sources) : Bounds t state.sources := by
  unfold SessionState.push at h
  split at h
  · exact h
  · simp only [SessionState.sources, SessionState.stableBlocks, bounds_append] at h ⊢
    exact ⟨⟨h.1.1, h.1.2.1⟩, h.2⟩
  · simp only [SessionState.sources, SessionState.stableBlocks, bounds_append] at h ⊢
    exact ⟨h.1, h.2.1⟩

/-! ## Sequences -/

/-- What can be done to a session state, or with it. -/
inductive SessionOp
  | push (b : Block)
  | assemble (assembler : Assembler)
  | clearToolResults (keep : Nat)
  | compact (assembler : Assembler) (child : SessionId) (summary : String) (cache : PrefixCache)

namespace SessionState

def apply (state : SessionState) : SessionOp → SessionState
  | .push b => state.push b
  | .assemble _ => state
  | .clearToolResults keep => (Assembler.clearToolResults state keep).1
  | .compact assembler child summary cache => (assembler.compact state child summary cache).2.1

def applyAll (state : SessionState) (ops : List SessionOp) : SessionState := ops.foldl apply state

theorem bounds_of_apply {t : TrustClass} (state : SessionState) (op : SessionOp)
    (h : Bounds t (state.apply op).sources) : Bounds t state.sources := by
  cases op with
  | push b => exact bounds_of_push state b h
  | assemble => exact h
  | clearToolResults keep => exact (bounds_clearToolResults t state keep).mp h
  | compact assembler child summary cache => exact bounds_of_compact assembler state child summary cache h

theorem apply_trustFloor (state : SessionState) (op : SessionOp) :
    (state.apply op).trustFloor ≤ state.trustFloor :=
  (le_floorOf_iff state.sources_ne_nil).mpr (bounds_of_apply state op (trustFloor_le _))

/-- **No sequence of operations raises the floor of a session state.** -/
theorem applyAll_trustFloor (state : SessionState) (ops : List SessionOp) :
    (state.applyAll ops).trustFloor ≤ state.trustFloor := by
  induction ops generalizing state with
  | nil => exact le_refl _
  | cons op rest ih => exact (ih (state.apply op)).trans (state.apply_trustFloor op)

end SessionState

end MarloweAgent.Loop
