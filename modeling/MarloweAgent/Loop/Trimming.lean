import MarloweAgent.Loop.Fates

/-! What trimming leaves of a block's identity. A block kept whole is the block it was; one
that is cut is built anew, and what its wire said is gone with it. -/

namespace MarloweAgent.Loop
open Contract Library
open Assembler (omittedNotice cutAt)

/-- The same source, the same class, and the same place on the wire: the turn it was, the tool
it came from and the call it answers. -/
structure Block.SameIdentity (b kept : Block) : Prop where
  source : kept.source = b.source
  trust : kept.trust = b.trust
  wire : kept.wire = b.wire

theorem Block.SameIdentity.callId {b kept : Block} (h : b.SameIdentity kept) :
    kept.callId = b.callId := by
  unfold Block.callId
  rw [h.wire]

/-- What is left of a block is the block, as far as anything refers to it. -/
def Fate.Faithful (b : Block) (fate : Fate) : Prop := ∀ kept, fate.kept b = some kept → b.SameIdentity kept

theorem faithful_whole (b : Block) : Fate.Faithful b .whole := by
  rintro kept h
  cases h
  exact ⟨rfl, rfl, rfl⟩

theorem faithful_omitted (b : Block) : Fate.Faithful b .omitted := nofun

/-- A cut block has no wire, whatever it was cut from. -/
theorem faithful_cut_iff (room : Nat) (b : Block) :
    Fate.Faithful b (.cut (truncated room b)) ↔ b.wire = none := by
  constructor
  · exact fun h => (h _ rfl).wire.symm
  · rintro hwire kept h
    cases h
    exact ⟨rfl, rfl, hwire.symm⟩

/-- Of one source's blocks, newest first: none that has a wire is cut. A block is cut when it does
not fit in the room that is left and the room is not too small for a cut. -/
def SparesWires : Nat → List Block → Prop
  | _, [] => True
  | room, b :: older =>
    if b.tokens ≤ room then SparesWires (room - b.tokens) older
    else (minTruncatedTokens ≤ room → b.wire = none) ∧ SparesWires (roomAfter room b) older

section Source

variable {budgets : SourceKind → Nat} {source : SourceKind}

theorem all_faithful_iff (h : source.trimmable = true) {walk : List Block}
    (hwalk : ∀ b ∈ walk, b.source = source) {spent : SourceKind → Nat} :
    (∀ p ∈ fated budgets spent walk, Fate.Faithful p.1 p.2) ↔
      SparesWires (budgets source - spent source) walk := by
  induction walk generalizing spent with
  | nil => simp [fated, SparesWires]
  | cons b older ih =>
    obtain ⟨rfl, holder⟩ := List.forall_mem_cons.mp hwalk
    rw [fated, List.forall_mem_cons, SparesWires, ih holder]
    have hnot : ¬(!b.source.trimmable) = true := by simp [h]
    have hspent : spend spent b (fateOf budgets spent b) b.source =
        spent b.source + keptTokens b (fateOf budgets spent b) := if_pos rfl
    rw [hspent, ← Nat.sub_sub]
    unfold fateOf roomAfter
    dsimp only
    rw [if_neg hnot]
    by_cases hfits : b.tokens ≤ budgets b.source - spent b.source
    · rw [if_pos hfits, if_pos hfits]
      exact and_iff_right (faithful_whole b)
    · rw [if_neg hfits, if_neg hfits]
      by_cases hroom : minTruncatedTokens ≤ budgets b.source - spent b.source
      · rw [if_pos hroom, if_pos hroom, faithful_cut_iff]
        exact and_congr_left fun _ => ⟨fun hwire _ => hwire, fun hwire => hwire hroom⟩
      · rw [if_neg hroom, if_neg hroom]
        exact and_congr (iff_of_true (faithful_omitted b) fun hle => absurd hle hroom) Iff.rfl

/-- What cannot be trimmed is kept whole. -/
theorem faithful_of_not_trimmable {walk : List Block} {spent : SourceKind → Nat} {p : Block × Fate}
    (hp : p ∈ fated budgets spent walk) (h : p.1.source.trimmable = false) :
    Fate.Faithful p.1 p.2 := by
  induction walk generalizing spent with
  | nil => cases hp
  | cons b older ih =>
    rcases List.mem_cons.mp hp with rfl | hp
    · have hwhole : fateOf budgets spent b = .whole := by
        unfold fateOf
        dsimp only
        rw [if_pos (by simpa using h)]
      rw [hwhole]
      exact faithful_whole b
    · exact ih hp

end Source

/-! ## Blocks that were measured -/

/-- The tokens of a block are the estimate of its text, as every constructor leaves them. -/
def Block.Measured (b : Block) : Prop := b.tokens = estimateTokens b.text

theorem takeWhile_stops {α : Type} {p : α → Bool} {l : List α}
    (h : (l.takeWhile p).length < l.length) : p l[(l.takeWhile p).length] = false := by
  induction l with
  | nil => cases h
  | cons a rest ih =>
    cases ha : p a with
    | true =>
      simp only [List.takeWhile_cons_of_pos ha, List.length_cons, Nat.add_lt_add_iff_right] at h
      simpa [List.takeWhile_cons_of_pos ha] using ih h
    | false =>
      have hnone : (a :: rest).takeWhile p = [] := List.takeWhile_cons_of_neg (by simp [ha])
      simpa [hnone] using ha

/-- A text that is longer than the limit is cut within one character of it. -/
theorem le_utf8ByteSize_cutAt {text : String} {limit : Nat} (h : limit < text.utf8ByteSize) :
    limit ≤ (cutAt text limit).utf8ByteSize + 3 := by
  unfold cutAt
  dsimp only
  rw [foldl_starts, List.nil_append, Text.utf8ByteSize_ofList]
  simp only [Nat.zero_add]
  rw [← String.ofList_toList (s := text), Text.utf8ByteSize_ofList] at h
  generalize text.toList = cs at h ⊢
  generalize hkept : ((List.range cs.length).map fun i =>
    Text.byteLen (cs.take i)).takeWhile (· ≤ limit) = kept
  have hle : kept.length ≤ cs.length := by
    rw [← hkept]
    exact (List.takeWhile_prefix _).length_le.trans (by simp)
  -- The next start is past the limit; if there is none, the text ends past it.
  have hpast : limit < Text.byteLen (cs.take kept.length) := by
    rcases Nat.lt_or_eq_of_le hle with hlt | heq
    · have hnot := takeWhile_stops (p := fun n => decide (n ≤ limit))
        (l := (List.range cs.length).map fun i => Text.byteLen (cs.take i)) (by simpa [hkept] using hlt)
      simpa [hkept] using hnot
    · rwa [heq, List.take_length]
  cases hn : kept.length with
  | zero =>
    rw [hn] at hpast
    exact absurd hpast (Nat.not_lt_zero _)
  | succ k =>
    have hlt : k < cs.length := by omega
    have hstep : Text.byteLen (cs.take (k + 1)) = Text.byteLen (cs.take k) + cs[k].utf8Size := by
      simp only [Text.byteLen, List.take_succ_eq_append_getElem hlt, List.map_append, List.sum_append,
        List.map_cons, List.map_nil, List.sum_cons, List.sum_nil, Nat.add_zero]
    have hsize : cs[k].utf8Size ≤ 4 := cs[k].utf8Size_le_four
    rw [hn, hstep] at hpast
    rw [Nat.add_sub_cancel]
    omega

/-- Behind the first of a source's blocks that is cut, the room is too small for another cut. -/
theorem roomAfter_lt {room : Nat} {b : Block} (h : b.Measured) (hover : room < b.tokens) :
    roomAfter room b < minTruncatedTokens := by
  have hmark : ("… [truncated at the per-source budget]" : String).utf8ByteSize = 40 := by decide
  unfold roomAfter
  split
  next hroom =>
    have htokens : b.tokens = ((b.text.utf8ByteSize + 2) / 3) % 2 ^ 32 := h
    have hshort : b.tokens < 2 ^ 32 := htokens ▸ Nat.mod_lt _ (by decide)
    have hbytes : room < (b.text.utf8ByteSize + 2) / 3 := by
      have := Nat.mod_le ((b.text.utf8ByteSize + 2) / 3) (2 ^ 32)
      omega
    have hlow := @le_utf8ByteSize_cutAt b.text ((room - minTruncatedTokens) * 3)
      (by unfold minTruncatedTokens at *; omega)
    have hhigh := utf8ByteSize_cutAt_le b.text ((room - minTruncatedTokens) * 3)
    show room - estimateTokens _ < _
    unfold estimateTokens
    rw [String.utf8ByteSize_append, hmark]
    generalize (cutAt b.text ((room - minTruncatedTokens) * 3)).utf8ByteSize = size at hlow hhigh ⊢
    unfold minTruncatedTokens at *
    rw [Nat.mod_eq_of_lt (by omega)]
    omega
  next hroom => exact Nat.lt_of_not_le hroom

theorem sparesWires_of_lt {room : Nat} (h : room < minTruncatedTokens) (walk : List Block) :
    SparesWires room walk := by
  induction walk generalizing room with
  | nil => trivial
  | cons b older ih =>
    unfold SparesWires
    split
    · exact ih (by omega)
    · have hsame : roomAfter room b = room := if_neg (by omega)
      exact ⟨fun hle => absurd hle (by omega), hsame.symm ▸ ih h⟩

/-- Of measured blocks at most one of a source is cut: the newest that does not fit, if what the
newer ones leave of the budget is not too small for a cut. -/
theorem sparesWires_iff {walk : List Block} (h : ∀ b ∈ walk, b.Measured) {room : Nat} :
    SparesWires room walk ↔ ∀ newer b older, walk = newer ++ b :: older →
      (newer.map Block.tokens).sum + minTruncatedTokens ≤ room →
      room < (newer.map Block.tokens).sum + b.tokens → b.wire = none := by
  induction walk generalizing room with
  | nil => simp [SparesWires]
  | cons b older ih =>
    obtain ⟨hb, holder⟩ := List.forall_mem_cons.mp h
    unfold SparesWires
    split
    next hfits =>
      rw [ih holder]
      constructor
      · rintro hall newer b' older' hsplit hroom hover
        cases newer with
        | nil =>
          cases hsplit
          simp only [List.map_nil, List.sum_nil] at hover
          omega
        | cons c newer =>
          cases hsplit
          simp only [List.map_cons, List.sum_cons] at hroom hover
          exact hall newer b' older' rfl (by omega) (by omega)
      · rintro hall newer b' older' rfl hroom hover
        refine hall (b :: newer) b' older' rfl ?_ ?_
        · simp only [List.map_cons, List.sum_cons]
          omega
        · simp only [List.map_cons, List.sum_cons]
          omega
    next hover =>
      rw [and_iff_left (sparesWires_of_lt (roomAfter_lt hb (Nat.lt_of_not_le hover)) older)]
      constructor
      · rintro hwire newer b' older' hsplit hroom -
        cases newer with
        | nil =>
          cases hsplit
          exact hwire (by simpa using hroom)
        | cons c newer =>
          cases hsplit
          simp only [List.map_cons, List.sum_cons] at hroom
          omega
      · intro hall hroom
        exact hall [] b older rfl (by simpa using hroom) (by simpa using hover)

namespace Assembler

variable (assembler : Assembler) (blocks : List Block)

/-- What a view promises of the blocks it is trimmed from: it holds, behind its notices, what is
left of each, and that is the block it came from. -/
structure KeepsIdentity : Prop where
  each : (assembler.fates blocks).map Prod.fst = blocks
  placed : ∃ notices, assembler.trimToBudget blocks =
      notices ++ (assembler.fates blocks).filterMap (fun p => p.2.kept p.1) ∧
    ∀ notice ∈ notices, ∃ source count trust, notice = omittedNotice source count trust
  faithful : ∀ p ∈ assembler.fates blocks, Fate.Faithful p.1 p.2

/-- **Trimming keeps every block's identity exactly when, of each trimmable source, no block that
has a wire is cut.** -/
theorem keepsIdentity_iff : assembler.KeepsIdentity blocks ↔
    ∀ source : SourceKind, source.trimmable = true →
      SparesWires (assembler.budgets source) (blocks.reverse.filter fun b => b.source = source) := by
  have hone (source : SourceKind) (h : source.trimmable = true) :
      SparesWires (assembler.budgets source) (blocks.reverse.filter fun b => b.source = source) ↔
        ∀ p ∈ assembler.fates blocks, p.1.source = source → Fate.Faithful p.1 p.2 := by
    have hwalk : ∀ b ∈ blocks.reverse.filter fun b => b.source = source, b.source = source :=
      fun b hb => of_decide_eq_true (List.mem_filter.mp hb).2
    have hiff : (∀ p ∈ fated assembler.budgets (fun _ => 0) _, Fate.Faithful p.1 p.2) ↔
      SparesWires (assembler.budgets source - 0) _ := all_faithful_iff h hwalk
    rw [Nat.sub_zero, ← fated_filter] at hiff
    rw [← hiff]
    simp only [fates, List.mem_reverse, List.mem_filter, decide_eq_true_iff, and_imp]
  constructor
  · exact fun h source htrim => (hone source htrim).mpr fun p hp _ => h.faithful p hp
  · intro h
    refine ⟨assembler.fates_fst blocks, assembler.trimToBudget_eq blocks, fun p hp => ?_⟩
    cases htrim : p.1.source.trimmable with
    | true => exact (hone p.1.source htrim).mp (h _ htrim) p hp rfl
    | false => exact faithful_of_not_trimmable (List.mem_reverse.mp hp) htrim

/-- Of measured blocks, those are the newest of each source that do not fit in its budget while at
least twenty-four tokens of it are left. -/
theorem keepsIdentity_iff_of_measured (h : ∀ b ∈ blocks, b.Measured) : assembler.KeepsIdentity blocks ↔
    ∀ source : SourceKind, source.trimmable = true → ∀ newer b older,
      (blocks.reverse.filter fun b => b.source = source) = newer ++ b :: older →
      (newer.map Block.tokens).sum + minTruncatedTokens ≤ assembler.budgets source →
      assembler.budgets source < (newer.map Block.tokens).sum + b.tokens → b.wire = none := by
  rw [keepsIdentity_iff]
  refine forall₂_congr fun source _ => sparesWires_iff fun b hb => ?_
  exact h b (List.mem_reverse.mp (List.mem_filter.mp hb).1)

/-- A result of twenty-five tokens, where a view of a window of 120 has twenty-four for results. -/
def longResult : List Block :=
  [.toolResultFor "a result of seventy-five bytes, which is twenty-five tokens by the estimate"
    "read" .agentObserved none false "call-1"]

/-- The result is cut, and no longer says which call it answers. -/
theorem cut_result_forgets_call :
    ¬ (∀ (assembler : Assembler) (blocks : List Block), assembler.KeepsIdentity blocks) ∧
      longResult.map Block.callId = [some "call-1"] ∧
      ((Assembler.new 120 0).trimToBudget longResult).map Block.callId = [none] := by
  refine ⟨fun h => ?_, rfl, rfl⟩
  have hfaithful := (h (Assembler.new 120 0) longResult).faithful
  have hcut : (Assembler.new 120 0).fates longResult =
      [(longResult[0], .cut (truncated 24 longResult[0]))] := rfl
  rw [hcut] at hfaithful
  exact absurd ((faithful_cut_iff _ _).mp (hfaithful _ (List.mem_singleton.mpr rfl))) nofun

end Assembler

end MarloweAgent.Loop
