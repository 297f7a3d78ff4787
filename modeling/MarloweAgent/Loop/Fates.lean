import MarloweAgent.Loop.Context

/-! What trimming does to each block. The walk is newest first and looks at each block for
itself, so an older block that still fits is kept behind a newer one that did not. -/

namespace MarloweAgent.Loop
open Contract Library
open Assembler (Trimming trimStep omittedNotice cutAt)

/-! ## The length of a cut -/

/-- Where each character starts. -/
theorem foldl_starts (cs : List Char) (starts : List Nat) (n : Nat) :
    (cs.foldl (fun (acc : List Nat × Nat) c => (acc.1 ++ [acc.2], acc.2 + c.utf8Size)) (starts, n)).1 =
      starts ++ (List.range cs.length).map fun i => n + Text.byteLen (cs.take i) := by
  induction cs generalizing starts n with
  | nil => simp
  | cons c cs ih =>
    rw [List.foldl_cons, ih, List.length_cons, List.range_succ_eq_map, List.map_cons, List.map_map,
      List.append_assoc]
    simp [Text.byteLen, Function.comp_def, Nat.add_assoc]

/-- What is kept of a text is no longer than its limit. -/
theorem utf8ByteSize_cutAt_le (text : String) (limit : Nat) :
    (cutAt text limit).utf8ByteSize ≤ limit := by
  unfold cutAt
  dsimp only
  rw [foldl_starts, List.nil_append, Text.utf8ByteSize_ofList]
  simp only [Nat.zero_add]
  generalize hkept : ((List.range text.toList.length).map fun i =>
    Text.byteLen (text.toList.take i)).takeWhile (· ≤ limit) = kept
  cases hn : kept.length with
  | zero => simp [Text.byteLen]
  | succ k =>
    have hlast : k < kept.length := by omega
    have hall : ∀ start ∈ kept, start ≤ limit := by
      rw [← hkept]
      intro start hmem
      exact of_decide_eq_true (List.mem_takeWhile_imp (p := fun n => decide (n ≤ limit)) hmem)
    have hle : kept[k] ≤ limit := hall _ (List.getElem_mem hlast)
    have hprefix : kept <+: (List.range text.toList.length).map fun i =>
        Text.byteLen (text.toList.take i) := hkept ▸ List.takeWhile_prefix _
    have hvalue := hprefix.getElem hlast
    rw [List.getElem_map, List.getElem_range] at hvalue
    rw [Nat.add_sub_cancel, ← hvalue]
    exact hle

/-! ## Fates -/

/-- What becomes of one block. -/
inductive Fate
  | whole
  | cut (left : Block)
  | omitted

/-- What is in the view of a block that met this fate. -/
def Fate.kept (b : Block) : Fate → Option Block
  | whole => some b
  | cut left => some left
  | omitted => none

/-- A block cut to the room that is left. -/
def truncated (room : Nat) (b : Block) : Block :=
  Block.new b.source (cutAt b.text ((room - minTruncatedTokens) * 3) ++
    "… [truncated at the per-source budget]") b.trust

def fateOf (budgets spent : SourceKind → Nat) (b : Block) : Fate :=
  let room := budgets b.source - spent b.source
  if !b.source.trimmable then .whole
  else if b.tokens ≤ room then .whole
  else if minTruncatedTokens ≤ room then .cut (truncated room b)
  else .omitted

/-- The tokens a block leaves in the view. -/
def keptTokens (b : Block) (fate : Fate) : Nat := (fate.kept b).elim 0 Block.tokens

def spend (spent : SourceKind → Nat) (b : Block) (fate : Fate) : SourceKind → Nat :=
  fun k => if k = b.source then spent k + keptTokens b fate else spent k

/-- The walk, newest first. -/
def fated (budgets : SourceKind → Nat) : (SourceKind → Nat) → List Block → List (Block × Fate)
  | _, [] => []
  | spent, b :: older =>
    let fate := fateOf budgets spent b
    (b, fate) :: fated budgets (spend spent b fate) older

theorem trimStep_eq (budgets : SourceKind → Nat) (acc : Trimming) (b : Block) :
    (trimStep budgets acc b).kept = acc.kept ++ ((fateOf budgets acc.spent b).kept b).toList ∧
      (trimStep budgets acc b).spent = spend acc.spent b (fateOf budgets acc.spent b) := by
  have hsame : ∀ k, (if k = b.source then acc.spent k + 0 else acc.spent k) = acc.spent k :=
    fun k => by split <;> rfl
  unfold trimStep fateOf
  dsimp only
  split
  · exact ⟨rfl, rfl⟩
  split
  · exact ⟨rfl, rfl⟩
  split
  · exact ⟨rfl, rfl⟩
  · exact ⟨(List.append_nil _).symm, funext fun k => (hsame k).symm⟩

theorem foldl_trimStep_kept (budgets : SourceKind → Nat) (walk : List Block) (acc : Trimming) :
    (walk.foldl (trimStep budgets) acc).kept =
      acc.kept ++ (fated budgets acc.spent walk).filterMap fun p => p.2.kept p.1 := by
  induction walk generalizing acc with
  | nil => exact (List.append_nil _).symm
  | cons b older ih =>
    obtain ⟨hkept, hspent⟩ := trimStep_eq budgets acc b
    rw [List.foldl_cons, ih, hkept, hspent, List.append_assoc]
    congr 1
    rw [fated, List.filterMap_cons]
    cases (fateOf budgets acc.spent b).kept b <;> rfl

theorem fated_fst (budgets spent : SourceKind → Nat) (walk : List Block) :
    (fated budgets spent walk).map Prod.fst = walk := by
  induction walk generalizing spent with
  | nil => rfl
  | cons b older ih => rw [fated, List.map_cons, ih]

/-! ## The caps -/

/-- A cut block fits in the room it was cut to. -/
theorem truncated_tokens_le {room : Nat} (h : minTruncatedTokens ≤ room) (b : Block) :
    (truncated room b).tokens ≤ room := by
  have hcut := utf8ByteSize_cutAt_le b.text ((room - minTruncatedTokens) * 3)
  have hmark : ("… [truncated at the per-source budget]" : String).utf8ByteSize = 40 := by decide
  show estimateTokens _ ≤ room
  unfold estimateTokens
  rw [String.utf8ByteSize_append, hmark]
  refine (Nat.mod_le _ _).trans ?_
  generalize (cutAt b.text ((room - minTruncatedTokens) * 3)).utf8ByteSize = size at hcut ⊢
  unfold minTruncatedTokens at h hcut
  omega

/-- What a trimmable block leaves fits in the room there was. -/
theorem keptTokens_le {budgets spent : SourceKind → Nat} {b : Block} (h : b.source.trimmable = true) :
    keptTokens b (fateOf budgets spent b) ≤ budgets b.source - spent b.source := by
  unfold fateOf
  dsimp only
  rw [if_neg (by simp [h])]
  split
  next hfits => exact hfits
  next =>
    split
    next hroom => exact truncated_tokens_le hroom b
    next => exact Nat.zero_le _

/-- The tokens one source has in the view. -/
def sourceTokens (source : SourceKind) (fates : List (Block × Fate)) : Nat :=
  ((fates.filter fun p => p.1.source = source).map fun p => keptTokens p.1 p.2).sum

theorem sourceTokens_le {budgets : SourceKind → Nat} {source : SourceKind}
    (h : source.trimmable = true) (walk : List Block) {spent : SourceKind → Nat}
    (hspent : spent source ≤ budgets source) :
    spent source + sourceTokens source (fated budgets spent walk) ≤ budgets source := by
  induction walk generalizing spent with
  | nil => exact hspent
  | cons b older ih =>
    rw [fated, sourceTokens, List.filter_cons]
    by_cases hb : b.source = source
    · subst hb
      have hkept : keptTokens b (fateOf budgets spent b) ≤ budgets b.source - spent b.source :=
        keptTokens_le h
      have hnow : spend spent b (fateOf budgets spent b) b.source =
          spent b.source + keptTokens b (fateOf budgets spent b) := if_pos rfl
      have hrest := @ih (spend spent b (fateOf budgets spent b)) (by omega)
      rw [if_pos (decide_eq_true rfl), List.map_cons, List.sum_cons]
      unfold sourceTokens at hrest
      dsimp only
      omega
    · have hnow : spend spent b (fateOf budgets spent b) source = spent source :=
        if_neg fun heq => hb heq.symm
      have hrest := @ih (spend spent b (fateOf budgets spent b)) (hnow ▸ hspent)
      rw [if_neg (by simpa using hb)]
      rw [hnow] at hrest
      exact hrest

/-! ## One source at a time -/

theorem fated_congr {budgets spent spent' : SourceKind → Nat} {walk : List Block}
    {source : SourceKind} (hwalk : ∀ b ∈ walk, b.source = source)
    (h : spent source = spent' source) : fated budgets spent walk = fated budgets spent' walk := by
  induction walk generalizing spent spent' with
  | nil => rfl
  | cons b older ih =>
    obtain ⟨rfl, holder⟩ := List.forall_mem_cons.mp hwalk
    have hfate : fateOf budgets spent b = fateOf budgets spent' b := by
      unfold fateOf
      rw [h]
    rw [fated, fated, hfate, ih holder]
    show (if _ then _ else _) = (if _ then _ else _)
    rw [if_pos rfl, if_pos rfl, h]

/-- The blocks of one source are walked as if they were alone. -/
theorem fated_filter (budgets spent : SourceKind → Nat) (source : SourceKind) (walk : List Block) :
    (fated budgets spent walk).filter (fun p => p.1.source = source) =
      fated budgets spent (walk.filter fun b => b.source = source) := by
  induction walk generalizing spent with
  | nil => rfl
  | cons b older ih =>
    rw [fated, List.filter_cons, List.filter_cons, ih]
    by_cases hb : b.source = source
    · rw [if_pos (decide_eq_true hb), if_pos (decide_eq_true hb), fated]
    · rw [if_neg (by simpa using hb), if_neg (by simpa using hb)]
      have hall : ∀ c ∈ older.filter (fun c => c.source = source), c.source = source :=
        fun c hc => of_decide_eq_true (List.mem_filter.mp hc).2
      exact fated_congr hall (if_neg fun heq => hb heq.symm)

/-! ## Oldest first -/

/-- Behind a block that is not whole, every older one is omitted. -/
def Yields (newer older : Block × Fate) : Prop := newer.2 ≠ .whole → older.2 = .omitted

/-- What is left of the room once a block that does not fit is cut or omitted. -/
def roomAfter (room : Nat) (b : Block) : Nat :=
  if minTruncatedTokens ≤ room then room - (truncated room b).tokens else room

/-- Of one source's blocks, newest first: once one does not fit, what is left of the room is too
small to cut an older block to, and no older block fits in it. -/
def NoneFitsLater : Nat → List Block → Prop
  | _, [] => True
  | room, b :: older =>
    if b.tokens ≤ room then NoneFitsLater (room - b.tokens) older
    else ∀ o ∈ older, roomAfter room b < o.tokens ∧ roomAfter room b < minTruncatedTokens

section Source

variable {budgets : SourceKind → Nat} {source : SourceKind}

theorem all_omitted_iff (h : source.trimmable = true) {walk : List Block}
    (hwalk : ∀ b ∈ walk, b.source = source) {spent : SourceKind → Nat} :
    (∀ p ∈ fated budgets spent walk, p.2 = .omitted) ↔
      ∀ o ∈ walk, budgets source - spent source < o.tokens ∧
        budgets source - spent source < minTruncatedTokens := by
  induction walk generalizing spent with
  | nil => simp [fated]
  | cons b older ih =>
    obtain ⟨rfl, holder⟩ := List.forall_mem_cons.mp hwalk
    rw [fated, List.forall_mem_cons, List.forall_mem_cons]
    have hfate : fateOf budgets spent b = .omitted ↔
        budgets b.source - spent b.source < b.tokens ∧
          budgets b.source - spent b.source < minTruncatedTokens := by
      unfold fateOf
      dsimp only
      rw [if_neg (by simp [h])]
      split
      next hfits => exact iff_of_false nofun (by omega)
      next hfits =>
        split
        next hroom => exact iff_of_false nofun (by omega)
        next hroom => exact iff_of_true rfl (by omega)
    rw [hfate]
    refine and_congr_right fun hhead => ?_
    have homitted := hfate.mpr hhead
    have hspent : spend spent b (fateOf budgets spent b) b.source = spent b.source := by
      rw [homitted]
      exact if_pos rfl
    rw [ih holder, hspent]

theorem pairwise_yields_iff (h : source.trimmable = true) {walk : List Block}
    (hwalk : ∀ b ∈ walk, b.source = source) {spent : SourceKind → Nat} :
    (fated budgets spent walk).Pairwise Yields ↔
      NoneFitsLater (budgets source - spent source) walk := by
  induction walk generalizing spent with
  | nil => exact iff_of_true .nil trivial
  | cons b older ih =>
    obtain ⟨rfl, holder⟩ := List.forall_mem_cons.mp hwalk
    rw [fated, List.pairwise_cons, NoneFitsLater]
    have hspent : spend spent b (fateOf budgets spent b) b.source =
        spent b.source + keptTokens b (fateOf budgets spent b) := if_pos rfl
    have hnot : ¬(!b.source.trimmable) = true := by simp [h]
    by_cases hfits : b.tokens ≤ budgets b.source - spent b.source
    · have hwhole : fateOf budgets spent b = .whole := by
        unfold fateOf
        dsimp only
        rw [if_neg hnot, if_pos hfits]
      rw [if_pos hfits, ih holder, hspent, hwhole, ← Nat.sub_sub]
      exact and_iff_right fun p _ hne => absurd rfl hne
    · have hne : fateOf budgets spent b ≠ .whole := by
        unfold fateOf
        dsimp only
        rw [if_neg hnot, if_neg hfits]
        split <;> nofun
      have hleft : budgets b.source - spend spent b (fateOf budgets spent b) b.source =
          roomAfter (budgets b.source - spent b.source) b := by
        rw [hspent, ← Nat.sub_sub]
        unfold fateOf roomAfter
        dsimp only
        rw [if_neg hnot, if_neg hfits]
        split <;> rfl
      rw [if_neg hfits, ← hleft, ← all_omitted_iff h holder]
      constructor
      · exact fun hall p hp => hall.1 p hp hne
      · intro hall
        refine ⟨fun p hp _ => hall p hp, List.pairwise_iff_forall_sublist.mpr fun hsub _ => ?_⟩
        exact hall _ (hsub.subset (by simp))

end Source

namespace Assembler

variable (assembler : Assembler) (blocks : List Block)

/-- Each block with its fate, in the order of the blocks. -/
def fates : List (Block × Fate) := (fated assembler.budgets (fun _ => 0) blocks.reverse).reverse

/-- What trimming promises of these blocks. -/
structure OldestFirst : Prop where
  each : (assembler.fates blocks).map Prod.fst = blocks
  /-- Behind the notices, what is kept stands in its order. -/
  placed : ∃ notices, assembler.trimToBudget blocks =
      notices ++ (assembler.fates blocks).filterMap (fun p => p.2.kept p.1) ∧
    ∀ notice ∈ notices, ∃ source count trust, notice = omittedNotice source count trust
  capped : ∀ source : SourceKind, source.trimmable = true →
    sourceTokens source (assembler.fates blocks) ≤ assembler.budgets source
  yields : (assembler.fates blocks).Pairwise fun older newer =>
    older.1.source = newer.1.source → newer.1.source.trimmable = true → Yields newer older

theorem fates_fst : (assembler.fates blocks).map Prod.fst = blocks := by
  rw [fates, List.map_reverse, fated_fst, List.reverse_reverse]

theorem trimToBudget_eq : ∃ notices, assembler.trimToBudget blocks =
      notices ++ (assembler.fates blocks).filterMap (fun p => p.2.kept p.1) ∧
    ∀ notice ∈ notices, ∃ source count trust, notice = omittedNotice source count trust := by
  unfold trimToBudget
  dsimp only
  rw [foldl_trimStep_kept, List.nil_append, List.reverse_append, ← List.filterMap_reverse]
  refine ⟨_, rfl, fun notice hmem => ?_⟩
  obtain ⟨⟨source, count, trust⟩, -, rfl⟩ := List.mem_map.mp (List.mem_reverse.mp hmem)
  exact ⟨source, count, trust, rfl⟩

theorem sourceTokens_fates_le {source : SourceKind} (h : source.trimmable = true) :
    sourceTokens source (assembler.fates blocks) ≤ assembler.budgets source := by
  have hwalk := @sourceTokens_le assembler.budgets source h blocks.reverse (fun _ => 0) (Nat.zero_le _)
  rw [sourceTokens, fates, List.filter_reverse, List.map_reverse, List.sum_reverse]
  exact (Nat.le_add_left _ _).trans hwalk

/-- The blocks of every source give way oldest first if those of each source do. -/
theorem yields_iff :
    ((assembler.fates blocks).Pairwise fun older newer =>
        older.1.source = newer.1.source → newer.1.source.trimmable = true → Yields newer older) ↔
      ∀ source : SourceKind, source.trimmable = true →
        NoneFitsLater (assembler.budgets source) (blocks.reverse.filter fun b => b.source = source) := by
  rw [fates, List.pairwise_reverse]
  have hone (source : SourceKind) (h : source.trimmable = true) :
      NoneFitsLater (assembler.budgets source) (blocks.reverse.filter fun b => b.source = source) ↔
        (fated assembler.budgets (fun _ => 0) blocks.reverse).Pairwise fun newer older =>
          newer.1.source = source → older.1.source = source → Yields newer older := by
    have hwalk : ∀ b ∈ blocks.reverse.filter fun b => b.source = source, b.source = source :=
      fun b hb => of_decide_eq_true (List.mem_filter.mp hb).2
    have hiff : (fated assembler.budgets (fun _ => 0) _).Pairwise Yields ↔
      NoneFitsLater (assembler.budgets source - 0) _ := pairwise_yields_iff h hwalk
    rw [Nat.sub_zero, ← fated_filter, List.pairwise_filter] at hiff
    simpa only [decide_eq_true_iff] using hiff.symm
  constructor
  · intro hall source h
    refine (hone source h).mpr (hall.imp fun hyields hnewer holder => ?_)
    exact hyields (holder.trans hnewer.symm) (hnewer ▸ h)
  · intro hall
    refine List.pairwise_iff_forall_sublist.mpr fun {newer older} hsub hsame htrim => ?_
    have hpair := (hone newer.1.source htrim).mp (hall _ htrim)
    exact List.pairwise_iff_forall_sublist.mp hpair hsub rfl hsame

/-- Trimming drops oldest first exactly if, of each trimmable source, no block fits in what is
left once a newer one did not. -/
theorem oldestFirst_iff : assembler.OldestFirst blocks ↔
    ∀ source : SourceKind, source.trimmable = true →
      NoneFitsLater (assembler.budgets source) (blocks.reverse.filter fun b => b.source = source) :=
  ⟨fun h => (assembler.yields_iff blocks).mp h.yields, fun h =>
    { each := assembler.fates_fst blocks
      placed := assembler.trimToBudget_eq blocks
      capped := fun _ htrim => assembler.sourceTokens_fates_le blocks htrim
      yields := (assembler.yields_iff blocks).mpr h }⟩

/-- A short result, and a newer one that does not fit in the ten tokens of its source. -/
def shortThenLong : List Block :=
  [.toolResult "ok" "look" .agentObserved none false,
    .toolResult "a result of sixty bytes, which is twenty tokens by the estimate" "look"
      .agentObserved none false]

/-- The older block is kept and the newer one is not. -/
theorem older_kept : ¬ ∀ (assembler : Assembler) (blocks : List Block),
    assembler.OldestFirst blocks := by
  intro h
  have hyields := (h (Assembler.new 50 0) shortThenLong).yields
  have hpair : (Assembler.new 50 0).fates shortThenLong =
      [(shortThenLong[0], .whole), (shortThenLong[1], .omitted)] := rfl
  rw [hpair, List.pairwise_cons] at hyields
  have homitted := hyields.1 _ (List.mem_singleton.mpr rfl) rfl rfl nofun
  exact absurd homitted nofun

end Assembler

end MarloweAgent.Loop
