import MarloweAgent.Loop.Floor

/-! What compaction leaves of a session: everything outside the volatile tier, the user's
last turn, and no prefix that was rendered before. -/

namespace MarloweAgent.Loop
open Contract Library

/-! ## The turn that stays -/

/-- The last turn the user took. -/
def liveTurn (blocks : List Block) : Option Block := blocks.reverse.find? Block.isUserTurn

/-- All blocks but that turn. An equal block that stands before it is one of them. -/
def replacedBlocks (blocks : List Block) : List Block :=
  (blocks.reverse.eraseP Block.isUserTurn).reverse

theorem takeLive_eq (blocks : List Block) :
    Assembler.takeLive blocks = (replacedBlocks blocks, liveTurn blocks) := by
  induction blocks with
  | nil => rfl
  | cons b rest ih =>
    unfold Assembler.takeLive
    rw [ih]
    simp only [replacedBlocks, liveTurn, List.reverse_cons, List.find?_append]
    cases hrest : rest.reverse.find? Block.isUserTurn with
    | some live =>
      obtain ⟨hlive, hmem⟩ := And.intro (List.find?_some hrest) (List.mem_of_find?_eq_some hrest)
      rw [List.eraseP_append_left hlive _ hmem]
      simp
    | none =>
      have hnone : ∀ c ∈ rest.reverse, ¬ c.isUserTurn = true := by simpa using hrest
      rw [List.eraseP_append_right _ hnone]
      cases hb : b.isUserTurn with
      | true => simp [hb, List.eraseP_of_forall_not hnone]
      | false => simp [hb, List.eraseP_of_forall_not hnone]

/-- The minimum of a list and one more. -/
theorem min?_elim (t : TrustClass) (l : List TrustClass) :
    (match l.min? with | some floor => min t floor | none => t) = l.foldr min t := by
  induction l with
  | nil => rfl
  | cons a rest ih =>
    rw [List.foldr_cons, ← ih, List.min?_cons]
    cases rest.min? with
    | none => exact min_comm t a
    | some floor => exact min_left_comm t a floor

/-- The summary is no better than a model's own words, and than anything it stands for. -/
theorem summaryBlock_trust_eq (discarded : List Block) (summary : String) :
    (Assembler.summaryBlock discarded summary).trust =
      (discarded.map Block.trust).foldr min .agentInferred :=
  min?_elim .agentInferred (discarded.map Block.trust)

/-! ## The cached prefixes -/

namespace PrefixCache

def store (cache : PrefixCache) (session : SessionId) (epoch : Nat) (text : String) : PrefixCache :=
  ⟨cache.entries.insert session (epoch, text)⟩

/-- What is cached for a session, if it was cached at that epoch. -/
def lookup (cache : PrefixCache) (session : SessionId) (epoch : Nat) : Option String :=
  match cache.entries.get? session with
  | some (stored, text) => if stored = epoch then some text else none
  | none => none

variable {cache : PrefixCache} {session : SessionId} {epoch : Nat} {text : String}

theorem lookup_eq_some : cache.lookup session epoch = some text ↔
    cache.entries.get? session = some (epoch, text) := by
  unfold lookup
  cases cache.entries.get? session with
  | none => simp
  | some entry =>
    obtain ⟨stored, kept⟩ := entry
    by_cases h : stored = epoch <;> simp [h]

/-- Nothing is served for a session whose entry is gone. -/
theorem lookup_invalidate (cache : PrefixCache) (session : SessionId) (epoch : Nat) :
    (cache.invalidate session).lookup session epoch = none := by
  simp [lookup, invalidate, OrderedMap.get?_erase_self]

end PrefixCache

/-- A session, its assembler and the prefixes cached of its views. -/
structure Cached where
  assembler : Assembler
  state : SessionState
  cache : PrefixCache

/-- What is done with them. A view carries the epoch it was assembled at, so a prefix may be
cached `age` epochs late. -/
inductive CacheOp
  | store (session : SessionId) (age : Nat) (text : String)
  | push (b : Block)
  | clearToolResults (keep : Nat)
  | compact (child : SessionId) (summary : String)

namespace Cached

def compact (c : Cached) (child : SessionId) (summary : String) : Cached :=
  let (assembler, state, cache) := c.assembler.compact c.state child summary c.cache
  { assembler, state, cache }

def apply (c : Cached) : CacheOp → Cached
  | .store session age text => { c with cache := c.cache.store session (c.assembler.cacheEpoch - age) text }
  | .push b => { c with state := c.state.push b }
  | .clearToolResults keep => { c with state := (Assembler.clearToolResults c.state keep).1 }
  | .compact child summary => c.compact child summary

def applyAll (c : Cached) (ops : List CacheOp) : Cached := ops.foldl apply c

/-- With nothing cached yet. -/
def new (assembler : Assembler) (state : SessionState) : Cached :=
  { assembler, state, cache := ⟨OrderedMap.empty⟩ }

/-- What is served for a view assembled now. -/
def served (c : Cached) (session : SessionId) : Option String :=
  c.cache.lookup session c.assembler.cacheEpoch

variable {c : Cached} {op : CacheOp} {session : SessionId} {epoch : Nat} {text : String}

theorem epoch_apply (c : Cached) (op : CacheOp) :
    c.assembler.cacheEpoch ≤ (c.apply op).assembler.cacheEpoch := by
  cases op with
  | compact => exact Nat.le_succ _
  | _ => exact le_rfl

/-- An entry was there before, or it has just been stored. -/
theorem entry_apply (h : (c.apply op).cache.entries.get? session = some (epoch, text)) :
    c.cache.entries.get? session = some (epoch, text) ∨
      ∃ age, op = .store session age text ∧ epoch = c.assembler.cacheEpoch - age := by
  cases op with
  | push | clearToolResults => exact .inl h
  | store stored age kept =>
    rw [apply, PrefixCache.store, OrderedMap.get?_insert] at h
    split at h
    next heq =>
      cases h
      exact .inr ⟨age, heq ▸ rfl, rfl⟩
    next => exact .inl h
  | compact child summary =>
    change (c.cache.entries.erase c.state.session).get? session = _ at h
    rw [OrderedMap.get?_erase] at h
    split at h
    next => cases h
    next => exact .inl h

/-- No entry is newer than the assembler. -/
def Bounded (c : Cached) : Prop := ∀ session epoch text,
  c.cache.entries.get? session = some (epoch, text) → epoch ≤ c.assembler.cacheEpoch

theorem Bounded.apply (h : c.Bounded) (op : CacheOp) : (c.apply op).Bounded := by
  intro session epoch text hentry
  refine le_trans ?_ (epoch_apply c op)
  rcases entry_apply hentry with hold | ⟨age, -, rfl⟩
  · exact h session epoch text hold
  · exact Nat.sub_le _ _

theorem Bounded.applyAll (h : c.Bounded) (ops : List CacheOp) : (c.applyAll ops).Bounded := by
  induction ops generalizing c with
  | nil => exact h
  | cons op rest ih => exact ih (h.apply op)

theorem epoch_applyAll (c : Cached) (ops : List CacheOp) :
    c.assembler.cacheEpoch ≤ (c.applyAll ops).assembler.cacheEpoch := by
  induction ops generalizing c with
  | nil => exact le_rfl
  | cons op rest ih => exact (epoch_apply c op).trans (ih (c.apply op))

theorem entry_applyAll {ops : List CacheOp}
    (h : (c.applyAll ops).cache.entries.get? session = some (epoch, text)) :
    c.cache.entries.get? session = some (epoch, text) ∨ ∃ age, .store session age text ∈ ops := by
  induction ops generalizing c with
  | nil => exact .inl h
  | cons op rest ih =>
    rcases ih h with hentry | ⟨age, hmem⟩
    · rcases entry_apply hentry with hold | ⟨age, rfl, -⟩
      · exact .inl hold
      · exact .inr ⟨age, List.mem_cons_self⟩
    · exact .inr ⟨age, List.mem_cons_of_mem _ hmem⟩

/-- A session whose cache is empty has no entry newer than its assembler. -/
theorem new_bounded (assembler : Assembler) (state : SessionState) :
    (new assembler state).Bounded := nofun

/-- What is served after a compaction was stored after it. -/
theorem served_after_compact (h : c.Bounded) {child : SessionId} {summary : String}
    {ops : List CacheOp} (hserved : ((c.compact child summary).applyAll ops).served session = some text) :
    ∃ age, .store session age text ∈ ops := by
  refine (entry_applyAll (PrefixCache.lookup_eq_some.mp hserved)).resolve_left fun hold => ?_
  have hstored : (c.apply (.compact child summary)).cache.entries.get? session = some (_, text) := hold
  obtain hbefore | ⟨_, hop, _⟩ := entry_apply hstored
  · have hle := h _ _ _ hbefore
    have hmono := epoch_applyAll (c.compact child summary) ops
    exact absurd (hmono.trans hle) (Nat.not_succ_le_self c.assembler.cacheEpoch)
  · cases hop

end Cached

/-! ## The frame -/

/-- What a compaction does to a session. -/
structure Compacted (c c' : Cached) : Prop where
  identity : c'.state.identity = c.state.identity
  governance : c'.state.governance = c.state.governance
  contextBlocks : c'.state.contextBlocks = c.state.contextBlocks
  volatile : ∃ summary, c'.state.volatile = summary :: (liveTurn c.state.volatile).toList ∧
    summary.source = .summary ∧ summary.trust =
      ((replacedBlocks c.state.volatile).map Block.trust).foldr min .agentInferred
  epoch : c'.assembler.cacheEpoch = c.assembler.cacheEpoch + 1
  dropped : ∀ epoch, c'.cache.lookup c.state.session epoch = none

theorem Cached.compact_compacted (c : Cached) (child : SessionId) (summary : String) :
    Compacted c (c.compact child summary) where
  identity := rfl
  governance := rfl
  contextBlocks := rfl
  volatile := by
    refine ⟨Assembler.summaryBlock (replacedBlocks c.state.volatile) summary, ?_, rfl,
      summaryBlock_trust_eq _ _⟩
    show Assembler.summaryBlock (Assembler.takeLive c.state.volatile).1 summary ::
      (Assembler.takeLive c.state.volatile).2.toList = _
    rw [takeLive_eq]
  epoch := rfl
  dropped := PrefixCache.lookup_invalidate _ _

/-- **Compaction replaces the volatile tier alone, and no prefix rendered before it is served
in any run after it.** -/
theorem compaction_frame :
    (∀ (c : Cached) (child : SessionId) (summary : String), Compacted c (c.compact child summary)) ∧
    ∀ (assembler : Assembler) (state : SessionState) (before after : List CacheOp)
      (child : SessionId) (summary : String) (session : SessionId) (text : String),
      ((((Cached.new assembler state).applyAll before).compact child summary).applyAll after).served
        session = some text → ∃ age, .store session age text ∈ after :=
  ⟨Cached.compact_compacted, fun assembler state before _ _ _ _ _ hserved =>
    Cached.served_after_compact ((Cached.new_bounded assembler state).applyAll before) hserved⟩

/-- Two turns of the user, the first of which is replaced. -/
def twoTurns : Cached :=
  Cached.new (Assembler.new 1000 0) { SessionState.new 1 "M" with
    volatile := [.new .history "first" .userAsserted, .new .history "second" .userAsserted] }

/-- The summary of a turn of the user is of a lower class than the turn. -/
theorem summary_below_replaced :
    ¬ (∀ (c : Cached) (child : SessionId) (summary : String) (b : Block) (floor : TrustClass),
      (c.compact child summary).state.volatile.head? = some b →
      ((replacedBlocks c.state.volatile).map Block.trust).min? = some floor → b.trust = floor) ∧
    (replacedBlocks twoTurns.state.volatile).map Block.trust = [.userAsserted] ∧
    (twoTurns.compact 2 "gist").state.volatile.map Block.trust = [.agentInferred, .userAsserted] := by
  refine ⟨fun h => ?_, by decide, by decide⟩
  have hmin := h twoTurns 2 "gist" _ .userAsserted rfl (by decide)
  exact absurd hmin (by decide)

end MarloweAgent.Loop
