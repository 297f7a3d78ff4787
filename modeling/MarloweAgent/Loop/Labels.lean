import MarloweAgent.Loop.Contracts
import MarloweAgent.Loop.Nesting
import MarloweAgent.Loop.Script

/-! The labels of a chunk. A source the reader saw is answered under the label it was
announced by; a cached one is answered under its place in the chunk, which may be the
label of another. -/

namespace MarloweAgent.Loop
open Contract Library

variable {σ : Type}

theorem sourceLabel_injective {i j : Nat} (h : sourceLabel i = sourceLabel j) : i = j := by
  have hdigits : Nat.toDigits 10 (i + 1) = Nat.toDigits 10 (j + 1) := by
    have hlist := congrArg String.toList h
    simpa [sourceLabel, String.toList_append, Nat.toString_eq_ofList_toDigits] using hlist
  exact Nat.succ_injective (Text.toDigits_injective hdigits)

/-! ## The labels of the notes -/

/-- The label each note carries. A note of why nothing was read carries none. -/
def noteLabels (answer : ReaderAnswer) :
    Nat → Nat → List (PendingRead × Option String) → List (Option String)
  | _, _, [] => []
  | i, k, (_, some _) :: rest => some (sourceLabel i) :: noteLabels answer (i + 1) k rest
  | i, k, (_, none) :: rest =>
    ((answer.perSource[k]?).join.map fun _ => sourceLabel k) :: noteLabels answer (i + 1) (k + 1) rest

/-- A note for each read, under these labels. -/
inductive Labelled : List PendingRead → List (Option String) → List Block → Prop
  | nil : Labelled [] [] []
  | named {ps labels notes} (p : PendingRead) (label about body : String) (h : Labelled ps labels notes) :
    Labelled (p :: ps) (some label :: labels) (readerNote p (condensedNote p label about body) :: notes)
  | refused {ps labels notes} (p : PendingRead) (refusal : QuarantineRefusal)
    (h : Labelled ps labels notes) :
    Labelled (p :: ps) (none :: labels) (readerNote p (p.summary ++ " · " ++ refusal.note) :: notes)
  | unread {ps labels notes} (p : PendingRead) (h : Labelled ps labels notes) :
    Labelled (p :: ps) (none :: labels) (unreadNote p :: notes)

theorem labelled_answeredNotes (answer : ReaderAnswer) (i k : Nat)
    (hits : List (PendingRead × Option String)) :
    Labelled (hits.map Prod.fst) (noteLabels answer i k hits) (answeredNotes answer i k hits) := by
  induction hits generalizing i k with
  | nil => exact .nil
  | cons hit rest ih =>
    obtain ⟨p, cached⟩ := hit
    cases cached with
    | some cached => exact .named p (sourceLabel i) "" cached (ih _ _)
    | none =>
      unfold noteLabels answeredNotes
      cases (answer.perSource[k]?).join with
      | some body => exact .named p (sourceLabel k) answer.about body (ih _ _)
      | none => exact .refused p answer.refusal (ih _ _)

theorem labelled_unread (ps : List PendingRead) :
    Labelled ps (ps.map fun _ => none) (ps.map unreadNote) := by
  induction ps with
  | nil => exact .nil
  | cons p rest ih => exact .unread p ih

/-! ## Where cached documents stand -/

/-- How many fresh documents stand before a place. -/
def freshBefore (hits : List (PendingRead × Option String)) (i : Nat) : Nat :=
  (freshReads (hits.take i)).length

/-- No cached document stands before a fresh one. -/
def FreshFirst (hits : List (PendingRead × Option String)) : Prop :=
  hits.Pairwise fun a b => a.2.isSome = true → b.2.isSome = true

section Labels

variable {answer : ReaderAnswer} {hits : List (PendingRead × Option String)} {i k j : Nat} {label : String}

/-- Behind the fresh documents, every label is the one of its place. -/
theorem label_of_cached (h : ∀ hit ∈ hits, hit.2.isSome = true)
    (hj : (noteLabels answer i k hits)[j]? = some (some label)) : label = sourceLabel (i + j) := by
  induction hits generalizing i j with
  | nil => cases hj
  | cons hit rest ih =>
    obtain ⟨hhit, hrest⟩ := List.forall_mem_cons.mp h
    obtain ⟨p, cached⟩ := hit
    obtain ⟨cached, rfl⟩ := Option.isSome_iff_exists.mp hhit
    cases j with
    | zero => cases hj; rfl
    | succ j => rw [ih hrest hj, Nat.add_right_comm, Nat.add_assoc]

/-- With the fresh documents first, every label is the one of its place. -/
theorem label_of_freshFirst (h : FreshFirst hits)
    (hj : (noteLabels answer i i hits)[j]? = some (some label)) : label = sourceLabel (i + j) := by
  induction hits generalizing i j with
  | nil => cases hj
  | cons hit rest ih =>
    obtain ⟨hhit, hrest⟩ := List.pairwise_cons.mp h
    obtain ⟨p, cached⟩ := hit
    cases cached with
    | some cached =>
      refine label_of_cached (k := i) (List.forall_mem_cons.mpr ⟨rfl, fun later hlater => ?_⟩) hj
      exact hhit later hlater rfl
    | none =>
      cases j with
      | zero =>
        obtain ⟨_, -, rfl⟩ := Option.map_eq_some_iff.mp (Option.some.inj hj)
        rfl
      | succ j => rw [ih hrest hj, Nat.add_right_comm, Nat.add_assoc]

/-- A fresh document carries the label of its place among the fresh ones. -/
theorem label_of_fresh {p : PendingRead} (hp : hits[j]? = some (p, none))
    (hj : (noteLabels answer i k hits)[j]? = some (some label)) :
    label = sourceLabel (k + freshBefore hits j) ∧ (freshReads hits)[freshBefore hits j]? = some p := by
  induction hits generalizing i k j with
  | nil => cases hp
  | cons hit rest ih =>
    obtain ⟨q, cached⟩ := hit
    cases j with
    | zero =>
      cases hp
      obtain ⟨_, -, rfl⟩ := Option.map_eq_some_iff.mp (Option.some.inj hj)
      exact ⟨rfl, rfl⟩
    | succ j =>
      cases cached with
      | some cached => exact ih hp hj
      | none =>
        obtain ⟨hlabel, hread⟩ := ih hp hj
        refine ⟨?_, hread⟩
        rw [hlabel]
        exact congrArg sourceLabel (by simp [freshBefore, freshReads]; omega)

end Labels

/-- If a cached document stands before a fresh one, then one stands at the place some fresh
document has among the fresh ones. -/
theorem exists_cached {hits : List (PendingRead × Option String)} (h : ¬FreshFirst hits) :
    ∃ i < (freshReads hits).length, ∃ p cached, hits[i]? = some (p, some cached) := by
  induction hits with
  | nil => exact absurd List.Pairwise.nil h
  | cons hit rest ih =>
    obtain ⟨p, cached⟩ := hit
    cases cached with
    | some cached =>
      refine ⟨0, ?_, p, cached, rfl⟩
      by_contra hnone
      have hempty : freshReads rest = [] := List.length_eq_zero_iff.mp (Nat.eq_zero_of_not_pos hnone)
      have hall : ∀ later ∈ rest, later.2.isSome = true := fun later hlater => by
        have hskipped : (if later.2.isNone then some later.1 else none) = none :=
          List.filterMap_eq_nil_iff.mp hempty later hlater
        simpa [Option.isSome_iff_ne_none] using hskipped
      refine h (List.pairwise_cons.mpr ⟨fun later hlater _ => hall later hlater, ?_⟩)
      exact List.pairwise_of_forall_mem_list fun _ _ later hlater _ => hall later hlater
    | none =>
      have hrest : ¬FreshFirst rest := by
        intro hrest
        refine h (List.pairwise_cons.mpr ⟨fun _ _ hcached => ?_, hrest⟩)
        cases hcached
      obtain ⟨i, hi, q, cached, hq⟩ := ih hrest
      exact ⟨i + 1, Nat.succ_lt_succ hi, q, cached, hq⟩

/-- Each place among the fresh documents is some document's, and its label that one's. -/
theorem exists_fresh {answer : ReaderAnswer} {hits : List (PendingRead × Option String)} {i k s : Nat}
    (hs : s < (freshReads hits).length) (hanswer : ((answer.perSource[k + s]?).join).isSome = true) :
    ∃ (j : Nat) (p : PendingRead), hits[j]? = some (p, none) ∧
      (noteLabels answer i k hits)[j]? = some (some (sourceLabel (k + s))) := by
  induction hits generalizing i k s with
  | nil => cases hs
  | cons hit rest ih =>
    obtain ⟨p, cached⟩ := hit
    cases cached with
    | some cached =>
      obtain ⟨j, q, hq, hlabel⟩ := ih (i := i + 1) hs hanswer
      exact ⟨j + 1, q, hq, hlabel⟩
    | none =>
      cases s with
      | zero =>
        obtain ⟨body, hbody⟩ := Option.isSome_iff_exists.mp hanswer
        rw [Nat.add_zero] at hbody
        exact ⟨0, p, rfl, by simp [noteLabels, hbody]⟩
      | succ s =>
        have hlater : s < (freshReads rest).length := Nat.lt_of_succ_lt_succ hs
        rw [← Nat.add_assoc, Nat.add_right_comm] at hanswer
        obtain ⟨j, q, hq, hlabel⟩ := ih (i := i + 1) (k := k + 1) hlater hanswer
        exact ⟨j + 1, q, hq, by rw [← Nat.add_assoc, Nat.add_right_comm]; exact hlabel⟩

theorem label_of_hit {answer : ReaderAnswer} {hits : List (PendingRead × Option String)} {i k j : Nat}
    {p : PendingRead} {cached : String} (h : hits[j]? = some (p, some cached)) :
    (noteLabels answer i k hits)[j]? = some (some (sourceLabel (i + j))) := by
  induction hits generalizing i k j with
  | nil => cases h
  | cons hit rest ih =>
    obtain ⟨q, hit⟩ := hit
    cases j with
    | zero => cases h; rfl
    | succ j =>
      have hplace : i + (j + 1) = i + 1 + j := by omega
      rw [hplace]
      cases hit <;> exact ih h

/-! ## What a chunk leaves -/

/-- The session is as it was. -/
def SameState (m m' : Machine σ) : Prop := m'.state = m.state

section Chunk

variable (sys : Outside σ) (ports : Ports σ) (sub : SubRun σ) (chunk : List PendingRead)

theorem SameState.refl (m : Machine σ) : SameState m m := rfl

theorem SameState.trans (m m' m'' : Machine σ) (h : SameState m m') (h' : SameState m' m'') :
    SameState m m'' :=
  Eq.trans h' h

theorem sameState_record (kind : EventLog.EventKind) (payload : Payload) :
    Stateful.Within SameState (record ports kind payload) := by
  intro m
  obtain ⟨env, accepted, notice, hrun, _⟩ := record_run ports kind payload m
  rw [hrun]
  rfl

theorem sameState_recordReaderFailure (child : RunId) (contract : OutputContract)
    (outcome : LoopOutcome) : Stateful.Within SameState (recordReaderFailure ports child contract outcome) := by
  cases outcome with
  | completed result =>
    unfold recordReaderFailure
    dsimp only
    split
    · exact .pure SameState.refl _
    · exact (sameState_record ports _ _).bind SameState.trans fun _ => .pure SameState.refl _
  | _ => exact (sameState_record ports _ _).bind SameState.trans fun _ => .pure SameState.refl _

/-- A reader run leaves the session of its parent as it is, whatever drives it. -/
theorem sameState_readSources (childBudget : Budget) (fresh : List PendingRead) :
    Stateful.Within SameState (readSources ports sub childBudget fresh) := by
  unfold readSources
  refine .bind SameState.trans (fun _ => rfl) fun childId => .bind SameState.trans (fun _ => rfl)
    fun session => .read_bind fun m => ?_
  have hstep : Stateful.Within SameState (runChild sub ports.forReader (Run.child childId m.run session
      .quarantinedReader childBudget .terminate (readerContract fresh.length))
      (readerWindow session m.state fresh (readerContract fresh.length))) := fun _ => rfl
  refine Stateful.Within.bind SameState.trans (sameState_record ports _ _) (fun _ => ?_) m
  refine .bind SameState.trans (fun _ => rfl) fun line => .bind SameState.trans (fun _ => rfl) fun _ => ?_
  refine .bind SameState.trans hstep fun answered => ?_
  refine .bind SameState.trans (sameState_recordReaderFailure ports _ _ _) fun _ => ?_
  exact .bind SameState.trans (fun _ => rfl) fun _ => .pure SameState.refl _

theorem volatile_pushBlocks (blocks : List Block) (h : ∀ b ∈ blocks, b.source.tier = .volatile)
    (m : Machine σ) :
    ((Stateful.each pushBlock blocks).run m).2.state.volatile = m.state.volatile ++ blocks := by
  induction blocks generalizing m with
  | nil => exact (List.append_nil _).symm
  | cons b rest ih =>
    obtain ⟨hb, hrest⟩ := List.forall_mem_cons.mp h
    have hpush : (m.withState (m.state.push b)).state.volatile = m.state.volatile ++ [b] := by
      show (m.state.push b).volatile = _
      rw [SessionState.push, hb]
    show ((Stateful.each pushBlock rest).run (m.withState (m.state.push b))).2.state.volatile = _
    rw [ih hrest, hpush, List.append_assoc, List.singleton_append]

/-- What the fresh documents of a chunk were answered with: nothing was read without a fresh one,
and nothing is answered without a budget. -/
def chunkAnswer (m : Machine σ) : Option ReaderAnswer :=
  let hits := cacheHits sys m.engine.condensed chunk
  if (freshReads hits).isEmpty then some ⟨"", [], .contractUnmet⟩
  else (m.run.budget.sliceForQuarantinedRead m.run.spent).map fun childBudget =>
    ((readSources ports sub childBudget (freshReads hits)).run
      (m.note (.consulted m.run.id (hits.map Prod.snd)))).1

/-- The labels of the notes it leaves. -/
def chunkLabels (m : Machine σ) : List (Option String) :=
  match chunkAnswer sys ports sub chunk m with
  | some answer => noteLabels answer 0 0 (cacheHits sys m.engine.condensed chunk)
  | none => chunk.map fun _ => none

/-- The notes a chunk leaves carry those labels. -/
theorem condenseChunk_notes (m : Machine σ) : ∃ notes,
    ((condenseChunk sys ports sub chunk).run m).2.state.volatile = m.state.volatile ++ notes ∧
      Labelled chunk (chunkLabels sys ports sub chunk m) notes := by
  let hits := cacheHits sys m.engine.condensed chunk
  let consulted := m.note (.consulted m.run.id (hits.map Prod.snd))
  have hreads : hits.map Prod.fst = chunk := by simp [hits, cacheHits, Function.comp_def]
  have hanswered (answer : ReaderAnswer) : Labelled chunk (noteLabels answer 0 0 hits)
      (answeredNotes answer 0 0 hits) := hreads ▸ labelled_answeredNotes answer 0 0 hits
  have hpush (answer : ReaderAnswer) (m' : Machine σ) (hstate : m'.state = m.state) :
      ((Stateful.each pushBlock (answeredNotes answer 0 0 hits)).run m').2.state.volatile =
        m.state.volatile ++ answeredNotes answer 0 0 hits := by
    rw [volatile_pushBlocks _ (answeredNotes_volatile answer 0 0 hits), hstate]
  unfold condenseChunk chunkLabels chunkAnswer
  rw [Stateful.run_bind, Stateful.run_read, Stateful.run_bind]
  dsimp only
  rw [Stateful.run_ite]
  split
  next => exact ⟨_, hpush _ consulted rfl, hanswered _⟩
  next =>
    cases m.run.budget.sliceForQuarantinedRead m.run.spent with
    | none =>
      refine ⟨_, volatile_pushBlocks _ (List.forall_mem_map.mpr fun _ _ => rfl) consulted, ?_⟩
      exact labelled_unread chunk
    | some childBudget =>
      refine ⟨_, ?_, hanswered _⟩
      exact hpush _ _ (sameState_readSources ports sub childBudget (freshReads hits) consulted)

end Chunk

/-! ## When the labels differ -/

/-- The labels of a list that are given differ from place to place. -/
def DistinctLabels (labels : List (Option String)) : Prop := ∀ (i j : Nat) (label : String),
  labels[i]? = some (some label) → labels[j]? = some (some label) → i = j

theorem distinctLabels_of_freshFirst {answer : ReaderAnswer} {hits : List (PendingRead × Option String)}
    (h : FreshFirst hits) : DistinctLabels (noteLabels answer 0 0 hits) := by
  intro i j label hi hj
  have hlabel : sourceLabel (0 + i) = sourceLabel (0 + j) :=
    (label_of_freshFirst h hi).symm.trans (label_of_freshFirst h hj)
  simpa using sourceLabel_injective hlabel

/-- With every fresh document answered, no label is given twice only if none is behind a cached one. -/
theorem freshFirst_of_distinctLabels {answer : ReaderAnswer}
    {hits : List (PendingRead × Option String)}
    (hanswer : ∀ s < (freshReads hits).length, ((answer.perSource[s]?).join).isSome = true)
    (h : DistinctLabels (noteLabels answer 0 0 hits)) : FreshFirst hits := by
  by_contra hmixed
  obtain ⟨i, hi, p, cached, hcached⟩ := exists_cached hmixed
  obtain ⟨j, q, hq, hlabel⟩ :=
    exists_fresh (i := 0) (k := 0) hi (by rw [Nat.zero_add]; exact hanswer i hi)
  rw [Nat.zero_add] at hlabel
  have hcachedLabel : (noteLabels answer 0 0 hits)[i]? = some (some (sourceLabel (0 + i))) :=
    label_of_hit hcached
  rw [Nat.zero_add] at hcachedLabel
  rw [h i j _ hcachedLabel hlabel, hq] at hcached
  cases hcached

/-! ## What was announced -/

/-- A source in its reader's window, under its label. -/
def sourceBlock (label : String) (p : PendingRead) : Block :=
  .new .toolResults ("=== " ++ label ++ " (" ++ p.tool.text ++ ") ===\n" ++ p.text) .untrustedContent

theorem volatile_foldl_push (blocks : List Block) (h : ∀ b ∈ blocks, b.source.tier = .volatile)
    (state : SessionState) : (blocks.foldl SessionState.push state).volatile = state.volatile ++ blocks := by
  induction blocks generalizing state with
  | nil => exact (List.append_nil _).symm
  | cons b rest ih =>
    obtain ⟨hb, hrest⟩ := List.forall_mem_cons.mp h
    have hpush : (state.push b).volatile = state.volatile ++ [b] := by rw [SessionState.push, hb]
    rw [List.foldl_cons, ih hrest, hpush, List.append_assoc, List.singleton_append]

theorem childWindow_volatile (session : SessionId) (parent : SessionState) :
    (childWindow session parent).volatile = [] := by
  have hfold : ∀ (constraints : List GovernanceConstraint) (state : SessionState),
      (constraints.foldl SessionState.assertGovernance state).volatile = state.volatile := by
    intro constraints
    induction constraints with
    | nil => exact fun _ => rfl
    | cons c rest ih => exact fun state => ih (state.assertGovernance c)
  exact hfold _ _

theorem readerWindow_volatile (session : SessionId) (parent : SessionState) (fresh : List PendingRead)
    (contract : OutputContract) : (readerWindow session parent fresh contract).volatile =
      .new .brief (readerBrief fresh.length contract) .agentInferred ::
        fresh.zipIdx.map fun p => sourceBlock (sourceLabel p.2) p.1 := by
  let brief := Block.new .brief (readerBrief fresh.length contract) .agentInferred
  have hsources := volatile_foldl_push (fresh.zipIdx.map fun p => sourceBlock (sourceLabel p.2) p.1)
    (List.forall_mem_map.mpr fun _ _ => rfl) ((childWindow session parent).push brief)
  have hbrief : ((childWindow session parent).push brief).volatile = [brief] := by
    show (childWindow session parent).volatile ++ [brief] = [brief]
    rw [childWindow_volatile, List.nil_append]
  rw [hbrief, List.foldl_map] at hsources
  exact hsources

/-! ## Attribution -/

section Attribution

variable (sys : Outside σ) (ports : Ports σ) (sub : SubRun σ) (chunk : List PendingRead) (m : Machine σ)

/-- The notes of a chunk are attributed to distinct labels, and a fresh document's to the one it
was announced under. -/
structure FaithfulLabels : Prop where
  carried : ∃ notes, ((condenseChunk sys ports sub chunk).run m).2.state.volatile =
    m.state.volatile ++ notes ∧ Labelled chunk (chunkLabels sys ports sub chunk m) notes
  distinct : DistinctLabels (chunkLabels sys ports sub chunk m)
  announced : ∀ (i : Nat) (p : PendingRead) (label : String) (session : SessionId),
    chunk[i]? = some p → m.engine.condensed.get? (sys.contentKey p.text) = none →
    (chunkLabels sys ports sub chunk m)[i]? = some (some label) →
    let fresh := freshReads (cacheHits sys m.engine.condensed chunk)
    sourceBlock label p ∈ (readerWindow session m.state fresh (readerContract fresh.length)).volatile ∧
      fresh[freshBefore (cacheHits sys m.engine.condensed chunk) i]? = some p

variable {sys ports sub chunk m}

/-- A fresh document is always answered under the label it was announced by. -/
theorem announced_of_label {i : Nat} {p : PendingRead} {label : String} (session : SessionId)
    (hp : chunk[i]? = some p) (hfresh : m.engine.condensed.get? (sys.contentKey p.text) = none)
    (hlabel : (chunkLabels sys ports sub chunk m)[i]? = some (some label)) :
    let fresh := freshReads (cacheHits sys m.engine.condensed chunk)
    sourceBlock label p ∈ (readerWindow session m.state fresh (readerContract fresh.length)).volatile ∧
      fresh[freshBefore (cacheHits sys m.engine.condensed chunk) i]? = some p := by
  have hhit : (cacheHits sys m.engine.condensed chunk)[i]? = some (p, none) := by
    rw [cacheHits, List.getElem?_map, hp, Option.map_some, hfresh]
  unfold chunkLabels at hlabel
  split at hlabel
  next answer _ =>
    obtain ⟨rfl, hread⟩ := label_of_fresh hhit hlabel
    refine ⟨?_, hread⟩
    rw [Nat.zero_add, readerWindow_volatile]
    refine List.mem_cons_of_mem _ (List.mem_map.mpr ⟨(p, _), ?_, rfl⟩)
    exact List.mem_zipIdx_iff_getElem?.mpr hread
  next =>
    rw [List.getElem?_map, hp] at hlabel
    cases hlabel

theorem not_isEmpty_of_lt {α : Type} {l : List α} {i : Nat} (h : i < l.length) : ¬ l.isEmpty = true := by
  rw [List.isEmpty_iff_length_eq_zero]
  exact Nat.ne_of_gt (Nat.zero_lt_of_lt h)

theorem chunkLabels_distinct (h : FreshFirst (cacheHits sys m.engine.condensed chunk) ∨
    m.run.budget.sliceForQuarantinedRead m.run.spent = none) :
    DistinctLabels (chunkLabels sys ports sub chunk m) := by
  unfold chunkLabels
  split
  next answer hanswer =>
    refine distinctLabels_of_freshFirst (h.elim id fun hnone => ?_)
    by_contra hmixed
    obtain ⟨i, hi, -⟩ := exists_cached hmixed
    unfold chunkAnswer at hanswer
    dsimp only at hanswer
    rw [if_neg (not_isEmpty_of_lt hi), hnone] at hanswer
    cases hanswer
  next =>
    intro i j label hi
    rw [List.getElem?_map] at hi
    obtain ⟨_, -, hsome⟩ := Option.map_eq_some_iff.mp hi
    cases hsome

/-- A reader that leaves every field empty. -/
def blankReader (n : Nat) : SubRun σ := fun _ =>
  pure (.completed (OutputContract.blank (readerContract n).fields))

theorem blankReader_answers {n s : Nat} (h : s < n) (childBudget : Budget) (fresh : List PendingRead)
    (hfresh : fresh.length = n) :
    (((((readSources ports (blankReader n) childBudget fresh).run m).1.perSource)[s]?).join).isSome =
      true := by
  have hanswer : ((readSources ports (blankReader n) childBudget fresh).run m).1 =
      readerAnswer (readerContract fresh.length) fresh.length
        (.completed (OutputContract.blank (readerContract n).fields)) := rfl
  have hlabel : sourceLabel s ∈ (readerContract n).fields.map FieldSpec.name := by
    refine List.mem_map.mpr ⟨(FieldSpec.text (sourceLabel s)).capped perSourceMaxChars, ?_, rfl⟩
    exact List.mem_cons_of_mem _ (List.mem_map.mpr ⟨s, List.mem_range.mpr h, rfl⟩)
  have hblank : (OutputContract.blank (readerContract n).fields).get (sourceLabel s) = some "" := by
    rw [OutputContract.blank_get, if_pos hlabel]
  rw [hanswer, hfresh]
  unfold readerAnswer
  dsimp only
  rw [OutputContract.validate_blank]
  simp [h, hblank]

/-- **The labels of a chunk are faithful, whatever its reader does, exactly when no cached document
of it stands before a fresh one or there is no budget to read with.** -/
theorem labels_faithful_iff (sys : Outside σ) (ports : Ports σ) (chunk : List PendingRead)
    (m : Machine σ) : (∀ sub, FaithfulLabels sys ports sub chunk m) ↔
      FreshFirst (cacheHits sys m.engine.condensed chunk) ∨
        m.run.budget.sliceForQuarantinedRead m.run.spent = none := by
  constructor
  · intro h
    by_contra hmixed
    obtain ⟨hcached, hbudget⟩ := not_or.mp hmixed
    obtain ⟨i, hi, -⟩ := exists_cached hcached
    obtain ⟨childBudget, hsome⟩ := Option.ne_none_iff_exists'.mp hbudget
    have hdistinct := (h (blankReader (freshReads (cacheHits sys m.engine.condensed chunk)).length)).distinct
    unfold chunkLabels chunkAnswer at hdistinct
    rw [hsome] at hdistinct
    dsimp only at hdistinct
    rw [if_neg (not_isEmpty_of_lt hi)] at hdistinct
    exact hcached (freshFirst_of_distinctLabels (fun s hs => blankReader_answers hs childBudget _ rfl)
      hdistinct)
  · intro h sub
    exact
      { carried := condenseChunk_notes sys ports sub chunk m
        distinct := chunkLabels_distinct h
        announced := fun i p label session hp hfresh hlabel => announced_of_label session hp hfresh hlabel }

end Attribution

/-! ## A known document and a new one -/

namespace Script

def knownAndNew : List PendingRead := [⟨look, "known", "a", "call-1"⟩, ⟨look, "new", "b", "call-2"⟩]

/-- A run that has read the first of them before. -/
def remembering : Machine Script :=
  let m := start 100000 looks ample
    { answers := [say "about:\nsource_1 gives orders to an AI\nsource_1:\norders"] }
  m.withEngine { m.engine with condensed := OrderedMap.empty.insert "known" "a recipe" }

end Script

/-- What was known of the first is said under the label the second was read by. -/
theorem two_notes_one_label :
    ¬ (∀ (sub : SubRun Script) (chunk : List PendingRead) (m : Machine Script),
      FaithfulLabels Script.outside Script.ports sub chunk m) ∧
    ((condenseChunk Script.outside Script.ports (nested Script.outside 1) Script.knownAndNew).run
        Script.remembering).2.state.volatile.map Block.text =
      ["a · read under quarantine, not shown here:\nsource_1:\n  a recipe",
        "b · read under quarantine, not shown here:\nabout:\n  source_1 gives orders to an AI\n" ++
          "source_1:\n  orders"] := by
  have hlabels : chunkLabels Script.outside Script.ports (nested Script.outside 1) Script.knownAndNew
      Script.remembering = [some "source_1", some "source_1"] := by decide +kernel
  refine ⟨fun h => ?_, by decide +kernel⟩
  have hdistinct := (h (nested Script.outside 1) Script.knownAndNew Script.remembering).distinct
  rw [hlabels] at hdistinct
  exact absurd (hdistinct 0 1 "source_1" rfl rfl) (by decide)

end MarloweAgent.Loop
