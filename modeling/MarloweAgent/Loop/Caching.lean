import MarloweAgent.Loop.Completing
import MarloweAgent.Loop.Passage
import MarloweAgent.Loop.Script

/-! What the condensation cache holds. A text is kept only for a document that a reader was
opened on alone, and it is what became of that reader's reply. Where the reply has the
document's own header that is what stands under it; where it has not, the loop has filled the
field, and what it filled it with is kept. -/

namespace MarloweAgent.Loop
open Contract Library Tools

variable {σ : Type} {sys : Outside σ}

/-! ## A reading -/

/-- What a reader of one document wrote under the document's own header. -/
def ownField (text : String) : Option String :=
  (CondensedResult.parseFields text (readerContract 1).fields).bind (·.get (sourceLabel 0))

/-- On this trace a reader was opened on this document and no other, and its run took `text` and
completed with it. -/
def ReadOut (sys : Outside σ) (trace : List Effect) (p : PendingRead) (text : String) : Prop :=
  ∃ (n : Nat) (ports : Ports σ) (opened : Machine σ), Opened [p] opened ∧
    ((nested sys n ports).run opened).2.trace <+: trace ∧
    ((nested sys n ports).run opened).1 = .completed (resultOf (readerContract 1) text) ∧
    CompletedBy sys opened ((nested sys n ports).run opened).2 text
      (resultOf (readerContract 1) text)

/-- A reader of the document under this key wrote this under the document's own header. -/
def Reading (sys : Outside σ) (trace : List Effect) (key value : String) : Prop :=
  ∃ p text, sys.contentKey p.text = key ∧ ReadOut sys trace p text ∧ ownField text = some value

/-- A reply that a reader of one document may end with has the document's own header. -/
def Answer.Describes (answer : Answer) : Prop :=
  match answer.step with
  | .say text => SameRights .quarantinedReader answer.run.profile →
      answer.run.outputContract = readerContract 1 →
      (readerContract 1).validate (resultOf (readerContract 1) text) = .ok () →
      (ownField text).isSome = true
  | _ => True

/-- Every answer that was taken does. -/
def Described (trace : List Effect) : Prop := ∀ answer, .took answer ∈ trace → answer.Describes

/-! ## From a reply to its field -/

theorem get_insert (result : CondensedResult) (field name value : String) :
    (result.insert field value).get name = if field = name then some value else result.get name :=
  result.fields.get?_insert field name value

/-- Filling the fields leaves what is there. -/
theorem get_fillFields {name value : String} (fields : List FieldSpec) {result : CondensedResult}
    (h : result.get name = some value) : (fillFields fields result).get name = some value := by
  induction fields generalizing result with
  | nil => exact h
  | cons spec rest ih =>
    refine ih ?_
    dsimp only
    split
    · exact h
    · rename_i hnone
      rw [get_insert, if_neg, h]
      rintro rfl
      exact hnone (by rw [h]; rfl)

/-- What the reader wrote under the header is what the result has. -/
theorem get_resultOf {text value : String} (h : ownField text = some value) :
    (resultOf (readerContract 1) text).get (sourceLabel 0) = some value := by
  unfold ownField at h
  obtain ⟨parsed, hparsed, hvalue⟩ := Option.bind_eq_some_iff.mp h
  show (fillFields (readerContract 1).fields
    ((CondensedResult.parseFields text (readerContract 1).fields).getD _)).get _ = _
  rw [hparsed]
  exact get_fillFields _ hvalue

/-! ## From an answer to its reply -/

theorem sameRights_opened {sources : List PendingRead} {opened mid : Machine σ}
    (h : Opened sources opened) (hruns : Runs sys opened mid) :
    SameRights .quarantinedReader mid.run.profile :=
  h.profile ▸ hruns.kept.rights

theorem Opened.nesting {sources : List PendingRead} {opened : Machine σ} (h : Opened sources opened) :
    nesting opened.run = 0 := by
  unfold Loop.nesting
  rw [h.profile]
  rfl

/-- A reading that was kept is what the loop made of a reader's reply. -/
theorem Answered.readOut {trace : List Effect} {p : PendingRead} {answer : ReaderAnswer}
    {value : String} {rest : List (Option String)} (h : Answered sys trace [p] answer)
    (hvalue : answer.perSource = some value :: rest) :
    ∃ text, ReadOut sys trace p text ∧
      (readerContract 1).validate (resultOf (readerContract 1) text) = .ok () ∧
      (resultOf (readerContract 1) text).get (sourceLabel 0) = some value := by
  obtain ⟨n, ports, opened, hopened, htrace, rfl⟩ := h
  cases houtcome : ((nested sys n ports).run opened).1 with
  | completed result =>
    obtain ⟨text, hcompleted⟩ :=
      nested_completes ports hopened.nesting hopened.steps hopened.retries houtcome
    have hmid := hcompleted
    obtain ⟨mid, hruns, -, hresult, hvalid⟩ := hmid
    have hcontract : mid.run.outputContract = readerContract 1 :=
      hruns.outputContract.trans hopened.contract
    rw [hcontract] at hresult hvalid
    subst hresult
    refine ⟨text, ⟨n, ports, opened, hopened, htrace, houtcome, hcompleted⟩, hvalid, ?_⟩
    rw [houtcome] at hvalue
    unfold readerAnswer at hvalue
    rw [List.length_singleton] at hvalue
    dsimp only at hvalue
    rw [hvalid] at hvalue
    exact (List.cons.inj hvalue).1
  | _ =>
    rw [houtcome] at hvalue
    cases hvalue

/-- The reply of a reader was taken on the trace. -/
theorem ReadOut.taken {trace : List Effect} {p : PendingRead} {text : String}
    (h : ReadOut sys trace p text) :
    ∃ run offered, .took ⟨run, offered, .say text⟩ ∈ trace ∧
      SameRights .quarantinedReader run.profile ∧ run.outputContract = readerContract 1 := by
  obtain ⟨n, ports, opened, hopened, htrace, -, mid, hruns, htaken, -⟩ := h
  refine ⟨mid.run, mid.frame.offered, (htaken.trans htrace).subset ?_,
    sameRights_opened hopened hruns, hruns.outputContract.trans hopened.contract⟩
  exact List.mem_append_right _ List.mem_cons_self

/-- Where the reply has the document's own header, what is kept is what stands under it. -/
theorem Answered.reading {trace : List Effect} {p : PendingRead} {answer : ReaderAnswer}
    {value : String} {rest : List (Option String)} (hdescribed : Described trace)
    (h : Answered sys trace [p] answer) (hvalue : answer.perSource = some value :: rest) :
    Reading sys trace (sys.contentKey p.text) value := by
  obtain ⟨text, hread, hvalid, hget⟩ := h.readOut hvalue
  obtain ⟨run, offered, htook, hrights, hcontract⟩ := hread.taken
  obtain ⟨own, hown⟩ := Option.isSome_iff_exists.mp (hdescribed _ htook hrights hcontract hvalid)
  have heq : some own = some value := (get_resultOf hown).symm.trans hget
  exact ⟨p, text, rfl, hread, hown.trans heq⟩

/-! ## The cache -/

/-- A reader of the document under this key came to this. -/
def Returned (sys : Outside σ) (trace : List Effect) (key value : String) : Prop :=
  ∃ p answer rest, sys.contentKey p.text = key ∧ Answered sys trace [p] answer ∧
    answer.perSource = some value :: rest

/-- The cache had this, or a reader has come to it since. -/
def Known (sys : Outside σ) (m m' : Machine σ) (key value : String) : Prop :=
  m.engine.condensed.get? key = some value ∨ Returned sys m'.trace key value

theorem Known.mono {m m' m'' : Machine σ} {key value : String} (h : Known sys m m' key value)
    (hle : m'.trace <+: m''.trace) : Known sys m m'' key value := by
  rcases h with hold | ⟨p, answer, rest, hkey, hanswered, hvalue⟩
  · exact .inl hold
  · exact .inr ⟨p, answer, rest, hkey, hanswered.mono hle, hvalue⟩

/-- Whatever the cache holds, and whatever it answered with on the way, was in it or has been
returned by a reader. -/
structure Keeps (sys : Outside σ) (m m' : Machine σ) : Prop where
  cache : ∀ key value, m'.engine.condensed.get? key = some value → Known sys m m' key value
  hits : ∃ es, m'.trace = m.trace ++ es ∧ ∀ run hits value, .consulted run hits ∈ es →
    some value ∈ hits → ∃ key, Known sys m m' key value

namespace Keeps

theorem trace {m m' : Machine σ} (h : Keeps sys m m') : m.trace <+: m'.trace := by
  obtain ⟨es, htrace, -⟩ := h.hits
  exact htrace ▸ List.prefix_append _ _

theorem known {m m' m'' : Machine σ} (h : Keeps sys m m') {key value : String}
    (hle : m'.trace <+: m''.trace) (hknown : Known sys m' m'' key value) :
    Known sys m m'' key value := by
  rcases hknown with hold | hreturned
  · exact (h.cache key value hold).mono hle
  · exact .inr hreturned

theorem trans (m m' m'' : Machine σ) (h : Keeps sys m m') (h' : Keeps sys m' m'') :
    Keeps sys m m'' := by
  obtain ⟨es, htrace, hes⟩ := h.hits
  obtain ⟨es', htrace', hes'⟩ := h'.hits
  refine ⟨fun key value hvalue => h.known h'.trace (h'.cache key value hvalue), es ++ es', ?_, ?_⟩
  · rw [htrace', htrace, List.append_assoc]
  · intro run hits value hmem hhit
    rcases List.mem_append.mp hmem with hmem | hmem
    · obtain ⟨key, hknown⟩ := hes run hits value hmem hhit
      exact ⟨key, hknown.mono h'.trace⟩
    · obtain ⟨key, hknown⟩ := hes' run hits value hmem hhit
      exact ⟨key, h.known h'.trace hknown⟩

/-- The cache is as it was, and it was not asked. -/
theorem of_same {m m' : Machine σ} {es : List Effect}
    (condensed : m'.engine.condensed = m.engine.condensed) (trace : m'.trace = m.trace ++ es)
    (h : ∀ e ∈ es, e.isConsultation = false) : Keeps sys m m' := by
  refine ⟨fun key value hvalue => .inl (condensed ▸ hvalue), es, trace, ?_⟩
  intro run hits value hmem
  exact absurd (h _ hmem) nofun

end Keeps

/-- What is put in the cache is what the reader of a single source returned. -/
theorem get?_cacheAnswer {sources : List PendingRead} {answer : ReaderAnswer}
    {condensed : OrderedMap String String} {key value : String}
    (h : (cacheAnswer sys sources answer condensed).get? key = some value) :
    condensed.get? key = some value ∨ ∃ p rest, sources = [p] ∧ sys.contentKey p.text = key ∧
      answer.perSource = some value :: rest := by
  unfold cacheAnswer at h
  dsimp only at h
  split at h
  next p found rest hfound =>
    split at h
    next => cases h
    next =>
      rw [OrderedMap.get?_insert] at h
      split at h
      next hkey => exact .inr ⟨p, rest, rfl, hkey, by rw [hfound, ← Option.some.inj h]⟩
      next => exact .inl h
  next =>
    split at h
    next => cases h
    next => exact .inl h

section Executions

variable {said : σ → Set String} {judging : Prop} {m m' : Machine σ}

theorem Change.keeps (h : Change sys said judging m m') : Keeps sys m m' := by
  have hquiet : ∀ {m' : Machine σ}, m'.engine.condensed = m.engine.condensed →
      m'.trace = m.trace → Keeps sys m m' := fun condensed trace =>
    .of_same condensed (trace.trans (List.append_nil _).symm) (by simp)
  cases h with
  | note e h => exact .of_same rfl rfl (by simpa using (Bool.or_eq_false_iff.mp h).2)
  | judged => exact .of_same rfl rfl (by simp [Effect.isConsultation])
  | engine engine _ hcache => exact hquiet hcache rfl
  | consulted chunk =>
    refine ⟨fun key value hvalue => .inl hvalue, [_], rfl, fun run hits value hmem hhit => ?_⟩
    obtain ⟨-, rfl⟩ := Effect.consulted.inj (List.mem_singleton.mp hmem)
    unfold cacheHits at hhit
    simp only [List.map_map, List.mem_map] at hhit
    obtain ⟨p, -, hvalue⟩ := hhit
    exact ⟨_, .inl hvalue⟩
  | cached sources answer h =>
    refine ⟨fun key value hvalue => ?_, [], (List.append_nil _).symm, by simp⟩
    rcases get?_cacheAnswer hvalue with hold | ⟨p, rest, rfl, hkey, hfound⟩
    · exact .inl hold
    · exact .inr ⟨p, answer, rest, hkey, h, hfound⟩
  | env | heard | run | aside | state | shown | drawn => exact hquiet rfl rfl

theorem Goes.keeps (h : Goes sys said judging m m') : Keeps sys m m' := by
  refine Calls.relates (fun _ => .of_same rfl (List.append_nil _).symm (by simp)) Keeps.trans
    (fun _ _ => Change.keeps) ?_ h
  rintro m c d m' ⟨frame, -, -, rfl⟩ hbody rfl
  exact ⟨hbody.cache, hbody.hits⟩

end Executions

/-- What the cache holds at the end of a run, and whatever it answered with in it, was in it
before or is what a reader wrote of the document under that key. -/
structure HoldsReadings (sys : Outside σ) (m m' : Machine σ) : Prop where
  cache : ∀ key value, m'.engine.condensed.get? key = some value →
    m.engine.condensed.get? key = some value ∨ Reading sys m'.trace key value
  hits : ∃ es, m'.trace = m.trace ++ es ∧ ∀ run hits value, .consulted run hits ∈ es →
    some value ∈ hits → ∃ key, m.engine.condensed.get? key = some value ∨
      Reading sys m'.trace key value

/-- `f` keeps readings only, where each reader of a single document that ended with a reply has
replied under the document's own header. -/
def KeepsReadings (sys : Outside σ) {α : Type} (f : LoopM σ α) : Prop :=
  ∀ m, Described (f.run m).2.trace → HoldsReadings sys m (f.run m).2

theorem Changes.keepsReadings {α : Type} {f : LoopM σ α}
    (hf : Changes sys (fun _ => Set.univ) True f) : KeepsReadings sys f := by
  intro m h
  have hkeeps : Keeps sys m (f.run m).2 := (hf m).keeps
  have hread {key value : String} (hknown : Known sys m (f.run m).2 key value) :
      m.engine.condensed.get? key = some value ∨ Reading sys (f.run m).2.trace key value := by
    refine hknown.imp_right ?_
    rintro ⟨p, answer, rest, rfl, hanswered, hvalue⟩
    exact hanswered.reading h hvalue
  obtain ⟨es, htrace, hes⟩ := hkeeps.hits
  refine ⟨fun key value hvalue => hread (hkeeps.cache key value hvalue), es, htrace, ?_⟩
  intro run hits value hmem hhit
  obtain ⟨key, hknown⟩ := hes run hits value hmem hhit
  exact ⟨key, hread hknown⟩

/-- **Every run, and every chunk that is condensed in one, keeps readings only**, where each reader
of a single document describes it. -/
theorem readings_kept (sys : Outside σ) (ports : Ports σ) :
    (∀ resumedSteps resumedRetries,
      KeepsReadings sys (continueFrom sys ports resumedSteps resumedRetries)) ∧
    ∀ n chunk, KeepsReadings sys (condenseChunk sys ports (nested sys n) chunk) := by
  have hsys : sys.Remembers fun _ => Set.univ := fun _ _ _ _ _ => Set.subset_univ _
  exact ⟨fun _ _ => (continueFrom_changes hsys (hearing_univ ports) _ _).keepsReadings,
    fun n chunk =>
      (changes_condenseChunk (nested_changes hsys n) (hearing_univ ports) chunk).keepsReadings⟩

/-! ## A page that is described, and one that is not -/

/-- The replies that were taken, each with the contract it was under. -/
def replies (trace : List Effect) : List (OutputContract × String) :=
  trace.filterMap fun e =>
    match e with
    | .took ⟨run, _, .say text⟩ => some (run.outputContract, text)
    | _ => none

theorem mem_replies {trace : List Effect} {run : Run} {offered : ExposedSet} {text : String}
    (h : .took ⟨run, offered, .say text⟩ ∈ trace) : (run.outputContract, text) ∈ replies trace :=
  List.mem_filterMap.mpr ⟨_, h, rfl⟩

theorem described_of_replies {trace : List Effect}
    (h : ∀ reply ∈ replies trace, reply.1 = readerContract 1 → (ownField reply.2).isSome = true) :
    Described trace := by
  intro answer htook
  obtain ⟨run, offered, step⟩ := answer
  unfold Answer.Describes
  cases step with
  | say text =>
    intro _ hcontract _
    exact h (run.outputContract, text) (mem_replies htook) hcontract
  | _ => exact True.intro

namespace Script

/-- A fetched page whose reader answers in prose. -/
def answeredInProse : Machine Script :=
  start 100000 looks ample
    { answers := [call [⟨"a", look, .empty⟩], Script.say "a page in prose", Script.say "done"]
      outcomes := [[result .untrustedContent "page"]] }

end Script

open Script (outside fetching ample answeredInProse)

/-- What the reader wrote of the page is what is kept of it. -/
theorem fetched_page_reading :
    Reading outside ((continueFrom outside Script.ports 0 0).run (fetching ample)).2.trace " · page"
      "page" := by
  have hran : replies ((continueFrom outside Script.ports 0 0).run (fetching ample)).2.trace =
        [(readerContract 1, "about:\na page\nsource_1:\npage"), (.answer, "done")] ∧
      ((continueFrom outside Script.ports 0 0).run (fetching ample)).2.engine.condensed.get? " · page" =
        some "page" := by decide +kernel
  obtain ⟨hreplies, hkept⟩ := hran
  have hdescribed : Described ((continueFrom outside Script.ports 0 0).run (fetching ample)).2.trace :=
    described_of_replies (by rw [hreplies]; decide +kernel)
  have hnew : (fetching ample).engine.condensed.get? " · page" = none := by decide +kernel
  have hholds := (readings_kept outside Script.ports).1 0 0 (fetching ample) hdescribed
  refine (hholds.cache _ _ hkept).resolve_left fun hold => ?_
  rw [hnew] at hold
  cases hold

/-- What stands in for a description is kept too. -/
theorem placeholder_kept :
    ¬ (∀ (sys : Outside Script) (ports : Ports Script) (steps retries : Nat) (m : Machine Script),
      HoldsReadings sys m ((continueFrom sys ports steps retries).run m).2) ∧
    ((continueFrom outside Script.ports 0 0).run answeredInProse).2.engine.condensed.get? " · page" =
      some undescribedSource := by
  have hran : replies ((continueFrom outside Script.ports 0 0).run answeredInProse).2.trace =
        [(readerContract 1, "a page in prose"), (.answer, "done")] ∧
      ((continueFrom outside Script.ports 0 0).run answeredInProse).2.engine.condensed.get? " · page" =
        some undescribedSource := by decide +kernel
  obtain ⟨hreplies, hkept⟩ := hran
  refine ⟨fun h => ?_, hkept⟩
  have hnew : answeredInProse.engine.condensed.get? " · page" = none := by decide +kernel
  rcases (h outside Script.ports 0 0 answeredInProse).cache _ _ hkept with hold | ⟨p, text, -, hread, hown⟩
  · rw [hnew] at hold
    cases hold
  · obtain ⟨run, offered, htook, -⟩ := hread.taken
    have hmem := mem_replies htook
    rw [hreplies] at hmem
    have hnone : ownField text = none := by
      rcases List.mem_pair.mp hmem with heq | heq <;> rw [(Prod.mk.inj heq).2] <;> decide +kernel
    rw [hnone] at hown
    cases hown

end MarloweAgent.Loop
