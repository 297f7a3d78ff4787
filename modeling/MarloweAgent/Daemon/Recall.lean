import MarloweAgent.Library.Gaps
import MarloweAgent.Library.Ranked
import MarloweAgent.Loop.Driver
import MarloweAgent.Memory.Store
import Mathlib.Data.Prod.Lex

/-! The `recall` tool. A wrapper of the tool host answers it from the belief store and hands every
other call of a batch to the host it wraps, as one batch. -/

namespace MarloweAgent.Daemon
open Contract Library Tools Permission Loop Memory

variable {σ : Type}

def recallLimit : Nat := 5

/-! ## The search -/

section
variable {α : Type} [LinearOrder α] [Zero α]

/-- Score descending, then id ascending. -/
def rank (scored : MemoryEntry × α) : Lex (αᵒᵈ × MemoryId) :=
  toLex (OrderDual.toDual scored.2, scored.1.id)

/-- The candidates with their scores, those that share nothing with the query left out, and the first few of
them. -/
def topRanked (scoreAll : List MemoryEntry → String → List α) (beliefs : BeliefStore) (query : String) :
    List (MemoryEntry × α) :=
  let candidates := beliefs.recallCandidates
  ((ranked rank (candidates.zip (scoreAll candidates query))).filter fun scored => 0 < scored.2).take recallLimit

/-- What a search returns. -/
def returned (scoreAll : List MemoryEntry → String → List α) (beliefs : BeliefStore) (query : String) :
    List MemoryEntry :=
  (topRanked scoreAll beliefs query).map Prod.fst

/-- `failed`. -/
def searchFailed (detail : String) : ToolOutcome :=
  { summary := .new [.count 0 "memories"], body := .inline detail, trust := .agentObserved
    failed := true, wallMs := 0, preview := none }

/-- The text of an entry as it is listed. -/
def listedText (e : MemoryEntry) : String :=
  if Text.isEmpty e.text then "(forgotten — the record was tombstoned)" else e.text

/-- The listing of one entry. -/
def listing (e : MemoryEntry) : String :=
  "- [" ++ e.id ++ "] " ++ listedText e ++ " (" ++ e.effectiveTrust.debug ++ ", "
    ++ (match e.silentUntil with
        | some _ => "not yet matured"
        | none => "matured")
    ++ ")\n"

/-- `recall`. -/
def RecallTools.recall (scoreAll : List MemoryEntry → String → List α) (beliefs : BeliefStore) (args : Args) :
    ToolOutcome :=
  match (args.get "query").bind ArgValue.asText with
  | none => searchFailed "`query` is required"
  | some query =>
    let candidates := beliefs.recallCandidates
    let answer (summary : List Metric) (body : String) (trust : TrustClass) : ToolOutcome :=
      { summary := .new summary, body := .inline body, trust, failed := false, wallMs := 0
        preview := none }
    if candidates.isEmpty then
      answer [.count 0 "memories"]
        "no memories are stored yet. Nothing has been remembered in this profile." .agentObserved
    else
      let ranked := returned scoreAll beliefs query
      let searched : Metric := .count candidates.length "searched"
      if ranked.isEmpty then
        answer [.count 0 "memories", searched]
          ("nothing stored matches " ++ Text.debugString query
            ++ s!". {candidates.length} memories were searched.") .agentObserved
      else
        answer [.count ranked.length "memories", searched] (String.join (ranked.map listing))
          ((ranked.map MemoryEntry.effectiveTrust).min?.getD .agentObserved)

end

/-! ## The batch -/

/-- A call the wrapper answers itself. -/
def isRecall (item : BatchItem) : Bool := item.tool.text = "recall"

def isDelegated (item : BatchItem) : Bool := !isRecall item

/-- What stands in for a result that the inner host did not return. -/
def noResult : ToolOutcome :=
  { summary := .new [.state "host-error"]
    body := .inline "the inner tool host returned no result for this call"
    trust := .agentObserved, failed := true, wallMs := 0, preview := none }

/-- A tool host that is wrapped: it is handed a batch at once. -/
abbrev InnerHost (σ : Type) := List BatchItem → σ → List ToolOutcome × σ

/-- `RecallTools::execute_batch`. -/
def executeBatch (search : Args → ToolOutcome) (inner : InnerHost σ) (items : List BatchItem) (s : σ) :
    List ToolOutcome × σ :=
  let delegated := items.filter isDelegated
  let (innerOut, s) := if delegated.isEmpty then ([], s) else inner delegated s
  let out := fill (List.replicate items.length none) (slots isDelegated items) innerOut
  ((items.zip out).map fun (item, outcome) =>
    match outcome with
    | some outcome => outcome
    | none => if isRecall item then search item.args else noResult, s)

/-! ## Whose outcome a call gets -/

/-- A host whose outcomes each say for which call of its batch they were produced. -/
abbrev TracedHost (σ : Type) := List BatchItem → σ → List (Nat × ToolOutcome) × σ

def TracedHost.plain (host : TracedHost σ) : InnerHost σ := fun items s =>
  ((host items s).1.map Prod.snd, (host items s).2)

/-- What each call of a batch is answered, where the inner host was handed these of them and returned
this: the calls of the search by the search, and the others in their places by what was returned, or
by an error where the numbers do not agree. -/
structure KeepsPlaces (search : Args → ToolOutcome) (items given : List BatchItem)
    (back : List (Nat × ToolOutcome)) (out : List ToolOutcome) : Prop where
  each : out.length = items.length
  searched : ∀ (i : Nat) (item : BatchItem), items[i]? = some item → isRecall item = true →
    out[i]? = some (search item.args)
  placed : ∀ (i : Nat) (item : BatchItem), items[i]? = some item → isRecall item = false →
    let k := (items.take i).countP isDelegated
    given[k]? = some item ∧
      (back.length = given.length → out[i]? = (back[k]?).map Prod.snd) ∧
      (back.length ≠ given.length →
        ∃ outcome, out[i]? = some outcome ∧ (outcome = noResult ∨ (k, outcome) ∈ back))

/-- Each outcome, up to the number of calls, is one that was produced for the call in its place, or
the error itself. -/
def InPlace (given : List BatchItem) (back : List (Nat × ToolOutcome)) : Prop :=
  ∀ (k : Nat) (outcome : ToolOutcome), k < given.length → (back[k]?).map Prod.snd = some outcome →
    outcome = noResult ∨ (k, outcome) ∈ back

section
variable (search : Args → ToolOutcome) (inner : InnerHost σ) (items : List BatchItem) (s : σ)

/-- What the inner host returned: nothing is asked of it for no call. -/
def answered : List ToolOutcome × σ :=
  if (items.filter isDelegated).isEmpty then ([], s) else inner (items.filter isDelegated) s

/-- What the wrapper answers one call. -/
def answerOf (item : BatchItem) (outcome : Option ToolOutcome) : ToolOutcome :=
  match outcome with
  | some outcome => outcome
  | none => if isRecall item then search item.args else noResult

theorem executeBatch_eq : executeBatch search inner items s =
    ((items.zip (place isDelegated items (answered inner items s).1)).map fun (item, outcome) =>
      answerOf search item outcome, (answered inner items s).2) := by
  rw [← fill_slots]
  rfl

theorem length_executeBatch : (executeBatch search inner items s).1.length = items.length := by
  rw [executeBatch_eq, List.length_map, List.length_zip, length_place, Nat.min_self]

variable {search inner items s}

theorem getElem?_executeBatch {i : Nat} {item : BatchItem} (hitem : items[i]? = some item) :
    (executeBatch search inner items s).1[i]? = some (answerOf search item
      (if isDelegated item then (answered inner items s).1[(items.take i).countP isDelegated]? else none)) := by
  have hplace := getElem?_place (p := isDelegated) items (answered inner items s).1 i
  rw [hitem, Option.map_some] at hplace
  have hzip : (items.zip (place isDelegated items (answered inner items s).1))[i]? = some (item,
      if isDelegated item then (answered inner items s).1[(items.take i).countP isDelegated]? else none) :=
    List.getElem?_zip_eq_some.mpr ⟨hitem, hplace⟩
  rw [executeBatch_eq, List.getElem?_map, hzip]
  rfl

theorem isDelegated_eq (item : BatchItem) : isDelegated item = !isRecall item := rfl

end

/-- What an inner host returned for the calls of a batch it was handed. -/
def TracedHost.back (host : TracedHost σ) (given : List BatchItem) (s : σ) : List (Nat × ToolOutcome) × σ :=
  if given.isEmpty then ([], s) else host given s

theorem answered_plain (host : TracedHost σ) (items : List BatchItem) (s : σ) :
    answered host.plain items s = ((host.back (items.filter isDelegated) s).1.map Prod.snd,
      (host.back (items.filter isDelegated) s).2) := by
  unfold answered TracedHost.back TracedHost.plain
  split <;> rfl

/-- **Positions in a batch.** The inner host is handed the calls that are not searches, once and in
their order, and each call is answered in its place, exactly if the host returned an outcome for each
call or only outcomes that stand in the places of the calls they were produced for. -/
theorem executeBatch_keepsPlaces_iff (search : Args → ToolOutcome) (host : TracedHost σ)
    (items : List BatchItem) (s : σ) :
    let given := items.filter isDelegated
    let back := host.back given s
    (executeBatch search host.plain items s).2 = back.2 ∧
      (KeepsPlaces search items given back.1 (executeBatch search host.plain items s).1 ↔
        back.1.length = given.length ∨ InPlace given back.1) := by
  intro given back
  have hback : (answered host.plain items s).1 = back.1.map Prod.snd := by rw [answered_plain]
  have hdelegated : ∀ {i : Nat} {item : BatchItem}, items[i]? = some item → isRecall item = false →
      (executeBatch search host.plain items s).1[i]? = some
        (((back.1[(items.take i).countP isDelegated]?).map Prod.snd).getD noResult) := by
    intro i item hitem hother
    rw [getElem?_executeBatch hitem, isDelegated_eq, hother, hback, List.getElem?_map]
    cases (back.1[(items.take i).countP isDelegated]?).map Prod.snd with
    | none => simp [answerOf, hother]
    | some outcome => rfl
  refine ⟨by rw [executeBatch_eq, answered_plain], fun hkeeps => ?_, fun hgood => ⟨length_executeBatch .., ?_, ?_⟩⟩
  · refine or_iff_not_imp_left.mpr fun hmismatch k outcome hk houtcome => ?_
    obtain ⟨i, item, hitem, hother, hcount⟩ := exists_place hk
    have hother : isRecall item = false := by simpa [isDelegated] using hother
    obtain ⟨o, ho, hin⟩ := (hkeeps.placed i item hitem hother).2.2 hmismatch
    rw [hdelegated hitem hother, hcount, houtcome] at ho
    obtain rfl : outcome = o := Option.some.inj ho
    rwa [hcount] at hin
  · intro i item hitem hrecall
    rw [getElem?_executeBatch hitem, isDelegated_eq, hrecall]
    simp [answerOf, hrecall]
  · intro i item hitem hother
    have hgiven : given[(items.take i).countP isDelegated]? = some item :=
      getElem?_filter_countP hitem (by simp [isDelegated, hother])
    obtain ⟨hk, -⟩ := List.getElem?_eq_some_iff.mp hgiven
    rw [hdelegated hitem hother]
    refine ⟨hgiven, fun hlength => ?_, fun hmismatch => ⟨_, rfl, ?_⟩⟩
    · rw [List.getElem?_eq_getElem (hlength ▸ hk)]
      rfl
    · cases houtcome : (back.1[(items.take i).countP isDelegated]?).map Prod.snd with
      | none => exact .inl rfl
      | some outcome => exact hgood.resolve_left hmismatch _ outcome hk houtcome

/-- A call of `web` that was allowed. -/
def webCall : BatchItem :=
  { tool := ⟨"web"⟩, args := .empty
    adjudication :=
      { decision :=
          { id := 1, tool := ⟨"web"⟩, actionClass := ⟨⟨"web"⟩, 0, "test"⟩, outcome := .allowed
            blastRadius := ⟨"web", "test", true, none⟩, taint := .empty, reasons := [] }
        handles := .empty } }

/-- A host that drops the first outcome: the second call's stands for the first call. -/
theorem dropped_first_shifts :
    ¬ ∀ (search : Args → ToolOutcome) (host : TracedHost Unit) (items : List BatchItem),
      KeepsPlaces search items (items.filter isDelegated) (host.back (items.filter isDelegated) ()).1
        (executeBatch search host.plain items ()).1 := by
  intro h
  have hkeeps := h (fun _ => noResult) (fun _ s => ([(1, searchFailed "the second page")], s)) [webCall, webCall]
  obtain ⟨outcome, hout, hin⟩ := (hkeeps.placed 0 webCall rfl (by decide)).2.2 (by decide)
  obtain rfl : searchFailed "the second page" = outcome := Option.some.inj hout
  rcases hin with herror | hin
  · exact absurd herror (by decide)
  · exact absurd hin (by decide)

end MarloweAgent.Daemon
