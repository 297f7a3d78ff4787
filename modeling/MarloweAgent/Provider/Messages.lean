import Mathlib.Data.List.TakeWhile
import MarloweAgent.Provider.ParseStep

/-! Every message of the model, read to a step: where the reading stops the program, where it
leaves calls behind, and where markup gets through. -/

namespace MarloweAgent.Provider
open Contract Tools Permission Loop
open Mcp (Json)

/-! ## What a message asks -/

/-- The calls of a message that name a tool. -/
def wellFormed (message : Json) : List Json :=
  (((message.get? "tool_calls").bind Json.asArray).getD []).filter (callName · ≠ "")

/-- `done`, which is a reply, and the control tools. -/
def endsReading (name : String) : Bool := name = "done" || name ∈ controlTools

def endingStep (message call : Json) : ModelStep :=
  if callName call = "done" then .say (doneBody (callArgs call) message)
  else controlStep (callName call) (callArgs call) message

/-- A step stands for all the calls of its message: a batch for the calls in their order, and
any other step for the one call there is. -/
def StandsForAll (message : Json) (step : ModelStep) : Prop :=
  wellFormed message = [] ∨
  (∃ batch, step = .toolCall batch ∧
    batch.map (fun i => (i.tool, i.args)) = (wellFormed message).map fun c => (⟨callName c⟩, callArgs c)) ∨
  ∃ call, wellFormed message = [call] ∧ endsReading (callName call) ∧ step = endingStep message call

def markup : List String := ["<function", "</function>", "<parameter", "</parameter>"]

/-- The message is read to a step that stands for every call and says no markup. -/
def WellRead (message : Json) : Prop :=
  ∃ step, parseStep message = .ok step ∧ StandsForAll message step ∧
    ∀ text, step = .say text → ∀ token ∈ markup, Text.contains text token = false

/-- The first `</function>` after the first `<function=` stands before any other `>`. -/
def ClosedEarly (content : List Char) : Prop :=
  ∃ start stop, Text.find content functionOpening = some start ∧
    Text.find (content.drop (start + functionOpening.length)) functionClosing = some stop ∧
    '>' ∉ (content.drop (start + functionOpening.length)).take stop

/-- What a message has to be like. -/
def Readable (message : Json) : Prop :=
  if wellFormed message = [] then
    ¬ClosedEarly (contentOf message).toList ∧
      (Text.contains (contentOf message) "<function" ∨ Text.contains (contentOf message) "<parameter" ∨
        Text.contains (contentOf message) "</function>" = false ∧
          Text.contains (contentOf message) "</parameter>" = false)
  else
    (∀ call ∈ wellFormed message, endsReading (callName call) = false) ∨
      ∃ call, wellFormed message = [call] ∧
        (callName call = "done" → ∀ token ∈ markup,
          Text.contains (doneBody (callArgs call) message) token = false)

/-! ## Markup -/

theorem contains_eq_false {s sub : String} : Text.contains s sub = false ↔ ¬sub.toList <:+: s.toList := by
  rw [← Text.contains_iff, Bool.not_eq_true]

/-- One replacement leaves no occurrence of its own token and makes none of another. -/
theorem token_replaced {pat new token : List Char} {s : List Char} {body : List Char}
    (hpat : ∃ body, pat = '<' :: body) (hnew : ∃ body, new = '[' :: body ∧ '<' ∉ body)
    (htoken : token = '<' :: body) (hbracket : '[' ∉ token) (hclean : pat = token ∨ ¬token <:+: s) :
    ¬token <:+: Text.replace s pat new := by
  obtain ⟨pat', rfl⟩ := hpat
  obtain ⟨new', rfl, hmark⟩ := hnew
  have hmarkNew : '<' ∉ '[' :: new' := by simpa using hmark
  have hfirst : ∀ c ∈ ('[' :: new').head?, c ∉ token := by simpa using hbracket
  rcases hclean with rfl | hclean
  · exact Text.not_infix_replace (by simp) rfl hmarkNew hfirst
  · exact fun h => hclean (Text.infix_of_infix_replace (by simp) (by simp) htoken hmarkNew hfirst h)

theorem defangToolMarkup_clean_iff (content : String) :
    (∀ token ∈ markup, Text.contains (defangToolMarkup content) token = false) ↔
      (Text.contains content "<function" ∨ Text.contains content "<parameter" ∨
        Text.contains content "</function>" = false ∧ Text.contains content "</parameter>" = false) := by
  unfold defangToolMarkup
  split
  next hguard =>
    simp only [Bool.and_eq_true, Bool.not_eq_true'] at hguard
    simp [markup, hguard.1, hguard.2]
  next hguard =>
    have hopen : Text.contains content "<function" ∨ Text.contains content "<parameter" := by
      by_contra hnone
      rw [not_or, Bool.not_eq_true, Bool.not_eq_true] at hnone
      exact hguard (by rw [hnone.1, hnone.2]; rfl)
    refine iff_of_true (fun token htoken => contains_eq_false.mpr ?_) (hopen.imp_right .inl)
    rw [String.toList_ofList]
    simp only [markup, List.mem_cons, List.not_mem_nil, or_false] at htoken
    rcases htoken with rfl | rfl | rfl | rfl
    · refine token_replaced ⟨_, rfl⟩ ⟨_, rfl, by decide⟩ rfl (by decide) (.inr ?_)
      exact token_replaced ⟨_, rfl⟩ ⟨_, rfl, by decide⟩ rfl (by decide) (.inl rfl)
    · refine token_replaced ⟨_, rfl⟩ ⟨_, rfl, by decide⟩ rfl (by decide) (.inr ?_)
      refine token_replaced ⟨_, rfl⟩ ⟨_, rfl, by decide⟩ rfl (by decide) (.inr ?_)
      refine token_replaced ⟨_, rfl⟩ ⟨_, rfl, by decide⟩ rfl (by decide) (.inr ?_)
      exact token_replaced ⟨_, rfl⟩ ⟨_, rfl, by decide⟩ rfl (by decide) (.inl rfl)
    · exact token_replaced ⟨_, rfl⟩ ⟨_, rfl, by decide⟩ rfl (by decide) (.inl rfl)
    · refine token_replaced ⟨_, rfl⟩ ⟨_, rfl, by decide⟩ rfl (by decide) (.inr ?_)
      refine token_replaced ⟨_, rfl⟩ ⟨_, rfl, by decide⟩ rfl (by decide) (.inr ?_)
      exact token_replaced ⟨_, rfl⟩ ⟨_, rfl, by decide⟩ rfl (by decide) (.inl rfl)

/-! ## Leaked calls -/

theorem controlStep_ne_say {name : String} (h : name ∈ controlTools) (args : Args) (message : Json)
    (text : String) : controlStep name args message ≠ .say text := by
  simp only [controlTools, List.mem_cons, List.not_mem_nil, or_false] at h
  rcases h with rfl | rfl | rfl <;> exact fun h => by cases h

theorem getElem?_of_prefix_drop {s word : List Char} {c : Char} {i : Nat} (h : c :: word <+: s.drop i) :
    s[i]? = some c := by
  obtain ⟨after, hs⟩ := h
  have hfirst : (s.drop i)[0]? = some c := by rw [← hs]; rfl
  rwa [List.getElem?_drop, Nat.add_zero] at hfirst

/-- A character stands in a beginning of a text that goes past its first place. -/
theorem mem_take_iff {rest : List Char} {c : Char} {pos stop : Nat} (h : Text.find rest [c] = some pos) :
    c ∈ rest.take stop ↔ pos < stop := by
  obtain ⟨hat, hbefore⟩ := Text.find_eq_some h
  have hpos := getElem?_of_prefix_drop hat
  constructor
  · intro hmem
    obtain ⟨i, hi⟩ := List.mem_iff_getElem?.mp hmem
    by_contra hlate
    have hlt : i < stop := by
      have hlen := (List.getElem?_eq_some_iff.mp hi).1
      rw [List.length_take] at hlen
      omega
    rw [List.getElem?_take_of_lt hlt] at hi
    refine hbefore i (by omega) ?_
    obtain ⟨hlen, rfl⟩ := List.getElem?_eq_some_iff.mp hi
    rw [List.drop_eq_getElem_cons hlen]
    exact List.cons_prefix_cons.mpr ⟨rfl, List.nil_prefix⟩
  · intro hlt
    refine List.mem_iff_getElem?.mpr ⟨pos, ?_⟩
    rw [List.getElem?_take_of_lt hlt, hpos]

theorem isWhitespace_of_trimmed {s : List Char} (h : Text.isEmpty (trimmed s) = true) :
    ∀ c ∈ s, Text.isWhitespace c = true := by
  have hnil : (s.dropWhile Text.isWhitespace).reverse.dropWhile Text.isWhitespace = [] := by
    simpa [Text.isEmpty, trimmed, Text.trim] using h
  rw [List.dropWhile_eq_nil_iff] at hnil
  have hfront : s.dropWhile Text.isWhitespace = [] := by
    cases hdrop : s.dropWhile Text.isWhitespace with
    | nil => rfl
    | cons c rest =>
      have hblank := hnil c (by simp [hdrop])
      have hstop := List.head?_dropWhile_not Text.isWhitespace s
      rw [hdrop] at hstop
      simp [hblank] at hstop
  exact List.dropWhile_eq_nil_iff.mp hfront

/-- With an opening in the prose, recovery looks at what follows the first one. -/
theorem recoverLeakedCall_opening {content : List Char} {start : Nat}
    (hstart : Text.find content functionOpening = some start) :
    (∃ step, recoverLeakedCall content = .ok step ∧ (∀ text, step ≠ some (.say text)) ∧
        ¬ClosedEarly content) ∨
      (∃ panic, recoverLeakedCall content = .error panic) ∧ ClosedEarly content := by
  have hopening := find_le hstart (by decide)
  generalize hrest : content.drop (start + functionOpening.length) = rest
  have hearly : ClosedEarly content ↔
      ∃ stop, Text.find rest functionClosing = some stop ∧ '>' ∉ rest.take stop := by
    rw [← hrest]
    unfold ClosedEarly
    rw [hstart]
    constructor
    · rintro ⟨_, stop, heq, h⟩
      cases heq
      exact ⟨stop, h⟩
    · rintro ⟨stop, h⟩
      exact ⟨start, stop, rfl, h⟩
  rw [hearly]
  unfold recoverLeakedCall
  rw [hstart]
  simp only [sliceFrom_ok hopening, hrest, bind, Except.bind]
  -- A closing holds the first `>` or comes after it.
  have hclosing : ∀ stop, Text.find rest functionClosing = some stop →
      ∃ nameEnd, Text.find rest ['>'] = some nameEnd := by
    intro stop hstop
    cases hname : Text.find rest ['>'] with
    | some nameEnd => exact ⟨nameEnd, rfl⟩
    | none =>
      obtain ⟨after, hafter⟩ := (Text.find_eq_some hstop).1
      refine absurd ?_ (Text.find_eq_none hname (stop + 10))
      rw [← List.drop_drop, ← hafter]
      exact List.cons_prefix_cons.mpr ⟨rfl, List.nil_prefix⟩
  cases hname : Text.find rest ['>'] with
  | none =>
    refine .inl ⟨none, rfl, by simp, ?_⟩
    rintro ⟨stop, hstop, -⟩
    obtain ⟨nameEnd, heq⟩ := hclosing stop hstop
    rw [hname] at heq
    cases heq
  | some nameEnd =>
    have hle := find_le hname (by simp)
    rw [List.length_singleton] at hle
    have hnameSlice := slice_ok (s := rest) ⟨Nat.zero_le nameEnd, by omega⟩
    simp only [hnameSlice, mem_take_iff hname]
    split
    next hempty =>
      refine .inl ⟨none, rfl, by simp, ?_⟩
      rintro ⟨stop, hstop, hearly⟩
      -- The name would hold the `<` of the closing.
      have hat : rest[stop]? = some '<' := getElem?_of_prefix_drop (Text.find_eq_some hstop).1
      have hend := getElem?_of_prefix_drop (Text.find_eq_some hname).1
      have hne : stop ≠ nameEnd := by
        rintro rfl
        rw [hat] at hend
        cases hend
      have hmem : '<' ∈ (rest.take nameEnd).drop 0 :=
        List.mem_iff_getElem?.mpr ⟨stop, by rw [List.drop_zero, List.getElem?_take_of_lt (by omega), hat]⟩
      have hblank := isWhitespace_of_trimmed hempty _ hmem
      cases hblank
    next =>
      cases hstop : Text.find rest functionClosing with
      | none =>
        have hbody := slice_ok (s := rest) ⟨hle, Nat.le_refl _⟩
        rw [Option.getD_none, hbody]
        obtain ⟨args, hargs⟩ := parameters_ok ((rest.take rest.length).drop (nameEnd + 1)) Args.empty
        simp only [hargs]
        refine .inl ?_
        split
        next hcontrol =>
          exact ⟨_, rfl, fun text h => controlStep_ne_say hcontrol _ _ _ (Option.some.inj h), by simp⟩
        next => exact ⟨_, rfl, fun text h => (by cases h), by simp⟩
      | some stop =>
        have hstopLe := find_le hstop (by decide)
        rw [Option.getD_some]
        by_cases hearly : nameEnd < stop
        · have hbody : slice rest (nameEnd + 1) stop = _ := slice_ok ⟨hearly, by omega⟩
          rw [hbody]
          obtain ⟨args, hargs⟩ := parameters_ok ((rest.take stop).drop (nameEnd + 1)) Args.empty
          simp only [hargs]
          refine .inl ?_
          split
          next hcontrol =>
            exact ⟨_, rfl, fun text h => controlStep_ne_say hcontrol _ _ _ (Option.some.inj h), by simpa using hearly⟩
          next => exact ⟨_, rfl, fun text h => (by cases h), by simpa using hearly⟩
        · refine .inr ⟨⟨⟨nameEnd + 1, stop, rest.length⟩, ?_⟩, stop, rfl, hearly⟩
          rw [slice, if_neg fun h => hearly h.1]

/-! ## Structured calls -/

/-- The calls are taken in order up to the first that ends the reading. -/
theorem structured_spec (message : Json) (calls : List (Json × Nat)) (batch : List ToolInvocation) :
    let named := (calls.map Prod.fst).filter (callName · ≠ "")
    ((∀ call ∈ named, endsReading (callName call) = false) ∧
      ∃ more, structured message calls batch = .ok (batch ++ more) ∧
        more.map (fun i => (i.tool, i.args)) = named.map fun c => (⟨callName c⟩, callArgs c)) ∨
    ∃ call ∈ named, endsReading (callName call) ∧
      structured message calls batch = .error (endingStep message call) := by
  induction calls generalizing batch with
  | nil => exact .inl ⟨by simp, [], by simp [structured], rfl⟩
  | cons call calls ih =>
    obtain ⟨call, i⟩ := call
    intro named
    by_cases hname : callName call = ""
    · have hsame : named = (calls.map Prod.fst).filter (callName · ≠ "") := by simp [named, hname]
      have hstep : structured message ((call, i) :: calls) batch = structured message calls batch := by
        simp [structured, hname]
      rw [hsame, hstep]
      exact ih batch
    · have hcons : named = call :: (calls.map Prod.fst).filter (callName · ≠ "") := by
        simp [named, hname]
      by_cases hends : endsReading (callName call) = true
      · refine .inr ⟨call, by rw [hcons]; exact List.mem_cons_self, hends, ?_⟩
        simp only [structured, if_neg hname, endingStep]
        split
        next => rfl
        next hdone =>
          rw [if_pos (by simpa [endsReading, hdone] using hends)]
      · have hplain : callName call ≠ "done" ∧ callName call ∉ controlTools := by
          simpa [endsReading] using hends
        have hstep : structured message ((call, i) :: calls) batch =
            structured message calls
              (batch ++ [{ id := s!"call_{i + 1}", tool := ⟨callName call⟩, args := callArgs call }]) := by
          simp only [structured, if_neg hname, if_neg hplain.1, if_neg hplain.2]
        rw [hcons, hstep]
        rcases ih (batch ++ [_]) with ⟨hall, more, hmore, hmap⟩ | ⟨other, hmem, hother, herror⟩
        · refine .inl ⟨?_, _ :: more, by rw [hmore, List.append_assoc]; rfl, ?_⟩
          · intro c hc
            rcases List.mem_cons.mp hc with rfl | hc
            · simpa using hends
            · exact hall c hc
          · rw [List.map_cons, List.map_cons, hmap]
        · exact .inr ⟨other, List.mem_cons_of_mem _ hmem, hother, herror⟩

theorem structuredStep_spec (message : Json) :
    (wellFormed message = [] ∧ structuredStep message = none) ∨
    (wellFormed message ≠ [] ∧ (∀ call ∈ wellFormed message, endsReading (callName call) = false) ∧
      ∃ batch, structuredStep message = some (.toolCall batch) ∧
        batch.map (fun i => (i.tool, i.args)) =
          (wellFormed message).map fun c => (⟨callName c⟩, callArgs c)) ∨
    ∃ call ∈ wellFormed message, endsReading (callName call) ∧
      structuredStep message = some (endingStep message call) := by
  unfold structuredStep wellFormed
  cases hcalls : (message.get? "tool_calls").bind Json.asArray with
  | none => exact .inl ⟨rfl, rfl⟩
  | some calls =>
    have hspec := structured_spec message calls.zipIdx []
    rw [List.zipIdx_map_fst] at hspec
    rw [Option.getD_some]
    rcases hspec with ⟨hall, more, hmore, hmap⟩ | ⟨call, hmem, hends, herror⟩
    · rw [List.nil_append] at hmore
      cases more with
      | nil =>
        refine .inl ⟨List.map_eq_nil_iff.mp hmap.symm, ?_⟩
        simp only [hmore]
      | cons first rest =>
        refine .inr (.inl ⟨fun hnil => ?_, hall, first :: rest, ?_, hmap⟩)
        · rw [hnil] at hmap
          cases hmap
        · simp only [hmore]
    · refine .inr (.inr ⟨call, hmem, hends, ?_⟩)
      simp only [herror]

theorem endingStep_ne_toolCall (message call : Json) (batch : List ToolInvocation) :
    endingStep message call ≠ .toolCall batch := by
  unfold endingStep controlStep
  repeat' split
  all_goals exact fun h => by cases h

/-- Only a reply made as a call is said. -/
theorem endingStep_say {message call : Json} (hends : endsReading (callName call) = true) {text : String} :
    endingStep message call = .say text ↔
      callName call = "done" ∧ text = doneBody (callArgs call) message := by
  unfold endingStep
  split
  next hdone => simp [hdone, eq_comm]
  next hother =>
    have hcontrol : callName call ∈ controlTools := by simpa [endsReading, hother] using hends
    simp [hother, controlStep_ne_say hcontrol]

theorem endingStep_clean_iff {message call : Json} (hends : endsReading (callName call) = true) :
    (∀ text, endingStep message call = .say text → ∀ token ∈ markup, Text.contains text token = false) ↔
      (callName call = "done" → ∀ token ∈ markup,
        Text.contains (doneBody (callArgs call) message) token = false) := by
  constructor
  · exact fun h hdone => h _ ((endingStep_say hends).mpr ⟨hdone, rfl⟩)
  · intro h text hsay
    obtain ⟨hdone, rfl⟩ := (endingStep_say hends).mp hsay
    exact h hdone

/-! ## Prose -/

theorem mem_trim_or {s : String} {c : Char} (h : c ∈ s.toList) :
    Text.isWhitespace c = true ∨ c ∈ (Text.trim s).toList := by
  have hpart : ∀ cs : List Char, c ∈ cs →
      Text.isWhitespace c = true ∨ c ∈ cs.dropWhile Text.isWhitespace := by
    intro cs hc
    rw [← List.takeWhile_append_dropWhile (p := Text.isWhitespace) (l := cs)] at hc
    rcases List.mem_append.mp hc with hc | hc
    · exact .inl (List.mem_takeWhile_imp hc)
    · exact .inr hc
  rcases hpart _ h with hblank | hfront
  · exact .inl hblank
  · rcases hpart _ (List.mem_reverse.mpr hfront) with hblank | hback
    · exact .inl hblank
    · exact .inr (by simpa [Text.trim] using hback)

/-- A control word alone has no markup around it. -/
theorem notMem_of_bare {content : String} (h : Text.trim content ∈ controlTools) : '<' ∉ content.toList := by
  intro hmem
  rcases mem_trim_or hmem with hblank | hmem
  · cases hblank
  · simp only [controlTools, List.mem_cons, List.not_mem_nil, or_false] at h
    rcases h with h | h | h <;>
    · rw [h] at hmem
      exact absurd hmem (by decide)

theorem contains_of_notMem {content token : String} {body : List Char} (h : '<' ∉ content.toList)
    (htoken : token.toList = '<' :: body) : Text.contains content token = false := by
  refine contains_eq_false.mpr fun hpart => h (hpart.subset ?_)
  rw [htoken]
  exact List.mem_cons_self

theorem find_eq_some_contains {content : String} {start : Nat}
    (h : Text.find content.toList functionOpening = some start) :
    Text.contains content "<function" = true := by
  have hword : "<function".toList <+: functionOpening := by decide
  exact Text.contains_iff.mpr
    ((hword.trans (Text.find_eq_some h).1).isInfix.trans (List.drop_suffix ..).isInfix)

/-- Without structured calls a message is well read where its prose neither stops the program
nor keeps live markup. -/
theorem wellRead_prose_iff {message : Json} (hnone : structuredStep message = none)
    (hcalls : wellFormed message = []) :
    WellRead message ↔ ¬ClosedEarly (contentOf message).toList ∧
      (Text.contains (contentOf message) "<function" ∨ Text.contains (contentOf message) "<parameter" ∨
        Text.contains (contentOf message) "</function>" = false ∧
          Text.contains (contentOf message) "</parameter>" = false) := by
  by_cases hbare : Text.trim (contentOf message) ∈ controlTools
  · have hparse : parseStep message =
        .ok (controlStep (Text.trim (contentOf message)) Args.empty message) := by
      simp only [parseStep, hnone, if_pos hbare]
    have hmarkup := notMem_of_bare hbare
    refine iff_of_true ⟨_, hparse, .inl hcalls, fun text h => absurd h (controlStep_ne_say hbare _ _ _)⟩
      ⟨?_, .inr (.inr ⟨contains_of_notMem hmarkup rfl, contains_of_notMem hmarkup rfl⟩)⟩
    rintro ⟨start, stop, hstart, -⟩
    have hopening := find_eq_some_contains hstart
    rw [contains_of_notMem hmarkup rfl] at hopening
    cases hopening
  · have hparse : parseStep message = (recoverLeakedCall (contentOf message).toList).bind fun step =>
        .ok (step.getD (.say (defangToolMarkup (contentOf message)))) := by
      simp only [parseStep, hnone, if_neg hbare, bind]
      cases recoverLeakedCall (contentOf message).toList with
      | error panic => rfl
      | ok step => cases step <;> rfl
    cases hstart : Text.find (contentOf message).toList functionOpening with
    | none =>
      have hrecover : recoverLeakedCall (contentOf message).toList = .ok none := by
        simp only [recoverLeakedCall, hstart]
      rw [hrecover] at hparse
      have hearly : ¬ClosedEarly (contentOf message).toList := by
        rintro ⟨start, stop, hsome, -⟩
        rw [hstart] at hsome
        cases hsome
      rw [← defangToolMarkup_clean_iff]
      constructor
      · rintro ⟨step, hok, -, hclean⟩
        exact ⟨hearly, hclean _ (Except.ok.inj (hok.symm.trans hparse))⟩
      · rintro ⟨-, hclean⟩
        refine ⟨_, hparse, .inl hcalls, fun text h => ?_⟩
        cases h
        exact hclean
    | some start =>
      have hopening := find_eq_some_contains hstart
      rcases recoverLeakedCall_opening hstart with ⟨step, hstep, hsay, hearly⟩ | ⟨⟨panic, hpanic⟩, hearly⟩
      · rw [hstep] at hparse
        refine iff_of_true ⟨_, hparse, .inl hcalls, fun text h => ?_⟩ ⟨hearly, .inl hopening⟩
        cases step with
        | none =>
          cases h
          exact (defangToolMarkup_clean_iff _).mpr (.inl hopening)
        | some step => exact absurd (congrArg some h) (hsay text)
      · rw [hpanic] at hparse
        refine iff_of_false ?_ fun h => h.1 hearly
        rintro ⟨step, hok, -⟩
        rw [hparse] at hok
        cases hok

/-- A message is well read exactly where it is readable. -/
theorem wellRead_iff (message : Json) : WellRead message ↔ Readable message := by
  unfold Readable
  rcases structuredStep_spec message with ⟨hcalls, hnone⟩ | ⟨hne, hall, batch, hstep, hmap⟩ |
    ⟨call, hmem, hends, hstep⟩
  · rw [if_pos hcalls]
    exact wellRead_prose_iff hnone hcalls
  · rw [if_neg hne]
    refine iff_of_true ⟨.toolCall batch, ?_, .inr (.inl ⟨batch, rfl, hmap⟩), by simp⟩ (.inl hall)
    simp [parseStep, hstep]
  · have hparse : parseStep message = .ok (endingStep message call) := by simp [parseStep, hstep]
    have hne : wellFormed message ≠ [] := List.ne_nil_of_mem hmem
    rw [if_neg hne]
    constructor
    · rintro ⟨step, hok, hstands, hclean⟩
      obtain rfl : endingStep message call = step := Except.ok.inj (hparse.symm.trans hok)
      rcases hstands with hnil | ⟨batch, hbatch, -⟩ | ⟨one, hone, -, -⟩
      · exact absurd hnil hne
      · exact absurd hbatch (endingStep_ne_toolCall _ _ _)
      · obtain rfl : call = one := by simpa [hone] using hmem
        exact .inr ⟨call, hone, (endingStep_clean_iff hends).mp hclean⟩
    · rintro (hall | ⟨one, hone, hclean⟩)
      · rw [hall call hmem] at hends
        cases hends
      · obtain rfl : call = one := by simpa [hone] using hmem
        exact ⟨_, hparse, .inr (.inr ⟨call, hone, hends, rfl⟩), (endingStep_clean_iff hends).mpr hclean⟩

def prose (content : String) : Json := .object [("content", .string content)]

/-- A question and a call in one message. -/
def questionAndCall : Json :=
  .object
    [("tool_calls", .array
      [.object [("function", .object
        [("name", .string "ask"), ("arguments", .object [("question", .string "Which?")])])],
      .object [("function", .object
        [("name", .string "read"), ("arguments", .object [("path", .string "a.md")])])]])]

/-- A name closed before its `>` stops the program, the call beside a question is dropped, and a
closing tag alone is said as it stands. -/
theorem message_misread :
    parseStep (prose "<function=read</function>") = .error ⟨15, 4, 15⟩ ∧
      parseStep questionAndCall = .ok (.ask "Which?") ∧
      parseStep (prose "</function>") = .ok (.say "</function>") ∧
      ¬WellRead (prose "<function=read</function>") ∧ ¬WellRead questionAndCall ∧
      ¬WellRead (prose "</function>") := by
  have hpanic : parseStep (prose "<function=read</function>") = .error ⟨15, 4, 15⟩ := by rfl
  have hask : parseStep questionAndCall = .ok (.ask "Which?") := by rfl
  have hsay : parseStep (prose "</function>") = .ok (.say "</function>") := by rfl
  refine ⟨hpanic, hask, hsay, ?_, ?_, ?_⟩
  · rintro ⟨step, hok, -⟩
    rw [hpanic] at hok
    cases hok
  · rintro ⟨step, hok, hstands, -⟩
    obtain rfl : .ask "Which?" = step := Except.ok.inj (hask.symm.trans hok)
    have htwo : (wellFormed questionAndCall).length = 2 := by rfl
    rcases hstands with hnil | ⟨batch, hbatch, -⟩ | ⟨call, hone, -⟩
    · rw [hnil] at htwo
      cases htwo
    · cases hbatch
    · rw [hone] at htwo
      cases htwo
  · rintro ⟨step, hok, -, hclean⟩
    have hmarkup := hclean _ (Except.ok.inj (hok.symm.trans hsay)) "</function>" (by decide)
    exact absurd hmarkup (by decide)

end MarloweAgent.Provider
