import MarloweAgent.Provider.Fold
import MarloweAgent.Provider.Messages

/-! Tool calls that arrive in fragments. However their names and arguments are cut up and
interleaved over the chunks, the fold ends as if every call had arrived whole, in the order of
the indexes; the rest of the chunks is read as if no call were in them. -/

namespace MarloweAgent.Provider
open Contract Library Loop
open Mcp (Json)

/-! ## Fields of a value, changed in place -/

namespace JsonEdit

/-- Change what a key holds. -/
def mapField (key : String) (f : Json → Json) : Json → Json
  | .object fields => .object (fields.map fun field => (field.1, if field.1 = key then f field.2 else field.2))
  | value => value

def mapFirst (f : Json → Json) : Json → Json
  | .array (first :: rest) => .array (f first :: rest)
  | value => value

def without (key : String) : Json → Json
  | .object fields => .object (fields.filter (·.1 ≠ key))
  | value => value

theorem get?_mapField (key key' : String) (f : Json → Json) (value : Json) :
    (mapField key f value).get? key' = if key' = key then (value.get? key').map f else value.get? key' := by
  cases value with
  | object fields =>
    simp only [mapField, Json.get?]
    induction fields with
    | nil => simp
    | cons field fields ih =>
      by_cases hfield : field.1 = key'
      · by_cases hkey : key' = key
        · simp [hfield, hkey]
        · simp [hfield, hkey]
      · simp only [List.map_cons, List.find?_cons, hfield, decide_false]
        exact ih
  | _ => simp [mapField, Json.get?]

theorem get?_without {key key' : String} (h : key' ≠ key) (value : Json) :
    (without key value).get? key' = value.get? key' := by
  cases value with
  | object fields =>
    simp only [without, Json.get?]
    induction fields with
    | nil => simp
    | cons field fields ih =>
      by_cases hkey : field.1 = key
      · have hne : field.1 ≠ key' := fun heq => h (heq.symm.trans hkey)
        simp only [List.filter_cons, hkey, ne_eq, not_true_eq_false, decide_false, List.find?_cons]
        rw [← hkey, decide_eq_false hne]
        simpa [hkey] using ih
      · by_cases hfield : field.1 = key'
        · simp [hfield, h]
        · simpa [hkey, hfield] using ih
  | _ => rfl

theorem get?_without_self (key : String) (value : Json) : (without key value).get? key = none := by
  cases value with
  | object fields => simp [without, Json.get?]
  | _ => rfl

end JsonEdit

open JsonEdit

/-- A chunk with its tool calls left out. -/
def withoutCalls : Json → Json :=
  mapField "choices" (mapFirst fun choice =>
    mapField "delta" (without "tool_calls") (mapField "message" (without "tool_calls") choice))

theorem deltaOf_withoutCalls (value : Json) :
    deltaOf (withoutCalls value) = (deltaOf value).map (without "tool_calls") := by
  unfold deltaOf withoutCalls
  rw [get?_mapField, if_pos rfl]
  cases value.get? "choices" with
  | none => rfl
  | some choices =>
    cases choices with
    | array items =>
      cases items with
      | nil => rfl
      | cons first rest =>
        simp only [Option.map_some, Option.bind_some, mapFirst, Json.asArray, List.head?_cons, get?_mapField]
        cases first.get? "delta" <;> simp
    | _ => rfl

/-! ## Fragments -/

namespace PartialCall

/-- What one part of a call and the next come to: the later id, and the texts joined. -/
def append (a b : PartialCall) : PartialCall :=
  { id := if b.id = "" then a.id else b.id, name := a.name ++ b.name, arguments := a.arguments ++ b.arguments }

theorem append_assoc (a b c : PartialCall) : (a.append b).append c = a.append (b.append c) := by
  unfold append
  simp only [PartialCall.mk.injEq, String.append_assoc, and_true]
  by_cases hc : c.id = "" <;> simp [hc]

theorem empty_append (a : PartialCall) : append {} a = a := by
  obtain ⟨id, name, arguments⟩ := a
  by_cases hid : id = "" <;> simp [append, hid]

theorem append_empty (a : PartialCall) : a.append {} = a := by simp [append]

instance : Monoid PartialCall where
  mul := append
  one := {}
  mul_assoc := append_assoc
  one_mul := empty_append
  mul_one := append_empty

end PartialCall

/-- A text in a field, empty where there is none. -/
def textField (value : Option Json) (key : String) : String :=
  ((value.bind (Json.get? · key)).bind Json.asStr).getD ""

/-- What a fragment brings of its call. -/
def fragment (call : Json) : PartialCall :=
  { id := textField call "id"
    name := textField (call.get? "function") "name"
    arguments := textField (call.get? "function") "arguments" }

theorem absorb_fragment (entry : PartialCall) (call : Json) : entry.absorb call = entry * fragment call := by
  show _ = entry.append (fragment call)
  unfold PartialCall.absorb PartialCall.append fragment textField
  rw [Option.bind_some]
  cases (call.get? "id").bind Json.asStr with
  | none =>
    cases call.get? "function" with
    | none => simp
    | some f =>
      dsimp only [Option.bind_some]
      cases (f.get? "arguments").bind Json.asStr <;> cases (f.get? "name").bind Json.asStr with
      | none => simp
      | some n => by_cases hn : n = "" <;> simp [hn]
  | some id =>
    cases call.get? "function" with
    | none => by_cases hid : id = "" <;> simp [hid]
    | some f =>
      dsimp only [Option.bind_some]
      cases (f.get? "arguments").bind Json.asStr <;> cases (f.get? "name").bind Json.asStr with
      | none => by_cases hid : id = "" <;> simp [hid]
      | some n => by_cases hid : id = "" <;> by_cases hn : n = "" <;> simp [hid, hn]

/-- The fragments of a chunk, each under its index or, without one, its position. -/
def fragmentsIn (value : Json) : List (Nat × PartialCall) :=
  match (deltaOf value).bind fun delta => (delta.get? "tool_calls").bind Json.asArray with
  | none => []
  | some calls => calls.zipIdx.map fun call => (callIndex call.1 call.2, fragment call.1)

theorem foldl_absorbCall (calls : List (Json × Nat)) (m : OrderedMap Nat PartialCall) :
    calls.foldl Fold.absorbCall m =
      Gather.gather m (calls.map fun call => (callIndex call.1 call.2, fragment call.1)) := by
  induction calls generalizing m with
  | nil => rfl
  | cons call calls ih =>
    have hfirst : Fold.absorbCall m call = Gather.join m (callIndex call.1 call.2, fragment call.1) := by
      unfold Fold.absorbCall Gather.join
      exact congrArg (m.insert _) (absorb_fragment _ _)
    rw [List.foldl_cons, hfirst, ih]
    rfl

/-! ## The text side of a chunk -/

namespace Fold

def withCalls (f : Fold) (toolCalls : OrderedMap Nat PartialCall) : Fold := { f with toolCalls }

theorem withCalls_self (f : Fold) : f.withCalls f.toolCalls = f := rfl

theorem withCalls_of_eq {f : Fold} {m : OrderedMap Nat PartialCall} (h : f.toolCalls = m) : f.withCalls m = f :=
  h ▸ rfl

variable (f : Fold) (m : OrderedMap Nat PartialCall)

theorem chargeOnce_withCalls (charged : Bool) :
    (f.withCalls m).chargeOnce charged = ((f.chargeOnce charged).1.withCalls m, (f.chargeOnce charged).2) := by
  unfold chargeOnce charge
  cases charged with
  | true => rfl
  | false =>
    by_cases hnone : f.predictedN = 0 <;> simp [withCalls, hnone]

theorem absorbUsage_withCalls (value : Json) :
    (f.withCalls m).absorbUsage value = (f.absorbUsage value).withCalls m := by
  unfold absorbUsage
  split <;> rfl

theorem absorbTimings_withCalls (w : Wire) (value : Json) :
    (f.withCalls m).absorbTimings w value = (f.absorbTimings w value).withCalls m := by
  unfold absorbTimings
  split <;> rfl

theorem absorbField_withCalls (delta : Json) (charged : Bool) (field : String) :
    absorbField delta (f.withCalls m, charged) field =
      ((absorbField delta (f, charged) field).1.withCalls m, (absorbField delta (f, charged) field).2) := by
  unfold absorbField
  by_cases htext : textIn delta field = []
  · simp [htext]
  · simp only [htext, if_false, chargeOnce_withCalls]
    rfl

theorem foldl_absorbField_withCalls (delta : Json) (fields : List String) (charged : Bool) :
    fields.foldl (absorbField delta) (f.withCalls m, charged) =
      ((fields.foldl (absorbField delta) (f, charged)).1.withCalls m,
        (fields.foldl (absorbField delta) (f, charged)).2) := by
  induction fields generalizing f charged with
  | nil => rfl
  | cons field fields ih => rw [List.foldl_cons, absorbField_withCalls, ih, List.foldl_cons]

theorem retract_withCalls : (f.withCalls m).retract = f.retract.withCalls m := by
  unfold retract
  by_cases hheld : f.held = [] <;> by_cases htext : f.text = [] <;> simp [withCalls, hheld, htext]

theorem foldl_absorbSegment_withCalls (segs : List Segment) (charge : Nat) :
    segs.foldl absorbSegment (f.withCalls m, charge) =
      ((segs.foldl absorbSegment (f, charge)).1.withCalls m, (segs.foldl absorbSegment (f, charge)).2) := by
  induction segs generalizing f charge with
  | nil => rfl
  | cons seg segs ih =>
    have hfirst : absorbSegment (f.withCalls m, charge) seg =
        ((absorbSegment (f, charge) seg).1.withCalls m, (absorbSegment (f, charge) seg).2) := by
      cases seg with
      | reasoning r => rfl
      | speech t => cases hclosed : f.closed <;> simp [absorbSegment, withCalls, hclosed]
    rw [List.foldl_cons, hfirst, ih, List.foldl_cons]

theorem absorbContent_withCalls (content : List Char) (charged : Bool) :
    (f.withCalls m).absorbContent content charged = (f.absorbContent content charged).withCalls m := by
  unfold absorbContent
  by_cases hcontent : content = []
  · simp [hcontent]
  · simp only [hcontent, if_false, chargeOnce_withCalls]
    generalize f.chargeOnce charged = paid
    obtain ⟨f, charge⟩ := paid
    have hretract (retracted : Bool) (splitter : ThinkSplitter) :
        (if retracted then ({ f.withCalls m with splitter } : Fold).retract else { f.withCalls m with splitter }) =
          (if retracted then ({ f with splitter } : Fold).retract else { f with splitter }).withCalls m := by
      cases retracted with
      | true => exact retract_withCalls { f with splitter } m
      | false => rfl
    simp only [show (f.withCalls m).splitter = f.splitter from rfl, hretract, foldl_absorbSegment_withCalls]
    rfl

theorem absorbText_withCalls (delta : Json) :
    (f.withCalls m).absorbText delta = (f.absorbText delta).withCalls m := by
  unfold absorbText
  rw [foldl_absorbField_withCalls]
  exact absorbContent_withCalls _ _ _ _

/-- The text side of a chunk. -/
def absorbRest (w : Wire) (f : Fold) (value : Json) : Fold :=
  match deltaOf value with
  | none => (f.absorbUsage value).absorbTimings w value
  | some delta => ((f.absorbUsage value).absorbTimings w value).absorbText delta

theorem absorbRest_withCalls (w : Wire) (value : Json) :
    (f.withCalls m).absorbRest w value = (f.absorbRest w value).withCalls m := by
  unfold absorbRest
  rw [absorbUsage_withCalls, absorbTimings_withCalls]
  split
  · rfl
  · exact absorbText_withCalls _ _ _

theorem toolCalls_absorbRest (w : Wire) (value : Json) : (f.absorbRest w value).toolCalls = f.toolCalls := by
  have hsame := absorbRest_withCalls f f.toolCalls w value
  rw [withCalls_self] at hsame
  rw [hsame]
  rfl

/-- A chunk is its text side and its fragments. -/
theorem absorb_eq (w : Wire) (value : Json) :
    f.absorb w value = (f.absorbRest w value).withCalls (Gather.gather f.toolCalls (fragmentsIn value)) := by
  have hcalls := toolCalls_absorbRest f w value
  unfold absorb fragmentsIn
  unfold absorbRest at hcalls ⊢
  cases hdelta : deltaOf value with
  | none =>
    rw [hdelta] at hcalls
    exact (withCalls_of_eq hcalls).symm
  | some delta =>
    rw [hdelta] at hcalls
    simp only [Option.bind_some]
    cases hlist : (delta.get? "tool_calls").bind Json.asArray with
    | none =>
      simp only [absorbCalls, hlist]
      exact (withCalls_of_eq hcalls).symm
    | some calls =>
      simp only [absorbCalls, hlist]
      rw [foldl_absorbCall, hcalls]
      rfl

theorem textIn_without {key field : String} (h : field ≠ key) (delta : Json) :
    textIn (without key delta) field = textIn delta field := by
  unfold textIn
  rw [get?_without h]

theorem absorbText_without (delta : Json) : f.absorbText (without "tool_calls" delta) = f.absorbText delta := by
  have hfield (s : Fold × Bool) {field : String} (h : field ≠ "tool_calls") :
      absorbField (without "tool_calls" delta) s field = absorbField delta s field := by
    unfold absorbField
    rw [textIn_without h]
  have hfields : deltaFields.foldl (absorbField (without "tool_calls" delta)) (f, false) =
      deltaFields.foldl (absorbField delta) (f, false) := by
    simp only [deltaFields, List.foldl_cons, List.foldl_nil]
    rw [hfield _ (by decide), hfield _ (by decide)]
  unfold absorbText
  rw [hfields, textIn_without (by decide)]

theorem absorb_withoutCalls (w : Wire) (value : Json) : f.absorb w (withoutCalls value) = f.absorbRest w value := by
  have hother {key : String} (h : key ≠ "choices") : (withoutCalls value).get? key = value.get? key := by
    unfold withoutCalls
    rw [get?_mapField, if_neg h]
  have hfragments : fragmentsIn (withoutCalls value) = [] := by
    unfold fragmentsIn
    rw [deltaOf_withoutCalls]
    cases deltaOf value with
    | none => rfl
    | some delta => simp [get?_without_self]
  have hrest : f.absorbRest w (withoutCalls value) = f.absorbRest w value := by
    unfold absorbRest absorbUsage absorbTimings
    rw [deltaOf_withoutCalls, hother (by decide), hother (by decide)]
    cases deltaOf value with
    | none => rfl
    | some delta => exact absorbText_without _ _
  rw [absorb_eq, hfragments, hrest]
  exact withCalls_of_eq (toolCalls_absorbRest f w value)

theorem foldl_withoutCalls (w : Wire) (values : List Json) :
    (values.map withoutCalls).foldl (absorb w) (f.withCalls m) =
      ((values.map withoutCalls).foldl (absorb w) f).withCalls m := by
  induction values generalizing f with
  | nil => rfl
  | cons value values ih =>
    rw [List.map_cons, List.foldl_cons, absorb_withoutCalls, absorbRest_withCalls, ih, List.foldl_cons,
      absorb_withoutCalls]

theorem toolCalls_withoutCalls (w : Wire) (values : List Json) :
    ((values.map withoutCalls).foldl (absorb w) f).toolCalls = f.toolCalls := by
  have hsame := foldl_withoutCalls f f.toolCalls w values
  rw [withCalls_self] at hsame
  rw [hsame]
  rfl

/-- The run: the text side apart, and all the fragments gathered. -/
theorem foldl_absorb (w : Wire) (values : List Json) :
    values.foldl (absorb w) f =
      ((values.map withoutCalls).foldl (absorb w) f).withCalls
        (Gather.gather f.toolCalls (values.flatMap fragmentsIn)) := by
  induction values generalizing f with
  | nil => rfl
  | cons value values ih =>
    rw [List.foldl_cons, ih, absorb_eq, foldl_withoutCalls, List.map_cons, List.foldl_cons, absorb_withoutCalls,
      List.flatMap_cons, Gather.gather_append]
    rfl

end Fold

/-! ## Calls that arrive whole -/

/-- A chunk with one call in it, all of it. -/
def wholeChunk (call : Nat × PartialCall) : Json :=
  .object [("choices", .array [.object [("delta", .object [("tool_calls", .array [.object
    [("index", .integer call.1), ("id", .string call.2.id),
      ("function", .object [("name", .string call.2.name), ("arguments", .string call.2.arguments)])]])])]])]

theorem asU64_natCast {n : Nat} (h : n < 2 ^ 64) : Json.asU64 (.integer n) = some n := by
  unfold Json.asU64
  have hrange : 0 ≤ (n : Int) ∧ (n : Int) < 2 ^ 64 := by omega
  split
  next m hm =>
    cases hm
    rw [if_pos hrange, Int.toNat_natCast]
  next hm => exact absurd rfl (hm n)

theorem callIndex_cons {n : Nat} (h : n < 2 ^ 64) (fields : List (String × Json)) (position : Nat) :
    callIndex (.object (("index", .integer n) :: fields)) position = n := by
  have hfield : Json.get? (.object (("index", .integer n) :: fields)) "index" = some (.integer n) := by
    simp [Json.get?]
  unfold callIndex
  rw [hfield, Option.bind_some, asU64_natCast h, Option.getD_some]

theorem fragmentsIn_wholeChunk {call : Nat × PartialCall} (h : call.1 < 2 ^ 64) :
    fragmentsIn (wholeChunk call) = [call] := by
  have hdelta : deltaOf (wholeChunk call) = some (.object [("tool_calls", .array [.object
      [("index", .integer call.1), ("id", .string call.2.id),
        ("function", .object [("name", .string call.2.name), ("arguments", .string call.2.arguments)])]])]) := by
    simp [deltaOf, wholeChunk, Json.get?, Json.asArray]
  unfold fragmentsIn
  rw [hdelta]
  simp [Json.get?, Json.asArray, callIndex_cons h, fragment, textField, Json.asStr]

theorem absorb_wholeChunk (w : Wire) (f : Fold) {call : Nat × PartialCall} (h : call.1 < 2 ^ 64) :
    f.absorb w (wholeChunk call) = f.withCalls (Gather.gather f.toolCalls [call]) := by
  rw [Fold.absorb_eq, fragmentsIn_wholeChunk h]
  rfl

theorem foldl_wholeChunks (w : Wire) (f : Fold) {calls : List (Nat × PartialCall)} (h : ∀ c ∈ calls, c.1 < 2 ^ 64) :
    (calls.map wholeChunk).foldl (Fold.absorb w) f = f.withCalls (Gather.gather f.toolCalls calls) := by
  induction calls generalizing f with
  | nil => rfl
  | cons call calls ih =>
    rw [List.map_cons, List.foldl_cons, absorb_wholeChunk w f (h call List.mem_cons_self),
      ih _ fun c hc => h c (List.mem_cons_of_mem _ hc)]
    rfl

/-! ## Reassembly -/

/-- The chunks carry these calls in fragments: the fragments under an index are, in their order,
the call with that index cut up. -/
structure Fragmented (values : List Json) (calls : List (Nat × PartialCall)) : Prop where
  ordered : calls.Pairwise (·.1 < ·.1)
  fits : ∀ c ∈ calls, c.1 < 2 ^ 64
  whole : ∀ i, Gather.whole i (values.flatMap fragmentsIn) = Gather.whole i calls

/-- The calls that have a name. -/
def namedCalls (calls : List (Nat × PartialCall)) : List PartialCall := (calls.map Prod.snd).filter (·.name ≠ "")

/-- The step carries exactly these calls, each with its name and its parsed arguments. -/
def Carries (w : Wire) (step : Except SlicePanic ModelStep) (calls : List PartialCall) : Prop :=
  ∃ batch, step = .ok (.toolCall batch) ∧
    batch.map (fun i => (i.tool, i.args)) = calls.map fun c => (⟨c.name⟩, callArgs (Fold.callJson w c))

theorem toolCalls_foldl {values : List Json} {calls : List (Nat × PartialCall)} (w : Wire) (thinking : Bool)
    (h : Fragmented values calls) :
    (values.foldl (Fold.absorb w) { closed := !thinking }).toolCalls.bindings = calls := by
  rw [Fold.foldl_absorb]
  show (Gather.gather .empty _).bindings = calls
  rw [Gather.gather_congr h.whole, Gather.bindings_gather_sorted h.ordered]

theorem folded_eq {values : List Json} {calls : List (Nat × PartialCall)} (w : Wire) (thinking : Bool)
    (h : Fragmented values calls) :
    folded w thinking values = folded w thinking (values.map withoutCalls ++ calls.map wholeChunk) := by
  unfold folded
  rw [List.foldl_append, foldl_wholeChunks w _ h.fits, Fold.foldl_absorb, Fold.toolCalls_withoutCalls,
    Gather.gather_congr h.whole]

theorem foldl_finishSegment (segs : List Segment) (f : Fold) :
    (segs.foldl Fold.finishSegment f).toolCalls = f.toolCalls := by
  induction segs generalizing f with
  | nil => rfl
  | cons seg segs ih =>
    rw [List.foldl_cons, ih]
    cases seg with
    | reasoning r => rfl
    | speech t => cases hclosed : f.closed <;> simp [Fold.finishSegment, hclosed]

theorem toolCalls_finish (f : Fold) : f.finish.toolCalls = f.toolCalls := by
  have hrelease (f : Fold) : f.release.toolCalls = f.toolCalls := by
    unfold Fold.release
    split
    · rfl
    · split <;> rfl
  have hsettle (f : Fold) : f.settle.toolCalls = f.toolCalls := by
    unfold Fold.settle
    dsimp only
    split <;> rfl
  unfold Fold.finish
  rw [hsettle, hrelease, foldl_finishSegment]

theorem callName_callJson (w : Wire) (c : PartialCall) : callName (Fold.callJson w c) = c.name := by
  simp [callName, Fold.callJson, Json.get?, Json.asStr]

theorem wellFormed_message (w : Wire) (f : Fold) :
    wellFormed (f.message w) = (f.toolCalls.values.filter (·.name ≠ "")).map (Fold.callJson w) := by
  have hnamed : ∀ call ∈ (f.toolCalls.values.filter (·.name ≠ "")).map (Fold.callJson w), callName call ≠ "" := by
    intro call hcall
    obtain ⟨c, hc, rfl⟩ := List.mem_map.mp hcall
    rw [callName_callJson]
    simpa using (List.mem_filter.mp hc).2
  unfold wellFormed Fold.message
  generalize (f.toolCalls.values.filter (·.name ≠ "")).map (Fold.callJson w) = calls at hnamed ⊢
  cases calls with
  | nil => simp [Json.get?]
  | cons call calls =>
    have hself : (call :: calls).filter (callName · ≠ "") = call :: calls :=
      List.filter_eq_self.mpr fun c hc => by simpa using hnamed c hc
    simpa [Json.get?, Json.asArray] using hself

/-- However the calls are cut up and interleaved, the fold is the one they leave when each arrives
whole; and the step carries exactly the calls that have a name, if none of them is for a control
tool. -/
theorem calls_reassembled (w : Wire) (thinking : Bool) {values : List Json} {calls : List (Nat × PartialCall)}
    (h : Fragmented values calls) :
    folded w thinking values = folded w thinking (values.map withoutCalls ++ calls.map wholeChunk) ∧
      (namedCalls calls ≠ [] → (∀ c ∈ namedCalls calls, endsReading c.name = false) →
        Carries w ((folded w thinking values).intoStep w) (namedCalls calls)) := by
  have hcalls : (folded w thinking values).toolCalls.values.filter (·.name ≠ "") = namedCalls calls := by
    unfold folded
    rw [toolCalls_finish, OrderedMap.values, toolCalls_foldl w thinking h]
    rfl
  have hwell := wellFormed_message w (folded w thinking values)
  rw [hcalls] at hwell
  refine ⟨folded_eq w thinking h, fun hne hplain => ?_⟩
  rcases structuredStep_spec ((folded w thinking values).message w) with
    ⟨hnil, -⟩ | ⟨-, -, batch, hstep, hmap⟩ | ⟨call, hmem, hends, -⟩
  · rw [hwell] at hnil
    exact absurd (List.map_eq_nil_iff.mp hnil) hne
  · refine ⟨batch, ?_, ?_⟩
    · unfold Fold.intoStep parseStep
      rw [hstep]
    · rw [hmap, hwell, List.map_map]
      simp only [Function.comp_def, callName_callJson]
  · rw [hwell] at hmem
    obtain ⟨c, hc, rfl⟩ := List.mem_map.mp hmem
    rw [callName_callJson, hplain c hc] at hends
    cases hends

/-- A chunk with fragments of calls, as the server writes them. -/
def callsChunk (fragments : List Json) : Json :=
  .object [("choices", .array [.object [("delta", .object [("tool_calls", .array fragments)])]])]

def functionPart (name arguments : String) : String × Json :=
  ("function", .object [("name", .string name), ("arguments", .string arguments)])

/-- Two calls, the first in three fragments around the second; its last fragment has no index. -/
def interleaved : List Json :=
  [callsChunk [.object [("index", .integer 0), ("id", .string "a"), functionPart "re" ""]],
    callsChunk [.object [("index", .integer 1), ("id", .string "b"), functionPart "grep" "\x7b\x7d"]],
    callsChunk [.object [("index", .integer 0), functionPart "ad" "\x7b"]],
    callsChunk [.object [("function", .object [("arguments", .string "\x7d")])]]]

/-- A parser that knows the empty object. -/
def emptyObjects : Wire :=
  { fromStr := fun text => if text = "\x7b\x7d" then some (.object []) else none, totalMs := fun _ => none }

theorem interleaved_fragmented :
    Fragmented interleaved [(0, ⟨"a", "read", "\x7b\x7d"⟩), (1, ⟨"b", "grep", "\x7b\x7d"⟩)] where
  ordered := by decide
  fits := by decide
  whole i := by
    have hfragments : interleaved.flatMap fragmentsIn =
        [(0, ⟨"a", "re", ""⟩), (1, ⟨"b", "grep", "\x7b\x7d"⟩), (0, ⟨"", "ad", "\x7b"⟩), (0, ⟨"", "", "\x7d"⟩)] := by
      decide +kernel
    rw [hfragments]
    by_cases hzero : i = 0
    · subst hzero
      decide +kernel
    · by_cases hone : i = 1
      · subst hone
        decide +kernel
      · simp [Gather.whole, Gather.fragmentsOf, Ne.symm hzero, Ne.symm hone]

theorem interleaved_reassembled :
    Carries emptyObjects ((folded emptyObjects true interleaved).intoStep emptyObjects)
      [⟨"a", "read", "\x7b\x7d"⟩, ⟨"b", "grep", "\x7b\x7d"⟩] :=
  (calls_reassembled emptyObjects true interleaved_fragmented).2 (by decide) (by decide)

def callsTools : Except SlicePanic ModelStep → Bool
  | .ok (.toolCall _) => true
  | _ => false

/-- A call of the reply tool comes whole, and the step is a reply. -/
theorem reply_call_not_carried :
    Fragmented [wholeChunk (0, ⟨"a", "done", "\x7b\x7d"⟩)] [(0, ⟨"a", "done", "\x7b\x7d"⟩)] ∧
      ¬Carries emptyObjects
        ((folded emptyObjects true [wholeChunk (0, ⟨"a", "done", "\x7b\x7d"⟩)]).intoStep emptyObjects)
        [⟨"a", "done", "\x7b\x7d"⟩] := by
  refine ⟨⟨by decide, by decide, fun i => ?_⟩, ?_⟩
  · rw [List.flatMap_singleton, fragmentsIn_wholeChunk (by decide)]
  · rintro ⟨batch, hstep, -⟩
    have hsay : callsTools ((folded emptyObjects true [wholeChunk (0, ⟨"a", "done", "\x7b\x7d"⟩)]).intoStep
        emptyObjects) = false := by decide +kernel
    rw [hstep] at hsay
    cases hsay

end MarloweAgent.Provider
