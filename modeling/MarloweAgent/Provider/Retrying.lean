import MarloweAgent.Extract.Zip
import MarloweAgent.Library.Utf8
import MarloweAgent.Net.Fetch
import MarloweAgent.Provider.OpenRouter
import Mathlib.Algebra.Group.Action.Defs
import Mathlib.Algebra.Order.BigOperators.Group.List

/-! A call to the hosted provider. It is attempted a few times, with bounded waits between; only
an answer that is not transient is read, so that the caller hears one stream at most. Every error
goes through the redaction of the key. -/

namespace MarloweAgent.Provider
open Contract Library Loop
open Mcp (Json IoError)

/-! ## The socket -/

inductive TransportError
  | unreachable (host detail : String)
  | malformed (host detail : String)
  | refused (detail : String)
  deriving DecidableEq, Repr

namespace TransportError

def isTransient : TransportError → Bool
  | unreachable _ _ => true
  | malformed _ _ => true
  | refused _ => false

def text : TransportError → String
  | unreachable host detail => "could not reach " ++ host ++ ": " ++ detail
  | malformed host detail => "malformed response from " ++ host ++ ": " ++ detail
  | refused detail => detail

end TransportError

/-- A response: the bytes of its body, and how reading them ends. -/
structure Response where
  status : Nat
  retryAfter : Option String
  body : List UInt8
  ending : Option IoError
  deriving DecidableEq, Repr

/-- `read_capped`. -/
def Response.readCapped (r : Response) (limit : Nat) : String := Extract.Zip.fromUtf8Lossy (r.body.take limit)

/-- The body as it is read line by line. A line that is not text is a failed read. -/
def Response.arrivals (r : Response) : List (Arrival Char IoError) :=
  ((splitInclusive 10 r.body).flatMap fun line =>
    match Mcp.lineText line with
    | some text => text.toList.map Arrival.item
    | none => [.failure Mcp.notUtf8]) ++ r.ending.toList.map Arrival.failure

/-! ## The policy -/

def maxAttempts : Nat := 4

def baseBackoff : Nat := 500

def maxBackoff : Nat := 20000

def maxTotalRetryWait : Nat := 60000

inductive Disposition
  | proceed
  | retry
  | fail
  deriving DecidableEq, Repr

def disposition (status : Nat) : Disposition :=
  if 200 ≤ status ∧ status ≤ 299 then .proceed
  else if status = 429 then .retry
  else if status = 500 ∨ status = 502 ∨ status = 503 ∨ status = 504 then .retry
  else .fail

/-- The wait behind an attempt, in milliseconds. What the server asks for is clamped. -/
def backoff (attempt : Nat) (retryAfter : Option String) : Nat :=
  match retryAfter.bind fun v => Net.parseUsize 10 (Text.trim v) with
  | some secs => min (secs * 1000) maxBackoff
  | none => min (baseBackoff * 2 ^ min (attempt - 1) 6) maxBackoff

/-- `first_line`. -/
def firstLine (body : String) : String :=
  let trimmed := Text.trim body
  if Text.isEmpty trimmed then ""
  else "Upstream said: " ++ String.ofList (((Text.lines trimmed).head?.getD "").toList.take 300)

def keyVar : String := "OPENROUTER_API_KEY"

def explainStatus (status : Nat) (model body : String) : String :=
  let tail := firstLine body
  if status = 400 then
    "openrouter.ai rejected the request as malformed (HTTP 400). This is a harness bug, not a configuration one — " ++
      "the model `" ++ model ++ "` may not accept a field Marlowe sent. " ++ tail
  else if status = 401 then
    "openrouter.ai refused the credential (HTTP 401). The key in `" ++ keyVar ++ "` is not valid — " ++
      "check it at https://openrouter.ai/keys. " ++ tail
  else if status = 402 then
    "openrouter.ai reports no credit (HTTP 402). Add credit at https://openrouter.ai/credits, or choose a " ++
      "`:free` model. " ++ tail
  else if status = 403 then
    "openrouter.ai refused the request (HTTP 403). This is usually upstream moderation or a model your account " ++
      "is not permitted to use. " ++ tail
  else if status = 404 then
    "openrouter.ai has no model called `" ++ model ++ "` (HTTP 404). The slug is `vendor/model-name`, e.g. " ++
      "`anthropic/claude-sonnet-4.5`; the full list is at https://openrouter.ai/models. " ++ tail
  else if status = 413 then
    "the request was larger than `" ++ model ++ "` accepts (HTTP 413). Lower `--context`. " ++ tail
  else "openrouter.ai returned HTTP " ++ toString status ++ " for `" ++ model ++ "`. " ++ tail

/-! ## The call -/

/-- The driver: its key, and what it has been told about who answered. -/
structure OpenRouterDriver where
  key : String
  model : String
  host : String
  pinUpstream : Option (List String)
  attribution : List CallAttribution

/-- What one call did, and what came of it. -/
structure Outcome where
  posts : Nat
  waits : List Nat
  told : List Told
  record : Option CallAttribution
  result : Except ProviderError (Usage × Except SlicePanic ModelStep)

namespace OpenRouterDriver

/-- The one stream that is read. Its record is kept whatever comes of it. -/
def proceed (d : OpenRouterDriver) (w : HostedWire) (wallMs : Nat) (response : Response) (attempt : Nat)
    (waits : List Nat) : Outcome :=
  let (acc, outcome) := consume w d.key d.host (.new d.model) (SseStream.new response.arrivals).frames
  let call := { acc.call with attempts := attempt, upstreamPinned := d.pinUpstream.isSome }
  let usage : Usage :=
    { promptTokens := call.promptTokens, completionTokens := call.completionTokens, microsUsd := call.microsUsd, wallMs }
  { posts := attempt, waits, told := acc.told, record := some call
    result := outcome.map fun () => (usage, acc.intoStep w) }

/-- The attempts from one on, with the error of the last. -/
def attemptFrom (d : OpenRouterDriver) (w : HostedWire) (post : Nat → Except TransportError Response) (wallMs : Nat)
    (made : Nat) (last : Option ProviderError) (waits : List Nat) : Outcome :=
  if _hmade : made < maxAttempts then
    let attempt := made + 1
    match post attempt with
    | .error e =>
      let last := providerError d.key e.text e.isTransient
      if e.isTransient = false ∨ maxAttempts ≤ attempt then ⟨attempt, waits, [], none, .error last⟩
      else attemptFrom d w post wallMs attempt (some last) (waits ++ [backoff attempt none])
    | .ok response =>
      match disposition response.status with
      | .proceed => d.proceed w wallMs response attempt waits
      | .retry =>
        let detail := response.readCapped 2000
        let last := providerError d.key
          (d.host ++ " returned HTTP " ++ toString response.status ++ " (attempt " ++ toString attempt ++ " of " ++
            toString maxAttempts ++ "): " ++ detail) true
        if maxAttempts ≤ attempt then ⟨attempt, waits, [], none, .error last⟩
        else attemptFrom d w post wallMs attempt (some last) (waits ++ [backoff attempt response.retryAfter])
      | .fail =>
        let detail := response.readCapped 2000
        ⟨attempt, waits, [], none, .error (providerError d.key (explainStatus response.status d.model detail) false)⟩
  else ⟨made, waits, [], none, .error (last.getD (providerError d.key "no attempt was made" false))⟩
termination_by maxAttempts - made

/-- `call_streaming_split`: `post` is what the transport answers to each attempt. -/
def callStreamingSplit (d : OpenRouterDriver) (w : HostedWire) (post : Nat → Except TransportError Response)
    (wallMs : Nat) : Outcome × OpenRouterDriver :=
  let outcome := d.attemptFrom w post wallMs 0 none []
  (outcome, { d with attribution := d.attribution ++ outcome.record.toList })

end OpenRouterDriver

/-! ## One stream at most -/

/-- An answer that is worth another attempt. -/
def transient : Except TransportError Response → Bool
  | .error e => e.isTransient
  | .ok response =>
    match disposition response.status with
    | .retry => true
    | .proceed | .fail => false

def retryAfterOf : Except TransportError Response → Option String
  | .error _ => none
  | .ok response => response.retryAfter

/-- What an answer comes to when it is the last. -/
def OpenRouterDriver.settled (d : OpenRouterDriver) (w : HostedWire) (wallMs : Nat)
    (answer : Except TransportError Response) (attempt : Nat) (waits : List Nat) : Outcome :=
  match answer with
  | .error e => ⟨attempt, waits, [], none, .error (providerError d.key e.text e.isTransient)⟩
  | .ok response =>
    match disposition response.status with
    | .proceed => d.proceed w wallMs response attempt waits
    | .retry =>
      ⟨attempt, waits, [], none, .error (providerError d.key
        (d.host ++ " returned HTTP " ++ toString response.status ++ " (attempt " ++ toString attempt ++ " of " ++
          toString maxAttempts ++ "): " ++ response.readCapped 2000) true)⟩
    | .fail =>
      ⟨attempt, waits, [], none,
        .error (providerError d.key (explainStatus response.status d.model (response.readCapped 2000)) false)⟩

/-- One attempt: it is the last, or its answer is transient and the next one follows. -/
theorem attemptFrom_step (d : OpenRouterDriver) (w : HostedWire) (post : Nat → Except TransportError Response)
    (wallMs : Nat) {made : Nat} (hmade : made < maxAttempts) (last : Option ProviderError) (waits : List Nat) :
    ∃ last', d.attemptFrom w post wallMs made last waits =
      if transient (post (made + 1)) ∧ made + 1 < maxAttempts then
        d.attemptFrom w post wallMs (made + 1) last' (waits ++ [backoff (made + 1) (retryAfterOf (post (made + 1)))])
      else d.settled w wallMs (post (made + 1)) (made + 1) waits := by
  rw [OpenRouterDriver.attemptFrom, dif_pos hmade]
  dsimp only
  unfold OpenRouterDriver.settled
  cases hpost : post (made + 1) with
  | error e =>
    refine ⟨some (providerError d.key e.text e.isTransient), ?_⟩
    dsimp only
    by_cases hmore : e.isTransient = true ∧ made + 1 < maxAttempts
    · rw [if_pos (show transient (.error e) ∧ _ from hmore), if_neg (by simp [hmore.1, Nat.not_le.mpr hmore.2])]
      rfl
    · rw [if_neg (show ¬(transient (.error e) ∧ _) from hmore), if_pos]
      rcases Bool.eq_false_or_eq_true e.isTransient with htransient | hfinal
      · exact .inr (Nat.le_of_not_lt fun hlt => hmore ⟨htransient, hlt⟩)
      · exact .inl hfinal
  | ok response =>
    cases hstatus : disposition response.status with
    | proceed =>
      have hfinal : transient (.ok response) = false := by rw [transient, hstatus]
      exact ⟨none, by simp [hstatus, hfinal]⟩
    | fail =>
      have hfinal : transient (.ok response) = false := by rw [transient, hstatus]
      exact ⟨none, by simp [hstatus, hfinal]⟩
    | retry =>
      have htransient : transient (.ok response) = true := by rw [transient, hstatus]
      simp only [hstatus, htransient, true_and]
      by_cases hmore : made + 1 < maxAttempts
      · exact ⟨_, by rw [if_neg (Nat.not_le.mpr hmore), if_pos hmore]; rfl⟩
      · exact ⟨none, by rw [if_pos (Nat.le_of_not_lt hmore), if_neg hmore]⟩

/-- The attempts run to the first answer that is not transient, or to the last there may be. -/
theorem attemptFrom_spec (d : OpenRouterDriver) (w : HostedWire) (post : Nat → Except TransportError Response)
    (wallMs : Nat) {made : Nat} (hmade : made < maxAttempts) (last : Option ProviderError) (waits : List Nat) :
    ∃ n, made < n ∧ n ≤ maxAttempts ∧ (∀ i, made < i → i < n → transient (post i)) ∧
      (transient (post n) → n = maxAttempts) ∧
      d.attemptFrom w post wallMs made last waits =
        d.settled w wallMs (post n) n
          (waits ++ (List.range' (made + 1) (n - (made + 1))).map fun i => backoff i (retryAfterOf (post i))) := by
  induction hk : maxAttempts - made generalizing made last waits with
  | zero => omega
  | succ k ih =>
    obtain ⟨last', hstep⟩ := attemptFrom_step d w post wallMs hmade last waits
    rw [hstep]
    by_cases hmore : transient (post (made + 1)) ∧ made + 1 < maxAttempts
    · rw [if_pos hmore]
      obtain ⟨n, hlt, hle, hbefore, hend, heq⟩ := ih hmore.2 last' _ (by omega)
      refine ⟨n, by omega, hle, fun i hi hin => ?_, hend, ?_⟩
      · rcases Nat.eq_or_lt_of_le hi with hfirst | hlater
        · rw [← hfirst]
          exact hmore.1
        · exact hbefore i hlater hin
      · have hrange : List.range' (made + 1) (n - (made + 1)) =
            (made + 1) :: List.range' (made + 1 + 1) (n - (made + 1 + 1)) := by
          have hcount : n - (made + 1) = n - (made + 1 + 1) + 1 := by omega
          rw [hcount, List.range'_succ]
        rw [heq, hrange, List.map_cons, List.append_assoc]
        rfl
    · rw [if_neg hmore]
      refine ⟨made + 1, by omega, by omega, fun i hi hin => by omega, fun htransient => ?_, by simp⟩
      by_contra hne
      exact hmore ⟨htransient, by omega⟩

theorem backoff_le (attempt : Nat) (retryAfter : Option String) : backoff attempt retryAfter ≤ maxBackoff := by
  unfold backoff
  split <;> exact Nat.min_le_right ..

theorem settled_posts (d : OpenRouterDriver) (w : HostedWire) (wallMs : Nat) (answer : Except TransportError Response)
    (attempt : Nat) (waits : List Nat) :
    (d.settled w wallMs answer attempt waits).posts = attempt ∧ (d.settled w wallMs answer attempt waits).waits = waits := by
  unfold OpenRouterDriver.settled OpenRouterDriver.proceed
  split
  · exact ⟨rfl, rfl⟩
  · split <;> exact ⟨rfl, rfl⟩

/-- The stream of a response, as the call reads it. -/
def streamOf (d : OpenRouterDriver) (w : HostedWire) (response : Response) : Accumulator × Except ProviderError Unit :=
  consume w d.key d.host (.new d.model) (SseStream.new response.arrivals).frames

/-- The call of one answer heard, and of the others nothing. -/
def Heard (d : OpenRouterDriver) (w : HostedWire) (answer : Except TransportError Response) (o : Outcome) : Prop :=
  (∃ response, answer = .ok response ∧ disposition response.status = .proceed ∧
      o.told = (streamOf d w response).1.told ∧
      o.record = some { (streamOf d w response).1.call with attempts := o.posts, upstreamPinned := d.pinUpstream.isSome }) ∨
    ((∀ response, answer = .ok response → disposition response.status ≠ .proceed) ∧ o.told = [] ∧ o.record = none)

theorem heard_settled (d : OpenRouterDriver) (w : HostedWire) (wallMs : Nat) (answer : Except TransportError Response)
    (attempt : Nat) (waits : List Nat) : Heard d w answer (d.settled w wallMs answer attempt waits) := by
  cases answer with
  | error e => exact .inr ⟨nofun, rfl, rfl⟩
  | ok response =>
    unfold OpenRouterDriver.settled
    cases hstatus : disposition response.status with
    | proceed => exact .inl ⟨response, rfl, hstatus, by simp only [hstatus]; rfl, by simp only [hstatus]; rfl⟩
    | retry =>
      refine .inr ⟨fun other h => ?_, by simp only [hstatus], by simp only [hstatus]⟩
      cases h
      rw [hstatus]
      exact nofun
    | fail =>
      refine .inr ⟨fun other h => ?_, by simp only [hstatus], by simp only [hstatus]⟩
      cases h
      rw [hstatus]
      exact nofun

/-- A call makes a few attempts at most, each but the last for an answer that was transient; it
waits between them for a minute at most, whatever the server asks for; and what the caller hears,
and the record that is kept, are those of the last answer alone. -/
theorem called (d : OpenRouterDriver) (w : HostedWire) (post : Nat → Except TransportError Response) (wallMs : Nat) :
    let o := (d.callStreamingSplit w post wallMs).1
    (0 < o.posts ∧ o.posts ≤ maxAttempts) ∧ (∀ i, 0 < i → i < o.posts → transient (post i)) ∧
      (transient (post o.posts) → o.posts = maxAttempts) ∧
      o.waits = (List.range' 1 (o.posts - 1)).map (fun i => backoff i (retryAfterOf (post i))) ∧
      o.waits.sum ≤ maxTotalRetryWait ∧ Heard d w (post o.posts) o := by
  obtain ⟨n, hpos, hle, hbefore, hend, heq⟩ := attemptFrom_spec d w post wallMs (by decide : 0 < maxAttempts) none []
  obtain ⟨hposts, hwaits⟩ := settled_posts d w wallMs (post n) n
    ([] ++ (List.range' (0 + 1) (n - (0 + 1))).map fun i => backoff i (retryAfterOf (post i)))
  have hheard := heard_settled d w wallMs (post n) n
    ([] ++ (List.range' (0 + 1) (n - (0 + 1))).map fun i => backoff i (retryAfterOf (post i)))
  unfold OpenRouterDriver.callStreamingSplit
  dsimp only
  rw [heq, hposts, hwaits]
  refine ⟨⟨hpos, hle⟩, hbefore, hend, rfl, ?_, hheard⟩
  have hbound : ∀ wait ∈ (List.range' 1 (n - 1)).map fun i => backoff i (retryAfterOf (post i)), wait ≤ maxBackoff := by
    intro wait hwait
    obtain ⟨i, -, rfl⟩ := List.mem_map.mp hwait
    exact backoff_le _ _
  have hsum := List.sum_le_card_nsmul _ _ hbound
  rw [List.length_map, List.length_range', smul_eq_mul] at hsum
  have hfew : (n - 1) * maxBackoff ≤ 3 * maxBackoff := Nat.mul_le_mul_right _ (by unfold maxAttempts at hle; omega)
  exact Nat.le_trans hsum hfew

/-! ## The record of a run -/

theorem attemptFrom_attribution (d : OpenRouterDriver) (w : HostedWire) (post : Nat → Except TransportError Response)
    (wallMs : Nat) (calls : List CallAttribution) (made : Nat) (last : Option ProviderError) (waits : List Nat) :
    OpenRouterDriver.attemptFrom { d with attribution := calls } w post wallMs made last waits =
      d.attemptFrom w post wallMs made last waits := by
  induction hk : maxAttempts - made generalizing made last waits with
  | zero =>
    have hdone : ¬made < maxAttempts := by omega
    rw [OpenRouterDriver.attemptFrom, OpenRouterDriver.attemptFrom, dif_neg hdone, dif_neg hdone]
  | succ k ih =>
    have hmade : made < maxAttempts := by omega
    have hnext (last : Option ProviderError) (waits : List Nat) := ih (made + 1) last waits (by omega)
    rw [OpenRouterDriver.attemptFrom, OpenRouterDriver.attemptFrom, dif_pos hmade, dif_pos hmade]
    simp only [hnext]
    rfl

/-- A run of calls: what the transport answers to each, and how long it takes. -/
def runCalls (d : OpenRouterDriver) (w : HostedWire) (calls : List ((Nat → Except TransportError Response) × Nat)) :
    OpenRouterDriver :=
  calls.foldl (fun d call => (d.callStreamingSplit w call.1 call.2).2) d

def totalMicrosUsd (calls : List CallAttribution) : Nat := (calls.map CallAttribution.microsUsd).sum

theorem requestedModel_streamOf (d : OpenRouterDriver) (w : HostedWire) (response : Response) :
    (streamOf d w response).1.call.requestedModel = d.model := by
  have hattribution (a : Accumulator) (value : Json) :
      (a.absorbAttribution w value).call.requestedModel = a.call.requestedModel := by
    unfold Accumulator.absorbAttribution
    cases (value.get? "provider").bind Json.asStr <;> cases (value.get? "model").bind Json.asStr <;>
      cases (value.get? "id").bind Json.asStr <;> cases value.get? "usage" <;> simp
  have hvalues (values : List Json) (a : Accumulator) :
      (values.foldl (Accumulator.absorb w) a).call.requestedModel = a.call.requestedModel := by
    induction values generalizing a with
    | nil => rfl
    | cons value values ih => rw [List.foldl_cons, ih, call_absorb, hattribution]
  unfold streamOf
  rcases consume_eq w d.key d.host (SseStream.new response.arrivals).frames (.new d.model) with
    ⟨-, hend⟩ | ⟨-, hend⟩
  · rw [hend, (kept_finish _).2, hvalues]
    rfl
  · rw [hend, hvalues]
    rfl

/-- What a call leaves in the record. -/
structure Recorded (d : OpenRouterDriver) (w : HostedWire) (call : (Nat → Except TransportError Response) × Nat)
    (record : Option CallAttribution) : Prop where
  kept : record = (d.callStreamingSplit w call.1 call.2).1.record
  heard : Heard d w (call.1 (d.callStreamingSplit w call.1 call.2).1.posts) (d.callStreamingSplit w call.1 call.2).1
  entry : ∀ entry ∈ record, entry.requestedModel = d.model ∧
    entry.attempts = (d.callStreamingSplit w call.1 call.2).1.posts ∧ entry.upstreamPinned = d.pinUpstream.isSome

theorem recorded (d : OpenRouterDriver) (w : HostedWire) (call : (Nat → Except TransportError Response) × Nat) :
    Recorded d w call (d.callStreamingSplit w call.1 call.2).1.record := by
  obtain ⟨-, -, -, -, -, hheard⟩ := called d w call.1 call.2
  refine ⟨rfl, hheard, fun entry hentry => ?_⟩
  rcases hheard with ⟨response, -, -, -, hrecord⟩ | ⟨-, -, hnone⟩
  · rw [hrecord] at hentry
    obtain rfl := Option.some.inj hentry
    exact ⟨requestedModel_streamOf d w response, rfl, rfl⟩
  · rw [hnone] at hentry
    cases hentry

/-- What a call does is not of the record. -/
theorem Recorded.of_attribution {d : OpenRouterDriver} {w : HostedWire} {calls : List CallAttribution}
    {call : (Nat → Except TransportError Response) × Nat} {record : Option CallAttribution}
    (h : Recorded { d with attribution := calls } w call record) : Recorded d w call record := by
  have hsame : (OpenRouterDriver.callStreamingSplit { d with attribution := calls } w call.1 call.2).1 =
      (d.callStreamingSplit w call.1 call.2).1 := attemptFrom_attribution d w call.1 call.2 calls 0 none []
  obtain ⟨hkept, hheard, hentry⟩ := h
  rw [hsame] at hkept hheard hentry
  exact ⟨hkept, hheard, hentry⟩

/-- Over any run the record has one entry for each call whose last answer was a success, in order,
also where its stream failed; it names the model, the attempts and the pin; the other calls leave
none, and the costs add up. -/
theorem attributed (d : OpenRouterDriver) (w : HostedWire)
    (calls : List ((Nat → Except TransportError Response) × Nat)) :
    ∃ records : List (Option CallAttribution), List.Forall₂ (Recorded d w) calls records ∧
      (runCalls d w calls).attribution = d.attribution ++ records.flatMap Option.toList ∧
      totalMicrosUsd (runCalls d w calls).attribution =
        totalMicrosUsd d.attribution + totalMicrosUsd (records.flatMap Option.toList) := by
  induction calls generalizing d with
  | nil => exact ⟨[], .nil, (List.append_nil _).symm, rfl⟩
  | cons call calls ih =>
    obtain ⟨records, hrecords, hattribution, htotal⟩ := ih (d.callStreamingSplit w call.1 call.2).2
    refine ⟨_ :: records, .cons (recorded d w call) (hrecords.imp fun _ _ h => h.of_attribution), ?_, ?_⟩
    · rw [List.flatMap_cons, ← List.append_assoc]
      exact hattribution
    · rw [runCalls, List.foldl_cons]
      refine htotal.trans ?_
      unfold totalMicrosUsd OpenRouterDriver.callStreamingSplit
      simp [Nat.add_assoc]

/-! ## The key -/

/-- Every error of a call is a redacted text. -/
theorem error_redacted (d : OpenRouterDriver) (w : HostedWire) (post : Nat → Except TransportError Response)
    (wallMs : Nat) {e : ProviderError} (h : (d.callStreamingSplit w post wallMs).1.result = .error e) :
    ∃ text, e.detail = redact d.key text := by
  obtain ⟨n, -, -, -, -, heq⟩ := attemptFrom_spec d w post wallMs (by decide : 0 < maxAttempts) none []
  unfold OpenRouterDriver.callStreamingSplit at h
  dsimp only at h
  rw [heq] at h
  unfold OpenRouterDriver.settled at h
  cases hpost : post n with
  | error failure =>
    rw [hpost] at h
    obtain rfl := Except.error.inj h
    exact ⟨_, rfl⟩
  | ok response =>
    rw [hpost] at h
    cases hstatus : disposition response.status with
    | proceed =>
      simp only [hstatus, OpenRouterDriver.proceed] at h
      rcases consume_eq w d.key d.host (SseStream.new response.arrivals).frames (.new d.model) with
        ⟨hok, -⟩ | ⟨⟨text, herror⟩, -⟩
      · rw [hok] at h
        cases h
      · rw [herror] at h
        obtain rfl := Except.error.inj h
        exact ⟨text, rfl⟩
    | retry =>
      simp only [hstatus] at h
      obtain rfl := Except.error.inj h
      exact ⟨_, rfl⟩
    | fail =>
      simp only [hstatus] at h
      obtain rfl := Except.error.inj h
      exact ⟨_, rfl⟩

/-- No error has the key in it, wherever the far end quotes it, if the key begins with a letter
that the mark for it lacks. -/
theorem key_redacted (d : OpenRouterDriver) (w : HostedWire) (post : Nat → Except TransportError Response)
    (wallMs : Nat) {c : Char} {rest : List Char} (hkey : d.key.toList = c :: rest) (hfirst : c ∉ redactedText.toList)
    (hmark : '<' ∉ d.key.toList) {e : ProviderError} (h : (d.callStreamingSplit w post wallMs).1.result = .error e) :
    ¬d.key.toList <:+: e.detail.toList := by
  obtain ⟨text, htext⟩ := error_redacted d w post wallMs h
  have hne : ¬d.key = "" := by
    intro hempty
    rw [hempty] at hkey
    cases hkey
  rw [htext, redact, if_neg hne, String.toList_ofList]
  refine Text.not_infix_replace (by decide) hkey hfirst fun r hr => ?_
  obtain rfl : '<' = r := Option.some.inj hr
  exact hmark

theorem key_redacted_quoted :
    let d : OpenRouterDriver := ⟨"sk-or-v1-7", "m", "openrouter.ai", none, []⟩
    let w : HostedWire := ⟨fun _ => none, id, fun _ => none⟩
    let quoting : Except TransportError Response := .error (.refused "no such key: sk-or-v1-7")
    let detail := redact d.key "no such key: sk-or-v1-7"
    (d.callStreamingSplit w (fun _ => quoting) 0).1.result = .error ⟨detail, false⟩ ∧
      ¬d.key.toList <:+: detail.toList := by
  intro d w quoting detail
  have hresult : (d.callStreamingSplit w (fun _ => quoting) 0).1.result = .error ⟨detail, false⟩ := by
    unfold OpenRouterDriver.callStreamingSplit
    rw [OpenRouterDriver.attemptFrom, dif_pos (by decide)]
    rfl
  have hkey : "sk-or-v1-7".toList = 's' :: "k-or-v1-7".toList := by decide
  have hclean := key_redacted d w (fun _ => quoting) 0 hkey (by decide) (by decide) hresult
  exact ⟨hresult, hclean⟩

/-! ## A key that is cut -/

theorem lossy_ascii {cs : List Char} (h : ∀ c ∈ cs, Utf8.isAscii c = true) :
    Extract.Zip.fromUtf8Lossy (cs.map Utf8.byteOf) = String.ofList cs := by
  unfold Extract.Zip.fromUtf8Lossy
  congr 1
  rw [List.length_map]
  induction cs with
  | nil => rfl
  | cons c cs ih =>
    obtain ⟨hc, hcs⟩ := List.forall_mem_cons.mp h
    have hlow : (Utf8.byteOf c) < 0x80 := Utf8.byteOf_lt hc
    have hsmall := of_decide_eq_true hc
    have hback : Char.ofNat (Utf8.byteOf c).toNat = c := by
      rw [Utf8.byteOf, UInt8.toNat_ofNat', Nat.mod_eq_of_lt (by omega), Char.ofNat_toNat]
    have hnext (rest : List UInt8) : Extract.Zip.nextChar (Utf8.byteOf c) rest = (1, c) := by
      unfold Extract.Zip.nextChar
      rw [if_pos hlow, hback]
    rw [List.map_cons, List.length_cons, Extract.Zip.lossyChars, hnext]
    exact congrArg (c :: ·) (ih hcs)

/-- An error body that quotes the key where the reading of it stops. -/
def cutting (key : List Char) : Except TransportError Response :=
  .ok ⟨429, none, (List.replicate (2001 - key.length) ' ' ++ key).map Utf8.byteOf, none⟩

/-- The body of an error is cut before the key is looked for: there is an answer for which all of
the key but its last letter is in the error. -/
theorem key_cut (d : OpenRouterDriver) (w : HostedWire) (wallMs : Nat)
    (hascii : ∀ c ∈ d.key.toList, Utf8.isAscii c = true) (hlong : 2 ≤ d.key.toList.length)
    (hshort : d.key.toList.length ≤ 2000) (hblank : ' ' ∉ d.key.toList)
    (hsentence : ¬d.key.toList <:+: (d.host ++ " returned HTTP 429 (attempt 4 of 4): ").toList) :
    ∃ e, (d.callStreamingSplit w (fun _ => cutting d.key.toList) wallMs).1.result = .error e ∧
      d.key.toList.dropLast <:+: e.detail.toList := by
  have hne : d.key.toList ≠ [] := List.ne_nil_of_length_pos (by omega)
  obtain ⟨n, -, -, -, hend, heq⟩ :=
    attemptFrom_spec d w (fun _ => cutting d.key.toList) wallMs (by decide : 0 < maxAttempts) none []
  obtain rfl : n = 4 := hend rfl
  have hbody : ((List.replicate (2001 - d.key.toList.length) ' ' ++ d.key.toList).map Utf8.byteOf).take 2000 =
      (List.replicate (2001 - d.key.toList.length) ' ' ++ d.key.toList.dropLast).map Utf8.byteOf := by
    rw [← List.map_take, List.take_append, List.length_replicate, List.take_of_length_le (by simp; omega), List.dropLast_eq_take]
    congr 3
    omega
  have hread : Response.readCapped ⟨429, none, (List.replicate (2001 - d.key.toList.length) ' ' ++ d.key.toList).map Utf8.byteOf, none⟩ 2000 =
      String.ofList (List.replicate (2001 - d.key.toList.length) ' ' ++ d.key.toList.dropLast) := by
    rw [Response.readCapped]
    dsimp only
    rw [hbody]
    refine lossy_ascii fun c hc => ?_
    rcases List.mem_append.mp hc with hpad | hkey
    · rw [(List.mem_replicate.mp hpad).2]
      rfl
    · exact hascii c (List.dropLast_subset _ hkey)
  -- The sentence, the blanks and the cut key do not have the key in them, so that nothing is replaced.
  have hclean : ¬d.key.toList <:+: (d.host ++ " returned HTTP 429 (attempt 4 of 4): " ++
      String.ofList (List.replicate (2001 - d.key.toList.length) ' ' ++ d.key.toList.dropLast)).toList := by
    intro hinfix
    have hcount : 2001 - d.key.toList.length = 2000 - d.key.toList.length + 1 := by omega
    rw [String.toList_append, String.toList_ofList, hcount, List.replicate_succ', List.append_assoc, ← List.append_assoc] at hinfix
    rcases infix_apart hblank hinfix with hpadded | hcut
    · exact hsentence (infix_padded hne hblank _ hpadded)
    · have hle : d.key.toList.length ≤ d.key.toList.dropLast.length := hcut.length_le
      rw [List.length_dropLast] at hle
      omega
  have hkey : ¬d.key = "" := fun hempty => hne (by rw [hempty]; rfl)
  have hquoted : (d.callStreamingSplit w (fun _ => cutting d.key.toList) wallMs).1.result =
      .error (providerError d.key (d.host ++ " returned HTTP 429 (attempt 4 of 4): " ++
        String.ofList (List.replicate (2001 - d.key.toList.length) ' ' ++ d.key.toList.dropLast)) true) := by
    unfold OpenRouterDriver.callStreamingSplit
    dsimp only
    have htexts : " returned HTTP " ++ (toString 429 ++ (" (attempt " ++ (toString 4 ++ (" of " ++ (toString maxAttempts ++ "): "))))) =
        " returned HTTP 429 (attempt 4 of 4): " := by decide
    rw [heq, ← hread, ← htexts]
    unfold cutting OpenRouterDriver.settled
    simp only [show disposition 429 = .retry from rfl, String.append_assoc]
  refine ⟨_, hquoted, ?_⟩
  unfold providerError redact
  rw [if_neg hkey, Text.replace_of_not_infix hclean, String.ofList_toList, String.toList_append, String.toList_ofList]
  exact ((List.suffix_append _ _).trans (List.suffix_append _ _)).isInfix

theorem key_cut_served :
    let d : OpenRouterDriver := ⟨"sk-or-v1-7", "m", "openrouter.ai", none, []⟩
    let w : HostedWire := ⟨fun _ => none, id, fun _ => none⟩
    ∃ e, (d.callStreamingSplit w (fun _ => cutting d.key.toList) 0).1.result = .error e ∧
      d.key.toList.dropLast <:+: e.detail.toList := by
  intro d w
  exact key_cut d w 0 (List.all_eq_true.mp (by decide)) (by decide) (by decide) (by decide) (by decide)

end MarloweAgent.Provider
