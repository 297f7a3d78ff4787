import MarloweAgent.Mcp.Containment
import MarloweAgent.Mcp.Fleet

/-! Whose reply a request takes. The client reads until a message bears the id of the
request and looks at nothing else of it, so that a request of the server's own with
that id is taken for the reply. -/

namespace MarloweAgent.Mcp
open Contract Library

/-! ## A client in use -/

/-- What is asked of a client: a request, or a message nobody answers. -/
inductive Operation
  | request (method : String) (params : Json)
  | notify (method : String) (params : Json)

/-- One request: the client it was made on, what it returned, and the client it left. -/
structure Exchange where
  before : McpClient
  method : String
  answer : Except McpError Json
  after : McpClient

/-- The id its message bears. -/
def Exchange.id (e : Exchange) : Int := e.before.nextId

/-- The requests of a client in use. -/
def exchanges (parse : String → Option Json) : McpClient → List Operation → List Exchange
  | _, [] => []
  | client, .request method params :: rest =>
    let (answer, after) := (request parse method params).run client
    ⟨client, method, answer, after⟩ :: exchanges parse after rest
  | client, .notify method params :: rest =>
    exchanges parse ((notify method params).run client).2 rest

/-- A JSON-RPC response has no method, and a result or an error. -/
def Json.isResponse (value : Json) : Bool :=
  (value.get? "method").isNone && ((value.get? "result").isSome || (value.get? "error").isSome)

section Replies

variable {parse : String → Option Json}

/-- The last line the request read. -/
def Exchange.TookLine (e : Exchange) (line : List UInt8) : Prop :=
  ∃ skipped rest, cutLines e.before.pipe.stdout = skipped ++ line :: rest ∧
    e.after.pipe.stdout = rest.flatten

/-- It returned the result or the error of a response to this very request. -/
def Exchange.Replied (parse : String → Option Json) (e : Exchange) : Prop :=
  ∃ line value, e.TookLine line ∧ Answers parse e.id line value ∧ value.isResponse = true ∧
    e.answer = replyResult e.before.id e.method value

/-- Nothing the server wrote is in what a request returned, but to its own reply. -/
def Exchange.OwnReply (parse : String → Option Json) (e : Exchange) : Prop :=
  e.Replied parse ∨ ∃ failure, e.answer = .error failure ∧ Unanswered e.before.id e.method failure

/-- What comes first under the request's id, and in time, is a response. -/
def Exchange.Clear (parse : String → Option Json) (e : Exchange) : Prop :=
  ∀ value, FirstReply parse e.id e.before.pipe value → value.isResponse = true

/-! ## The line a request takes -/

theorem cutLines_ne_nil (bytes : List UInt8) : ∀ line ∈ cutLines bytes, line ≠ [] := by
  fun_induction cutLines bytes with
  | case1 =>
    intro line h
    cases h
  | case2 rest ih =>
    intro line h
    rcases List.mem_cons.mp h with rfl | h
    · exact List.cons_ne_nil _ _
    · exact ih line h
  | case3 b rest hb hnil ih =>
    intro line h
    rw [List.mem_singleton.mp h]
    exact List.cons_ne_nil _ _
  | case4 b rest hb line more heq ih =>
    intro l h
    rcases List.mem_cons.mp h with rfl | h
    · exact List.cons_ne_nil _ _
    · exact ih l (by rw [heq]; exact List.mem_cons_of_mem _ h)

/-- What is left of a list of lines tells where it was left, when no line is empty. -/
theorem suffix_eq_of_flatten {α : Type} {lines left left' : List (List α)}
    (hne : ∀ line ∈ lines, line ≠ []) (h : left <:+ lines) (h' : left' <:+ lines)
    (heq : left.flatten = left'.flatten) : left = left' := by
  have hshort : ∀ {a b : List (List α)}, b <:+ lines → a <:+ b → a.flatten = b.flatten → a = b := by
    intro a b hb hab hflat
    obtain ⟨front, rfl⟩ := hab
    have hnil : front.flatten = [] := by simpa using hflat
    cases front with
    | nil => rfl
    | cons line front =>
      have hline : line = [] := List.flatten_eq_nil_iff.mp hnil line List.mem_cons_self
      exact absurd hline (hne line (hb.subset (by simp)))
  rcases List.suffix_or_suffix_of_suffix h h' with hs | hs
  · exact hshort h' hs heq
  · exact (hshort h hs heq.symm).symm

theorem Exchange.TookLine.unique {e : Exchange} {line line' : List UInt8} (h : e.TookLine line)
    (h' : e.TookLine line') : line = line' := by
  obtain ⟨skipped, rest, hcut, hleft⟩ := h
  obtain ⟨skipped', rest', hcut', hleft'⟩ := h'
  have hrest : rest = rest' := by
    refine suffix_eq_of_flatten (cutLines_ne_nil e.before.pipe.stdout) ?_ ?_ (hleft.symm.trans hleft')
    · exact ⟨skipped ++ [line], by rw [hcut]; simp⟩
    · exact ⟨skipped' ++ [line'], by rw [hcut']; simp⟩
  subst hrest
  have hboth := hcut.symm.trans hcut'
  rw [List.append_cons, List.append_cons skipped', List.append_cancel_right_eq] at hboth
  exact List.singleton_inj.mp (List.append_inj' hboth rfl).2

theorem Answers.unique {id : Int} {line : List UInt8} {value value' : Json}
    (h : Answers parse id line value) (h' : Answers parse id line value') : value = value' := by
  obtain ⟨text, htext, hparse, -⟩ := h
  obtain ⟨text', htext', hparse', -⟩ := h'
  obtain rfl := Option.some.inj (htext.symm.trans htext')
  exact Option.some.inj (hparse.symm.trans hparse')

/-- A reply in time is the last line that was read. -/
theorem awaitReply_left {server method : String} {id : Int} (ending : Option IoError)
    {lines : List (List UInt8)} {deadlines : List Bool} {value : Json}
    (h : ReplyIn parse id lines deadlines value) :
    ∃ skipped line rest, lines = skipped ++ line :: rest ∧ Answers parse id line value ∧
      (awaitReply parse server method id ending lines deadlines).2.lines = rest := by
  induction lines generalizing deadlines with
  | nil =>
    obtain ⟨before, line, after, heq, -⟩ := h
    cases before <;> cases heq
  | cons line rest ih =>
    obtain ⟨hhead, hcase⟩ := replyIn_cons.mp h
    simp only [awaitReply, hhead, Bool.false_eq_true, if_false]
    rcases hcase with hans | ⟨⟨text, htext, hskip⟩, hrest⟩
    · refine ⟨[], line, rest, rfl, hans, ?_⟩
      obtain ⟨text, htext, hparse, hid⟩ := hans
      simp only [htext, hparse, hid, ne_eq, not_true_eq_false, if_false]
      cases value.get? "error" <;> rfl
    · obtain ⟨skipped, l, left, rfl, hans, hleft⟩ := ih hrest
      refine ⟨line :: skipped, l, left, rfl, hans, ?_⟩
      simp only [htext]
      cases hparse : parse (Text.trim text) with
      | none => exact hleft
      | some other =>
        simp only [ne_eq, hskip other hparse, not_false_eq_true, if_true]
        exact hleft

end Replies

/-! ## One request -/

section Requests

variable (parse : String → Option Json) (method : String) (params : Json) (client : McpClient)

/-- A request uses up its id, and the reply is the first line in time that bears it. -/
theorem request_run :
    (request parse method params).run client =
      match client.pipe.writes.head?.join with
      | some e =>
        (.error (.protocol client.id ("writing to the server failed: " ++ e.text)),
          { client with
            nextId := client.nextId + 1
            pipe := { client.pipe with writes := client.pipe.writes.tail } })
      | none =>
        let (reply, left) := awaitReply parse client.id method client.nextId client.pipe.ending
          (cutLines client.pipe.stdout) client.pipe.deadlines
        (reply,
          { client with
            nextId := client.nextId + 1
            sent := client.sent ++ [requestMessage client.nextId method params]
            pipe :=
              { client.pipe with
                writes := client.pipe.writes.tail
                stdout := left.lines.flatten
                deadlines := left.deadlines } }) := by
  simp only [request, send, Stateful.run_bind, Stateful.run_read, Stateful.run_update]
  cases client.pipe.writes.head?.join <;> rfl

theorem request_nextId :
    ((request parse method params).run client).2.nextId = client.nextId + 1 := by
  rw [request_run]
  cases client.pipe.writes.head?.join <;> rfl

theorem request_id : ((request parse method params).run client).2.id = client.id := by
  rw [request_run]
  cases client.pipe.writes.head?.join <;> rfl

theorem notify_nextId : ((notify method params).run client).2.nextId = client.nextId := by
  simp only [notify, send]
  cases client.pipe.writes.head?.join <;> rfl

/-- The exchange a request is. -/
def exchangeOf : Exchange :=
  let (answer, after) := (request parse method params).run client
  ⟨client, method, answer, after⟩

/-- What a reply makes of a request is no account of the harness's own. -/
theorem replyResult_ne_unanswered {server method : String} {value : Json} {failure : McpError}
    (h : Unanswered server method failure) : replyResult server method value ≠ .error failure := by
  intro heq
  rw [replyResult] at heq
  cases h <;> cases hvalue : value.get? "error" <;> rw [hvalue] at heq <;> cases heq

/-- **A request returns its own reply exactly where a response comes first under its id.** -/
theorem exchangeOf_own_iff :
    (exchangeOf parse method params client).OwnReply parse ↔
      (exchangeOf parse method params client).Clear parse := by
  have hrun := request_run parse method params client
  cases hwrite : client.pipe.writes.head?.join with
  | some e =>
    rw [hwrite] at hrun
    refine ⟨fun _ value hfirst => ?_, fun _ => .inr ⟨_, ?_, .writing e⟩⟩
    · have hnone := hfirst.1
      rw [show (exchangeOf parse method params client).before = client from rfl, hwrite] at hnone
      cases hnone
    · exact congrArg Prod.fst hrun
  | none =>
    rw [hwrite] at hrun
    have hanswer : (exchangeOf parse method params client).answer =
        (awaitReply parse client.id method client.nextId client.pipe.ending
          (cutLines client.pipe.stdout) client.pipe.deadlines).1 := congrArg Prod.fst hrun
    have hafter : (exchangeOf parse method params client).after.pipe.stdout =
        (awaitReply parse client.id method client.nextId client.pipe.ending
          (cutLines client.pipe.stdout) client.pipe.deadlines).2.lines.flatten :=
      congrArg (fun r => r.2.pipe.stdout) hrun
    -- The line a first reply is on is the last line read, so two first replies are one.
    have htook : ∀ {value}, FirstReply parse client.nextId client.pipe value →
        ∃ line, (exchangeOf parse method params client).TookLine line ∧
          Answers parse client.nextId line value := by
      intro value hfirst
      obtain ⟨skipped, line, rest, hcut, hans, hleft⟩ := @awaitReply_left parse client.id
        method _ client.pipe.ending _ _ _ hfirst.2
      exact ⟨line, ⟨skipped, rest, hcut, by rw [hafter, hleft]⟩, hans⟩
    by_cases hany : ∃ value, ReplyIn parse client.nextId (cutLines client.pipe.stdout)
        client.pipe.deadlines value
    · obtain ⟨value, hvalue⟩ := hany
      have hfirst : FirstReply parse client.nextId client.pipe value := ⟨hwrite, hvalue⟩
      obtain ⟨line, htaken, hans⟩ := htook hfirst
      rw [awaitReply_of_replyIn client.pipe.ending hvalue] at hanswer
      constructor
      · rintro (⟨line', value', htaken', hans', hresponse, -⟩ | ⟨failure, hfailure, haccount⟩)
        · intro other hother
          obtain ⟨line'', htaken'', hans''⟩ := htook hother
          obtain rfl := htaken'.unique htaken''
          rwa [hans''.unique hans']
        · exact absurd (hanswer.symm.trans hfailure) (replyResult_ne_unanswered haccount)
      · intro hclear
        exact .inl ⟨line, value, htaken, hans, hclear value hfirst, hanswer⟩
    · have hno : ∀ value, ¬ ReplyIn parse client.nextId (cutLines client.pipe.stdout)
          client.pipe.deadlines value := fun value h => hany ⟨value, h⟩
      obtain ⟨failure, hfailure, haccount⟩ :=
        awaitReply_unanswered client.id method client.pipe.ending hno
      exact ⟨fun _ value hfirst => absurd hfirst.2 (hno value),
        fun _ => .inr ⟨failure, hanswer.trans hfailure, haccount⟩⟩

end Requests

/-! ## A client in use, over a whole run -/

/-- Every request returned its own reply, and no two bore one id. -/
def EachItsOwn (parse : String → Option Json) (client : McpClient) (run : List Operation) : Prop :=
  (∀ e ∈ exchanges parse client run, e.OwnReply parse) ∧
    (exchanges parse client run).Pairwise fun a b => a.id ≠ b.id

theorem exchanges_request (parse : String → Option Json) (client : McpClient) (method : String)
    (params : Json) (rest : List Operation) :
    exchanges parse client (.request method params :: rest) =
      exchangeOf parse method params client ::
        exchanges parse (exchangeOf parse method params client).after rest := rfl

theorem mem_exchanges {parse : String → Option Json} {client : McpClient} {run : List Operation}
    {e : Exchange} (h : e ∈ exchanges parse client run) :
    client.nextId ≤ e.id ∧ ∃ params, e = exchangeOf parse e.method params e.before := by
  induction run generalizing client with
  | nil => cases h
  | cons operation rest ih =>
    cases operation with
    | notify method params =>
      have hkept := ih h
      rwa [notify_nextId] at hkept
    | request method params =>
      rw [exchanges_request] at h
      rcases List.mem_cons.mp h with rfl | h
      · exact ⟨le_refl _, params, rfl⟩
      · obtain ⟨hle, hexchange⟩ := ih h
        have hnext : (exchangeOf parse method params client).after.nextId = client.nextId + 1 :=
          request_nextId parse method params client
        exact ⟨by omega, hexchange⟩

/-- Ids only go up. -/
theorem exchanges_ids (parse : String → Option Json) (client : McpClient) (run : List Operation) :
    (exchanges parse client run).Pairwise fun a b => a.id < b.id := by
  induction run generalizing client with
  | nil => exact .nil
  | cons operation rest ih =>
    cases operation with
    | notify method params => exact ih _
    | request method params =>
      rw [exchanges_request]
      refine List.pairwise_cons.mpr ⟨fun e he => ?_, ih _⟩
      have hnext : (exchangeOf parse method params client).after.nextId = client.nextId + 1 :=
        request_nextId parse method params client
      have hle := (mem_exchanges he).1
      show client.nextId < e.id
      omega

/-- **When every call of a client gets its own reply.** -/
theorem each_its_own_iff (parse : String → Option Json) (client : McpClient)
    (run : List Operation) :
    EachItsOwn parse client run ↔ ∀ e ∈ exchanges parse client run, e.Clear parse := by
  have hone : ∀ e ∈ exchanges parse client run, e.OwnReply parse ↔ e.Clear parse := by
    intro e he
    obtain ⟨-, params, heq⟩ := mem_exchanges he
    rw [heq]
    exact exchangeOf_own_iff parse e.method params e.before
  constructor
  · rintro ⟨hown, -⟩ e he
    exact (hone e he).mp (hown e he)
  · intro hclear
    exact ⟨fun e he => (hone e he).mpr (hclear e he),
      (exchanges_ids parse client run).imp fun h => ne_of_lt h⟩

/-! ## A server that asks -/

/-- A request of the server's own, the first it makes. -/
def pingLine : String := "\x7b\"id\":1,\"method\":\"ping\"\x7d"

def parsePing (text : String) : Option Json :=
  if text = pingLine then some (.object [("id", .integer 1), ("method", .string "ping")]) else none

/-- A client on a server that asks before it answers. -/
def pinged : McpClient := ⟨"a", ⟨(pingLine ++ "\n").toByteArray.data.toList, none, [], []⟩, 1, []⟩

/-- The ping is taken for the reply to the first request. -/
theorem ping_taken :
    ¬ ∀ (parse : String → Option Json) (client : McpClient) (run : List Operation),
      EachItsOwn parse client run := by
  intro hall
  have hown := (hall parsePing pinged [.request "initialize" .null]).1 _ List.mem_cons_self
  have hclear := (exchangeOf_own_iff parsePing "initialize" .null pinged).mp hown
  have hanswers : Answers parsePing 1 (cutLines pinged.pipe.stdout).head!
      (.object [("id", .integer 1), ("method", .string "ping")]) :=
    ⟨pingLine ++ "\n", by decide, if_pos (by decide), rfl⟩
  have hfirst : FirstReply parsePing 1 pinged.pipe
      (.object [("id", .integer 1), ("method", .string "ping")]) :=
    ⟨rfl, [], _, [], by decide, by simp, hanswers, by simp [pinged]⟩
  have hresponse := hclear _ hfirst
  cases hresponse

end MarloweAgent.Mcp
