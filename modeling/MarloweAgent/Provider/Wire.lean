import MarloweAgent.Library.Replies
import MarloweAgent.Provider.ParseStep

/-! The `messages` of a request in the OpenAI dialect, built from a context view. The stable
and context tiers are one system message, the conversation follows block by block, and injected
memory comes last, as the result of a `recall` that an assistant turn announces. A tool message
whose call no earlier assistant message announces is demoted to a user message. -/

namespace MarloweAgent.Provider
open Contract Library Permission Loop
open Library.Replies (Turn)
open Mcp (Json)

inductive Role
  | system
  | user
  | assistant
  | tool
  deriving DecidableEq, Repr

/-- An entry of `tool_calls`, of type `function`. -/
structure CallEntry where
  id : String
  name : String
  arguments : String
  deriving DecidableEq, Repr

/-- A message. Without calls it has no `tool_calls`. -/
structure Message where
  role : Role
  content : Option String
  toolCalls : List CallEntry := []
  toolCallId : Option String := none
  toolName : Option String := none
  deriving DecidableEq, Repr

def demotedRole : Role := .user

/-- `Args::to_json`. -/
def argsJson (args : Args) : Json :=
  .object (args.entries.map fun (name, value) =>
    (name, match value with
      | .integer n => .integer n
      | .boolean b => .bool b
      | .amount a => .integer a
      | .text s => .string s))

def callEntry (call : WireToolCall) : CallEntry :=
  { id := call.id, name := call.name, arguments := renderJson (argsJson call.arguments) }

/-- A tool message keeps its role when its call has been announced. -/
def relink (announced : List String) (msg : Message) : Message :=
  if msg.toolCallId.any (· ∈ announced) then msg
  else { msg with role := demotedRole, toolCallId := none, toolName := none }

/-- `unorphan_tool_messages`, with the calls announced so far. -/
def unorphanFrom (announced : List String) : List Message → List Message
  | [] => []
  | msg :: rest =>
    if msg.role = .tool then relink announced msg :: unorphanFrom announced rest
    else if msg.role = .assistant then
      msg :: unorphanFrom (announced ++ msg.toolCalls.map CallEntry.id) rest
    else msg :: unorphanFrom announced rest

def unorphanToolMessages (messages : List Message) : List Message := unorphanFrom [] messages

/-- The role of a block of the conversation. Injected memory has none: it goes to the tail. -/
def blockRole (block : Block) : Option Role :=
  match block.source with
  | .toolResults | .childResults => some .tool
  | .brief => some .user
  | .history => if block.trust = .agentInferred then some .assistant else some .user
  | .injectedMemory => none
  | _ => some .user

def blockMessage (block : Block) : Option Message :=
  (blockRole block).map fun role =>
    { role
      content := some block.text
      toolCalls := (block.wire.elim [] WireTurn.toolCalls).map callEntry
      toolCallId := block.wire.bind WireTurn.toolCallId }

def isBlank (text : String) : Bool := Text.isEmpty (Text.trim text)

def joined (texts : List String) : String := "\n\n".intercalate texts

/-- The texts of the one system message. -/
def systemTexts (view : ContextView) : List String :=
  ((view.stable ++ view.context).map Block.text).filter (! isBlank ·)

/-- The texts of the injected memory. -/
def recalledTexts (view : ContextView) : List String :=
  ((view.volatile.filter (·.source = .injectedMemory)).map Block.text).filter (! isBlank ·)

def recallId : String := "recall_injected_memory"

def systemMessage (view : ContextView) : List Message :=
  if systemTexts view = [] then []
  else [{ role := .system, content := some (joined (systemTexts view)) }]

def recallMessages (view : ContextView) : List Message :=
  if recalledTexts view = [] then []
  else
    [{ role := .assistant
       content := none
       toolCalls := [{ id := recallId, name := "recall", arguments := "\x7b\x7d" }] },
      { role := .tool, content := some (joined (recalledTexts view)), toolCallId := some recallId }]

def openaiMessages (view : ContextView) : List Message :=
  unorphanToolMessages
    (systemMessage view ++ view.volatile.filterMap blockMessage ++ recallMessages view)

/-! ## What a strict endpoint accepts -/

/-- What a message is to the pairing of calls and results. -/
def Message.turn (msg : Message) : Turn String :=
  match msg.role with
  | .assistant => .calls (msg.toolCalls.map CallEntry.id)
  | .tool => .reply msg.toolCallId
  | _ => .other

/-- The contents of messages, each joined from its parts; a message without parts has none. -/
def contentOfParts : List String → Option String
  | [] => none
  | parts => some (joined parts)

/-- One system message at most, and first; every tool message to one earlier call; every call
answered by one later tool message; and every text that is not blank in one place. -/
structure WellFormed (view : ContextView) (messages : List Message) : Prop where
  one_system : ∀ msg ∈ messages.tail, msg.role ≠ .system
  answers_one : Replies.AnswersOne (messages.map Message.turn)
  answered_once : Replies.AnsweredOnce (messages.map Message.turn)
  texts : ∃ parts : List (List String), messages.map Message.content = parts.map contentOfParts ∧
    (parts.flatten.filter (! isBlank ·)).Perm ((view.blocks.map Block.text).filter (! isBlank ·))

/-- What a block of the conversation is to the pairing. -/
def blockTurn (block : Block) : Option (Turn String) :=
  (blockRole block).map fun
    | .assistant => .calls ((block.wire.elim [] WireTurn.toolCalls).map WireToolCall.id)
    | .tool => .reply block.callId
    | _ => .other

/-- The calls and the results of the conversation. -/
def turnsOf (view : ContextView) : List (Turn String) := view.volatile.filterMap blockTurn

/-- A view whose blocks are paired: no two calls have one id, none takes that of the recall
when there is one, and each has one result block after it. -/
structure Paired (view : ContextView) : Prop where
  distinct : (Replies.callsOf (turnsOf view)).Nodup
  reserved : recalledTexts view ≠ [] → recallId ∉ Replies.callsOf (turnsOf view)
  answered : Replies.AnsweredOnce (turnsOf view)

/-! ## Pairing -/

/-- Demoting a message demotes its turn. -/
theorem turn_unorphanFrom (announced : List String) (messages : List Message) :
    (unorphanFrom announced messages).map Message.turn =
      Replies.demote announced (messages.map Message.turn) := by
  induction messages generalizing announced with
  | nil => rfl
  | cons msg rest ih =>
    obtain ⟨role, content, toolCalls, toolCallId, toolName⟩ := msg
    cases role with
    | system => exact congrArg (Turn.other :: ·) (ih announced)
    | user => exact congrArg (Turn.other :: ·) (ih announced)
    | assistant => exact congrArg (_ :: ·) (ih _)
    | tool =>
      cases toolCallId with
      | none => exact congrArg (Turn.other :: ·) (ih announced)
      | some id =>
        by_cases hknown : id ∈ announced
        · simp [unorphanFrom, relink, Message.turn, Replies.demote, hknown, ih]
        · simp [unorphanFrom, relink, Message.turn, Replies.demote, hknown, ih, demotedRole]

theorem turn_blockMessage (block : Block) : (blockMessage block).map Message.turn = blockTurn block := by
  unfold blockMessage blockTurn
  cases blockRole block with
  | none => rfl
  | some role =>
    cases role with
    | assistant => simp [Message.turn, Function.comp_def, callEntry]
    | system => rfl
    | user => rfl
    | tool => rfl

theorem turns_blockMessages (blocks : List Block) :
    (blocks.filterMap blockMessage).map Message.turn = blocks.filterMap blockTurn := by
  rw [List.map_filterMap]
  exact List.filterMap_congr fun block _ => turn_blockMessage block

/-- The turns of the recall, when there is one. -/
def recallTurns (view : ContextView) : List (Turn String) :=
  if recalledTexts view = [] then [] else [.calls [recallId], .reply (some recallId)]

theorem turns_recallMessages (view : ContextView) :
    (recallMessages view).map Message.turn = recallTurns view := by
  unfold recallMessages recallTurns
  split <;> rfl

theorem turns_systemMessage (view : ContextView) :
    (systemMessage view).map Message.turn = [] ∨ (systemMessage view).map Message.turn = [.other] := by
  unfold systemMessage
  split
  · exact .inl rfl
  · exact .inr rfl

/-- The messages are paired exactly where the blocks are. -/
theorem paired_iff (view : ContextView) :
    Replies.AnswersOne ((openaiMessages view).map Message.turn) ∧
        Replies.AnsweredOnce ((openaiMessages view).map Message.turn) ↔ Paired view := by
  have hturns : (openaiMessages view).map Message.turn = Replies.demote []
      ((systemMessage view).map Message.turn ++ (turnsOf view ++ recallTurns view)) := by
    rw [openaiMessages, unorphanToolMessages, turn_unorphanFrom, List.append_assoc, List.map_append,
      List.map_append, turns_blockMessages, turns_recallMessages]
    rfl
  have hfront : ∀ turns : List (Turn String),
      ((Replies.callsOf ((systemMessage view).map Message.turn ++ turns)).Nodup ∧
        Replies.AnsweredOnce ((systemMessage view).map Message.turn ++ turns)) ↔
      (Replies.callsOf turns).Nodup ∧ Replies.AnsweredOnce turns := by
    intro turns
    rcases turns_systemMessage view with h | h <;> rw [h]
    · rfl
    · simp [Replies.answeredOnce_cons, Turn.called]
  rw [hturns, Replies.paired_demote_iff, hfront]
  unfold recallTurns
  split
  next hnone =>
    rw [List.append_nil]
    exact ⟨fun h => ⟨h.1, fun hsome => absurd hnone hsome, h.2⟩, fun h => ⟨h.distinct, h.answered⟩⟩
  next hsome =>
    have hcalls : Replies.callsOf (turnsOf view ++ [.calls [recallId], .reply (some recallId)]) =
        Replies.callsOf (turnsOf view) ++ [recallId] := by
      simp [Turn.called]
    rw [hcalls]
    constructor
    · rintro ⟨hnodup, honce⟩
      have hnew : recallId ∉ Replies.callsOf (turnsOf view) := fun hmem =>
        (List.nodup_append.mp hnodup).2.2 recallId hmem recallId (by simp) rfl
      exact ⟨hnodup.of_append_left, fun _ => hnew, (Replies.answeredOnce_append_exchange hnew).mp honce⟩
    · rintro ⟨hdistinct, hrecall, hanswered⟩
      have hnew := hrecall hsome
      refine ⟨List.nodup_append.mpr ⟨hdistinct, by simp, ?_⟩,
        (Replies.answeredOnce_append_exchange hnew).mpr hanswered⟩
      rintro id hmem other hother rfl
      exact hnew (List.mem_singleton.mp hother ▸ hmem)

/-! ## The system message and the texts -/

theorem role_unorphanFrom {announced : List String} {messages : List Message}
    (h : ∀ msg ∈ messages, msg.role ≠ .system) :
    ∀ msg ∈ unorphanFrom announced messages, msg.role ≠ .system := by
  induction messages generalizing announced with
  | nil => simp [unorphanFrom]
  | cons msg rest ih =>
    obtain ⟨hmsg, hrest⟩ := List.forall_mem_cons.mp h
    unfold unorphanFrom
    split
    next htool =>
      refine List.forall_mem_cons.mpr ⟨?_, ih hrest⟩
      unfold relink
      split
      · exact hmsg
      · simp [demotedRole]
    next =>
      split
      · exact List.forall_mem_cons.mpr ⟨hmsg, ih hrest⟩
      · exact List.forall_mem_cons.mpr ⟨hmsg, ih hrest⟩

/-- Demoting leaves the contents alone. -/
theorem content_unorphanFrom (announced : List String) (messages : List Message) :
    (unorphanFrom announced messages).map Message.content = messages.map Message.content := by
  induction messages generalizing announced with
  | nil => rfl
  | cons msg rest ih =>
    have hrelink : (relink announced msg).content = msg.content := by
      unfold relink
      split <;> rfl
    unfold unorphanFrom
    split
    next => simp [ih, hrelink]
    next => split <;> simp [ih]

theorem blockMessage_role {block : Block} {msg : Message} (h : blockMessage block = some msg) :
    msg.role ≠ .system := by
  obtain ⟨role, hrole, rfl⟩ := Option.map_eq_some_iff.mp h
  rintro rfl
  unfold blockRole at hrole
  split at hrole
  all_goals first | cases hrole | skip
  split at hrole <;> cases hrole

theorem system_first (view : ContextView) :
    ∀ msg ∈ (openaiMessages view).tail, msg.role ≠ .system := by
  have hrest : ∀ msg ∈ view.volatile.filterMap blockMessage ++ recallMessages view, msg.role ≠ .system := by
    intro msg hmsg
    rcases List.mem_append.mp hmsg with hmsg | hmsg
    · obtain ⟨block, -, hblock⟩ := List.mem_filterMap.mp hmsg
      exact blockMessage_role hblock
    · unfold recallMessages at hmsg
      split at hmsg
      · cases hmsg
      · rcases List.mem_cons.mp hmsg with rfl | hmsg
        · simp
        · obtain rfl := List.mem_singleton.mp hmsg
          simp
  unfold openaiMessages unorphanToolMessages systemMessage
  rw [List.append_assoc]
  split
  next => exact fun msg hmsg => role_unorphanFrom hrest msg (List.mem_of_mem_tail hmsg)
  next => exact role_unorphanFrom hrest

theorem blockMessage_content (block : Block) :
    (blockMessage block).map Message.content =
      if block.source = .injectedMemory then none else some (some block.text) := by
  unfold blockMessage
  have hrole : blockRole block = none ↔ block.source = .injectedMemory := by
    unfold blockRole
    split <;> simp_all
    split <;> simp
  by_cases hmemory : block.source = .injectedMemory
  · rw [if_pos hmemory, hrole.mpr hmemory]
    rfl
  · rw [if_neg hmemory]
    obtain ⟨role, hsome⟩ := Option.ne_none_iff_exists'.mp fun h => hmemory (hrole.mp h)
    rw [hsome]
    rfl

/-- Every text that is not blank has its place. -/
theorem texts_once (view : ContextView) :
    ∃ parts : List (List String), (openaiMessages view).map Message.content = parts.map contentOfParts ∧
      (parts.flatten.filter (! isBlank ·)).Perm ((view.blocks.map Block.text).filter (! isBlank ·)) := by
  let system : List (List String) := if systemTexts view = [] then [] else [systemTexts view]
  let said : List Block := view.volatile.filter (·.source ≠ .injectedMemory)
  let recalls : List (List String) := if recalledTexts view = [] then [] else [[], recalledTexts view]
  refine ⟨system ++ said.map (fun b => [b.text]) ++ recalls, ?_, ?_⟩
  · have hsystem : (systemMessage view).map Message.content = system.map contentOfParts := by
      simp only [systemMessage, system]
      split
      next => rfl
      next hsome =>
        obtain ⟨first, rest, hcons⟩ := List.exists_cons_of_ne_nil hsome
        rw [hcons]
        rfl
    have hsaid : (view.volatile.filterMap blockMessage).map Message.content =
        (said.map fun b => [b.text]).map contentOfParts := by
      rw [List.map_filterMap]
      simp only [blockMessage_content, said]
      induction view.volatile with
      | nil => rfl
      | cons block blocks ih =>
        by_cases hmemory : block.source = .injectedMemory
        · simpa [hmemory] using ih
        · simpa [hmemory, contentOfParts, joined] using ih
    have hrecall : (recallMessages view).map Message.content = recalls.map contentOfParts := by
      simp only [recallMessages, recalls]
      split
      next => rfl
      next hsome =>
        obtain ⟨first, rest, hcons⟩ := List.exists_cons_of_ne_nil hsome
        rw [hcons]
        rfl
    rw [openaiMessages, unorphanToolMessages, content_unorphanFrom]
    simp only [List.map_append, hsystem, hsaid, hrecall]
  · have hsystem : system.flatten = systemTexts view := by
      simp only [system]
      split
      next hnone => rw [hnone]; rfl
      next => simp
    have hsaid : (said.map fun b => [b.text]).flatten = said.map Block.text := by
      induction said with
      | nil => rfl
      | cons block blocks ih => simpa using ih
    have hrecall : recalls.flatten = recalledTexts view := by
      simp only [recalls]
      split
      next hnone => rw [hnone]; rfl
      next => simp
    -- Injected memory moves from its places in the conversation to the tail.
    have hmoved : (said ++ view.volatile.filter (·.source = .injectedMemory)).Perm view.volatile := by
      have hparts := List.filter_append_perm (fun b : Block => decide (b.source ≠ .injectedMemory)) view.volatile
      simpa [said] using hparts
    have htexts := (hmoved.map Block.text).filter (! isBlank ·)
    rw [List.flatten_append, List.flatten_append, hsystem, hsaid, hrecall, List.filter_append,
      List.filter_append, ContextView.blocks, List.map_append, List.filter_append, List.append_assoc]
    simp only [systemTexts, recalledTexts, List.filter_filter, Bool.and_self]
    rw [List.map_append, List.filter_append] at htexts
    exact htexts.append_left _

/-- The messages of a view are well formed exactly where its blocks are paired. -/
theorem wellFormed_iff (view : ContextView) : WellFormed view (openaiMessages view) ↔ Paired view := by
  rw [← paired_iff]
  exact ⟨fun h => ⟨h.answers_one, h.answered_once⟩,
    fun h => ⟨system_first view, h.1, h.2, texts_once view⟩⟩

/-- A tool turn: a call under an id, and its result. -/
def toolTurn (id text : String) : List Block :=
  [Block.assistantTurn "" none [{ id, name := "read", arguments := Args.empty }],
    Block.toolResultFor text "read" .untrustedContent none false id]

def conversation (blocks : List Block) : SessionState :=
  blocks.foldl SessionState.push (SessionState.new 1 "Marlowe.")

/-- A result the budget has no room for. -/
def overBudget : ContextView :=
  (Assembler.new 100 0).assemble
    (conversation (toolTurn "call_1" "The museum opens at nine in the morning and closes at five o'clock."))

/-- Two turns of one call each. -/
def twoTurns : ContextView :=
  (Assembler.new 1000 0).assemble (conversation (toolTurn "call_1" "Nine." ++ toolTurn "call_1" "Five."))

/-- A call whose result was left out has no answer, and calls of two turns share an id. -/
theorem messages_mispaired :
    (openaiMessages overBudget).map Message.turn = [.other, .other, .calls ["call_1"]] ∧
      (openaiMessages twoTurns).map Message.turn =
        [.other, .calls ["call_1"], .reply (some "call_1"), .calls ["call_1"], .reply (some "call_1")] ∧
      ¬WellFormed overBudget (openaiMessages overBudget) ∧
      ¬WellFormed twoTurns (openaiMessages twoTurns) := by
  have hover : (openaiMessages overBudget).map Message.turn = [.other, .other, .calls ["call_1"]] := by
    decide
  have htwo : (openaiMessages twoTurns).map Message.turn =
      [.other, .calls ["call_1"], .reply (some "call_1"), .calls ["call_1"], .reply (some "call_1")] := by
    decide
  refine ⟨hover, htwo, fun h => ?_, fun h => ?_⟩
  · have honce := h.answered_once [.other, .other] (.calls ["call_1"]) [] hover "call_1" (by decide)
    exact absurd honce (by decide)
  · have honce := h.answered_once [.other] (.calls ["call_1"])
      [.reply (some "call_1"), .calls ["call_1"], .reply (some "call_1")] htwo "call_1" (by decide)
    exact absurd honce (by decide)

end MarloweAgent.Provider
