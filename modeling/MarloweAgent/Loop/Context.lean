import MarloweAgent.Permission.Adjudicate

/-! Context assembly: blocks and their trust, the session state they are kept in,
the per-source budgets that trim a view, and the two operations that shorten the
state itself, masking old tool results and compaction. -/

namespace MarloweAgent.Loop
open Contract Library Permission

abbrev SessionId := Nat

/-- `context::Tier`. -/
inductive ContextTier
  | stable
  | context
  | volatile
  deriving DecidableEq, Repr

inductive SourceKind
  | identity
  | governance
  | projectFiles
  | skills
  | toolSchemas
  | history
  | toolResults
  | injectedMemory
  | childResults
  | brief
  | summary
  deriving DecidableEq, Repr

namespace SourceKind

/-- Declaration order, which is the derived `Ord`. -/
def rank : SourceKind → Nat
  | identity => 0
  | governance => 1
  | projectFiles => 2
  | skills => 3
  | toolSchemas => 4
  | history => 5
  | toolResults => 6
  | injectedMemory => 7
  | childResults => 8
  | brief => 9
  | summary => 10

theorem rank_injective : Function.Injective rank := by
  intro a b h
  cases a <;> cases b <;> first | rfl | cases h

instance : LinearOrder SourceKind := LinearOrder.lift' rank rank_injective

def debug : SourceKind → String
  | identity => "Identity"
  | governance => "Governance"
  | projectFiles => "ProjectFiles"
  | skills => "Skills"
  | toolSchemas => "ToolSchemas"
  | history => "History"
  | toolResults => "ToolResults"
  | injectedMemory => "InjectedMemory"
  | childResults => "ChildResults"
  | brief => "Brief"
  | summary => "Summary"

def tier : SourceKind → ContextTier
  | identity | governance => .stable
  | projectFiles | skills | toolSchemas => .context
  | history | toolResults | injectedMemory | childResults | brief | summary => .volatile

def trimmable : SourceKind → Bool
  | identity | governance | history | brief | summary => false
  | projectFiles | skills | toolSchemas | toolResults | injectedMemory | childResults => true

end SourceKind

/-- A third of the UTF-8 length, rounded up, as a `u32`. -/
def estimateTokens (text : String) : Nat := ((text.utf8ByteSize + 2) / 3) % 2 ^ 32

/-! ## Blocks -/

/-- One call of an assistant turn. The arguments are the ones `Args::to_json` renders. -/
structure WireToolCall where
  id : String
  name : String
  arguments : Args

structure WireTurn where
  thinking : Option String := none
  toolCalls : List WireToolCall := []
  toolName : Option String := none
  toolCallId : Option String := none
  toolSummary : Option String := none
  toolFailed : Bool := false

structure Block where
  source : SourceKind
  text : String
  trust : TrustClass
  tokens : Nat
  wire : Option WireTurn

namespace Block

def new (source : SourceKind) (text : String) (trust : TrustClass) : Block :=
  { source, text, trust, tokens := estimateTokens text, wire := none }

def assistantTurn (text : String) (thinking : Option String) (toolCalls : List WireToolCall) : Block :=
  { new .history text .agentInferred with wire := some { thinking, toolCalls } }

def toolResult (text tool : String) (trust : TrustClass) (summary : Option String) (failed : Bool) :
    Block :=
  { new .toolResults text trust with
    wire := some { toolName := some tool, toolSummary := summary, toolFailed := failed } }

def toolResultFor (text tool : String) (trust : TrustClass) (summary : Option String)
    (failed : Bool) (callId : String) : Block :=
  let b := toolResult text tool trust summary failed
  { b with wire := b.wire.map fun w => { w with toolCallId := some callId } }

def toolResultBlockedId (text tool : String) (trust : TrustClass) (callId : String) : Block :=
  let b := toolResult text tool trust (some "blocked") true
  { b with wire := b.wire.map fun w => { w with toolCallId := some callId } }

/-- The call a result block answers. -/
def callId (b : Block) : Option String := b.wire.bind WireTurn.toolCallId

/-- A turn the user took: the one kind of block compaction keeps. -/
def isUserTurn (b : Block) : Bool := b.source = .history && b.trust = .userAsserted

end Block

/-! ## The session state -/

structure GovernanceConstraint where
  text : String
  deriving DecidableEq, Repr

structure SessionState where
  session : SessionId
  identity : String
  governance : List GovernanceConstraint := []
  contextBlocks : List Block := []
  volatile : List Block := []
  lineage : Nat := 0
  compactions : Nat := 0

namespace SessionState

def new (session : SessionId) (identity : String) : SessionState := { session, identity }

def assertGovernance (state : SessionState) (c : GovernanceConstraint) : SessionState :=
  { state with governance := state.governance ++ [c] }

/-- Append a block to its tier. A stable block is `unreachable!`: nothing is pushed. -/
def push (state : SessionState) (block : Block) : SessionState :=
  match block.source.tier with
  | .stable => state
  | .context => { state with contextBlocks := state.contextBlocks ++ [block] }
  | .volatile => { state with volatile := state.volatile ++ [block] }

/-- The two blocks of the stable tier, which every view rebuilds. -/
def stableBlocks (state : SessionState) : List Block :=
  Block.new .identity state.identity .agentObserved ::
    state.governance.map fun c => Block.new .governance c.text .userAsserted

/-- Every block a view of this state is assembled from. -/
def sources (state : SessionState) : List Block :=
  state.stableBlocks ++ state.contextBlocks ++ state.volatile

end SessionState

/-! ## Views -/

/-- `fill_pct`: an `f32` quotient, kept as the pair it is the quotient of. -/
structure FillPct where
  used : Nat
  window : Nat
  deriving DecidableEq, Repr

structure ContextView where
  stable : List Block
  context : List Block
  volatile : List Block
  perSourceTokens : OrderedMap String Nat
  reserveTokens : Nat
  fillPct : FillPct
  cacheEpoch : Nat

namespace ContextView

def blocks (view : ContextView) : List Block := view.stable ++ view.context ++ view.volatile

def trustFloor (view : ContextView) : TrustClass :=
  ((view.blocks.map Block.trust).min?).getD .agentInferred

end ContextView

def memoryTokenBudget : Nat := 7000

def summaryPreface : String :=
  "[The conversation so far, condensed by the harness " ++
  "because the context window filled. This is a record, not a turn anyone took. " ++
  "Anything after it is current.]"

def minTruncatedTokens : Nat := 24

/-- The share of the window each source may fill. -/
def sourceBudget (windowTokens : Nat) : SourceKind → Nat
  | .identity => windowTokens * 2 / 100
  | .governance => windowTokens * 3 / 100
  | .projectFiles => windowTokens * 15 / 100
  | .skills => windowTokens * 10 / 100
  | .toolSchemas => windowTokens * 5 / 100
  | .history => windowTokens * 30 / 100
  | .toolResults => windowTokens * 20 / 100
  | .injectedMemory => memoryTokenBudget
  | .childResults => windowTokens * 5 / 100
  | .brief => windowTokens * 10 / 100
  | .summary => windowTokens * 30 / 100

/-- Rendered prefixes, by the session and epoch they were rendered at. -/
structure PrefixCache where
  entries : OrderedMap SessionId (Nat × String)

def PrefixCache.invalidate (cache : PrefixCache) (session : SessionId) : PrefixCache :=
  ⟨cache.entries.erase session⟩

structure Assembler where
  windowTokens : Nat
  reserveTokens : Nat
  budgets : SourceKind → Nat
  cacheEpoch : Nat

namespace Assembler

def new (windowTokens reserveTokens : Nat) : Assembler :=
  { windowTokens, reserveTokens, budgets := sourceBudget windowTokens, cacheEpoch := 1 }

def effectiveWindow (assembler : Assembler) : Nat := assembler.windowTokens - assembler.reserveTokens

/-! ### Trimming -/

structure Trimming where
  kept : List Block
  spent : SourceKind → Nat
  omitted : OrderedMap SourceKind (Nat × TrustClass)

/-- The text before the last character that starts at or below `limit` bytes. -/
def cutAt (text : String) (limit : Nat) : String :=
  let starts := (text.toList.foldl (fun (acc : List Nat × Nat) c =>
    (acc.1 ++ [acc.2], acc.2 + c.utf8Size)) ([], 0)).1
  String.ofList (text.toList.take ((starts.takeWhile (· ≤ limit)).length - 1))

/-- One block of the newest-first walk: kept whole, cut to the room left, or
counted as omitted under the lowest class it drops. -/
def trimStep (budgets : SourceKind → Nat) (acc : Trimming) (b : Block) : Trimming :=
  let spend (n : Nat) := fun k => if k = b.source then acc.spent k + n else acc.spent k
  if !b.source.trimmable then
    { acc with kept := acc.kept ++ [b], spent := spend b.tokens }
  else
    let room := budgets b.source - acc.spent b.source
    if b.tokens ≤ room then
      { acc with kept := acc.kept ++ [b], spent := spend b.tokens }
    else if minTruncatedTokens ≤ room then
      let cut := cutAt b.text ((room - minTruncatedTokens) * 3)
      let truncated := Block.new b.source (cut ++ "… [truncated at the per-source budget]") b.trust
      { acc with kept := acc.kept ++ [truncated], spent := spend truncated.tokens }
    else
      let e := (acc.omitted.get? b.source).getD (0, .userAsserted)
      { acc with omitted := acc.omitted.insert b.source (e.1 + 1, min e.2 b.trust) }

/-- The notice that stands for the omitted blocks of one source. -/
def omittedNotice (source : SourceKind) (count : Nat) (trust : TrustClass) : Block :=
  let kind := source.debug
  Block.new source s!"[{count} earlier {kind} block(s) omitted: over the per-source budget]" trust

def trimToBudget (assembler : Assembler) (blocks : List Block) : List Block :=
  let acc := blocks.reverse.foldl (trimStep assembler.budgets) ⟨[], fun _ => 0, OrderedMap.empty⟩
  (acc.kept ++ acc.omitted.bindings.map fun (source, count, trust) =>
    omittedNotice source count trust).reverse

/-- Token totals under each source's name. -/
def countTokens (totals : OrderedMap String Nat) (b : Block) : OrderedMap String Nat :=
  let key := Text.toAsciiLowercase b.source.debug
  totals.insert key ((totals.get? key).getD 0 + b.tokens)

def assemble (assembler : Assembler) (state : SessionState) : ContextView :=
  let stable := state.stableBlocks
  let context := assembler.trimToBudget state.contextBlocks
  let volatile := assembler.trimToBudget state.volatile
  let perSourceTokens := (stable ++ context ++ volatile).foldl countTokens OrderedMap.empty
  let used := perSourceTokens.values.sum
  { stable, context, volatile, perSourceTokens
    reserveTokens := assembler.reserveTokens
    fillPct :=
      if assembler.effectiveWindow = 0 then ⟨1, 1⟩ else ⟨used, assembler.effectiveWindow⟩
    cacheEpoch := assembler.cacheEpoch }

/-! ### Shortening the state -/

def overBudget (assembler : Assembler) (state : SessionState) (source : SourceKind) : Bool :=
  assembler.budgets source < ((state.volatile.filter (·.source = source)).map Block.tokens).sum

/-- A cleared tool result keeps its place, its wire and its trust. -/
def maskBlock (b : Block) : Block :=
  let tokens := b.tokens
  let text := s!"[tool result cleared · {tokens} tokens]"
  { b with text, tokens := estimateTokens text }

/-- Mask the oldest `n` tool results that are not already a notice, and count them. -/
def maskOldest : Nat → List Block → List Block × Nat
  | _, [] => ([], 0)
  | n, b :: rest =>
    if b.source = .toolResults ∧ n ≠ 0 then
      let (rest', masked) := maskOldest (n - 1) rest
      if Text.startsWith b.text "[" then (b :: rest', masked) else (maskBlock b :: rest', masked + 1)
    else
      let (rest', masked) := maskOldest n rest
      (b :: rest', masked)

/-- Mask all tool results but the newest `keep`. -/
def clearToolResults (state : SessionState) (keep : Nat) : SessionState × Nat :=
  let results := (state.volatile.filter (·.source = .toolResults)).length
  let (volatile, masked) := maskOldest (results - keep) state.volatile
  ({ state with volatile }, masked)

/-- Take the newest user turn out of the volatile tier. -/
def takeLive : List Block → List Block × Option Block
  | [] => ([], none)
  | b :: rest =>
    match takeLive rest with
    | (others, some live) => (b :: others, some live)
    | (others, none) => if b.isUserTurn then (others, some b) else (b :: others, none)

/-- The block that stands for everything compaction discards. -/
def summaryBlock (discarded : List Block) (summary : String) : Block :=
  let body := if Text.isEmpty (Text.trim summary) then "[the summarizer returned nothing]" else summary
  Block.new .summary (summaryPreface ++ "\n\n" ++ body)
    (match (discarded.map Block.trust).min? with
    | some f => min .agentInferred f
    | none => .agentInferred)

/-- Replace the volatile tier by its summary and the newest user turn, in a child session. -/
def compact (assembler : Assembler) (state : SessionState) (child : SessionId) (summary : String)
    (cache : PrefixCache) : Assembler × SessionState × PrefixCache :=
  let (discarded, live) := takeLive state.volatile
  ({ assembler with cacheEpoch := assembler.cacheEpoch + 1 },
    { state with
      volatile := summaryBlock discarded summary :: live.toList
      session := child
      lineage := state.lineage + 1
      compactions := state.compactions + 1 },
    cache.invalidate state.session)

end Assembler

end MarloweAgent.Loop
