import MarloweAgent.Loop.Script

/-! The round trip of a checkpoint. The run, its state and its counters come back as
they were. What the user said is read back from the window, and the window has it
under the tag of the harness: a tag the user never typed is vouched for too. -/

namespace MarloweAgent.Loop
open Contract Library Permission

/-! ## Provenance of messages -/

namespace Provenance

/-- What one message vouches for: itself, and each of its words. -/
def vouched (message : String) : List String := Text.trim message :: Text.splitWhitespace message

/-- The provenance of everything the user typed. -/
def ofMessages (messages : List String) : Provenance := messages.foldl attributeUserMessage new

/-- These values, and no others, are the user's. -/
def Knows (provenance : Provenance) (values : List String) : Prop :=
  ∀ s, provenance.attributed.get? s = if s ∈ values then some .userAsserted else none

theorem Knows.attributeValue {provenance : Provenance} {values : List String}
    (h : provenance.Knows values) (value : String) :
    (provenance.attributeValue value .userAsserted).Knows (values ++ [value]) := by
  intro s
  unfold Provenance.attributeValue
  rw [OrderedMap.get?_insert]
  by_cases hs : value = s
  · subst hs
    rw [h value]
    by_cases hmem : value ∈ values <;> simp [hmem]
  · rw [if_neg hs, h s]
    simp [Ne.symm hs]

theorem Knows.attributeValues {provenance : Provenance} {values : List String}
    (h : provenance.Knows values) (more : List String) :
    (more.foldl (fun p token => p.attributeValue token .userAsserted) provenance).Knows
      (values ++ more) := by
  induction more generalizing provenance values with
  | nil => simpa using h
  | cons value rest ih =>
    rw [List.append_cons]
    exact ih (h.attributeValue value)

theorem Knows.attributeUserMessage {provenance : Provenance} {values : List String}
    (h : provenance.Knows values) (message : String) :
    (provenance.attributeUserMessage message).Knows (values ++ vouched message) := by
  have hwhole := (h.attributeValue (Text.trim message)).attributeValues (Text.splitWhitespace message)
  rwa [List.append_assoc] at hwhole

theorem ofMessages_knows (messages : List String) :
    (ofMessages messages).Knows (messages.flatMap vouched) := by
  have hfold : ∀ (provenance : Provenance) (values : List String), provenance.Knows values →
      (messages.foldl Provenance.attributeUserMessage provenance).Knows
        (values ++ messages.flatMap vouched) := by
    induction messages with
    | nil => intro provenance values h; simpa using h
    | cons message rest ih =>
      intro provenance values h
      have hrest := ih _ _ (h.attributeUserMessage message)
      rwa [List.append_assoc] at hrest
  have hnew : Provenance.new.Knows [] := fun s => by simp [new]
  exact hfold new [] hnew

theorem get?_insert_taint (taint : TaintSet) {key : String} (cls : TrustClass) (name : String)
    (h : taint.byParam.get? key = none) :
    (taint.insert key cls).byParam.get? name =
      if key = name then some cls else taint.byParam.get? name := by
  unfold TaintSet.insert
  rw [OrderedMap.get?_insert, h]

/-- One pass over named values with distinct names taints each by its own class. -/
theorem get?_foldl_taint (classOf : ArgValue → TrustClass) (name : String) {taint : TaintSet}
    {entries : List (String × ArgValue)} (hsorted : entries.Pairwise (fun a b => a.1 < b.1))
    (hfree : ∀ entry ∈ entries, taint.byParam.get? entry.1 = none) :
    (entries.foldl (fun taint (key, value) => taint.insert key (classOf value)) taint).byParam.get?
        name =
      match OrderedMap.lookupIn name entries with
      | some value => some (classOf value)
      | none => taint.byParam.get? name := by
  induction entries generalizing taint with
  | nil => rfl
  | cons entry rest ih =>
    obtain ⟨key, value⟩ := entry
    obtain ⟨hkey, hrest⟩ := List.pairwise_cons.mp hsorted
    have hunbound : taint.byParam.get? key = none := hfree (key, value) List.mem_cons_self
    have hinsert := get?_insert_taint taint (classOf value) (h := hunbound)
    rw [List.foldl_cons, ih hrest ?_]
    · by_cases hname : key = name
      · subst hname
        -- the later names are all greater, so the first is this one's
        have hlater : OrderedMap.lookupIn key rest = none := by
          cases hlookup : OrderedMap.lookupIn key rest with
          | none => rfl
          | some later =>
            have hmem := OrderedMap.mem_bindings_of_get? ⟨rest, hrest⟩ hlookup
            exact absurd (hkey _ hmem) (lt_irrefl key)
        simp [OrderedMap.lookupIn, hlater, hinsert]
      · simp [OrderedMap.lookupIn, hname, hinsert]
    · intro entry hentry
      have hne : key ≠ entry.1 := ne_of_lt (hkey entry hentry)
      rw [hinsert, if_neg hne]
      exact hfree entry (List.mem_cons_of_mem _ hentry)

/-- The class of an argument: that of its value, and an absent one is untrusted. -/
theorem taintFor_of (provenance : Provenance) (args : Args) (view : ContextView)
    (latched : TrustClass) (name : String) :
    (provenance.taintFor args view latched).of name =
      match args.get name with
      | some value => provenance.classOf (min view.trustFloor latched) value
      | none => .untrustedContent := by
  have hfold := @get?_foldl_taint (provenance.classOf (min view.trustFloor latched)) name .empty _
    args.byName.sorted (fun _ _ => rfl)
  have hget : args.get name = OrderedMap.lookupIn name args.byName.bindings := rfl
  unfold TaintSet.of taintFor
  rw [hget]
  refine (congrArg (Option.getD · .untrustedContent) hfold).trans ?_
  cases OrderedMap.lookupIn name args.byName.bindings with
  | none => rfl
  | some value => rfl

theorem Knows.classOf_text {provenance : Provenance} {values : List String}
    (h : provenance.Knows values) (floor : TrustClass) (s : String) :
    provenance.classOf floor (.text s) = if s ∈ values then .userAsserted else floor := by
  change (provenance.attributed.get? s).getD floor = _
  rw [h s]
  split <;> rfl

/-- What the other provenance knows too is trusted no less there, under any floor. -/
theorem Knows.classOf_le {p q : Provenance} {known others : List String} (hp : p.Knows known)
    (hq : q.Knows others) (h : ∀ s ∈ known, s ∈ others) (floor : TrustClass) (value : ArgValue) :
    p.classOf floor value ≤ q.classOf floor value := by
  cases value with
  | text s =>
    rw [hp.classOf_text, hq.classOf_text]
    by_cases hs : s ∈ known
    · rw [if_pos hs, if_pos (h s hs)]
    · rw [if_neg hs]
      split
      · exact TrustClass.le_userAsserted _
      · exact le_refl _
  | integer | amount | boolean => exact le_refl _

/-- Under the worst floor, what is not known there is trusted less. -/
theorem Knows.mem_of_classOf_le {p q : Provenance} {known others : List String} (hp : p.Knows known)
    (hq : q.Knows others) {s : String}
    (h : p.classOf .untrustedContent (.text s) ≤ q.classOf .untrustedContent (.text s))
    (hs : s ∈ known) : s ∈ others := by
  rw [hp.classOf_text, hq.classOf_text, if_pos hs] at h
  by_contra hother
  rw [if_neg hother] at h
  exact absurd h (by decide)

end Provenance

/-! ## What was said, and what the window has of it -/

/-- What a user says to a run: a turn, or words into a turn that is under way. -/
inductive Spoken
  | message (text : String)
  | steer (text : String)
  | interrupt (text : String)

namespace Spoken

def text : Spoken → String
  | message text | steer text | interrupt text => text

/-- What the harness puts before it in the window. -/
def tag : Spoken → String
  | message _ => ""
  | steer _ => "[steer] "
  | interrupt _ => "[user, interrupting] "

def block (s : Spoken) : Block := .new .history (s.tag ++ s.text) .userAsserted

end Spoken

/-- The user turns a checkpoint's provenance is rebuilt from. -/
def SessionState.turns (state : SessionState) : List Block :=
  (state.volatile ++ state.contextBlocks).filter Block.isUserTurn

theorem mem_turns_iff {state : SessionState} {b : Block} :
    b ∈ state.turns ↔ (b ∈ state.volatile ∨ b ∈ state.contextBlocks) ∧ b.isUserTurn = true := by
  simp [SessionState.turns, or_and_right]

theorem mem_turns_push {state : SessionState} {b b' : Block} (h : b' ∈ (state.push b).turns) :
    b' ∈ state.turns ∨ b' = b ∧ b.isUserTurn = true := by
  obtain ⟨hmem, huser⟩ := mem_turns_iff.mp h
  have hcases : (b' ∈ state.volatile ∨ b' ∈ state.contextBlocks) ∨ b' = b := by
    unfold SessionState.push at hmem
    split at hmem
    · exact .inl hmem
    · simp only [List.mem_append, List.mem_singleton] at hmem
      tauto
    · simp only [List.mem_append, List.mem_singleton] at hmem
      tauto
  rcases hcases with hold | rfl
  · exact .inl (mem_turns_iff.mpr ⟨hold, huser⟩)
  · exact .inr ⟨rfl, huser⟩

/-- Masking rewrites tool results, which are not turns. -/
theorem mem_maskOldest {n : Nat} {blocks : List Block} {b : Block}
    (h : b ∈ (Assembler.maskOldest n blocks).1) (huser : b.isUserTurn = true) : b ∈ blocks := by
  induction blocks generalizing n with
  | nil => cases h
  | cons first rest ih =>
    unfold Assembler.maskOldest at h
    split at h
    · rename_i hresult
      dsimp only at h
      split at h
      · rcases List.mem_cons.mp h with rfl | h
        · exact List.mem_cons_self
        · exact List.mem_cons_of_mem _ (ih h)
      · rcases List.mem_cons.mp h with rfl | h
        · simp [Block.isUserTurn, Assembler.maskBlock, hresult.1] at huser
        · exact List.mem_cons_of_mem _ (ih h)
    · rcases List.mem_cons.mp h with rfl | h
      · exact List.mem_cons_self
      · exact List.mem_cons_of_mem _ (ih h)

theorem mem_takeLive {blocks : List Block} {live : Block}
    (h : (Assembler.takeLive blocks).2 = some live) : live ∈ blocks := by
  induction blocks with
  | nil => cases h
  | cons first rest ih =>
    unfold Assembler.takeLive at h
    split at h
    · rename_i others found hrest
      obtain rfl : found = live := Option.some.inj h
      exact List.mem_cons_of_mem _ (ih (by rw [hrest]))
    · split at h
      · obtain rfl : first = live := Option.some.inj h
        exact List.mem_cons_self
      · cases h

theorem mem_turns_compact {assembler : Assembler} {state : SessionState} {child : SessionId}
    {summary : String} {cache : PrefixCache} {b : Block}
    (h : b ∈ (assembler.compact state child summary cache).2.1.turns) : b ∈ state.turns := by
  obtain ⟨hmem, huser⟩ := mem_turns_iff.mp h
  refine mem_turns_iff.mpr ⟨?_, huser⟩
  rcases hmem with hmem | hmem
  · rcases List.mem_cons.mp hmem with rfl | hmem
    · simp [Block.isUserTurn, Assembler.summaryBlock, Block.new] at huser
    · exact .inl (mem_takeLive (by simpa using hmem))
  · exact .inr hmem

/-- A session and everything the user said in it: every user turn still in the window
is the block of something that was said. -/
structure Conversation where
  state : SessionState
  said : List Spoken
  turns : ∀ b ∈ state.turns, ∃ s ∈ said, b = s.block

namespace Conversation

/-- What the live provenance was told. -/
def provenance (c : Conversation) : Provenance := .ofMessages (c.said.map Spoken.text)

/-- A session nobody has spoken in. -/
def start (state : SessionState) (h : state.turns = []) : Conversation :=
  { state, said := [], turns := by simp [h] }

/-- The user speaks. -/
def speak (c : Conversation) (s : Spoken) : Conversation :=
  { state := c.state.push s.block
    said := c.said ++ [s]
    turns := by
      intro b hb
      rcases mem_turns_push hb with hb | ⟨rfl, -⟩
      · obtain ⟨s', hs', rfl⟩ := c.turns b hb
        exact ⟨s', List.mem_append_left _ hs', rfl⟩
      · exact ⟨s, by simp, rfl⟩ }

/-- Anything else is put into the window. -/
def push (c : Conversation) (b : Block) (h : b.isUserTurn = false) : Conversation :=
  { c with
    state := c.state.push b
    turns := by
      intro b' hb
      rcases mem_turns_push hb with hb | ⟨-, huser⟩
      · exact c.turns b' hb
      · rw [h] at huser
        cases huser }

/-- Old tool results are masked. -/
def clearToolResults (c : Conversation) (keep : Nat) : Conversation :=
  { c with
    state := (Assembler.clearToolResults c.state keep).1
    turns := by
      intro b hb
      obtain ⟨hmem, huser⟩ := mem_turns_iff.mp hb
      refine c.turns b (mem_turns_iff.mpr ⟨hmem.imp_left fun hmem => ?_, huser⟩)
      exact mem_maskOldest hmem huser }

/-- The window is compacted. -/
def compact (c : Conversation) (assembler : Assembler) (child : SessionId) (summary : String)
    (cache : PrefixCache) : Conversation :=
  { c with
    state := (assembler.compact c.state child summary cache).2.1
    turns := fun b hb => c.turns b (mem_turns_compact hb) }

/-- A run is resumed from a checkpoint of this session: what the window holds is all
that is known of what was said. -/
def resume (c : Conversation) : Conversation :=
  { c with
    said := c.state.turns.map fun b => .message b.text
    turns := by
      intro b hb
      obtain ⟨s, -, rfl⟩ := c.turns b hb
      exact ⟨.message s.block.text, List.mem_map.mpr ⟨_, hb, rfl⟩, by simp [Spoken.block, Spoken.tag,
        Spoken.text, Block.new]⟩ }

/-- A restored provenance is the one a resumed session starts from. -/
theorem restore_provenance (c : Conversation) (run : Run) (step retries : Nat) :
    (Checkpoint.capture run c.state step retries).restore.provenance = c.resume.provenance := by
  unfold provenance Provenance.ofMessages resume
  rw [List.map_map, List.foldl_map]
  rfl

/-- Everything the window has under a tag of the harness, the user typed as well. -/
def Typed (c : Conversation) : Prop :=
  ∀ s ∈ c.said, s.block ∈ c.state.turns → ∀ value ∈ Provenance.vouched (s.tag ++ s.text),
    value ∈ (c.said.map Spoken.text).flatMap Provenance.vouched

/-- What is said in a turn of its own stands in the window as it was typed. -/
theorem typed_of_messages {c : Conversation} (h : ∀ s ∈ c.said, s.tag = "") : c.Typed := by
  intro s hs _ value hvalue
  rw [h s hs, String.empty_append] at hvalue
  exact List.mem_flatMap.mpr ⟨s.text, List.mem_map_of_mem hs, hvalue⟩

theorem said_knows (c : Conversation) :
    c.provenance.Knows ((c.said.map Spoken.text).flatMap Provenance.vouched) :=
  Provenance.ofMessages_knows _

theorem resume_knows (c : Conversation) :
    c.resume.provenance.Knows (c.state.turns.flatMap fun b => Provenance.vouched b.text) := by
  have hknows := c.resume.said_knows
  simp only [resume, List.map_map, List.flatMap_map] at hknows
  exact hknows

/-- Every value a resumed session vouches for was typed, exactly when what the window
has under a tag was. -/
theorem typed_iff (c : Conversation) :
    c.Typed ↔ ∀ value ∈ c.state.turns.flatMap fun b => Provenance.vouched b.text,
      value ∈ (c.said.map Spoken.text).flatMap Provenance.vouched := by
  constructor
  · intro h value hvalue
    obtain ⟨b, hb, hvalue⟩ := List.mem_flatMap.mp hvalue
    obtain ⟨s, hs, rfl⟩ := c.turns b hb
    exact h s hs hb value hvalue
  · intro h s hs hb value hvalue
    exact h value (List.mem_flatMap.mpr ⟨s.block, hb, hvalue⟩)

end Conversation

/-- A checkpoint restores what was captured, but for the number of the last
checkpoint, and no argument comes back with a better class than it had. -/
structure RoundTrips (c : Conversation) (run : Run) (step retries : Nat) (restored : Restored) :
    Prop where
  fields : restored.run = { run with lastCheckpoint := none }
  state : restored.state = c.state
  steps : restored.steps = step
  retries : restored.contractRetries = retries
  taint : ∀ args view name,
    (restored.provenance.taintFor args view restored.run.trustFloor).of name ≤
      (c.provenance.taintFor args view run.trustFloor).of name

/-- A view with untrusted content in it. -/
def taintedView : ContextView :=
  { stable := [], context := [], volatile := [.new .toolResults "" .untrustedContent]
    perSourceTokens := .empty, reserveTokens := 0, fillPct := ⟨0, 1⟩, cacheEpoch := 0 }

theorem taintFor_taintedView (provenance : Provenance) (s : String) (latched : TrustClass) :
    (provenance.taintFor (Args.empty.withText "path" s) taintedView latched).of "path" =
      provenance.classOf .untrustedContent (.text s) := by
  have hget : (Args.empty.withText "path" s).get "path" = some (.text s) :=
    OrderedMap.get?_insert_self _ _ _
  have hfloor : min taintedView.trustFloor latched = .untrustedContent :=
    min_eq_left (TrustClass.untrustedContent_le latched)
  rw [Provenance.taintFor_of, hget, hfloor]

/-- **A round trip, exactly.** Of every run in every conversation, at any step, the
fields come back as they were; the taint of no argument improves if and only if all
that is in the window under a tag was also typed. -/
theorem roundTrips_iff (c : Conversation) (run : Run) (step retries : Nat) :
    RoundTrips c run step retries (Checkpoint.capture run c.state step retries).restore ↔ c.Typed := by
  have hprovenance := c.restore_provenance run step retries
  rw [c.typed_iff]
  constructor
  · intro h value hvalue
    have htaint := h.taint (Args.empty.withText "path" value) taintedView "path"
    rw [taintFor_taintedView, taintFor_taintedView, hprovenance] at htaint
    exact c.resume_knows.mem_of_classOf_le c.said_knows htaint hvalue
  · intro h
    refine ⟨rfl, rfl, rfl, rfl, fun args view name => ?_⟩
    rw [Provenance.taintFor_of, Provenance.taintFor_of, hprovenance]
    cases args.get name with
    | none => exact le_refl _
    | some value => exact c.resume_knows.classOf_le c.said_knows h _ value

/-! ## A steer -/

/-- A run of a session in which the user asked for something and then steered. -/
def steeredRun : Run := .root 1 1 Script.looks Script.ample .answer

def steered : Conversation :=
  ((Conversation.start (.new 1 "Marlowe.") rfl).speak (.message "look around")).speak
    (.steer "stop")

/-- **A resume widens.** The tag of a steer comes back as the user's own word: as an
argument the model composed, it was untrusted in a tainted window before. -/
theorem steered_not_roundTrips :
    (steered.provenance.taintFor (Args.empty.withText "path" "[steer]") taintedView
      steeredRun.trustFloor).of "path" = .untrustedContent ∧
    ((Checkpoint.capture steeredRun steered.state 1 0).restore.provenance.taintFor
      (Args.empty.withText "path" "[steer]") taintedView steeredRun.trustFloor).of "path" =
        .userAsserted ∧
    ¬RoundTrips steered steeredRun 1 0 (Checkpoint.capture steeredRun steered.state 1 0).restore := by
  have hbefore : (steered.provenance.taintFor (Args.empty.withText "path" "[steer]") taintedView
      steeredRun.trustFloor).of "path" = .untrustedContent := by
    decide
  have hafter : ((Checkpoint.capture steeredRun steered.state 1 0).restore.provenance.taintFor
      (Args.empty.withText "path" "[steer]") taintedView steeredRun.trustFloor).of "path" =
        .userAsserted := by
    decide
  refine ⟨hbefore, hafter, fun h => ?_⟩
  have htaint := h.taint (Args.empty.withText "path" "[steer]") taintedView "path"
  rw [hbefore] at htaint
  exact absurd (hafter ▸ htaint) (by decide)

/-! ## The engine's own turns -/

/-- The loop takes a steer or an interruption the way a conversation does. -/
theorem userTurn_speak {σ : Type} (c : Conversation) (s : Spoken) {m : Machine σ}
    (hstate : m.state = c.state) (hprovenance : m.frame.provenance = c.provenance) :
    ((userTurn s.tag s.text).run m).2.state = (c.speak s).state ∧
      ((userTurn s.tag s.text).run m).2.frame.provenance = (c.speak s).provenance := by
  constructor
  · change m.state.push s.block = c.state.push s.block
    rw [hstate]
  · change m.frame.provenance.attributeUserMessage s.text = (c.speak s).provenance
    rw [hprovenance]
    simp [Conversation.provenance, Conversation.speak, Provenance.ofMessages]

end MarloweAgent.Loop
