import MarloweAgent.Library.Lineage
import MarloweAgent.Loop.Nesting
import MarloweAgent.Loop.Script

/-! Where an escalation goes, over the life of a run tree. A run is in its loop, or is what
its last checkpoint says. Spawns give a child its level and its link; detaching and adopting
rewrite the link later, and what they may rewrite it to decides whether every route ends. -/

namespace MarloweAgent.Loop
open Contract Library Tools Permission
open Forwarding (Arrives ArrivesAvoiding)

/-! ## The tree -/

/-- A run in its loop, or as its last checkpoint has it. -/
inductive RunNode
  | live (run : Run)
  | stored (cp : Checkpoint)

def RunNode.run : RunNode → Run
  | live run => run
  | stored cp => cp.restore.run

/-- The runs of a tree, each under its own id. -/
structure RunTree where
  nodes : OrderedMap RunId RunNode
  keyed : ∀ id node, nodes.get? id = some node → node.run.id = id

namespace RunTree

def run? (tree : RunTree) (id : RunId) : Option Run := (tree.nodes.get? id).map RunNode.run

def file (tree : RunTree) (node : RunNode) : RunTree :=
  ⟨tree.nodes.insert node.run.id node, fun id other h => by
    rw [OrderedMap.get?_insert] at h
    split at h
    next hid => rw [← Option.some.inj h, hid]
    next => exact tree.keyed id other h⟩

/-- A tree of the conversation alone. -/
def start (root : Run) : RunTree := file ⟨OrderedMap.empty, fun _ _ h => by cases h⟩ (.live root)

theorem run?_file (tree : RunTree) (node : RunNode) (id : RunId) :
    (tree.file node).run? id = if node.run.id = id then some node.run else tree.run? id := by
  rw [run?, file, OrderedMap.get?_insert]
  split <;> rfl

theorem id_of_run? {tree : RunTree} {id : RunId} {run : Run} (h : tree.run? id = some run) :
    run.id = id := by
  obtain ⟨node, hnode, rfl⟩ := Option.map_eq_some_iff.mp h
  exact tree.keyed id node hnode

end RunTree

/-! ## The steps -/

/-- What a loop leaves of its run: it spends, latches, changes its status and is granted
hosts, and stays where it is in the tree. -/
structure KeepsPlace (run after : Run) : Prop where
  id : after.id = run.id
  parent : after.parent = run.parent
  level : after.profile.level = run.profile.level
  readsUntrusted : after.profile.readsUntrusted = run.profile.readsUntrusted

instance (run after : Run) : Decidable (KeepsPlace run after) :=
  decidable_of_iff (after.id = run.id ∧ after.parent = run.parent ∧
      after.profile.level = run.profile.level ∧
      after.profile.readsUntrusted = run.profile.readsUntrusted)
    ⟨fun ⟨h₁, h₂, h₃, h₄⟩ => ⟨h₁, h₂, h₃, h₄⟩, fun h => ⟨h.id, h.parent, h.level, h.readsUntrusted⟩⟩

inductive TreeStep
  /-- A run asks for a child. -/
  | spawn (parent child : RunId) (session : SessionId) (req : SpawnRequest)
  /-- The harness gives a run a quarantined reader. -/
  | condense (parent child : RunId) (session : SessionId) (budget : Budget)
      (contract : OutputContract)
  /-- A run goes on in its loop. -/
  | advance (after : Run)
  /-- A run leaves its loop, and its last checkpoint is what there is of it. -/
  | leave (id : RunId) (state : SessionState) (step contractRetries : Nat)
  /-- A parent ended, and the policy it declared for this child is applied. -/
  | settle (child : RunId) (policy : OrphanPolicy)
  | resume (id : RunId)

namespace RunTree

/-- A step that cannot be taken leaves the tree as it is: a spawn that is refused, an id that
is not fresh, a run that is not where the step needs it. -/
def step (tree : RunTree) : TreeStep → RunTree
  | .spawn parent child session req =>
    match tree.nodes.get? parent, tree.run? child with
    | some (.live run), none =>
      match admitSpawn run req with
      | .ok (budget, profile) =>
        tree.file (.live (.child child run session profile budget req.orphan req.contract))
      | .error _ => tree
    | _, _ => tree
  | .condense parent child session budget contract =>
    match tree.nodes.get? parent, tree.run? child with
    | some (.live run), none =>
      tree.file (.live (.child child run session .quarantinedReader budget .terminate contract))
    | _, _ => tree
  | .advance after =>
    match tree.nodes.get? after.id with
    | some (.live run) => if KeepsPlace run after then tree.file (.live after) else tree
    | _ => tree
  | .leave id state step contractRetries =>
    match tree.nodes.get? id with
    | some (.live run) => tree.file (.stored (.capture run state step contractRetries))
    | _ => tree
  | .settle child policy =>
    match tree.nodes.get? child with
    | some (.stored cp) =>
      match settleOrphan cp policy with
      | some (amended, _) => tree.file (.stored amended)
      | none => tree
    | _ => tree
  | .resume id =>
    match tree.nodes.get? id with
    | some (.stored cp) => if cp.isTerminal then tree else tree.file (.live cp.restore.run)
    | _ => tree

def after (tree : RunTree) (steps : List TreeStep) : RunTree := steps.foldl step tree

end RunTree

/-! ## Routes -/

def EscalationRoute.raisable : EscalationRoute → Bool
  | .notRaisable _ => false
  | _ => true

/-- A route ends with the user, and with a run that was told it is detached. -/
def EscalationRoute.hop : EscalationRoute → Hop RunId
  | .user | .notRaisable .detached => .kept
  | .parent p => .handed p
  | .notRaisable _ => .dropped

/-- What becomes of an escalation at each run of the tree. -/
def RunTree.forwarding (tree : RunTree) : Forwarding RunId := fun id =>
  match tree.run? id with
  | some run => (escalationRoute run).hop
  | none => .dropped

/-- Routes of a tree in which no run addresses the conversation. -/
structure Routed (tree : RunTree) : Prop where
  belowSecretary : ∀ id run p above, tree.run? id = some run → escalationRoute run = .parent p →
    tree.run? p = some above → above.profile.level ≠ .secretary
  topAgents : ∀ id run manages, tree.run? id = some run → run.profile.level = .topAgent manages →
    run.profile.readsUntrusted = false → escalationRoute run = .user
  closed : ∀ id run, tree.run? id = some run →
    run.profile.readsUntrusted = true ∨ run.profile.level = .toolSpawned →
    (escalationRoute run).raisable = false
  ends : ∀ id run, tree.run? id = some run → (escalationRoute run).raisable = true →
    Arrives tree.forwarding id

/-- The levels whose route is the parent link. -/
def followsLink (run : Run) : Bool :=
  !run.profile.readsUntrusted && (run.profile.level = .master || run.profile.level = .worker)

/-- A step that leaves every route its end: where a run that routes by its parent link is
adopted, what the adopter raises ends without passing through the adopted run. -/
def Placed (tree : RunTree) : TreeStep → Prop
  | .settle child (.adopt by_) =>
    ∀ run, tree.run? child = some run → followsLink run = true →
      ArrivesAvoiding tree.forwarding child by_
  | _ => True

/-- Every step of the history is such a step. -/
def PlacedAll (tree : RunTree) : List TreeStep → Prop
  | [] => True
  | step :: rest => Placed tree step ∧ PlacedAll (tree.step step) rest

/-! ## Routes and levels -/

section Routes

variable {run after : Run}

theorem escalationRoute_topAgent {manages : Bool} (hlevel : run.profile.level = .topAgent manages)
    (hreads : run.profile.readsUntrusted = false) : escalationRoute run = .user := by
  simp [escalationRoute, hlevel, hreads]

theorem not_raisable (h : run.profile.readsUntrusted = true ∨ run.profile.level = .toolSpawned) :
    (escalationRoute run).raisable = false := by
  unfold escalationRoute
  split
  next => rfl
  next hreads =>
    rw [h.resolve_left hreads]
    rfl

theorem followsLink_iff : followsLink run = true ↔
    run.profile.readsUntrusted = false ∧
      (run.profile.level = .master ∨ run.profile.level = .worker) := by
  simp [followsLink]

/-- The route of a run that follows its link. -/
theorem escalationRoute_link (h : followsLink run = true) :
    escalationRoute run = match run.parent with
      | some p => .parent p
      | none => .notRaisable .detached := by
  obtain ⟨hreads, hlevel⟩ := followsLink_iff.mp h
  cases hparent : run.parent <;> rcases hlevel with hlevel | hlevel <;>
    simp [escalationRoute, hreads, hlevel, hparent]

/-- Any other run's route does not depend on its link. -/
theorem escalationRoute_congr (hlevel : after.profile.level = run.profile.level)
    (hreads : after.profile.readsUntrusted = run.profile.readsUntrusted)
    (hlink : followsLink run = true → after.parent = run.parent) :
    escalationRoute after = escalationRoute run := by
  unfold escalationRoute
  rw [hreads, hlevel]
  split
  next => rfl
  next hr =>
    cases hl : run.profile.level with
    | master => simp only [hlink (followsLink_iff.mpr ⟨by simpa using hr, .inl hl⟩)]
    | worker => simp only [hlink (followsLink_iff.mpr ⟨by simpa using hr, .inr hl⟩)]
    | _ => rfl

/-- A secretary's route ends nowhere. -/
theorem hop_secretary (h : run.profile.level = .secretary) : (escalationRoute run).hop = .dropped := by
  unfold escalationRoute
  rw [h]
  split <;> rfl

theorem hop_ne_dropped (h : (escalationRoute run).raisable = true) :
    (escalationRoute run).hop ≠ .dropped := by
  cases hroute : escalationRoute run with
  | parent p => simp [EscalationRoute.hop]
  | user => simp [EscalationRoute.hop]
  | notRaisable why =>
    rw [hroute] at h
    cases h

end Routes

/-! ## Filing a node -/

namespace RunTree

variable {tree : RunTree}

theorem forwarding_of_run? {id : RunId} {run : Run} (h : tree.run? id = some run) :
    tree.forwarding id = (escalationRoute run).hop := by
  rw [forwarding, h]

theorem forwarding_of_none {id : RunId} (h : tree.run? id = none) : tree.forwarding id = .dropped := by
  rw [forwarding, h]

theorem forwarding_file (tree : RunTree) (node : RunNode) :
    (tree.file node).forwarding =
      Function.update tree.forwarding node.run.id (escalationRoute node.run).hop := by
  funext id
  rw [forwarding, run?_file]
  by_cases hid : node.run.id = id
  · subst hid
    simp
  · rw [if_neg hid, Function.update_of_ne (Ne.symm hid)]
    rfl

end RunTree

section
open RunTree

variable {tree : RunTree}

/-- A tree all of whose raisable runs are heard is routed. -/
theorem routed_of_ends (h : ∀ id run, tree.run? id = some run →
    (escalationRoute run).raisable = true → Arrives tree.forwarding id) : Routed tree where
  belowSecretary := by
    intro id run p above hrun hroute habove hlevel
    have harrives := h id run hrun (by rw [hroute]; rfl)
    have hnext : tree.forwarding id = .handed p := by
      rw [forwarding_of_run? hrun, hroute]
      rfl
    refine Forwarding.not_arrives_of_dropped ?_ (harrives.of_handed hnext)
    rw [forwarding_of_run? habove, hop_secretary hlevel]
  topAgents := fun _ _ _ _ hlevel hreads => escalationRoute_topAgent hlevel hreads
  closed := fun _ _ _ hclosed => not_raisable hclosed
  ends := h

/-- A node filed where what it raises arrives keeps every other run's end. -/
theorem Routed.file (h : Routed tree) {node : RunNode}
    (hnode : (escalationRoute node.run).raisable = true →
      Arrives (tree.file node).forwarding node.run.id)
    (hothers : ∀ id, id ≠ node.run.id → Arrives tree.forwarding id →
      Arrives (tree.file node).forwarding id) : Routed (tree.file node) := by
  refine routed_of_ends fun id run hrun hraisable => ?_
  rw [run?_file] at hrun
  by_cases hid : node.run.id = id
  · subst hid
    rw [if_pos rfl] at hrun
    obtain rfl := Option.some.inj hrun
    exact hnode hraisable
  · rw [if_neg hid] at hrun
    exact hothers id (Ne.symm hid) (h.ends id run hrun hraisable)

/-- A node filed with the route its run had changes no route. -/
theorem Routed.refile (h : Routed tree) {node : RunNode} {run : Run}
    (hrun : tree.run? node.run.id = some run)
    (hroute : escalationRoute node.run = escalationRoute run) : Routed (tree.file node) := by
  have hsame : (tree.file node).forwarding = tree.forwarding := by
    rw [forwarding_file, hroute, ← forwarding_of_run? hrun, Function.update_eq_self]
  refine Routed.file h (fun hraisable => ?_) fun id _ harrives => ?_
  · rw [hsame]
    exact h.ends _ run hrun (hroute ▸ hraisable)
  · rwa [hsame]

/-- A node filed under a fresh id, whose run is raisable only where its parent's route ends. -/
theorem Routed.fresh (h : Routed tree) {node : RunNode} (hfresh : tree.run? node.run.id = none)
    (hroute : (escalationRoute node.run).hop = .kept ∨
      (escalationRoute node.run).raisable = false ∨
      ∃ p, escalationRoute node.run = .parent p ∧ Arrives tree.forwarding p) :
    Routed (tree.file node) := by
  have hnone := forwarding_of_none hfresh
  have hkept : ∀ id, Arrives tree.forwarding id → Arrives (tree.file node).forwarding id := by
    intro id harrives
    rw [forwarding_file]
    exact harrives.update_of_dropped hnone _
  refine Routed.file h (fun hraisable => ?_) fun id _ => hkept id
  have hself : (tree.file node).forwarding node.run.id = (escalationRoute node.run).hop := by
    rw [forwarding_file, Function.update_self]
  rcases hroute with hkeep | hclosed | ⟨p, hparent, harrives⟩
  · exact .kept (hself.trans hkeep)
  · rw [hclosed] at hraisable
    cases hraisable
  · refine .handed (hself.trans ?_) (hkept p harrives)
    rw [hparent]
    rfl

/-! ## What a step keeps -/

/-- The profile a child is built with has the level it was built for. -/
theorem level_of_childProfile {run : Run} {req : SpawnRequest} {level : AgentLevel}
    {profile : CapabilityProfile} (h : childProfile run req level = .ok profile) :
    profile.level = level := by
  unfold childProfile at h
  split at h
  next => cases h
  next =>
    split at h
    next => cases h
    next hbuilt =>
      cases h
      exact (CapabilityProfile.new_ok hbuilt).2.2.1

/-- What an admitted spawn says of places: the creator is no reader, and its child is a
top-agent, or works below one that manages. -/
theorem admitSpawn_place {run : Run} {req : SpawnRequest} {budget : Budget}
    {profile : CapabilityProfile} (h : admitSpawn run req = .ok (budget, profile)) :
    run.profile.readsUntrusted = false ∧
      ((∃ manages, profile.level = .topAgent manages) ∨
        ((profile.level = .master ∨ profile.level = .worker) ∧
          (run.profile.level = .topAgent true ∨ run.profile.level = .master))) := by
  obtain ⟨hcreates, -, -, -, level, hlevel, hprofile⟩ := admitSpawn_ok h
  refine ⟨?_, ?_⟩
  · by_contra hreads
    have htools := (run.profile.quarantined (by simpa using hreads)).1
    rw [CapabilityProfile.mayCreateAgents, ExposedSet.contains_iff, htools] at hcreates
    cases hcreates
  · rw [level_of_childProfile hprofile]
    unfold AgentLevel.childOf at hlevel
    split at hlevel
    all_goals simp_all

/-- From a run that manages, what is raised arrives, also when it is detached. -/
theorem Routed.arrives_of_manager (h : Routed tree) {id : RunId} {run : Run}
    (hrun : tree.run? id = some run) (hreads : run.profile.readsUntrusted = false)
    (hlevel : run.profile.level = .topAgent true ∨ run.profile.level = .master) :
    Arrives tree.forwarding id := by
  rcases hlevel with htop | hmaster
  · exact h.ends id run hrun (by rw [escalationRoute_topAgent htop hreads]; rfl)
  · have hroute := @escalationRoute_link run (followsLink_iff.mpr ⟨hreads, .inl hmaster⟩)
    cases hparent : run.parent with
    | some p => exact h.ends id run hrun (by rw [hroute, hparent]; rfl)
    | none =>
      refine .kept ?_
      rw [forwarding_of_run? hrun, hroute, hparent]
      rfl

/-- A child of an admitted spawn takes a place from which what it raises arrives. -/
theorem Routed.spawned (h : Routed tree) {parent child : RunId} {run : Run} {session : SessionId}
    {req : SpawnRequest} {budget : Budget} {profile : CapabilityProfile}
    (hrun : tree.run? parent = some run) (hfresh : tree.run? child = none)
    (hgranted : admitSpawn run req = .ok (budget, profile)) :
    Routed (tree.file (.live (.child child run session profile budget req.orphan req.contract))) := by
  obtain ⟨hreads, hplace⟩ := admitSpawn_place hgranted
  refine Routed.fresh h hfresh ?_
  by_cases hreader : profile.readsUntrusted = true
  · exact .inr (.inl (not_raisable (.inl hreader)))
  · rw [Bool.not_eq_true] at hreader
    rcases hplace with ⟨manages, htop⟩ | ⟨hbelow, hmanager⟩
    · refine .inl ?_
      rw [RunNode.run, escalationRoute_topAgent htop hreader]
      rfl
    · refine .inr (.inr ⟨parent, ?_, h.arrives_of_manager hrun hreads hmanager⟩)
      rw [RunNode.run, escalationRoute_link (followsLink_iff.mpr ⟨hreader, hbelow⟩)]
      simp [Run.child, id_of_run? hrun]

/-- **Rewriting one link** keeps the routes exactly when what is raised there still arrives. -/
theorem Routed.relink_iff (h : Routed tree) {node : RunNode} {run : Run}
    (hrun : tree.run? node.run.id = some run)
    (hlevel : node.run.profile.level = run.profile.level)
    (hreads : node.run.profile.readsUntrusted = run.profile.readsUntrusted) :
    Routed (tree.file node) ↔ (followsLink run = true → ∀ p, node.run.parent = some p →
      ArrivesAvoiding tree.forwarding node.run.id p) := by
  by_cases hfollows : followsLink run = true
  · have hroute := @escalationRoute_link node.run <| by
      obtain ⟨hr, hl⟩ := followsLink_iff.mp hfollows
      exact followsLink_iff.mpr ⟨hreads.trans hr, hl.imp hlevel.trans hlevel.trans⟩
    cases hparent : node.run.parent with
    | none =>
      rw [hparent] at hroute
      refine iff_of_true ?_ (by simp)
      have hkept : Arrives (tree.file node).forwarding node.run.id := by
        refine .kept ?_
        rw [forwarding_file, Function.update_self, hroute]
        rfl
      refine Routed.file h (fun _ => hkept) fun id _ harrives => ?_
      rw [forwarding_file] at hkept ⊢
      exact harrives.update hkept
    | some p =>
      rw [hparent] at hroute
      have hforwarding : (tree.file node).forwarding =
          Function.update tree.forwarding node.run.id (.handed p) := by
        rw [forwarding_file, hroute]
        rfl
      constructor
      · rintro hafter - q hq
        obtain rfl := Option.some.inj hq
        refine Forwarding.arrives_update_iff.mp (hforwarding ▸ hafter.ends node.run.id node.run ?_ ?_)
        · rw [run?_file, if_pos rfl]
        · rw [hroute]
          rfl
      · intro hplaced
        have harrives := Forwarding.arrives_update_iff.mpr (hplaced hfollows p rfl)
        refine Routed.file h (fun _ => hforwarding ▸ harrives) fun id _ hid => ?_
        rw [hforwarding]
        exact hid.update harrives
  · refine iff_of_true (Routed.refile h hrun ?_) fun hlink => absurd hlink hfollows
    exact escalationRoute_congr hlevel hreads fun hlink => absurd hlink hfollows

/-- What settling leaves of a child's checkpoint: its place but for the link. -/
theorem settleOrphan_link {cp amended : Checkpoint} {policy : OrphanPolicy} {outcome : OrphanOutcome}
    (h : settleOrphan cp policy = some (amended, outcome)) :
    amended.run = cp.run ∧ amended.profile = cp.profile ∧
      amended.parent = match policy with
        | .terminate => cp.parent
        | .detach => none
        | .adopt by_ => some by_ := by
  unfold settleOrphan at h
  split at h
  next => cases h
  next =>
    cases policy <;>
    · obtain ⟨rfl, -⟩ := Prod.mk.inj (Option.some.inj h)
      exact ⟨rfl, rfl, rfl⟩

/-- **Settling one child** keeps the routes exactly when the step is placed. -/
theorem Routed.settle_iff (h : Routed tree) {child : RunId} {cp amended : Checkpoint}
    {policy : OrphanPolicy} {outcome : OrphanOutcome}
    (hnode : tree.nodes.get? child = some (.stored cp))
    (hsettle : settleOrphan cp policy = some (amended, outcome)) :
    Routed (tree.file (.stored amended)) ↔ Placed tree (.settle child policy) := by
  obtain ⟨hid, hprofile, hlink⟩ := settleOrphan_link hsettle
  obtain rfl : cp.run = child := tree.keyed child _ hnode
  have hrun : tree.run? amended.run = some cp.restore.run := by
    rw [hid, run?, hnode]
    rfl
  have hiff := @Routed.relink_iff tree h (.stored amended) _ hrun (congrArg (·.level) hprofile)
    (congrArg (·.readsUntrusted) hprofile)
  cases policy with
  | terminate =>
    refine iff_of_true (Routed.refile h hrun ?_) trivial
    exact escalationRoute_congr (congrArg (·.level) hprofile) (congrArg (·.readsUntrusted) hprofile)
      fun _ => hlink
  | detach =>
    refine iff_of_true (hiff.mpr fun _ p hp => ?_) trivial
    cases hlink.symm.trans hp
  | adopt by_ =>
    refine hiff.trans ⟨fun hplaced run hr hfollows => ?_, fun hplaced hfollows p hp => ?_⟩
    · rw [← hid, hrun] at hr
      obtain rfl := Option.some.inj hr
      rw [← hid]
      exact hplaced hfollows by_ hlink
    · obtain rfl := Option.some.inj (hlink.symm.trans hp)
      have hthere := hplaced _ (hid ▸ hrun) hfollows
      rwa [← hid] at hthere

/-- **A placed step keeps the tree routed.** -/
theorem Routed.step (h : Routed tree) {step : TreeStep} (hplaced : Placed tree step) :
    Routed (tree.step step) := by
  cases step with
  | spawn parent child session req =>
    simp only [RunTree.step]
    split
    next run hparent hfresh =>
      split
      next budget profile hgranted => exact h.spawned (by rw [run?, hparent]; rfl) hfresh hgranted
      next => exact h
    next => exact h
  | condense parent child session budget contract =>
    simp only [RunTree.step]
    split
    next run hparent hfresh =>
      exact Routed.fresh h hfresh (.inr (.inl (not_raisable (.inl rfl))))
    next => exact h
  | advance after =>
    simp only [RunTree.step]
    split
    next run hnode =>
      split
      next hkeeps =>
        have hrun : tree.run? after.id = some run := by rw [run?, hnode]; rfl
        exact Routed.refile h hrun
          (escalationRoute_congr hkeeps.level hkeeps.readsUntrusted fun _ => hkeeps.parent)
      next => exact h
    next => exact h
  | leave id state step contractRetries =>
    simp only [RunTree.step]
    split
    next run hnode =>
      obtain rfl : run.id = id := tree.keyed id _ hnode
      have hrun : tree.run? run.id = some run := by rw [run?, hnode]; rfl
      exact Routed.refile h hrun (escalationRoute_congr rfl rfl fun _ => rfl)
    next => exact h
  | settle child policy =>
    simp only [RunTree.step]
    split
    next cp hnode =>
      split
      next amended outcome hsettle => exact (h.settle_iff hnode hsettle).mpr hplaced
      next => exact h
    next => exact h
  | resume id =>
    simp only [RunTree.step]
    split
    next cp hnode =>
      split
      next => exact h
      next =>
        obtain rfl : cp.run = id := tree.keyed id _ hnode
        have hrun : tree.run? cp.restore.run.id = some cp.restore.run := by
          show tree.run? cp.run = _
          rw [run?, hnode]
          rfl
        exact Routed.refile h hrun rfl
    next => exact h

theorem Routed.after (h : Routed tree) {steps : List TreeStep} (hplaced : PlacedAll tree steps) :
    Routed (tree.after steps) := by
  induction steps generalizing tree with
  | nil => exact h
  | cons step rest ih => exact ih (h.step hplaced.1) hplaced.2

end

theorem start_routed {root : Run} (h : root.profile.level = .secretary) :
    Routed (RunTree.start root) := by
  refine routed_of_ends fun id run hrun hraisable => ?_
  rw [RunTree.start, RunTree.run?_file] at hrun
  split at hrun
  next =>
    obtain rfl := Option.some.inj hrun
    exact absurd (hop_secretary h) (hop_ne_dropped hraisable)
  next => cases hrun

/-- **No worker addresses the conversation.** In every tree that grows from a secretary by
spawns, readers, settlements and resumes, as long as what adopts a run that follows its link
has a route that ends without that run: no route leads to a secretary, a top-agent that reads
nothing untrusted reaches the user, readers and tool-spawned runs raise nothing, and every
route of a run that may raise ends with the user or at a detached run. -/
theorem routes_end (id : RunId) (session : SessionId) (profile : CapabilityProfile)
    (budget : Budget) (contract : OutputContract) (hroot : profile.level = .secretary)
    (steps : List TreeStep)
    (hplaced : PlacedAll (.start (.root id session profile budget contract)) steps) :
    Routed ((RunTree.start (.root id session profile budget contract)).after steps) :=
  (start_routed hroot).after hplaced

/-! ## Adopters -/

/-- A conversation that can create agents. -/
def creator : CapabilityProfile := Script.secretary ⟨[⟨"run"⟩], by decide, by decide⟩ .denyAll

def deepBudget : Budget := { Script.ample with depth := 4 }

/-- A request for a child of this kind, with this policy and these tools. -/
def requested (disposition : Disposition) (orphan : OrphanPolicy) (tools : List ToolId) :
    SpawnRequest :=
  { task := "t", contract := .answer, orphan, share := .standard, grantTokens := none, tools
    toolsDeclared := true, readsUntrusted := false, role := .worker, disposition }

/-- What a conversation that can create agents grows into. -/
def grown (steps : List TreeStep) : RunTree :=
  (RunTree.start (.root 1 1 creator deepBudget .answer)).after steps

/-- A worker under a master under a top-agent; its loop ends, and it goes on under `by_`. -/
def adoptedWorker (by_ : RunId) : List TreeStep :=
  [.spawn 1 2 2 (requested .manage .terminate [⟨"run"⟩]),
    .spawn 2 3 3 (requested .manage .terminate [⟨"run"⟩]),
    .spawn 3 4 4 (requested .work (.adopt by_) []),
    .leave 4 (.new 4 "M") 1 0, .settle 4 (.adopt by_), .resume 4]

/-- Adopted by the top-agent, the worker is heard. -/
theorem routes_end_adoptedWorker : Routed (grown (adoptedWorker 2)) := by
  refine routes_end 1 1 creator deepBudget .answer rfl (adoptedWorker 2)
    ⟨trivial, trivial, trivial, trivial, fun _ _ _ => ?_, trivial, trivial⟩
  exact .kept (by decide)

/-- A top-agent that is to read untrusted content. -/
def readingTopAgent : List TreeStep :=
  [.spawn 1 2 2 { requested .work .terminate [] with readsUntrusted := true }]

/-- A top-agent that reads untrusted content does not reach the user, and a worker that its
policy gives to the conversation addresses it. -/
theorem worker_addresses_conversation :
    (¬ ∀ steps id run manages, (grown steps).run? id = some run →
      run.profile.level = .topAgent manages → escalationRoute run = .user) ∧
    (¬ ∀ steps id run p above, (grown steps).run? id = some run → escalationRoute run = .parent p →
      (grown steps).run? p = some above → above.profile.level ≠ .secretary) := by
  constructor
  · intro hall
    have hroute : ((grown readingTopAgent).run? 2).map (fun run => (run.profile.level,
        escalationRoute run)) = some (.topAgent false, .notRaisable .readsUntrusted) := by
      decide
    obtain ⟨run, hrun, hplace⟩ := Option.map_eq_some_iff.mp hroute
    obtain ⟨hlevel, hclosed⟩ := Prod.mk.inj hplace
    cases hclosed.symm.trans (hall readingTopAgent 2 run false hrun hlevel)
  · intro hall
    have hroute : ((grown (adoptedWorker 1)).run? 4).map escalationRoute = some (.parent 1) := by
      decide
    have hlevel : ((grown (adoptedWorker 1)).run? 1).map (·.profile.level) = some .secretary := by
      decide
    obtain ⟨run, hrun, hparent⟩ := Option.map_eq_some_iff.mp hroute
    obtain ⟨above, habove, hsecretary⟩ := Option.map_eq_some_iff.mp hlevel
    exact hall (adoptedWorker 1) 4 run 1 above hrun hparent habove hsecretary

end MarloweAgent.Loop
