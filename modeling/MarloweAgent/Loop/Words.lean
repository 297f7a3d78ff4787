import MarloweAgent.Loop.Latch
import MarloweAgent.Loop.Passage
import MarloweAgent.Loop.Restoring

/-! Whose words a target is. The table of attributions holds nothing but what the user said,
whole or word by word; so under a floor that blocks composed targets, a call that is not
refused takes its targets from there. The floor a run has latched, or will latch from the
session it starts with, is over every call it judges, in the runs it nests too. -/

namespace MarloweAgent.Loop
open Contract Library Tools Permission
open Fallible (lift)

variable {σ α : Type} {sys : Outside σ} {said said' : Set String}

/-! ## The user's words -/

/-- A whole message of the user, trimmed, or one of its words. -/
def WordOf (said : Set String) (value : String) : Prop :=
  ∃ text ∈ said, value = Text.trim text ∨ value ∈ Text.splitWhitespace text

theorem WordOf.mono (h : said ⊆ said') {value : String} (hv : WordOf said value) :
    WordOf said' value := by
  obtain ⟨text, htext, hword⟩ := hv
  exact ⟨text, h htext, hword⟩

namespace Provenance

/-- Nothing is attributed that is not the user's. -/
def Faithful (said : Set String) (p : Provenance) : Prop :=
  ∀ value cls, p.attributed.get? value = some cls → WordOf said value

theorem faithful_new : Faithful said .new := nofun

theorem Faithful.mono (h : said ⊆ said') {p : Provenance} (hp : p.Faithful said) :
    p.Faithful said' :=
  fun value cls hget => (hp value cls hget).mono h

theorem Faithful.attributeValue {p : Provenance} (hp : p.Faithful said) {value : String}
    (hvalue : WordOf said value) (cls : TrustClass) :
    (p.attributeValue value cls).Faithful said := by
  intro other found hget
  unfold Provenance.attributeValue at hget
  rw [OrderedMap.get?_insert] at hget
  split at hget
  · rename_i hsame
    exact hsame ▸ hvalue
  · exact hp other found hget

/-- A message of the user attributes itself and its words. -/
theorem Faithful.attributeUserMessage {p : Provenance} (hp : p.Faithful said) {text : String}
    (htext : text ∈ said) : (p.attributeUserMessage text).Faithful said := by
  have hwords : ∀ (words : List String) (p : Provenance), p.Faithful said →
      (∀ word ∈ words, WordOf said word) →
        (words.foldl (fun p token => p.attributeValue token .userAsserted) p).Faithful said := by
    intro words
    induction words with
    | nil => exact fun p hp _ => hp
    | cons word rest ih =>
      intro p hp hall
      exact ih _ (hp.attributeValue (hall word List.mem_cons_self) _)
        fun w hw => hall w (List.mem_cons_of_mem _ hw)
  exact hwords _ _ (hp.attributeValue ⟨text, htext, .inl rfl⟩ _)
    fun word hword => ⟨text, htext, .inr hword⟩

end Provenance

/-! ## What is judged under a latched floor -/

/-- The targets of a call that is let through above `inert` are the user's words. -/
def TargetsSaid (said : Set String) (req : Request) (adjudication : Adjudication) : Prop :=
  adjudication.decision.outcome.isBlocked = false → .inert < req.manifest.consequence →
    ∀ name value, (name, value) ∈ req.args.entries →
      (req.manifest.roleOf name).getD .target = .target →
        ∃ text, value = .text text ∧ WordOf said text

/-- A call judged under a floor that blocks composed targets. -/
def Effect.LatchedTargets (said : Set String) : Effect → Prop
  | .adjudicated run _ req adjudication =>
    blocksComposedTargets run.trustFloor = true → TargetsSaid said req adjudication
  | _ => True

theorem TargetsSaid.mono (h : said ⊆ said') {req : Request} {adjudication : Adjudication}
    (ht : TargetsSaid said req adjudication) : TargetsSaid said' req adjudication := by
  intro hblocked hinert name value hmem hrole
  obtain ⟨text, hvalue, hword⟩ := ht hblocked hinert name value hmem hrole
  exact ⟨text, hvalue, hword.mono h⟩

theorem Effect.LatchedTargets.mono (h : said ⊆ said') {e : Effect} (he : e.LatchedTargets said) :
    e.LatchedTargets said' := by
  cases e with
  | adjudicated run seen req adjudication => exact fun hfloor => (he hfloor).mono h
  | _ => trivial

theorem Effect.latchedTargets_of_not {e : Effect} (h : e.isJudgement = false) :
    e.LatchedTargets said := by
  cases e with
  | adjudicated => cases h
  | _ => trivial

/-- **A floor that blocks leaves only what is attributed.** -/
theorem judged_latchedTargets {m : Machine σ} (hp : m.frame.provenance.Faithful said)
    (view : ContextView) (manifest : CapabilityManifest) (args : Args) (id : Nat) (env : σ) :
    (Effect.adjudicated m.run m.frame.seen (requestFor m view manifest args)
      ((adjudicate sys.scope id (requestFor m view manifest args)).run env).1).LatchedTargets
        said := by
  intro hfloor hblocked hinert name value hmem hrole
  let req := requestFor m view manifest args
  have hcleared : Cleared req := by
    rcases @adjudicate_cases σ sys.scope id req env with h | h
    · rw [hblocked] at h
      cases h
    · exact h.1
  have htrusted := hcleared.targets hinert name value hmem hrole
  have hlow : min view.trustFloor m.run.trustFloor ≤ .untrustedContent :=
    (min_le_right _ _).trans (blocksComposedTargets_iff.mp hfloor).le
  have htaint : req.taint.of name =
      m.frame.provenance.classOf (min view.trustFloor m.run.trustFloor) value := by
    have hget : req.args.get name = some value := req.args.byName.get?_of_mem_bindings hmem
    show (m.frame.provenance.taintFor req.args view m.run.trustFloor).of name = _
    rw [Provenance.taintFor_of, hget]
  cases value with
  | text text =>
    refine ⟨text, rfl, ?_⟩
    cases hget : m.frame.provenance.attributed.get? text with
    | some cls => exact hp text cls hget
    | none =>
      refine absurd (htaint.le.trans ?_) htrusted
      rw [Provenance.classOf, hget]
      exact hlow
  | integer | amount | boolean => exact absurd (htaint.le.trans hlow) htrusted

/-! ## Whole executions -/

/-- The table stays faithful, and what is judged under a latched floor is the user's. -/
structure Words (said : σ → Set String) (m m' : Machine σ) : Prop where
  remembers : said m.env ⊆ said m'.env
  faithful : m.frame.provenance.Faithful (said m.env) → m'.frame.provenance.Faithful (said m'.env)
  judged : m.frame.provenance.Faithful (said m.env) →
    ∃ es, m'.trace = m.trace ++ es ∧ ∀ e ∈ es, e.LatchedTargets (said m'.env)

section Executions

variable {said : σ → Set String} {judging : Prop} {m m' : Machine σ}

theorem Words.trans (m m' m'' : Machine σ) (h : Words said m m') (h' : Words said m' m'') :
    Words said m m'' := by
  refine ⟨h.remembers.trans h'.remembers, fun hp => h'.faithful (h.faithful hp), fun hp => ?_⟩
  obtain ⟨es, htrace, hes⟩ := h.judged hp
  obtain ⟨es', htrace', hes'⟩ := h'.judged (h.faithful hp)
  refine ⟨es ++ es', by rw [htrace', htrace, List.append_assoc], ?_⟩
  exact List.forall_mem_append.mpr ⟨fun e he => (hes e he).mono h'.remembers, hes'⟩

/-- Some effects are added, and nothing else moves that matters here. -/
theorem Words.of_trace {es : List Effect} (env : m'.env = m.env)
    (provenance : m'.frame.provenance = m.frame.provenance) (trace : m'.trace = m.trace ++ es)
    (h : m.frame.provenance.Faithful (said m.env) → ∀ e ∈ es, e.LatchedTargets (said m.env)) :
    Words said m m' := by
  refine ⟨by rw [env], by rw [env, provenance]; exact id, fun hp => ⟨es, trace, ?_⟩⟩
  rw [env]
  exact h hp

theorem Change.words (h : Change sys said judging m m') : Words said m m' := by
  have hquiet : ∀ {m' : Machine σ}, m'.env = m.env → m'.frame.provenance = m.frame.provenance →
      m'.trace = m.trace → Words said m m' := fun env provenance trace =>
    .of_trace env provenance (trace.trans (List.append_nil _).symm) (by simp)
  cases h with
  | env env h =>
    exact ⟨h, fun hp => hp.mono h, fun _ => ⟨[], (List.append_nil _).symm, by simp⟩⟩
  | heard text h =>
    exact ⟨Set.Subset.refl _, fun hp => hp.attributeUserMessage h,
      fun _ => ⟨[], (List.append_nil _).symm, by simp⟩⟩
  | note e h =>
    exact .of_trace rfl rfl rfl fun _ => by
      simpa using Effect.latchedTargets_of_not (Bool.or_eq_false_iff.mp h).1
  | consulted chunk => exact .of_trace rfl rfl rfl fun _ => by simp [Effect.LatchedTargets]
  | judged _ view manifest args id env =>
    refine .of_trace rfl rfl rfl fun hp => ?_
    simpa using judged_latchedTargets hp view manifest args id env
  | run | aside | engine | cached | state | shown | drawn => exact hquiet rfl rfl rfl

/-- **Whatever the engine changes**, its table stays faithful: a nested run starts with an
empty one, and leaves its parent's as it was. -/
theorem Goes.words (h : Goes sys said judging m m') : Words said m m' := by
  refine Calls.relates (fun _ => .of_trace rfl rfl (List.append_nil _).symm (by simp)) Words.trans
    (fun _ _ => Change.words) ?_ h
  rintro m c d m' ⟨frame, hnew, -, rfl⟩ hbody rfl
  have hopened : frame.provenance.Faithful (said m.env) := hnew ▸ Provenance.faithful_new
  exact ⟨hbody.remembers, fun hp => hp.mono hbody.remembers, fun _ => hbody.judged hopened⟩

end Executions

end MarloweAgent.Loop
