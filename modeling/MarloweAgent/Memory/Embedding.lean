import MarloweAgent.Memory.Cache
import MarloweAgent.Memory.Vectors

/-! The embedder over its cache. Any number of processes load embedders of any identities over
one cache directory; each answers from the cache where it can, computes what is left on its
workers, and appends what it computed. Appends can fail half-way. -/

namespace MarloweAgent.Memory
open Library

inductive EmbedError
  | run (reason : String)
  | cache (why : CacheError)
  /-- A slot of the batch was left empty, where the code would panic. -/
  | emptySlot
  deriving DecidableEq, Repr

structure EmbedderState (dimensions : Nat) where
  identity : CacheIdentity
  cache : Option (EmbeddingCache dimensions)
  /-- One session for each worker. -/
  workers : Nat
  truncated : Nat
  busy : 0 < workers

section Embedder

variable {dimensions : Nat} (blake3 : List UInt8 → List UInt8)
variable (vocab : CacheIdentity → Vocab) (unicode : Unicode)
/- The graph of an identity with the pooling after it. -/
variable (graph : CacheIdentity → List TokenId → Embedding dimensions)

/-- What computing a text gives under an identity. -/
def embeddingOf (identity : CacheIdentity) (text : String) : Embedding dimensions :=
  graph identity (encode (vocab identity) unicode text embedderMaxSeqLen).inputIds

namespace EmbedderState

def load (files : CacheFiles) (identity : CacheIdentity) (workers : Nat) (cached : Bool) :
    Except EmbedError (EmbedderState dimensions) :=
  let requested := max workers 1
  have busy : 0 < requested := Nat.lt_of_lt_of_le Nat.one_pos (Nat.le_max_right ..)
  if cached then
    match EmbeddingCache.open blake3 files identity with
    | .ok cache => .ok ⟨identity, some cache, requested, 0, busy⟩
    | .error e => .error (.cache e)
  else .ok ⟨identity, none, requested, 0, busy⟩

def lookup (e : EmbedderState dimensions) (text : String) :
    Option (Embedding dimensions) × EmbedderState dimensions :=
  match e.cache with
  | none => (none, e)
  | some cache =>
    let (hit, cache) := cache.get blake3 text
    (hit, { e with cache := some cache })

def store (e : EmbedderState dimensions) (files : CacheFiles) (text : String)
    (vector : Embedding dimensions) (append : Appended) :
    Except EmbedError Unit × EmbedderState dimensions × CacheFiles :=
  match e.cache with
  | none => (.ok (), e, files)
  | some cache =>
    match EmbeddingCache.put blake3 files cache text vector append with
    | (.ok (), cache, files) => (.ok (), { e with cache := some cache }, files)
    | (.error why, cache, files) => (.error (.cache why), { e with cache := some cache }, files)

/-- One run of a session, which can fail. -/
def forward (identity : CacheIdentity) (fail : Option String) (encoded : Encoded) :
    Except EmbedError (Embedding dimensions) :=
  match fail with
  | some reason => .error (.run reason)
  | none => .ok (graph identity encoded.inputIds)

def embed (e : EmbedderState dimensions) (files : CacheFiles) (text : String) (fail : Option String)
    (append : Appended) :
    Except EmbedError (Embedding dimensions) × EmbedderState dimensions × CacheFiles :=
  match e.lookup blake3 text with
  | (some hit, e) => (.ok hit, e, files)
  | (none, e) =>
    let encoded := encode (vocab e.identity) unicode text embedderMaxSeqLen
    let e := { e with truncated := if encoded.truncated then e.truncated + 1 else e.truncated }
    match forward graph e.identity fail encoded with
    | .error why => (.error why, e, files)
    | .ok vector =>
      match e.store blake3 files text vector append with
      | (.ok (), e, files) => (.ok vector, e, files)
      | (.error why, e, files) => (.error why, e, files)

/-! ## A batch -/

/-- The lookups, single-threaded and in order. -/
def lookups (e : EmbedderState dimensions) : List String →
    List (Option (Embedding dimensions)) × EmbedderState dimensions
  | [] => ([], e)
  | text :: rest =>
    let (hit, e) := e.lookup blake3 text
    let (out, e) := lookups e rest
    (hit :: out, e)

/-- Contiguous shares for the workers, in worker order. -/
def share {α : Type} (perWorker : Nat) : Nat → List α → List (List α)
  | 0, _ => []
  | workers + 1, remaining => remaining.take perWorker :: share perWorker workers (remaining.drop perWorker)

/-- The computed vectors go to the cache and to their slots; the first failure ends it. -/
def fill (texts : List String) (appends : Nat → Appended) :
    List (Nat × Except EmbedError (Embedding dimensions)) → CacheFiles → EmbedderState dimensions →
      List (Option (Embedding dimensions)) →
      Except EmbedError (List (Option (Embedding dimensions))) × EmbedderState dimensions × CacheFiles
  | [], files, e, out => (.ok out, e, files)
  | (_, .error why) :: _, files, e, _ => (.error why, e, files)
  | (index, .ok vector) :: rest, files, e, out =>
    match e.store blake3 files (texts.getD index "") vector (appends index) with
    | (.ok (), e, files) => fill texts appends rest files e (out.set index (some vector))
    | (.error why, e, files) => (.error why, e, files)

def unwrapped (out : List (Option (Embedding dimensions))) :
    Except EmbedError (List (Embedding dimensions)) :=
  match out.mapM id with
  | some vectors => .ok vectors
  | none => .error .emptySlot

def embedBatch (e : EmbedderState dimensions) (files : CacheFiles) (texts : List String)
    (fails : Nat → Option String) (appends : Nat → Appended) :
    Except EmbedError (List (Embedding dimensions)) × EmbedderState dimensions × CacheFiles :=
  let (out, e) := e.lookups blake3 texts
  let pending := (List.range out.length).filter fun i => out[i]? = some none
  if pending.isEmpty then (unwrapped out, e, files)
  else
    let encoded := pending.map fun i =>
      (i, encode (vocab e.identity) unicode (texts.getD i "") embedderMaxSeqLen)
    let e := { e with truncated := e.truncated + (encoded.filter (·.2.truncated)).length }
    let perWorker := (encoded.length + e.workers - 1) / e.workers
    let computed := (share perWorker e.workers encoded).flatMap fun mine =>
      mine.map fun p => forward graph e.identity (fails p.1) p.2
    match fill blake3 texts appends (pending.zip computed) files e out with
    | (.ok out, e, files) => (unwrapped out, e, files)
    | (.error why, e, files) => (.error why, e, files)

end EmbedderState

end Embedder

/-! ## What a call leaves -/

section Calls

variable {dimensions : Nat} {blake3 : List UInt8 → List UInt8}
variable {vocab : CacheIdentity → Vocab} {unicode : Unicode}
variable {graph : CacheIdentity → List TokenId → Embedding dimensions}

namespace EmbedderState

/-- What the cache holds for a text. -/
def peek (blake3 : List UInt8 → List UInt8) (e : EmbedderState dimensions) (text : String) :
    Option (Embedding dimensions) :=
  e.cache.bind fun cache => cache.entries (cache.identity.key blake3 text)

/-- The same entries at the same file; the counts may differ. -/
structure Alike (e e' : EmbedderState dimensions) : Prop where
  identity : e'.identity = e.identity
  workers : e'.workers = e.workers
  uncached : e.cache = none → e'.cache = none
  cached : ∀ cache, e.cache = some cache → ∃ cache', e'.cache = some cache' ∧
    cache'.identity = cache.identity ∧ cache'.path = cache.path ∧ cache'.entries = cache.entries

namespace Alike

variable {a b c : EmbedderState dimensions}

theorem refl (a : EmbedderState dimensions) : Alike a a :=
  ⟨rfl, rfl, id, fun cache h => ⟨cache, h, rfl, rfl, rfl⟩⟩

theorem trans (h : Alike a b) (h' : Alike b c) : Alike a c := by
  refine ⟨h'.identity.trans h.identity, h'.workers.trans h.workers, fun hn => h'.uncached (h.uncached hn), ?_⟩
  intro cache hcache
  obtain ⟨mid, hmid, hi, hp, he⟩ := h.cached cache hcache
  obtain ⟨last, hlast, hi', hp', he'⟩ := h'.cached mid hmid
  exact ⟨last, hlast, hi'.trans hi, hp'.trans hp, he'.trans he⟩

theorem peek (h : Alike a b) : b.peek blake3 = a.peek blake3 := by
  funext text
  unfold EmbedderState.peek
  cases hcache : a.cache with
  | none => rw [h.uncached hcache]
  | some cache =>
    obtain ⟨cache', hcache', hi, -, he⟩ := h.cached cache hcache
    rw [hcache', Option.bind_some, Option.bind_some, hi, he]

end Alike

theorem lookup_spec (blake3 : List UInt8 → List UInt8) (e : EmbedderState dimensions) (text : String) :
    (e.lookup blake3 text).1 = e.peek blake3 text ∧ Alike e (e.lookup blake3 text).2 := by
  unfold lookup peek
  cases hcache : e.cache with
  | none => exact ⟨rfl, .refl e⟩
  | some cache =>
    simp only [Option.bind_some]
    unfold EmbeddingCache.get
    cases hentry : cache.entries (cache.identity.key blake3 text) with
    | none =>
      refine ⟨rfl, rfl, rfl, fun h => ?_, fun c h => ?_⟩
      · rw [hcache] at h
        cases h
      · obtain rfl := Option.some.inj (hcache.symm.trans h)
        exact ⟨_, rfl, rfl, rfl, rfl⟩
    | some vector =>
      refine ⟨rfl, rfl, rfl, fun h => ?_, fun c h => ?_⟩
      · rw [hcache] at h
        cases h
      · obtain rfl := Option.some.inj (hcache.symm.trans h)
        exact ⟨_, rfl, rfl, rfl, rfl⟩

theorem lookups_spec (blake3 : List UInt8 → List UInt8) (e : EmbedderState dimensions) (texts : List String) :
    (e.lookups blake3 texts).1 = texts.map (e.peek blake3) ∧ Alike e (e.lookups blake3 texts).2 := by
  induction texts generalizing e with
  | nil => exact ⟨rfl, .refl e⟩
  | cons text rest ih =>
    obtain ⟨hhit, halike⟩ := lookup_spec blake3 e text
    obtain ⟨hout, hrest⟩ := ih (e.lookup blake3 text).2
    refine ⟨?_, halike.trans hrest⟩
    change (e.lookup blake3 text).1 :: ((e.lookup blake3 text).2.lookups blake3 rest).1 = _
    rw [hhit, hout, halike.peek, List.map_cons]

/-- Contiguous shares put together again are what was shared out. -/
theorem flatten_share {α : Type} {perWorker workers : Nat} {items : List α}
    (h : items.length ≤ workers * perWorker) : (share perWorker workers items).flatten = items := by
  induction workers generalizing items with
  | zero =>
    have hnil : items = [] := List.length_eq_zero_iff.mp (by simpa using h)
    rw [hnil]
    rfl
  | succ workers ih =>
    have hrest : (items.drop perWorker).length ≤ workers * perWorker := by
      rw [List.length_drop]
      rw [Nat.succ_mul] at h
      omega
    rw [share, List.flatten_cons, ih hrest, List.take_append_drop]

theorem le_mul_divCeil (n : Nat) {workers : Nat} (h : 0 < workers) :
    n ≤ workers * ((n + workers - 1) / workers) := by
  have hlt := Nat.lt_mul_div_succ (n + workers - 1) h
  rw [Nat.mul_succ] at hlt
  omega

/-- **The number of workers does not show.** -/
theorem computed_eq {α β : Type} (workers : Nat) (h : 0 < workers) (items : List α) (f : α → β) :
    ((share ((items.length + workers - 1) / workers) workers items).flatMap fun mine => mine.map f) =
      items.map f := by
  rw [List.flatMap_def, ← List.map_flatten, flatten_share (le_mul_divCeil items.length h)]

end EmbedderState

/-- What a call wrote: whole records of some texts, and at last perhaps a part of one. -/
structure Wrote (blake3 : List UInt8 → List UInt8) (embedding : CacheIdentity → String → Embedding dimensions)
    (files : CacheFiles) (e : EmbedderState dimensions) (files' : CacheFiles)
    (e' : EmbedderState dimensions) (added : List String) (tail : List UInt8) : Prop where
  identity : e'.identity = e.identity
  uncached : e.cache = none → e'.cache = none ∧ files' = files
  cached : ∀ cache, e.cache = some cache → ∃ cache', e'.cache = some cache' ∧
    cache'.identity = cache.identity ∧ cache'.path = cache.path ∧
    (files' cache.path).getD [] =
      (files cache.path).getD [] ++ fileOf embedding blake3 cache.identity added ++ tail ∧
    (∀ path, path ≠ cache.path → files' path = files path) ∧
    (∀ key v, cache'.entries key = some v → cache.entries key = some v ∨
      ∃ text ∈ added, key = cache.identity.key blake3 text ∧ v = embedding cache.identity text) ∧
    (∀ key v, cache.entries key = some v → cache'.entries key = some v)

namespace Wrote

variable {embedding : CacheIdentity → String → Embedding dimensions}
variable {files files' files'' : CacheFiles} {e e' e'' : EmbedderState dimensions}
variable {added more : List String} {tail : List UInt8}

theorem of_alike (files : CacheFiles) (h : e.Alike e') : Wrote blake3 embedding files e files e' [] [] := by
  refine ⟨h.identity, fun hn => ⟨h.uncached hn, rfl⟩, fun cache hcache => ?_⟩
  obtain ⟨cache', hcache', hi, hp, he⟩ := h.cached cache hcache
  refine ⟨cache', hcache', hi, hp, by simp [fileOf], fun _ _ => rfl, fun key v hv => .inl ?_, ?_⟩
  · rwa [he] at hv
  · intro key v hv
    rwa [he]

theorem trans (h : Wrote blake3 embedding files e files' e' added [])
    (h' : Wrote blake3 embedding files' e' files'' e'' more tail) :
    Wrote blake3 embedding files e files'' e'' (added ++ more) tail := by
  refine ⟨h'.identity.trans h.identity, fun hn => ?_, fun cache hcache => ?_⟩
  · obtain ⟨hn', hfiles⟩ := h.uncached hn
    obtain ⟨hn'', hfiles'⟩ := h'.uncached hn'
    exact ⟨hn'', hfiles'.trans hfiles⟩
  · obtain ⟨mid, hmid, hi, hp, hfile, hothers, hback, hkeep⟩ := h.cached cache hcache
    obtain ⟨last, hlast, hi', hp', hfile', hothers', hback', hkeep'⟩ := h'.cached mid hmid
    refine ⟨last, hlast, hi'.trans hi, hp'.trans hp, ?_, ?_, ?_, fun key v hv => hkeep' key v (hkeep key v hv)⟩
    · rw [← hp, hfile', hp, hfile, hi]
      simp [fileOf]
    · intro path hpath
      rw [hothers' path (hp ▸ hpath), hothers path hpath]
    · intro key v hv
      rcases hback' key v hv with hmidv | ⟨text, htext, hkey, hv'⟩
      · rcases hback key v hmidv with hold | ⟨text, htext, hkey, hv'⟩
        · exact .inl hold
        · exact .inr ⟨text, List.mem_append_left _ htext, hkey, hv'⟩
      · exact .inr ⟨text, List.mem_append_right _ htext, hi ▸ hkey, hi ▸ hv'⟩

theorem peek_mono (h : Wrote blake3 embedding files e files' e' added tail) {text : String}
    {v : Embedding dimensions} (hv : e.peek blake3 text = some v) : e'.peek blake3 text = some v := by
  unfold EmbedderState.peek at hv ⊢
  cases hcache : e.cache with
  | none =>
    rw [hcache] at hv
    cases hv
  | some cache =>
    obtain ⟨cache', hcache', hi, -, -, -, -, hkeep⟩ := h.cached cache hcache
    rw [hcache, Option.bind_some] at hv
    rw [hcache', Option.bind_some, hi]
    exact hkeep _ v hv

end Wrote

/-- Everything the cache holds was computed for the text it stands under. -/
structure Sound (blake3 : List UInt8 → List UInt8) (embedding : CacheIdentity → String → Embedding dimensions)
    (texts : List String) (e : EmbedderState dimensions) : Prop where
  own : ∀ cache, e.cache = some cache →
    cache.identity = e.identity ∧ cache.path = EmbeddingCache.fileName blake3 e.identity
  entries : ∀ cache, e.cache = some cache → ∀ key v, cache.entries key = some v →
    ∃ text ∈ texts, key = e.identity.key blake3 text ∧ v = embedding e.identity text

namespace Sound

variable {embedding : CacheIdentity → String → Embedding dimensions}
variable {files files' : CacheFiles} {e e' : EmbedderState dimensions}
variable {texts added : List String} {tail : List UInt8} {identities : List CacheIdentity}

theorem wrote (h : Sound blake3 embedding texts e)
    (hw : Wrote blake3 embedding files e files' e' added tail) (hadded : ∀ text ∈ added, text ∈ texts) :
    Sound blake3 embedding texts e' := by
  have hcases : ∀ cache', e'.cache = some cache' → ∃ cache, e.cache = some cache ∧
      cache'.identity = cache.identity ∧ cache'.path = cache.path ∧
      (∀ key v, cache'.entries key = some v → cache.entries key = some v ∨
        ∃ text ∈ added, key = cache.identity.key blake3 text ∧ v = embedding cache.identity text) := by
    intro cache' hcache'
    cases hcache : e.cache with
    | none =>
      rw [(hw.uncached hcache).1] at hcache'
      cases hcache'
    | some cache =>
      obtain ⟨other, hother, hi, hp, -, -, hback, -⟩ := hw.cached cache hcache
      obtain rfl := Option.some.inj (hother.symm.trans hcache')
      exact ⟨cache, rfl, hi, hp, hback⟩
  refine ⟨fun cache' hcache' => ?_, fun cache' hcache' key v hv => ?_⟩
  · obtain ⟨cache, hcache, hi, hp, -⟩ := hcases cache' hcache'
    obtain ⟨hown, hpath⟩ := h.own cache hcache
    rw [hi, hp, hw.identity]
    exact ⟨hown, hpath⟩
  · obtain ⟨cache, hcache, hi, hp, hback⟩ := hcases cache' hcache'
    obtain ⟨hown, -⟩ := h.own cache hcache
    rw [hw.identity]
    rcases hback key v hv with hold | ⟨text, htext, hkey, hv'⟩
    · exact h.entries cache hcache key v hold
    · exact ⟨text, hadded text htext, hown ▸ hkey, hown ▸ hv'⟩

/-- A hit is what computing would give. -/
theorem peek_eq (h : Sound blake3 embedding texts e) (hapart : Apart blake3 identities texts)
    (hidentity : e.identity ∈ identities) {text : String} (htext : text ∈ texts)
    {v : Embedding dimensions} (hv : e.peek blake3 text = some v) : v = embedding e.identity text := by
  unfold EmbedderState.peek at hv
  cases hcache : e.cache with
  | none =>
    rw [hcache] at hv
    cases hv
  | some cache =>
    rw [hcache, Option.bind_some, (h.own cache hcache).1] at hv
    obtain ⟨other, hother, hkey, rfl⟩ := h.entries cache hcache _ v hv
    rw [hapart.text_eq hidentity htext hother hkey]

theorem of_alike (h : Sound blake3 embedding texts e) (halike : e.Alike e') :
    Sound blake3 embedding texts e' :=
  h.wrote (Wrote.of_alike (fun _ => none) halike) (by simp)

end Sound

namespace EmbedderState

variable {embedding : CacheIdentity → String → Embedding dimensions}
variable {texts : List String}

/-- A call left the embedder remembering the text, if it has a cache. -/
def Remembers (blake3 : List UInt8 → List UInt8) (e : EmbedderState dimensions) (text : String) : Prop :=
  e.cache ≠ none → e.peek blake3 text ≠ none

theorem Remembers.wrote {files files' : CacheFiles} {e e' : EmbedderState dimensions}
    {added : List String} {tail : List UInt8} {text : String} (h : e.Remembers blake3 text)
    (hw : Wrote blake3 embedding files e files' e' added tail) : e'.Remembers blake3 text := by
  intro hcache'
  have hcache : e.cache ≠ none := fun hn => hcache' (hw.uncached hn).1
  obtain ⟨v, hv⟩ := Option.ne_none_iff_exists'.mp (h hcache)
  rw [hw.peek_mono hv]
  exact Option.some_ne_none v

/-- What a call of a cached embedder appended to the file of its cache. -/
theorem wrote_append (files : CacheFiles) {e : EmbedderState dimensions}
    {cache : EmbeddingCache dimensions} (hcache : e.cache = some cache)
    (entries : List UInt8 → Option (Embedding dimensions)) (added : List String) (tail : List UInt8)
    (hback : ∀ key v, entries key = some v → cache.entries key = some v ∨
      ∃ text ∈ added, key = cache.identity.key blake3 text ∧ v = embedding cache.identity text)
    (hkeep : ∀ key v, cache.entries key = some v → entries key = some v) :
    Wrote blake3 embedding files e
      (Function.update files cache.path (some ((files cache.path).getD [] ++
        (fileOf embedding blake3 cache.identity added ++ tail))))
      { e with cache := some { cache with entries := entries } } added tail := by
  refine ⟨rfl, fun hn => ?_, fun c hc => ?_⟩
  · rw [hcache] at hn
    cases hn
  · obtain rfl := Option.some.inj (hcache.symm.trans hc)
    refine ⟨_, rfl, rfl, rfl, ?_, fun path hpath => Function.update_of_ne hpath .., hback, hkeep⟩
    rw [Function.update_self, Option.getD_some, List.append_assoc]

theorem store_spec (hwidth : ∀ input, (blake3 input).length = 32) (files : CacheFiles)
    {e : EmbedderState dimensions} (hsound : Sound blake3 embedding texts e) (text : String)
    (append : Appended) :
    ∃ added tail result files' e',
      e.store blake3 files text (embedding e.identity text) append = (result, e', files') ∧
      Wrote blake3 embedding files e files' e' added tail ∧ (∀ t ∈ added, t = text) ∧
      tail.length < recordWidth dimensions ∧
      (result = .ok () → tail = [] ∧ e'.Remembers blake3 text) ∧
      (∀ why, result = .error why → why = .cache (.io (EmbeddingCache.fileName blake3 e.identity))) := by
  have hpos : 0 < recordWidth dimensions := by simp [recordWidth]
  cases hcache : e.cache with
  | none =>
    refine ⟨[], [], .ok (), files, e, by simp [store, hcache], .of_alike files (.refl e), by simp, hpos,
      fun _ => ⟨rfl, fun h => absurd hcache h⟩, fun why h => by cases h⟩
  | some cache =>
    obtain ⟨hown, hpath⟩ := hsound.own cache hcache
    have hsame : { e with cache := some cache } = e := by rw [← hcache]
    have hrecord := length_record hwidth cache.identity text (embedding cache.identity text)
    cases hentry : cache.entries (cache.identity.key blake3 text) with
    | some v =>
      refine ⟨[], [], .ok (), files, e, ?_, .of_alike files (.refl e), by simp, hpos,
        fun _ => ⟨rfl, fun _ => ?_⟩, fun why h => by cases h⟩
      · simp [store, hcache, EmbeddingCache.put, hentry, hsame]
      · simp [peek, hcache, hentry]
    | none =>
      cases append with
      | whole =>
        refine ⟨[text], [], .ok (), _, _, ?_, wrote_append files hcache
          (Function.update cache.entries (cache.identity.key blake3 text)
            (some (embedding cache.identity text))) [text] [] (fun key v hv => ?_) (fun key v hv => ?_),
          by simp, hpos, fun _ => ⟨rfl, fun _ => ?_⟩, fun why h => by cases h⟩
        · simp [store, hcache, EmbeddingCache.put, hentry, fileOf, ← hown]
        · by_cases hkey : key = cache.identity.key blake3 text
          · subst hkey
            rw [Function.update_self] at hv
            exact .inr ⟨text, List.mem_cons_self, rfl, (Option.some.inj hv).symm⟩
          · rw [Function.update_of_ne hkey] at hv
            exact .inl hv
        · have hkey : key ≠ cache.identity.key blake3 text := by
            rintro rfl
            rw [hentry] at hv
            cases hv
          rwa [Function.update_of_ne hkey]
        · simp [peek]
      | torn written =>
        refine ⟨[], _, .error (.cache (.io cache.path)), _, _, ?_,
          wrote_append files hcache cache.entries []
            ((EmbeddingCache.record blake3 cache.identity text
              (embedding cache.identity text)).take (min written (recordWidth dimensions - 1)))
            (fun _ _ => .inl) (fun _ _ => id),
          by simp, ?_, fun h => (by cases h), fun why h => ?_⟩
        · simp [store, hcache, EmbeddingCache.put, hentry, fileOf, hrecord, ← hown]
        · rw [List.length_take, hrecord]
          omega
        · rw [← Except.error.inj h, hpath]

/-- What a call comes to: what it wrote, and what it says of the texts if it succeeds. -/
def Comes {α : Type} (blake3 : List UInt8 → List UInt8) (embedding : CacheIdentity → String → Embedding dimensions)
    (texts : List String) (files : CacheFiles) (e : EmbedderState dimensions)
    (call : Except EmbedError α × EmbedderState dimensions × CacheFiles) (told : α → EmbedderState dimensions → Prop) :
    Prop :=
  ∃ added tail, Wrote blake3 embedding files e call.2.2 call.2.1 added tail ∧ (∀ t ∈ added, t ∈ texts) ∧
    tail.length < recordWidth dimensions ∧
    (tail ≠ [] → call.1 = .error (.cache (.io (EmbeddingCache.fileName blake3 e.identity)))) ∧
    (∀ a, call.1 = .ok a → told a call.2.1) ∧ call.1 ≠ .error .emptySlot

theorem fill_spec (hwidth : ∀ input, (blake3 input).length = 32) (batch : List String)
    (appends : Nat → Appended) (items : List (Nat × Except EmbedError (Embedding dimensions)))
    (files : CacheFiles) {e : EmbedderState dimensions} (hsound : Sound blake3 embedding texts e)
    (hbatch : ∀ p ∈ items, batch.getD p.1 "" ∈ texts)
    (hright : ∀ p ∈ items, ∀ v, p.2 = .ok v → v = embedding e.identity (batch.getD p.1 ""))
    (hslots : ∀ p ∈ items, p.2 ≠ .error .emptySlot) (out : List (Option (Embedding dimensions))) :
    Comes blake3 embedding texts files e (fill blake3 batch appends items files e out) fun out' e' =>
      (∀ p ∈ items, e'.Remembers blake3 (batch.getD p.1 "")) ∧
      out' = items.foldl (fun out p => out.set p.1 (some (embedding e.identity (batch.getD p.1 "")))) out := by
  have hpos : 0 < recordWidth dimensions := by simp [recordWidth]
  induction items generalizing files e out with
  | nil =>
    refine ⟨[], [], .of_alike files (.refl e), by simp, hpos, by simp, fun a ha => ⟨by simp, ?_⟩,
      fun h => by cases h⟩
    exact (Except.ok.inj ha).symm
  | cons p rest ih =>
    obtain ⟨index, result⟩ := p
    cases result with
    | error why =>
      refine ⟨[], [], .of_alike files (.refl e), by simp, hpos, by simp, fun a ha => (by cases ha), fun h => ?_⟩
      exact hslots _ List.mem_cons_self (congrArg _ (Except.error.inj h))
    | ok vector =>
      have hvector : vector = embedding e.identity (batch.getD index "") :=
        hright _ List.mem_cons_self vector rfl
      subst hvector
      obtain ⟨added, tail, result, files', e', hstore, hw, hadded, htail, hok, herror⟩ :=
        store_spec hwidth files hsound (batch.getD index "") (appends index)
      have hin : ∀ t ∈ added, t ∈ texts := by
        intro t ht
        rw [hadded t ht]
        exact hbatch _ List.mem_cons_self
      unfold fill
      rw [hstore]
      cases result with
      | error why =>
        have hwhy := herror why rfl
        subst hwhy
        exact ⟨added, tail, hw, hin, htail, fun _ => rfl, fun a ha => (by cases ha), fun h => by cases h⟩
      | ok u =>
        obtain ⟨rfl, hremembers⟩ := hok rfl
        have hidentity := hw.identity
        obtain ⟨more, tail', hw', hmore, htail', htorn', hok', hslot'⟩ := ih files' (hsound.wrote hw hin)
          (fun p hp => hbatch p (List.mem_cons_of_mem _ hp))
          (fun p hp v hv => hidentity ▸ hright p (List.mem_cons_of_mem _ hp) v hv)
          (fun p hp => hslots p (List.mem_cons_of_mem _ hp))
          (out.set index (some (embedding e.identity (batch.getD index ""))))
        refine ⟨added ++ more, tail', hw.trans hw', ?_, htail', fun h => ?_, fun a ha => ?_, hslot'⟩
        · intro t ht
          rcases List.mem_append.mp ht with h | h
          · exact hin t h
          · exact hmore t h
        · rw [htorn' h, hidentity]
        · obtain ⟨hrest, hout⟩ := hok' a ha
          refine ⟨List.forall_mem_cons.mpr ⟨hremembers.wrote hw', hrest⟩, ?_⟩
          rw [hout, List.foldl_cons, hidentity]

theorem getElem?_foldl_set {α : Type} (indices : List Nat) (g : Nat → α) (out : List α) (j : Nat) :
    (indices.foldl (fun out i => out.set i (g i)) out)[j]? =
      if j ∈ indices ∧ j < out.length then some (g j) else out[j]? := by
  induction indices generalizing out with
  | nil => simp
  | cons i rest ih =>
    rw [List.foldl_cons, ih, List.length_set, List.getElem?_set]
    by_cases hi : i = j
    · subst hi
      by_cases hlt : i < out.length <;> simp [hlt]
    · simp [hi, Ne.symm hi]

theorem unwrapped_some (vectors : List (Embedding dimensions)) :
    unwrapped (vectors.map some) = .ok vectors := by
  have hall : ∀ vectors : List (Embedding dimensions), (vectors.map some).mapM id = some vectors := by
    intro vectors
    induction vectors with
    | nil => rfl
    | cons v rest ih => simp [ih]
  rw [unwrapped, hall]

/-- Filled slot by slot, the batch is computed. -/
theorem filled_eq {identities : List CacheIdentity} {e : EmbedderState dimensions}
    (hsound : Sound blake3 embedding texts e) (hapart : Apart blake3 identities texts)
    (hidentity : e.identity ∈ identities) {batch : List String} (hbatch : ∀ t ∈ batch, t ∈ texts) :
    ((List.range (batch.map (e.peek blake3)).length).filter
        fun i => (batch.map (e.peek blake3))[i]? = some none).foldl
        (fun out i => out.set i (some (embedding e.identity (batch.getD i ""))))
        (batch.map (e.peek blake3)) =
      (batch.map (embedding e.identity)).map some := by
  refine List.ext_getElem? fun j => ?_
  rw [getElem?_foldl_set]
  by_cases hj : j < batch.length
  · have hget : batch[j]? = some batch[j] := List.getElem?_eq_getElem hj
    cases hpeek : e.peek blake3 batch[j] with
    | none => simp [hj, hpeek]
    | some v =>
      have hv := hsound.peek_eq hapart hidentity (hbatch _ (List.getElem_mem hj)) hpeek
      simp [hj, hpeek, hv]
  · simp [hj]

theorem Comes.of_alike {α : Type} {files : CacheFiles} {e e' : EmbedderState dimensions}
    {call : Except EmbedError α × EmbedderState dimensions × CacheFiles}
    {told : α → EmbedderState dimensions → Prop} (h : e.Alike e')
    (hcomes : Comes blake3 embedding texts files e' call told) :
    Comes blake3 embedding texts files e call told := by
  obtain ⟨added, tail, hw, hadded, htail, htorn, hok, hslot⟩ := hcomes
  exact ⟨added, tail, (Wrote.of_alike files h).trans hw, hadded, htail, fun ht => h.identity ▸ htorn ht, hok, hslot⟩

theorem forward_ok {identity : CacheIdentity} {fail : Option String} {encoded : Encoded}
    {v : Embedding dimensions} (h : forward graph identity fail encoded = .ok v) :
    v = graph identity encoded.inputIds := by
  cases fail with
  | some reason => cases h
  | none => exact (Except.ok.inj h).symm

theorem forward_ne_emptySlot (identity : CacheIdentity) (fail : Option String) (encoded : Encoded) :
    forward graph identity fail encoded ≠ .error .emptySlot := by
  cases fail <;> exact fun h => by cases h

theorem alike_counted (e : EmbedderState dimensions) (n : Nat) : e.Alike { e with truncated := n } :=
  ⟨rfl, rfl, id, fun cache h => ⟨cache, h, rfl, rfl, rfl⟩⟩

variable {identities : List CacheIdentity}

/-- **One text.** A call that succeeds gives what computing gives, from the cache or not. -/
theorem embed_spec (hapart : Apart blake3 identities texts) (files : CacheFiles)
    {e : EmbedderState dimensions} (hidentity : e.identity ∈ identities)
    (hsound : Sound blake3 (embeddingOf vocab unicode graph) texts e) {text : String} (htext : text ∈ texts)
    (fail : Option String) (append : Appended) :
    Comes blake3 (embeddingOf vocab unicode graph) texts files e
      (e.embed blake3 vocab unicode graph files text fail append) fun v e' =>
        v = embeddingOf vocab unicode graph e.identity text ∧ e'.Remembers blake3 text := by
  have hpos : 0 < recordWidth dimensions := by simp [recordWidth]
  obtain ⟨hhit, halike⟩ := lookup_spec blake3 e text
  unfold embed
  generalize hlookup : e.lookup blake3 text = looked at hhit halike
  obtain ⟨hit, looked⟩ := looked
  cases hit with
  | some v =>
    refine ⟨[], [], .of_alike files halike, by simp, hpos, by simp, fun a ha => ?_, fun h => by cases h⟩
    obtain rfl := Except.ok.inj ha
    refine ⟨hsound.peek_eq hapart hidentity htext hhit.symm, fun _ => ?_⟩
    rw [halike.peek, ← hhit]
    exact Option.some_ne_none v
  | none =>
    simp only
    generalize hcounted : ({ looked with truncated :=
      if (encode (vocab looked.identity) unicode text embedderMaxSeqLen).truncated then
        looked.truncated + 1 else looked.truncated } : EmbedderState dimensions) = counted
    have hcounted : e.Alike counted := by
      rw [← hcounted]
      exact halike.trans (alike_counted looked _)
    have hsame : counted.identity = looked.identity := hcounted.identity.trans halike.identity.symm
    refine .of_alike hcounted ?_
    cases hforward : forward graph looked.identity fail
        (encode (vocab looked.identity) unicode text embedderMaxSeqLen) with
    | error why =>
      refine ⟨[], [], .of_alike files (.refl counted), by simp, hpos, by simp, fun a ha => (by cases ha),
        fun h => ?_⟩
      rw [Except.error.inj h] at hforward
      exact forward_ne_emptySlot _ _ _ hforward
    | ok vector =>
      have hvector : vector = embeddingOf vocab unicode graph counted.identity text := by
        rw [forward_ok hforward, hsame]
        rfl
      subst hvector
      obtain ⟨added, tail, result, files', e', hstore, hw, hadded, htail, hok, herror⟩ :=
        store_spec hapart.width files (hsound.of_alike hcounted) text append
      have hin : ∀ t ∈ added, t ∈ texts := by
        intro t ht
        rw [hadded t ht]
        exact htext
      simp only [hstore]
      cases result with
      | ok u =>
        obtain ⟨rfl, hremembers⟩ := hok rfl
        refine ⟨added, [], hw, hin, hpos, by simp, fun a ha => ⟨?_, hremembers⟩, fun h => by cases h⟩
        rw [← Except.ok.inj ha, hcounted.identity]
      | error why =>
        have hwhy := herror why rfl
        subst hwhy
        exact ⟨added, tail, hw, hin, htail, fun _ => rfl, fun a ha => (by cases ha), fun h => by cases h⟩

/-- **A batch.** Whatever is in the cache and however many workers there are, a batch that
succeeds is what computing gives, text by text, and no slot is left empty. -/
theorem embedBatch_spec (hapart : Apart blake3 identities texts) (files : CacheFiles)
    {e : EmbedderState dimensions} (hidentity : e.identity ∈ identities)
    (hsound : Sound blake3 (embeddingOf vocab unicode graph) texts e) {batch : List String}
    (hbatch : ∀ t ∈ batch, t ∈ texts) (fails : Nat → Option String) (appends : Nat → Appended) :
    Comes blake3 (embeddingOf vocab unicode graph) texts files e
      (e.embedBatch blake3 vocab unicode graph files batch fails appends) fun vectors e' =>
        vectors = batch.map (embeddingOf vocab unicode graph e.identity) ∧
          ∀ t ∈ batch, e'.Remembers blake3 t := by
  have hpos : 0 < recordWidth dimensions := by simp [recordWidth]
  obtain ⟨hout, halike⟩ := lookups_spec blake3 e batch
  have hfilled := filled_eq hsound hapart hidentity hbatch
  unfold embedBatch
  generalize hlookups : e.lookups blake3 batch = looked at hout halike
  obtain ⟨out, looked⟩ := looked
  subst hout
  simp only at halike ⊢
  generalize hpending : (List.range (batch.map (e.peek blake3)).length).filter
    (fun i => (batch.map (e.peek blake3))[i]? = some none) = pending at hfilled ⊢
  have hinside : ∀ i ∈ pending, i < batch.length := by
    intro i hi
    rw [← hpending] at hi
    simpa using (List.mem_filter.mp hi).1
  have htexts : ∀ i ∈ pending, batch.getD i "" ∈ texts := by
    intro i hi
    have hlt := hinside i hi
    rw [List.getD_eq_getElem?_getD, List.getElem?_eq_getElem hlt, Option.getD_some]
    exact hbatch _ (List.getElem_mem hlt)
  -- Either every text is a hit, or the computed ones are filled in.
  by_cases hempty : pending.isEmpty = true
  · rw [if_pos hempty]
    have hnil : pending = [] := List.isEmpty_iff.mp hempty
    rw [hnil, List.foldl_nil] at hfilled
    refine ⟨[], [], .of_alike files halike, by simp, hpos, by simp, fun vectors hv => ⟨?_, ?_⟩, ?_⟩
    · rw [hfilled, unwrapped_some] at hv
      exact (Except.ok.inj hv).symm
    · intro t ht _
      rw [halike.peek]
      intro hmiss
      have hsome : e.peek blake3 t ∈ (batch.map (embeddingOf vocab unicode graph e.identity)).map some := by
        rw [← hfilled]
        exact List.mem_map_of_mem ht
      obtain ⟨v, -, hv⟩ := List.mem_map.mp hsome
      rw [hmiss] at hv
      cases hv
    · rw [hfilled, unwrapped_some]
      exact fun h => by cases h
  · rw [if_neg hempty]
    generalize hencoded : pending.map (fun i =>
      (i, encode (vocab looked.identity) unicode (batch.getD i "") embedderMaxSeqLen)) = encoded
    generalize hcounted : ({ looked with truncated :=
      looked.truncated + (encoded.filter (·.2.truncated)).length } : EmbedderState dimensions) = counted
    have halike : e.Alike counted := by
      rw [← hcounted]
      exact halike.trans (alike_counted looked _)
    have hsame : counted.identity = looked.identity := by rw [← hcounted]
    have hitems : pending.zip ((share ((encoded.length + looked.workers - 1) / looked.workers)
        looked.workers encoded).flatMap fun mine => mine.map fun p =>
          forward graph looked.identity (fails p.1) p.2) =
        pending.map fun i => (i, forward graph looked.identity (fails i)
          (encode (vocab looked.identity) unicode (batch.getD i "") embedderMaxSeqLen)) := by
      rw [computed_eq looked.workers looked.busy, ← hencoded, List.map_map, ← List.map_prod_left_eq_zip]
      rfl
    rw [hitems]
    have hspec := fill_spec hapart.width batch appends (pending.map fun i =>
        (i, forward graph looked.identity (fails i)
          (encode (vocab looked.identity) unicode (batch.getD i "") embedderMaxSeqLen))) files
      (hsound.of_alike halike)
      (fun p hp => by
        obtain ⟨i, hi, rfl⟩ := List.mem_map.mp hp
        exact htexts i hi)
      (fun p hp v hv => by
        obtain ⟨i, -, rfl⟩ := List.mem_map.mp hp
        rw [forward_ok hv, hsame]
        rfl)
      (fun p hp => by
        obtain ⟨i, -, rfl⟩ := List.mem_map.mp hp
        exact forward_ne_emptySlot _ _ _)
      (batch.map (e.peek blake3))
    generalize hfill : fill blake3 batch appends (pending.map fun i =>
      (i, forward graph looked.identity (fails i)
        (encode (vocab looked.identity) unicode (batch.getD i "") embedderMaxSeqLen))) files counted
      (batch.map (e.peek blake3)) = filled at hspec ⊢
    obtain ⟨result, last, files'⟩ := filled
    obtain ⟨added, tail, hw, hadded, htail, htorn, hok, hslot⟩ := hspec
    refine .of_alike halike ?_
    cases result with
    | error why =>
      refine ⟨added, tail, hw, hadded, htail, fun h => ?_, fun a ha => (by cases ha), fun h => ?_⟩
      · exact congrArg _ (Except.error.inj (htorn h))
      · exact hslot (congrArg _ (Except.error.inj h))
    | ok out =>
      obtain ⟨hfresh, hout⟩ := hok out rfl
      rw [List.foldl_map, halike.identity, hfilled] at hout
      subst hout
      simp only [unwrapped_some]
      refine ⟨added, tail, hw, hadded, htail, fun h => (by cases htorn h),
        fun a ha => ⟨(Except.ok.inj ha).symm, ?_⟩, fun h => by cases h⟩
      intro t ht
      obtain ⟨j, hj, rfl⟩ := List.getElem_of_mem ht
      cases hpeek : e.peek blake3 batch[j] with
      | none =>
        have hpend : j ∈ pending := by
          rw [← hpending, List.mem_filter]
          simp [hj, hpeek]
        have hremembers := hfresh _ (List.mem_map_of_mem hpend)
        rwa [List.getD_eq_getElem?_getD, List.getElem?_eq_getElem hj, Option.getD_some] at hremembers
      | some v =>
        refine EmbedderState.Remembers.wrote (fun _ => ?_) hw
        rw [halike.peek, hpeek]
        exact Option.some_ne_none v

end EmbedderState

end Calls

end MarloweAgent.Memory
