import MarloweAgent.Memory.Embedding

/-! Every history of a cache directory: embedders loaded from it, each call of theirs to its end,
and appends that fail. Answers are what computing gives, and what was answered is found again. -/

namespace MarloweAgent.Memory
open Library

structure Answer (dimensions : Nat) where
  identity : CacheIdentity
  text : String
  vector : Embedding dimensions
  /-- Given by an embedder with a cache. -/
  cached : Bool

structure CacheWorld (dimensions : Nat) where
  files : CacheFiles
  embedders : List (EmbedderState dimensions)
  answers : List (Answer dimensions)
  /-- The file of each append that failed. -/
  cuts : List String

inductive CacheEvent
  | load (identity : CacheIdentity) (workers : Nat) (cached : Bool)
  | embed (embedder : Nat) (text : String) (fail : Option String) (append : Appended)
  | embedBatch (embedder : Nat) (texts : List String) (fails : Nat → Option String)
      (appends : Nat → Appended)

namespace CacheWorld

section
variable {dimensions : Nat}

def empty : CacheWorld dimensions := ⟨fun _ => none, [], [], []⟩

def cutBy {α : Type} : Except EmbedError α → List String
  | .error (.cache (.io path)) => [path]
  | _ => []

/-- What a call of the embedder at this place leaves. -/
def settle (w : CacheWorld dimensions) (place : Nat) (e : EmbedderState dimensions) (texts : List String)
    (call : Except EmbedError (List (Embedding dimensions)) × EmbedderState dimensions × CacheFiles) :
    CacheWorld dimensions where
  files := call.2.2
  embedders := w.embedders.set place call.2.1
  cuts := w.cuts ++ cutBy call.1
  answers := match call.1 with
    | .ok vectors => w.answers ++ (texts.zip vectors).map fun p => ⟨e.identity, p.1, p.2, e.cache.isSome⟩
    | .error _ => w.answers

variable (blake3 : List UInt8 → List UInt8) (vocab : CacheIdentity → Vocab) (unicode : Unicode)
variable (graph : CacheIdentity → List TokenId → Embedding dimensions)

def step (w : CacheWorld dimensions) : CacheEvent → CacheWorld dimensions
  | .load identity workers cached =>
    match EmbedderState.load blake3 w.files identity workers cached with
    | .ok e => { w with embedders := w.embedders ++ [e] }
    | .error _ => w
  | .embed place text fail append =>
    match w.embedders[place]? with
    | none => w
    | some e =>
      let (result, rest) := e.embed blake3 vocab unicode graph w.files text fail append
      w.settle place e [text] (result.map ([·]), rest)
  | .embedBatch place texts fails appends =>
    match w.embedders[place]? with
    | none => w
    | some e => w.settle place e texts (e.embedBatch blake3 vocab unicode graph w.files texts fails appends)

def run (events : List CacheEvent) : CacheWorld dimensions :=
  events.foldl (step blake3 vocab unicode graph) empty

end

end CacheWorld

/-- The event is about these identities and texts only. -/
def CacheEvent.Within (identities : List CacheIdentity) (texts : List String) : CacheEvent → Prop
  | .load identity .. => identity ∈ identities
  | .embed _ text .. => text ∈ texts
  | .embedBatch _ batch .. => ∀ text ∈ batch, text ∈ texts

section

variable {dimensions : Nat} {blake3 : List UInt8 → List UInt8}
variable {embedding : CacheIdentity → String → Embedding dimensions}
variable {identities : List CacheIdentity} {texts : List String}

/-! ## Opening -/

theorem fileName_inj (hapart : Apart blake3 identities texts) {i j : CacheIdentity} (hi : i ∈ identities)
    (hj : j ∈ identities) (h : EmbeddingCache.fileName blake3 i = EmbeddingCache.fileName blake3 j) : i = j := by
  have hdata := congrArg String.toList h
  simp only [EmbeddingCache.fileName, String.toList_append] at hdata
  have hname := List.append_cancel_left (List.append_cancel_right hdata)
  exact hapart.identity_eq hi hj (String.toList_injective hname)

/-- A file of whole records opens, to the vectors of their texts and no others. -/
theorem open_whole (hapart : Apart blake3 identities texts) {identity : CacheIdentity}
    (hidentity : identity ∈ identities) {files : CacheFiles} {told : List String} (htold : ∀ t ∈ told, t ∈ texts)
    (hfile : (files (EmbeddingCache.fileName blake3 identity)).getD [] = fileOf embedding blake3 identity told) :
    ∃ cache : EmbeddingCache dimensions, EmbeddingCache.open blake3 files identity = .ok cache ∧
      cache.identity = identity ∧ cache.path = EmbeddingCache.fileName blake3 identity ∧
      (∀ key v, cache.entries key = some v →
        ∃ text ∈ told, key = identity.key blake3 text ∧ v = embedding identity text) ∧
      (∀ text ∈ told, cache.entries (identity.key blake3 text) = some (embedding identity text)) := by
  have hlength := length_fileOf embedding hapart.width identity told
  have hread := read_fileOf embedding hapart.width identity told
  have hopen : ∃ cache : EmbeddingCache dimensions, EmbeddingCache.open blake3 files identity = .ok cache ∧
      cache.identity = identity ∧ cache.path = EmbeddingCache.fileName blake3 identity ∧
      cache.entries = fun key =>
        (told.reverse.find? fun text => identity.key blake3 text = key).map (embedding identity) := by
    unfold EmbeddingCache.open
    cases hbytes : files (EmbeddingCache.fileName blake3 identity) with
    | none =>
      rw [hbytes, Option.getD_none] at hfile
      have hnil : told = [] := by
        have hzero : told.length * recordWidth dimensions = 0 := by rw [← hlength, ← hfile, List.length_nil]
        have hwidth : recordWidth dimensions ≠ 0 := by simp [recordWidth]
        exact List.length_eq_zero_iff.mp ((Nat.mul_eq_zero.mp hzero).resolve_right hwidth)
      subst hnil
      simp only [hbytes]
      exact ⟨_, rfl, rfl, rfl, rfl⟩
    | some bytes =>
      rw [hbytes, Option.getD_some] at hfile
      subst hfile
      have hmod : (fileOf embedding blake3 identity told).length % recordWidth dimensions = 0 := by
        rw [hlength, Nat.mul_mod_left]
      simp only [hbytes, hmod, ne_eq, not_true_eq_false, if_false]
      exact ⟨_, rfl, rfl, rfl, funext hread⟩
  obtain ⟨cache, hok, howner, hpath, hentries⟩ := hopen
  refine ⟨cache, hok, howner, hpath, fun key v hv => ?_, fun text htext => ?_⟩
  · rw [hentries] at hv
    obtain ⟨text, hfind, rfl⟩ := Option.map_eq_some_iff.mp hv
    refine ⟨text, List.mem_reverse.mp (List.mem_of_find?_eq_some hfind), ?_, rfl⟩
    have hkey := List.find?_some hfind
    exact (of_decide_eq_true hkey).symm
  · rw [hentries]
    simp only
    cases hfind : told.reverse.find? fun other => identity.key blake3 other = identity.key blake3 text with
    | none =>
      have hnone := List.find?_eq_none.mp hfind text (List.mem_reverse.mpr htext)
      simp at hnone
    | some other =>
      have hfound := List.find?_some hfind
      have hkey : identity.key blake3 other = identity.key blake3 text := of_decide_eq_true hfound
      have hother := List.mem_reverse.mp (List.mem_of_find?_eq_some hfind)
      rw [Option.map_some, hapart.text_eq hidentity (htold other hother) (htold text htext) hkey]

/-- A file with part of a record in it does not open. -/
theorem open_torn (hwidth : ∀ input, (blake3 input).length = 32) {identity : CacheIdentity}
    {files : CacheFiles} {before after : List String} {tail : List UInt8} (htail : tail ≠ [])
    (hshort : tail.length < recordWidth dimensions)
    (hfile : (files (EmbeddingCache.fileName blake3 identity)).getD [] =
      fileOf embedding blake3 identity before ++ tail ++ fileOf embedding blake3 identity after) :
    (EmbeddingCache.open blake3 files identity : Except CacheError (EmbeddingCache dimensions)) =
      .error (.corruptRecord (EmbeddingCache.fileName blake3 identity) tail.length (recordWidth dimensions)) := by
  have hne : tail.length ≠ 0 := fun h => htail (List.length_eq_zero_iff.mp h)
  unfold EmbeddingCache.open
  cases hbytes : files (EmbeddingCache.fileName blake3 identity) with
  | none =>
    rw [hbytes, Option.getD_none] at hfile
    have hlength := congrArg List.length hfile
    simp only [List.length_nil, List.length_append] at hlength
    omega
  | some bytes =>
    rw [hbytes, Option.getD_some] at hfile
    have hmod : bytes.length % recordWidth dimensions = tail.length := by
      rw [hfile, List.length_append, List.length_append, length_fileOf embedding hwidth,
        length_fileOf embedding hwidth, Nat.add_mul_mod_self_right, Nat.mul_add_mod_self_right,
        Nat.mod_eq_of_lt hshort]
    simp only [hbytes, hmod, ne_eq, hne, not_false_eq_true, if_true]

/-! ## The invariant -/

theorem Sound.mono {few many : List String} {e : EmbedderState dimensions}
    (h : Sound blake3 embedding few e) (hsub : ∀ t ∈ few, t ∈ many) : Sound blake3 embedding many e := by
  refine ⟨h.own, fun cache hcache key v hv => ?_⟩
  obtain ⟨text, htext, hkey, hv'⟩ := h.entries cache hcache key v hv
  exact ⟨text, hsub text htext, hkey, hv'⟩

theorem Sound.of_uncached {e : EmbedderState dimensions} (h : e.cache = none) :
    Sound blake3 embedding texts e := by
  refine ⟨fun cache hcache => ?_, fun cache hcache => ?_⟩ <;> rw [h] at hcache <;> cases hcache

/-- The file of an identity: whole records, at most one part of a record among them, and that only
where an append failed. The embedders of the identity hold nothing else, and every answer of
theirs is there. -/
structure Log (blake3 : List UInt8 → List UInt8) (embedding : CacheIdentity → String → Embedding dimensions)
    (texts : List String) (w : CacheWorld dimensions) (identity : CacheIdentity)
    (before : List String) (tail : List UInt8) (after : List String) : Prop where
  file : (w.files (EmbeddingCache.fileName blake3 identity)).getD [] =
    fileOf embedding blake3 identity before ++ tail ++ fileOf embedding blake3 identity after
  within : ∀ t ∈ before ++ after, t ∈ texts
  short : tail.length < recordWidth dimensions
  clean : EmbeddingCache.fileName blake3 identity ∉ w.cuts → tail = []
  sound : ∀ e ∈ w.embedders, e.identity = identity → Sound blake3 embedding (before ++ after) e
  saved : ∀ a ∈ w.answers, a.identity = identity → a.cached → a.text ∈ before ++ after

structure Kept (blake3 : List UInt8 → List UInt8) (embedding : CacheIdentity → String → Embedding dimensions)
    (identities : List CacheIdentity) (texts : List String) (w : CacheWorld dimensions) : Prop where
  owned : ∀ e ∈ w.embedders, e.identity ∈ identities
  logged : ∀ identity ∈ identities, ∃ before tail after, Log blake3 embedding texts w identity before tail after
  right : ∀ a ∈ w.answers, a.vector = embedding a.identity a.text

theorem Kept.empty : Kept blake3 embedding identities texts (CacheWorld.empty : CacheWorld dimensions) := by
  refine ⟨by simp [CacheWorld.empty], fun identity _ => ⟨[], [], [], ?_⟩, by simp [CacheWorld.empty]⟩
  exact ⟨rfl, by simp, by simp [recordWidth], fun _ => rfl, by simp [CacheWorld.empty],
    by simp [CacheWorld.empty]⟩

theorem Kept.sound {w : CacheWorld dimensions} (h : Kept blake3 embedding identities texts w)
    {e : EmbedderState dimensions} (he : e ∈ w.embedders) : Sound blake3 embedding texts e := by
  obtain ⟨before, tail, after, hlog⟩ := h.logged e.identity (h.owned e he)
  exact (hlog.sound e he rfl).mono hlog.within

/-- **Opening again.** A file is refused only where an append to it failed. -/
theorem Log.open_spec (hapart : Apart blake3 identities texts) {identity : CacheIdentity}
    (hidentity : identity ∈ identities) {w : CacheWorld dimensions} {before after : List String}
    {tail : List UInt8} (h : Log blake3 embedding texts w identity before tail after) :
    (∃ cache : EmbeddingCache dimensions, EmbeddingCache.open blake3 w.files identity = .ok cache ∧
      cache.identity = identity ∧ cache.path = EmbeddingCache.fileName blake3 identity ∧
      (∀ key v, cache.entries key = some v →
        ∃ text ∈ before ++ after, key = identity.key blake3 text ∧ v = embedding identity text) ∧
      (∀ text ∈ before ++ after, cache.entries (identity.key blake3 text) = some (embedding identity text))) ∨
    (EmbeddingCache.fileName blake3 identity ∈ w.cuts ∧ ∃ found, found ≠ 0 ∧
      (EmbeddingCache.open blake3 w.files identity : Except CacheError (EmbeddingCache dimensions)) =
        .error (.corruptRecord (EmbeddingCache.fileName blake3 identity) found (recordWidth dimensions))) := by
  by_cases htail : tail = []
  · subst htail
    refine .inl (open_whole hapart hidentity h.within ?_)
    rw [h.file, List.append_nil]
    simp [fileOf]
  · refine .inr ⟨?_, tail.length, fun hz => htail (List.length_eq_zero_iff.mp hz), ?_⟩
    · by_contra hclean
      exact htail (h.clean hclean)
    · exact open_torn hapart.width htail h.short h.file

theorem EmbedderState.Comes.map {α β : Type} {files : CacheFiles} {e : EmbedderState dimensions}
    {call : Except EmbedError α × EmbedderState dimensions × CacheFiles} (f : α → β)
    {told : α → EmbedderState dimensions → Prop} {told' : β → EmbedderState dimensions → Prop}
    (h : EmbedderState.Comes blake3 embedding texts files e call told)
    (htold : ∀ a, told a call.2.1 → told' (f a) call.2.1) :
    EmbedderState.Comes blake3 embedding texts files e (call.1.map f, call.2) told' := by
  obtain ⟨added, tail, hw, hadded, htail, htorn, hok, hslot⟩ := h
  obtain ⟨result, e', files'⟩ := call
  cases result with
  | error why =>
    refine ⟨added, tail, hw, hadded, htail, fun ht => ?_, fun b hb => (by cases hb), fun h => ?_⟩
    · exact congrArg _ (Except.error.inj (htorn ht))
    · exact hslot (congrArg _ (Except.error.inj h))
  | ok a =>
    refine ⟨added, tail, hw, hadded, htail, fun ht => (by cases htorn ht), fun b hb => ?_, fun h => by cases h⟩
    obtain rfl := Except.ok.inj hb
    exact htold a (hok a rfl)

section Settle

variable {w : CacheWorld dimensions} {before after : List String} {tail : List UInt8}
variable {place : Nat} {e : EmbedderState dimensions} {batch : List String}
variable {call : Except EmbedError (List (Embedding dimensions)) × EmbedderState dimensions × CacheFiles}

theorem mem_answers_settle {a : Answer dimensions} (h : a ∈ (w.settle place e batch call).answers) :
    a ∈ w.answers ∨ ∃ vectors, call.1 = .ok vectors ∧ a.identity = e.identity ∧ a.cached = e.cache.isSome ∧
      (a.text, a.vector) ∈ batch.zip vectors := by
  unfold CacheWorld.settle at h
  simp only at h
  cases hresult : call.1 with
  | error why =>
    rw [hresult] at h
    exact .inl h
  | ok vectors =>
    rw [hresult] at h
    rcases List.mem_append.mp h with h | h
    · exact .inl h
    · obtain ⟨p, hp, rfl⟩ := List.mem_map.mp h
      exact .inr ⟨vectors, rfl, rfl, rfl, hp⟩

/-- The log of an identity the call has nothing to do with. -/
theorem Log.settle_other {identity : CacheIdentity} (h : Log blake3 embedding texts w identity before tail after)
    (howner : call.2.1.identity = e.identity)
    (hfile : call.2.2 (EmbeddingCache.fileName blake3 identity) = w.files (EmbeddingCache.fileName blake3 identity))
    (hcase : e.identity = identity → e.cache = none ∧ call.2.1.cache = none) :
    Log blake3 embedding texts (w.settle place e batch call) identity before tail after := by
  refine ⟨?_, h.within, h.short, fun hclean => h.clean fun hm => hclean (List.mem_append_left _ hm), ?_, ?_⟩
  · change (call.2.2 _).getD [] = _
    rw [hfile, h.file]
  · intro e' he' hidentity
    rcases List.mem_or_eq_of_mem_set he' with hold | rfl
    · exact h.sound e' hold hidentity
    · exact .of_uncached (hcase (howner.symm.trans hidentity)).2
  · intro a ha hidentity hcached
    rcases mem_answers_settle ha with hold | ⟨vectors, -, howns, hflag, -⟩
    · exact h.saved a hold hidentity hcached
    · rw [hflag, (hcase (howns.symm.trans hidentity)).1] at hcached
      cases hcached

/-- The log of the caller's identity, when what it holds has grown by what the call wrote. -/
theorem Log.settle_own (hapart : Apart blake3 identities texts) (hmine : e.identity ∈ identities)
    (h : Log blake3 embedding texts w e.identity before tail after) (he : e ∈ w.embedders)
    (hbatch : ∀ t ∈ batch, t ∈ texts) {added : List String} {torn : List UInt8}
    (hw : Wrote blake3 embedding w.files e call.2.2 call.2.1 added torn)
    (hok : ∀ vectors, call.1 = .ok vectors → ∀ t ∈ batch, call.2.1.Remembers blake3 t)
    {before' after' : List String} {tail' : List UInt8}
    (hfile : (call.2.2 (EmbeddingCache.fileName blake3 e.identity)).getD [] =
      fileOf embedding blake3 e.identity before' ++ tail' ++ fileOf embedding blake3 e.identity after')
    (hwithin : ∀ t ∈ before' ++ after', t ∈ texts) (hshort : tail'.length < recordWidth dimensions)
    (hclean : EmbeddingCache.fileName blake3 e.identity ∉ (w.settle place e batch call).cuts → tail' = [])
    (hold : ∀ t ∈ before ++ after, t ∈ before' ++ after') (hnew : ∀ t ∈ added, t ∈ before' ++ after') :
    Log blake3 embedding texts (w.settle place e batch call) e.identity before' tail' after' := by
  have hsound : Sound blake3 embedding (before' ++ after') call.2.1 :=
    ((h.sound e he rfl).mono hold).wrote hw hnew
  refine ⟨hfile, hwithin, hshort, hclean, ?_, ?_⟩
  · intro e' he' hidentity
    rcases List.mem_or_eq_of_mem_set he' with hmem | rfl
    · exact (h.sound e' hmem hidentity).mono hold
    · exact hsound
  · intro a ha hidentity hcached
    rcases mem_answers_settle ha with hmem | ⟨vectors, hresult, -, hflag, hpair⟩
    · exact hold _ (h.saved a hmem hidentity hcached)
    · have htext : a.text ∈ batch := (List.of_mem_zip hpair).1
      have hcache : ∃ cache, e.cache = some cache := Option.isSome_iff_exists.mp (hflag ▸ hcached)
      obtain ⟨cache, hcache⟩ := hcache
      obtain ⟨cache', hcache', -⟩ := hw.cached cache hcache
      have hheld := hok vectors hresult a.text htext (by rw [hcache']; exact Option.some_ne_none _)
      obtain ⟨v, hv⟩ := Option.ne_none_iff_exists'.mp hheld
      unfold EmbedderState.peek at hv
      rw [hcache', Option.bind_some, (hsound.own cache' hcache').1] at hv
      obtain ⟨other, hother, hkey, -⟩ := hsound.entries cache' hcache' _ v hv
      rw [hw.identity] at hkey
      rwa [hapart.text_eq hmine (hbatch _ htext) (hwithin _ hother) hkey]

/-- What a call leaves in the log of an identity, if no file is cut twice. -/
theorem Log.settle (hapart : Apart blake3 identities texts) {identity : CacheIdentity}
    (hidentity : identity ∈ identities) (h : Log blake3 embedding texts w identity before tail after)
    (he : e ∈ w.embedders) (hmine : e.identity ∈ identities) (hsound : Sound blake3 embedding texts e)
    (hbatch : ∀ t ∈ batch, t ∈ texts)
    (hcomes : EmbedderState.Comes blake3 embedding texts w.files e call fun vectors e' =>
      vectors = batch.map (embedding e.identity) ∧ ∀ t ∈ batch, e'.Remembers blake3 t)
    (hcuts : (w.settle place e batch call).cuts.Nodup) :
    ∃ before' tail' after', Log blake3 embedding texts (w.settle place e batch call) identity
      before' tail' after' := by
  obtain ⟨added, torn, hw, hadded, htorn, hreason, hok, -⟩ := hcomes
  cases hcache : e.cache with
  | none =>
    obtain ⟨hcache', hfiles⟩ := hw.uncached hcache
    exact ⟨before, tail, after, h.settle_other hw.identity (by rw [hfiles]) fun _ => ⟨hcache, hcache'⟩⟩
  | some cache =>
    obtain ⟨hown, hpath⟩ := hsound.own cache hcache
    obtain ⟨cache', -, -, -, hfile, hothers, -⟩ := hw.cached cache hcache
    rw [hown, hpath] at hfile
    by_cases hsame : identity = e.identity
    · subst hsame
      have hremembers : ∀ vectors, call.1 = .ok vectors → ∀ t ∈ batch, call.2.1.Remembers blake3 t :=
        fun vectors hv => (hok vectors hv).2
      rw [h.file] at hfile
      by_cases hnil : torn = []
      · -- Whole records go behind what was there.
        subst hnil
        refine ⟨before, tail, after ++ added, h.settle_own hapart hmine he hbatch hw hremembers ?_ ?_ h.short
          (fun hclean => h.clean fun hm => hclean (List.mem_append_left _ hm)) ?_ ?_⟩
        · rw [hfile]
          simp [fileOf]
        · intro t ht
          rw [← List.append_assoc] at ht
          exact (List.mem_append.mp ht).elim (h.within t) (hadded t)
        · intro t ht
          rw [← List.append_assoc]
          exact List.mem_append_left _ ht
        · intro t ht
          rw [← List.append_assoc]
          exact List.mem_append_right _ ht
      · -- The one failed append of this file: it was whole before.
        have hcut : (w.settle place e batch call).cuts =
            w.cuts ++ [EmbeddingCache.fileName blake3 e.identity] := by
          unfold CacheWorld.settle
          rw [hreason hnil]
          rfl
        have hfirst : EmbeddingCache.fileName blake3 e.identity ∉ w.cuts := by
          rw [hcut] at hcuts
          exact fun hm => (List.nodup_append.mp hcuts).2.2 _ hm _ (List.mem_singleton.mpr rfl) rfl
        have htail := h.clean hfirst
        subst htail
        refine ⟨before ++ after ++ added, torn, [], h.settle_own hapart hmine he hbatch hw hremembers
          ?_ ?_ htorn (fun hclean => absurd ?_ hclean) ?_ ?_⟩
        · rw [hfile]
          simp [fileOf]
        · intro t ht
          rw [List.append_nil] at ht
          exact (List.mem_append.mp ht).elim (h.within t) (hadded t)
        · rw [hcut]
          exact List.mem_append_right _ (List.mem_singleton.mpr rfl)
        · intro t ht
          rw [List.append_nil]
          exact List.mem_append_left _ ht
        · intro t ht
          rw [List.append_nil]
          exact List.mem_append_right _ ht
    · refine ⟨before, tail, after, h.settle_other hw.identity (hothers _ fun hname => hsame ?_)
        fun hother => absurd hother.symm hsame⟩
      exact fileName_inj hapart hidentity hmine (hname.trans hpath)

theorem Kept.settle (hapart : Apart blake3 identities texts) (h : Kept blake3 embedding identities texts w)
    (he : e ∈ w.embedders) (hbatch : ∀ t ∈ batch, t ∈ texts)
    (hcomes : EmbedderState.Comes blake3 embedding texts w.files e call fun vectors e' =>
      vectors = batch.map (embedding e.identity) ∧ ∀ t ∈ batch, e'.Remembers blake3 t)
    (hcuts : (w.settle place e batch call).cuts.Nodup) :
    Kept blake3 embedding identities texts (w.settle place e batch call) := by
  have hmine := h.owned e he
  refine ⟨?_, fun identity hidentity => ?_, ?_⟩
  · intro e' he'
    rcases List.mem_or_eq_of_mem_set he' with hold | rfl
    · exact h.owned e' hold
    · obtain ⟨added, torn, hw, -⟩ := hcomes
      rwa [hw.identity]
  · obtain ⟨before, tail, after, hlog⟩ := h.logged identity hidentity
    exact hlog.settle hapart hidentity he hmine (h.sound he) hbatch hcomes hcuts
  · intro a ha
    rcases mem_answers_settle ha with hold | ⟨vectors, hresult, howns, -, hpair⟩
    · exact h.right a hold
    · obtain ⟨added, torn, -, -, -, -, hok, -⟩ := hcomes
      obtain ⟨rfl, -⟩ := hok vectors hresult
      rw [← List.map_prod_left_eq_zip] at hpair
      obtain ⟨text, -, htext⟩ := List.mem_map.mp hpair
      obtain ⟨hsame, hvector⟩ := Prod.mk.inj htext
      rw [← hvector, ← hsame, howns]

end Settle

end

/-! ## Histories -/

section Histories

variable {dimensions : Nat} {blake3 : List UInt8 → List UInt8}
variable {vocab : CacheIdentity → Vocab} {unicode : Unicode}
variable {graph : CacheIdentity → List TokenId → Embedding dimensions}
variable {identities : List CacheIdentity} {texts : List String}

theorem Kept.load {embedding : CacheIdentity → String → Embedding dimensions}
    (hapart : Apart blake3 identities texts) {w : CacheWorld dimensions}
    (h : Kept blake3 embedding identities texts w) {identity : CacheIdentity} (hidentity : identity ∈ identities)
    {workers : Nat} {cached : Bool} {e : EmbedderState dimensions}
    (hload : EmbedderState.load blake3 w.files identity workers cached = .ok e) :
    Kept blake3 embedding identities texts { w with embedders := w.embedders ++ [e] } := by
  have howner : e.identity = identity := by
    unfold EmbedderState.load at hload
    cases cached with
    | false => exact (Except.ok.inj hload) ▸ rfl
    | true =>
      simp only [if_true] at hload
      split at hload
      · exact (Except.ok.inj hload) ▸ rfl
      · cases hload
  -- A loaded cache holds what its file says.
  have hfresh : ∀ before tail after, Log blake3 embedding texts w identity before tail after →
      Sound blake3 embedding (before ++ after) e := by
    intro before tail after hlog
    unfold EmbedderState.load at hload
    cases cached with
    | false => exact .of_uncached ((Except.ok.inj hload) ▸ rfl)
    | true =>
      simp only [if_true] at hload
      rcases hlog.open_spec hapart hidentity with ⟨cache, hopen, hown, hpath, hentries, -⟩ |
        ⟨-, found, -, hopen⟩
      · rw [hopen] at hload
        obtain rfl := Except.ok.inj hload
        refine ⟨fun c hc => ?_, fun c hc key v hv => ?_⟩
        · obtain rfl := Option.some.inj hc
          exact ⟨hown, hpath⟩
        · obtain rfl := Option.some.inj hc
          exact hentries key v hv
      · rw [hopen] at hload
        cases hload
  refine ⟨fun e' he' => ?_, fun other hother => ?_, h.right⟩
  · rcases List.mem_append.mp he' with hold | hnew
    · exact h.owned e' hold
    · rw [List.mem_singleton.mp hnew, howner]
      exact hidentity
  · obtain ⟨before, tail, after, hlog⟩ := h.logged other hother
    refine ⟨before, tail, after, hlog.file, hlog.within, hlog.short, hlog.clean, fun e' he' hsame => ?_,
      hlog.saved⟩
    rcases List.mem_append.mp he' with hold | hnew
    · exact hlog.sound e' hold hsame
    · obtain rfl := List.mem_singleton.mp hnew
      obtain rfl := howner.symm.trans hsame
      exact hfresh before tail after hlog

namespace CacheWorld

theorem cuts_step (blake3 : List UInt8 → List UInt8) (vocab : CacheIdentity → Vocab) (unicode : Unicode)
    (graph : CacheIdentity → List TokenId → Embedding dimensions) (w : CacheWorld dimensions)
    (event : CacheEvent) :
    ∃ more, (w.step blake3 vocab unicode graph event).cuts = w.cuts ++ more := by
  cases event with
  | load identity workers cached =>
    refine ⟨[], ?_⟩
    cases hload : (EmbedderState.load blake3 w.files identity workers cached :
        Except EmbedError (EmbedderState dimensions)) <;>
      simp [step, hload]
  | embed place text fail append =>
    cases hplace : w.embedders[place]? with
    | none => exact ⟨[], by simp [step, hplace]⟩
    | some e => exact ⟨_, by simp only [step, hplace]; rfl⟩
  | embedBatch place batch fails appends =>
    cases hplace : w.embedders[place]? with
    | none => exact ⟨[], by simp [step, hplace]⟩
    | some e => exact ⟨_, by simp only [step, hplace]; rfl⟩

theorem kept_step (hapart : Apart blake3 identities texts) {w : CacheWorld dimensions}
    (h : Kept blake3 (embeddingOf vocab unicode graph) identities texts w) {event : CacheEvent}
    (hevent : event.Within identities texts) (hcuts : (w.step blake3 vocab unicode graph event).cuts.Nodup) :
    Kept blake3 (embeddingOf vocab unicode graph) identities texts (w.step blake3 vocab unicode graph event) := by
  cases event with
  | load identity workers cached =>
    cases hload : (EmbedderState.load blake3 w.files identity workers cached :
        Except EmbedError (EmbedderState dimensions)) with
    | ok e =>
      simp only [step, hload]
      exact h.load hapart hevent hload
    | error why =>
      simp only [step, hload]
      exact h
  | embed place text fail append =>
    cases hplace : w.embedders[place]? with
    | none =>
      simp only [step, hplace]
      exact h
    | some e =>
      simp only [step, hplace] at hcuts ⊢
      have he := List.mem_of_getElem? hplace
      have hbatch : ∀ t ∈ [text], t ∈ texts := fun t ht => List.mem_singleton.mp ht ▸ hevent
      have hcomes := EmbedderState.embed_spec hapart w.files (h.owned e he) (h.sound he) hevent fail append
      refine h.settle hapart he hbatch (hcomes.map (fun v => [v]) fun v hv => ?_) hcuts
      exact ⟨by rw [hv.1]; rfl, fun t ht => List.mem_singleton.mp ht ▸ hv.2⟩
  | embedBatch place batch fails appends =>
    cases hplace : w.embedders[place]? with
    | none =>
      simp only [step, hplace]
      exact h
    | some e =>
      simp only [step, hplace] at hcuts ⊢
      have he := List.mem_of_getElem? hplace
      exact h.settle hapart he hevent
        (EmbedderState.embedBatch_spec hapart w.files (h.owned e he) (h.sound he) hevent fails appends) hcuts

theorem kept_run (hapart : Apart blake3 identities texts) {events : List CacheEvent}
    (hevents : ∀ event ∈ events, event.Within identities texts)
    (hcuts : (run blake3 vocab unicode graph events).cuts.Nodup) :
    Kept blake3 (embeddingOf vocab unicode graph) identities texts (run blake3 vocab unicode graph events) := by
  induction events using List.reverseRecOn with
  | nil => exact .empty
  | append_singleton events event ih =>
    unfold run at hcuts ih ⊢
    rw [List.foldl_append, List.foldl_cons, List.foldl_nil] at hcuts ⊢
    have hbefore : (events.foldl (step blake3 vocab unicode graph) empty).cuts.Nodup := by
      obtain ⟨more, hmore⟩ := cuts_step blake3 vocab unicode graph
        (events.foldl (step blake3 vocab unicode graph) empty) event
      rw [hmore] at hcuts
      exact (List.nodup_append.mp hcuts).1
    have hkept := ih (fun ev hev => hevents ev (List.mem_append_left _ hev)) hbefore
    exact kept_step hapart hkept (hevents event (List.mem_append_right _ (List.mem_singleton.mpr rfl))) hcuts

/-- A hash that keeps the end of its input. -/
def tailHash (input : List UInt8) : List UInt8 := (input.reverse ++ List.replicate 32 0).take 32

def smallIdentity : CacheIdentity := ⟨"m", "v", "1", 1024, 1, "cpu"⟩

def countGraph (_ : CacheIdentity) (ids : List TokenId) : Embedding 1 := ⟨[UInt32.ofNat ids.length], rfl⟩

theorem apart_small : Apart tailHash [smallIdentity] ["run", "a"] where
  width input := by simp [tailHash]
  named := by decide
  keyed := by decide
  nulFree := by decide
  sized := by decide

def smallHistory : List CacheEvent :=
  [.load smallIdentity 2 true, .embedBatch 0 ["run", "a", "run"] (fun _ => none) fun _ => .whole,
    .load smallIdentity 1 true, .embed 1 "run" none .whole]

theorem smallHistory_within : ∀ event ∈ smallHistory, event.Within [smallIdentity] ["run", "a"] := by
  simp [smallHistory, CacheEvent.Within]

/-- The second embedder computed nothing. -/
example : (run tailHash (fun _ => tinyVocab) plainLetters countGraph smallHistory).embedders.map
    (fun e => e.cache.map fun cache => (cache.hits, cache.misses)) = [some (0, 3), some (1, 0)] := by decide

/-- **What was answered is found again.** After every such history the cache of an identity opens
with every answer its cached embedders gave, and with nothing a computation would not give; or it
is refused, and then an append to it did fail. -/
theorem reopened (hapart : Apart blake3 identities texts) {events : List CacheEvent}
    (hevents : ∀ event ∈ events, event.Within identities texts)
    (hcuts : (run blake3 vocab unicode graph events).cuts.Nodup) {identity : CacheIdentity}
    (hidentity : identity ∈ identities) :
    match (EmbeddingCache.open blake3 (run blake3 vocab unicode graph events).files identity :
        Except CacheError (EmbeddingCache dimensions)) with
    | .ok cache =>
      (∀ text ∈ texts, ∀ v, (cache.get blake3 text).1 = some v →
        v = embeddingOf vocab unicode graph identity text) ∧
      ∀ a ∈ (run blake3 vocab unicode graph events).answers, a.identity = identity → a.cached →
        (cache.get blake3 a.text).1 = some a.vector
    | .error why =>
      EmbeddingCache.fileName blake3 identity ∈ (run blake3 vocab unicode graph events).cuts ∧
        ∃ found, found ≠ 0 ∧
          why = .corruptRecord (EmbeddingCache.fileName blake3 identity) found (recordWidth dimensions) := by
  have hkept := kept_run hapart hevents hcuts
  obtain ⟨before, tail, after, hlog⟩ := hkept.logged identity hidentity
  rcases hlog.open_spec hapart hidentity with ⟨cache, hopen, hown, -, hentries, hheld⟩ |
    ⟨hcut, found, hfound, hopen⟩
  · rw [hopen]
    have hget : ∀ text, (cache.get blake3 text).1 = cache.entries (identity.key blake3 text) := by
      intro text
      unfold EmbeddingCache.get
      rw [hown]
      split <;> simp [*]
    refine ⟨fun text htext v hv => ?_, fun a ha hsame hcached => ?_⟩
    · rw [hget] at hv
      obtain ⟨other, hother, hkey, rfl⟩ := hentries _ v hv
      rw [hapart.text_eq hidentity htext (hlog.within other hother) hkey]
    · rw [hget, hheld _ (hlog.saved a ha hsame hcached), hkept.right a ha, hsame]
  · rw [hopen]
    exact ⟨hcut, found, hfound, rfl⟩

theorem reopened_shared :
    match (EmbeddingCache.open tailHash
        (run tailHash (fun _ => tinyVocab) plainLetters countGraph smallHistory).files smallIdentity :
        Except CacheError (EmbeddingCache 1)) with
    | .ok cache =>
      (∀ text ∈ ["run", "a"], ∀ v, (cache.get tailHash text).1 = some v →
        v = embeddingOf (fun _ => tinyVocab) plainLetters countGraph smallIdentity text) ∧
      ∀ a ∈ (run tailHash (fun _ => tinyVocab) plainLetters countGraph smallHistory).answers,
        a.identity = smallIdentity → a.cached → (cache.get tailHash a.text).1 = some a.vector
    | .error why =>
      EmbeddingCache.fileName tailHash smallIdentity ∈
          (run tailHash (fun _ => tinyVocab) plainLetters countGraph smallHistory).cuts ∧
        ∃ found, found ≠ 0 ∧
          why = .corruptRecord (EmbeddingCache.fileName tailHash smallIdentity) found (recordWidth 1) :=
  @reopened 1 tailHash (fun _ => tinyVocab) plainLetters countGraph [smallIdentity] ["run", "a"] apart_small
    smallHistory smallHistory_within (by decide) smallIdentity (by decide)

/-- Two failed appends can leave a file that opens. -/
example : (EmbeddingCache.open tailHash
    (run tailHash (fun _ => tinyVocab) plainLetters countGraph
      [.load smallIdentity 1 true, .embed 0 "run" none (.torn 20), .embed 0 "run" none (.torn 16)]).files
    smallIdentity : Except CacheError (EmbeddingCache 1)).isOk = true := by decide

end CacheWorld

end Histories

end MarloweAgent.Memory
