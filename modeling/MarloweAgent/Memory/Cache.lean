import MarloweAgent.Library.Framing
import MarloweAgent.Memory.Encoding
import Mathlib.Logic.Function.Basic

/-! The embedding cache: a log of records of one width for each embedder identity, read whole
when it is opened and appended to as vectors are computed. A component of a vector is its bit
pattern, and the hash is a parameter. -/

namespace MarloweAgent.Memory
open Library

/-! ## Vectors -/

/-- A vector of the model's dimension, as bit patterns. -/
structure Embedding (dimensions : Nat) where
  values : List UInt32
  whole : values.length = dimensions
  deriving DecidableEq

namespace Embedding

variable {dimensions : Nat}

/-- `f32::to_le_bytes`, value after value. -/
def bytes (v : Embedding dimensions) : List UInt8 := v.values.flatMap fun x => leBytes 4 x.toNat

/-- `f32::from_le_bytes` over what follows the key of a record. -/
def readValues (bytes : List UInt8) : List UInt32 :=
  (chunksExact 4 bytes).map fun b => UInt32.ofNat (leValue b)

theorem width_values (v : Embedding dimensions) :
    ∀ b ∈ v.values.map (fun x => leBytes 4 x.toNat), b.length = 4 := by
  intro b hb
  obtain ⟨x, -, rfl⟩ := List.mem_map.mp hb
  exact leBytes_length 4 _

theorem length_bytes (v : Embedding dimensions) : v.bytes.length = dimensions * 4 := by
  rw [bytes, List.flatMap_def, length_flatten_of_width v.width_values, List.length_map, v.whole]

theorem readValues_bytes (v : Embedding dimensions) : readValues v.bytes = v.values := by
  rw [readValues, bytes, List.flatMap_def, chunksExact_flatten (by decide) v.width_values, List.map_map]
  refine (List.map_congr_left fun x _ => ?_).trans (List.map_id _)
  change UInt32.ofNat (leValue (leBytes 4 x.toNat)) = x
  rw [leValue_leBytes x.toNat_lt, UInt32.ofNat_toNat]

end Embedding

/-! ## Identities and keys -/

structure CacheIdentity where
  modelSha256 : String
  vocabSha256 : String
  embedderVersion : String
  maxSeqLen : Nat
  dimensions : Nat
  provider : String
  deriving DecidableEq, Repr

def embedderVersion : String := "session-c-1"
def embedderMaxSeqLen : Nat := 1024
def embedderDimensions : Nat := 512

namespace CacheIdentity

def new (modelSha256 vocabSha256 provider : String) : CacheIdentity :=
  ⟨modelSha256, vocabSha256, Memory.embedderVersion, embedderMaxSeqLen, embedderDimensions, provider⟩

def utf8 (s : String) : List UInt8 := s.toUTF8.data.toList

/-- What the namespace is a hash of. -/
def preimage (identity : CacheIdentity) : List UInt8 :=
  utf8 identity.modelSha256 ++ [0] ++ utf8 identity.vocabSha256 ++ [0] ++
    utf8 identity.embedderVersion ++ [0] ++ leBytes 8 identity.maxSeqLen ++
    leBytes 8 identity.dimensions ++ [0] ++ utf8 identity.provider

def hexDigit (n : Nat) : Char := Nat.digitChar n

/-- `Hash::to_hex`. -/
def toHex (bytes : List UInt8) : List Char :=
  bytes.flatMap fun b => [hexDigit (b.toNat / 16), hexDigit (b.toNat % 16)]

section
variable (blake3 : List UInt8 → List UInt8)

def «namespace» (identity : CacheIdentity) : String :=
  String.ofList ((toHex (blake3 identity.preimage)).take 32)

def keyPreimage (identity : CacheIdentity) (text : String) : List UInt8 :=
  utf8 (identity.namespace blake3) ++ [0] ++ utf8 text

def key (identity : CacheIdentity) (text : String) : List UInt8 :=
  blake3 (identity.keyPreimage blake3 text)

end

end CacheIdentity

/-! ## What tells identities and texts apart -/

theorem terminated_inj {a b s t : List UInt8} (ha : 0 ∉ a) (hb : 0 ∉ b)
    (h : a ++ [0] ++ s = b ++ [0] ++ t) : a = b ∧ s = t := by
  induction a generalizing b with
  | nil =>
    cases b with
    | nil => exact ⟨rfl, by simpa using h⟩
    | cons y ys =>
      have hzero : 0 = y := (List.cons.inj h).1
      exact absurd (hzero ▸ List.mem_cons_self) hb
  | cons x xs ih =>
    cases b with
    | nil =>
      have hzero : x = 0 := (List.cons.inj h).1
      exact absurd (hzero ▸ List.mem_cons_self) ha
    | cons y ys =>
      obtain ⟨hxy, hrest⟩ := List.cons.inj h
      obtain ⟨hxs, hst⟩ := ih (fun hx => ha (List.mem_cons_of_mem _ hx))
        (fun hy => hb (List.mem_cons_of_mem _ hy)) hrest
      exact ⟨by rw [hxy, hxs], hst⟩

theorem utf8_inj {s t : String} (h : CacheIdentity.utf8 s = CacheIdentity.utf8 t) : s = t := by
  have hbytes : s.toUTF8 = t.toUTF8 := ByteArray.ext (Array.toList_inj.mp h)
  exact String.toByteArray_inj.mp hbytes

theorem hexDigit_inj {m n : Nat} (hm : m < 16) (hn : n < 16)
    (h : CacheIdentity.hexDigit m = CacheIdentity.hexDigit n) : m = n := by
  have hall : ∀ i j : Fin 16, CacheIdentity.hexDigit i = CacheIdentity.hexDigit j → i = j := by decide
  exact Fin.mk.inj_iff.mp (hall ⟨m, hm⟩ ⟨n, hn⟩ h)

theorem toHex_inj {a b : List UInt8} (h : CacheIdentity.toHex a = CacheIdentity.toHex b) : a = b := by
  induction a generalizing b with
  | nil =>
    cases b with
    | nil => rfl
    | cons y ys => cases h
  | cons x xs ih =>
    cases b with
    | nil => cases h
    | cons y ys =>
      obtain ⟨hhigh, hrest⟩ := List.cons.inj h
      obtain ⟨hlow, hrest⟩ := List.cons.inj hrest
      have hx := x.toNat_lt
      have hy := y.toNat_lt
      have hdiv := hexDigit_inj (by omega) (by omega) hhigh
      have hmod := hexDigit_inj (Nat.mod_lt _ (by decide)) (Nat.mod_lt _ (by decide)) hlow
      have hxy : x.toNat = y.toNat := by omega
      rw [UInt8.toNat_inj.mp hxy, ih hrest]

theorem take_toHex (bytes : List UInt8) (n : Nat) :
    (CacheIdentity.toHex bytes).take (2 * n) = CacheIdentity.toHex (bytes.take n) := by
  induction n generalizing bytes with
  | zero => simp [CacheIdentity.toHex]
  | succ n ih =>
    cases bytes with
    | nil => simp [CacheIdentity.toHex]
    | cons b rest =>
      have hrest := ih rest
      simp only [CacheIdentity.toHex, List.flatMap_cons] at hrest ⊢
      rw [List.take_succ_cons, List.flatMap_cons, ← hrest]
      rfl

theorem preimage_inj {a b : CacheIdentity}
    (ha : 0 ∉ CacheIdentity.utf8 a.modelSha256 ∧ 0 ∉ CacheIdentity.utf8 a.vocabSha256 ∧
      0 ∉ CacheIdentity.utf8 a.embedderVersion)
    (hb : 0 ∉ CacheIdentity.utf8 b.modelSha256 ∧ 0 ∉ CacheIdentity.utf8 b.vocabSha256 ∧
      0 ∉ CacheIdentity.utf8 b.embedderVersion)
    (hasize : a.maxSeqLen < 256 ^ 8 ∧ a.dimensions < 256 ^ 8)
    (hbsize : b.maxSeqLen < 256 ^ 8 ∧ b.dimensions < 256 ^ 8) (h : a.preimage = b.preimage) : a = b := by
  unfold CacheIdentity.preimage at h
  simp only [List.append_assoc] at h
  obtain ⟨hmodel, h⟩ := terminated_inj ha.1 hb.1 (by simpa only [List.append_assoc] using h)
  obtain ⟨hvocab, h⟩ := terminated_inj ha.2.1 hb.2.1 (by simpa only [List.append_assoc] using h)
  obtain ⟨hversion, h⟩ := terminated_inj ha.2.2 hb.2.2 (by simpa only [List.append_assoc] using h)
  obtain ⟨hlen, h⟩ := List.append_inj h (by simp)
  obtain ⟨hdims, h⟩ := List.append_inj h (by simp)
  have hprovider := (List.append_inj h rfl).2
  have hseq : a.maxSeqLen = b.maxSeqLen := by
    rw [← leValue_leBytes hasize.1, hlen, leValue_leBytes hbsize.1]
  have hdim : a.dimensions = b.dimensions := by
    rw [← leValue_leBytes hasize.2, hdims, leValue_leBytes hbsize.2]
  cases a
  cases b
  simp only [CacheIdentity.mk.injEq]
  exact ⟨utf8_inj hmodel, utf8_inj hvocab, utf8_inj hversion, hseq, hdim, utf8_inj hprovider⟩

/-- The hash gives 32 bytes, and none of these identities and texts collide under it. The digests
and the version hold no NUL, and the sizes fit their field. -/
structure Apart (blake3 : List UInt8 → List UInt8) (identities : List CacheIdentity)
    (texts : List String) : Prop where
  width : ∀ input, (blake3 input).length = 32
  named : ∀ a ∈ identities, ∀ b ∈ identities,
    (blake3 a.preimage).take 16 = (blake3 b.preimage).take 16 → a.preimage = b.preimage
  keyed : ∀ a ∈ identities, ∀ s ∈ texts, ∀ t ∈ texts,
    a.key blake3 s = a.key blake3 t → a.keyPreimage blake3 s = a.keyPreimage blake3 t
  nulFree : ∀ a ∈ identities, 0 ∉ CacheIdentity.utf8 a.modelSha256 ∧
    0 ∉ CacheIdentity.utf8 a.vocabSha256 ∧ 0 ∉ CacheIdentity.utf8 a.embedderVersion
  sized : ∀ a ∈ identities, a.maxSeqLen < 256 ^ 8 ∧ a.dimensions < 256 ^ 8

namespace Apart

variable {blake3 : List UInt8 → List UInt8} {identities : List CacheIdentity} {texts : List String}

/-- A namespace is one identity's. -/
theorem identity_eq (h : Apart blake3 identities texts) {a b : CacheIdentity} (ha : a ∈ identities)
    (hb : b ∈ identities) (hname : a.namespace blake3 = b.namespace blake3) : a = b := by
  have hhex : (CacheIdentity.toHex (blake3 a.preimage)).take (2 * 16) =
      (CacheIdentity.toHex (blake3 b.preimage)).take (2 * 16) := String.ofList_injective hname
  rw [take_toHex, take_toHex] at hhex
  exact preimage_inj (h.nulFree a ha) (h.nulFree b hb) (h.sized a ha) (h.sized b hb)
    (h.named a ha b hb (toHex_inj hhex))

/-- A key of an identity is one text's. -/
theorem text_eq (h : Apart blake3 identities texts) {a : CacheIdentity} (ha : a ∈ identities)
    {s t : String} (hs : s ∈ texts) (ht : t ∈ texts) (hkey : a.key blake3 s = a.key blake3 t) : s = t := by
  have hpre := h.keyed a ha s hs t ht hkey
  exact utf8_inj (List.append_inj hpre rfl).2

end Apart

/-! ## The cache -/

/-- The files of the cache directory. -/
abbrev CacheFiles := String → Option (List UInt8)

/-- How an append ends: the whole record is in the file, or the write fails with some of it there. -/
inductive Appended
  | whole
  | torn (written : Nat)
  deriving DecidableEq, Repr

inductive CacheError
  | io (path : String)
  | corruptRecord (path : String) (found expected : Nat)
  deriving DecidableEq, Repr

structure EmbeddingCache (dimensions : Nat) where
  path : String
  identity : CacheIdentity
  entries : List UInt8 → Option (Embedding dimensions)
  hits : Nat
  misses : Nat

/-- The bytes of one record. -/
def recordWidth (dimensions : Nat) : Nat := 32 + dimensions * 4

namespace EmbeddingCache

variable (blake3 : List UInt8 → List UInt8) {dimensions : Nat}

def fileName (identity : CacheIdentity) : String :=
  "embeddings-" ++ identity.namespace blake3 ++ ".bin"

/-- One record of the file, put over what stands under its key. -/
def readRecord (entries : List UInt8 → Option (Embedding dimensions)) (chunk : List UInt8) :
    List UInt8 → Option (Embedding dimensions) :=
  let values := Embedding.readValues (chunk.drop 32)
  if h : values.length = dimensions then Function.update entries (chunk.take 32) (some ⟨values, h⟩)
  else entries

def «open» (files : CacheFiles) (identity : CacheIdentity) :
    Except CacheError (EmbeddingCache dimensions) :=
  let path := fileName blake3 identity
  match files path with
  | none => .ok ⟨path, identity, fun _ => none, 0, 0⟩
  | some bytes =>
    if bytes.length % recordWidth dimensions ≠ 0 then
      .error (.corruptRecord path (bytes.length % recordWidth dimensions) (recordWidth dimensions))
    else
      .ok ⟨path, identity,
        (chunksExact (recordWidth dimensions) bytes).foldl readRecord fun _ => none, 0, 0⟩

def get (cache : EmbeddingCache dimensions) (text : String) :
    Option (Embedding dimensions) × EmbeddingCache dimensions :=
  match cache.entries (cache.identity.key blake3 text) with
  | some vector => (some vector, { cache with hits := cache.hits + 1 })
  | none => (none, { cache with misses := cache.misses + 1 })

/-- The bytes that `put` appends. -/
def record (identity : CacheIdentity) (text : String) (vector : Embedding dimensions) : List UInt8 :=
  identity.key blake3 text ++ vector.bytes

def put (files : CacheFiles) (cache : EmbeddingCache dimensions) (text : String)
    (vector : Embedding dimensions) (append : Appended) :
    Except CacheError Unit × EmbeddingCache dimensions × CacheFiles :=
  let key := cache.identity.key blake3 text
  match cache.entries key with
  | some _ => (.ok (), cache, files)
  | none =>
    let bytes := record blake3 cache.identity text vector
    let held := (files cache.path).getD []
    match append with
    | .whole =>
      (.ok (), { cache with entries := Function.update cache.entries key (some vector) },
        Function.update files cache.path (some (held ++ bytes)))
    | .torn written =>
      (.error (.io cache.path), cache,
        Function.update files cache.path (some (held ++ bytes.take (min written (bytes.length - 1)))))

end EmbeddingCache

/-! ## What a file says -/

section Files

variable {blake3 : List UInt8 → List UInt8} {dimensions : Nat}
variable (embedding : CacheIdentity → String → Embedding dimensions)

/-- The file of an identity after whole records of these texts. -/
def fileOf (blake3 : List UInt8 → List UInt8) (identity : CacheIdentity) (texts : List String) :
    List UInt8 :=
  (texts.map fun text => EmbeddingCache.record blake3 identity text (embedding identity text)).flatten

variable (hwidth : ∀ input, (blake3 input).length = 32)
include hwidth

theorem length_record (identity : CacheIdentity) (text : String) (vector : Embedding dimensions) :
    (EmbeddingCache.record blake3 identity text vector).length = recordWidth dimensions := by
  rw [EmbeddingCache.record, List.length_append, CacheIdentity.key, hwidth, vector.length_bytes]
  rfl

theorem width_of_mem_records {identity : CacheIdentity} {texts : List String} {r : List UInt8}
    (h : r ∈ texts.map fun text => EmbeddingCache.record blake3 identity text (embedding identity text)) :
    r.length = recordWidth dimensions := by
  obtain ⟨text, -, rfl⟩ := List.mem_map.mp h
  exact length_record hwidth identity text _

theorem length_fileOf (identity : CacheIdentity) (texts : List String) :
    (fileOf embedding blake3 identity texts).length = texts.length * recordWidth dimensions := by
  rw [fileOf, length_flatten_of_width fun r hr => width_of_mem_records embedding hwidth hr, List.length_map]

theorem readRecord_record (entries : List UInt8 → Option (Embedding dimensions))
    (identity : CacheIdentity) (text : String) (vector : Embedding dimensions) :
    EmbeddingCache.readRecord entries (EmbeddingCache.record blake3 identity text vector) =
      Function.update entries (identity.key blake3 text) (some vector) := by
  have hkey : (identity.key blake3 text).length = 32 := hwidth _
  have hdrop : (EmbeddingCache.record blake3 identity text vector).drop 32 = vector.bytes :=
    List.drop_left' hkey
  have htake : (EmbeddingCache.record blake3 identity text vector).take 32 = identity.key blake3 text :=
    List.take_left' hkey
  unfold EmbeddingCache.readRecord
  simp only [hdrop, htake, vector.readValues_bytes, vector.whole, dite_true]

/-- What is read from a file of whole records: every text of it has its vector, and nothing else has. -/
theorem read_fileOf (identity : CacheIdentity) (texts : List String) (key : List UInt8) :
    (chunksExact (recordWidth dimensions) (fileOf embedding blake3 identity texts)).foldl
        EmbeddingCache.readRecord (fun _ => none) key =
      ((texts.reverse.find? fun text => identity.key blake3 text = key).map (embedding identity)) := by
  rw [fileOf, chunksExact_flatten (by simp [recordWidth])
    fun r hr => width_of_mem_records embedding hwidth hr]
  induction texts using List.reverseRecOn with
  | nil => rfl
  | append_singleton texts text ih =>
    rw [List.map_append, List.map_singleton, List.foldl_append, List.foldl_cons, List.foldl_nil,
      readRecord_record hwidth, List.reverse_append, List.reverse_singleton, List.singleton_append,
      List.find?_cons]
    by_cases hkey : identity.key blake3 text = key
    · subst hkey
      simp
    · rw [Function.update_of_ne (Ne.symm hkey), ih]
      simp [hkey]

end Files

end MarloweAgent.Memory
