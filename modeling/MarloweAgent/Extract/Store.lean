import MarloweAgent.Extract.Document
import MarloweAgent.Library.OrderedMap
import Mathlib.Data.List.Induction
import Mathlib.Data.String.Basic

/-! The document store. A document is filed under the hash of its text, and what the
run is handed is a reference: the address and counts, no text. The hash is a
parameter. -/

namespace MarloweAgent.Extract
open Contract Library

/-- A handle to a stored document: measurements, and nothing the page wrote. -/
structure DocumentRef where
  hash : String
  url : String
  format : Format
  wireBytes : Nat
  chars : Nat
  links : Nat
  headings : Nat
  hasTitle : Bool
  warnings : List String
  deriving DecidableEq, Repr

namespace DocumentRef

def isReadable (r : DocumentRef) : Bool := 0 < r.chars

/-- One line for the model. -/
def render (r : DocumentRef) : String :=
  let line := r.url ++ " · " ++ r.format.asStr ++ " · " ++ toString r.chars ++ " chars · "
    ++ toString r.links ++ " links · " ++ toString r.headings ++ " headings · ref " ++ r.hash
  if r.warnings.isEmpty then line else line ++ " · note: " ++ Text.join ", " r.warnings

end DocumentRef

structure DocumentStore where
  inner : OrderedMap String Document

namespace DocumentStore

def new : DocumentStore := ⟨OrderedMap.empty⟩

def get (store : DocumentStore) (hash : String) : Option Document := store.inner.get? hash

/-- The reference to a document at an address. -/
def reference (hash url : String) (wireBytes : Nat) (document : Document) : DocumentRef :=
  { hash, url, format := document.format, wireBytes, chars := document.text.utf8ByteSize
    links := document.links.length, headings := document.headings.length
    hasTitle := document.title.isSome, warnings := document.warnings.map warningKind }

/-- `put_addressed`: at an address that holds another text, the document is dropped. -/
def putAddressed (store : DocumentStore) (hash url : String) (wireBytes : Nat)
    (document : Document) : DocumentRef × DocumentStore :=
  let filed := match store.get hash with
    | some existing =>
      if existing.text ≠ document.text then store else ⟨store.inner.insert hash document⟩
    | none => ⟨store.inner.insert hash document⟩
  (reference hash url wireBytes document, filed)

/-- `put`, with the content hash. -/
def put (contentHash : String → String) (store : DocumentStore) (url : String) (wireBytes : Nat)
    (document : Document) : DocumentRef × DocumentStore :=
  store.putAddressed (contentHash document.text) url wireBytes document

end DocumentStore

/-! ## Histories of puts -/

/-- One call of `put`. -/
structure Put where
  url : String
  wireBytes : Nat
  document : Document
  deriving DecidableEq, Repr

section Puts

variable (contentHash : String → String)

/-- What the call returns, whatever the store. -/
def Put.ref (p : Put) : DocumentRef :=
  DocumentStore.reference (contentHash p.document.text) p.url p.wireBytes p.document

/-- The store after a history of puts, however the threads that made them took turns. -/
def filed (puts : List Put) : DocumentStore :=
  puts.foldl (fun store p => (store.put contentHash p.url p.wireBytes p.document).2) .new

/-- After this history, every reference reads as what was stored when it was first issued. -/
def RefsKept (puts : List Put) : Prop :=
  ∀ (before : List Put) (p : Put) (after : List Put), puts = before ++ p :: after →
    (∀ q ∈ before, q.ref contentHash ≠ p.ref contentHash) →
      ∃ document, (filed contentHash puts).get (p.ref contentHash).hash = some document ∧
        document.ReadsAs p.document

variable {contentHash}

@[simp] theorem Put.ref_hash (p : Put) :
    (p.ref contentHash).hash = contentHash p.document.text := rfl

theorem filed_concat (puts : List Put) (p : Put) :
    filed contentHash (puts ++ [p]) =
      ((filed contentHash puts).put contentHash p.url p.wireBytes p.document).2 := by
  simp [filed]

/-- Every document is under the hash of its own text. -/
def DocumentStore.Addressed (contentHash : String → String) (store : DocumentStore) : Prop :=
  ∀ hash document, store.get hash = some document → hash = contentHash document.text

/-- No two texts share an address, so a put is never refused: it is filed. -/
theorem DocumentStore.Addressed.put_get {store : DocumentStore}
    (hinj : Function.Injective contentHash) (h : store.Addressed contentHash) (p : Put)
    (hash : String) :
    (store.put contentHash p.url p.wireBytes p.document).2.get hash =
      if contentHash p.document.text = hash then some p.document else store.get hash := by
  have hfiled : (store.put contentHash p.url p.wireBytes p.document).2 =
      ⟨store.inner.insert (contentHash p.document.text) p.document⟩ := by
    unfold put putAddressed
    cases hget : store.get (contentHash p.document.text) with
    | none => rfl
    | some existing =>
      have htext : p.document.text = existing.text := hinj (h _ existing hget)
      simp [htext]
  rw [hfiled]
  exact OrderedMap.get?_insert store.inner _ hash p.document

theorem DocumentStore.Addressed.put {store : DocumentStore} (hinj : Function.Injective contentHash)
    (h : store.Addressed contentHash) (p : Put) :
    (store.put contentHash p.url p.wireBytes p.document).2.Addressed contentHash := by
  intro hash document hget
  rw [h.put_get hinj p hash] at hget
  split at hget
  · rename_i hhash
    cases hget
    exact hhash.symm
  · exact h hash document hget

theorem filed_addressed (hinj : Function.Injective contentHash) (puts : List Put) :
    (filed contentHash puts).Addressed contentHash := by
  induction puts using List.reverseRecOn with
  | nil =>
    intro hash document hget
    cases hget
  | append_singleton puts p ih =>
    rw [filed_concat]
    exact ih.put hinj p

/-- One more put: its text's address reads the new document, every other what it did. -/
theorem filed_get_concat (hinj : Function.Injective contentHash) (puts : List Put) (p : Put)
    (text : String) :
    (filed contentHash (puts ++ [p])).get (contentHash text) =
      if p.document.text = text then some p.document
      else (filed contentHash puts).get (contentHash text) := by
  rw [filed_concat, (filed_addressed hinj puts).put_get hinj p]
  exact if_congr hinj.eq_iff rfl rfl

/-- A stored text is read from one of the puts of it. -/
theorem filed_get_of_mem (hinj : Function.Injective contentHash) {puts : List Put} {p : Put}
    (hp : p ∈ puts) :
    ∃ q ∈ puts, q.document.text = p.document.text ∧
      (filed contentHash puts).get (contentHash p.document.text) = some q.document := by
  induction puts using List.reverseRecOn with
  | nil => cases hp
  | append_singleton puts last ih =>
    rw [filed_get_concat hinj]
    by_cases htext : last.document.text = p.document.text
    · exact ⟨last, by simp, htext, if_pos htext⟩
    · rw [if_neg htext]
      have hmem : p ∈ puts := by
        rcases List.mem_append.mp hp with hold | hlast
        · exact hold
        · obtain rfl := List.mem_singleton.mp hlast
          exact absurd rfl htext
      obtain ⟨q, hq, hsame, hget⟩ := ih hmem
      exact ⟨q, List.mem_append_left _ hq, hsame, hget⟩

/-- The put a reference was first issued by. -/
theorem first_issued {puts : List Put} {p : Put} (hp : p ∈ puts) :
    ∃ before first after, puts = before ++ first :: after ∧
      first.ref contentHash = p.ref contentHash ∧
      ∀ q ∈ before, q.ref contentHash ≠ first.ref contentHash := by
  have hfind : (puts.find? fun q => q.ref contentHash = p.ref contentHash).isSome := by
    rw [List.find?_isSome]
    exact ⟨p, hp, by simp⟩
  obtain ⟨first, hfirst⟩ := Option.isSome_iff_exists.mp hfind
  obtain ⟨hsame, before, after, hsplit, hnone⟩ := List.find?_eq_some_iff_append.mp hfirst
  have hsame : first.ref contentHash = p.ref contentHash := by simpa using hsame
  exact ⟨before, first, after, hsplit, hsame, fun q hq => by simpa [hsame] using hnone q hq⟩

/-- No later put of the same text changes the title or the warnings over it. -/
def SameOverText (puts : List Put) : Prop :=
  puts.Pairwise fun p q => p.document.text = q.document.text → q.document.ReadsAs p.document

instance (puts : List Put) : Decidable (SameOverText puts) :=
  inferInstanceAs (Decidable (List.Pairwise _ _))

/-- Where one text always came with one title and one set of warnings, two puts of it
read alike. -/
theorem SameOverText.readsAs {puts : List Put} (h : SameOverText puts) {p q : Put} (hp : p ∈ puts)
    (hq : q ∈ puts) (htext : p.document.text = q.document.text) : q.document.ReadsAs p.document := by
  induction puts with
  | nil => cases hp
  | cons a rest ih =>
    obtain ⟨hfirst, hrest⟩ := List.pairwise_cons.mp h
    rcases List.mem_cons.mp hp with hpa | hpr <;> rcases List.mem_cons.mp hq with hqa | hqr
    · rw [hpa, hqa]
    · rw [hpa] at htext ⊢
      exact hfirst q hqr htext
    · rw [hqa] at htext ⊢
      exact (hfirst p hpr htext.symm).symm
    · exact ih hrest hpr hqr

theorem SameOverText.refsKept (hinj : Function.Injective contentHash) {puts : List Put}
    (h : SameOverText puts) : RefsKept contentHash puts := by
  intro before p after hsplit _
  have hp : p ∈ puts := by simp [hsplit]
  obtain ⟨q, hq, htext, hget⟩ := filed_get_of_mem hinj hp
  exact ⟨q.document, hget, h.readsAs hp hq htext.symm⟩

/-- What the last put filed reads as what the reference of every earlier put of its
text was issued for. -/
theorem RefsKept.last (hinj : Function.Injective contentHash) {puts : List Put} {q : Put}
    (h : RefsKept contentHash (puts ++ [q])) {p : Put}
    (htext : p.document.text = q.document.text) {before after : List Put} {first : Put}
    (hsplit : puts ++ [q] = before ++ first :: after)
    (hnone : ∀ r ∈ before, r.ref contentHash ≠ first.ref contentHash)
    (hsame : first.ref contentHash = p.ref contentHash) : q.document.ReadsAs first.document := by
  have hfirst : first.document.text = q.document.text := by
    have hhash : contentHash first.document.text = contentHash p.document.text :=
      congrArg DocumentRef.hash hsame
    exact (hinj hhash).trans htext
  obtain ⟨document, hget, hreads⟩ := h before first after hsplit hnone
  rw [Put.ref_hash, filed_get_concat hinj, if_pos hfirst.symm] at hget
  cases hget
  exact hreads

/-- **When a reference keeps its meaning.** At every moment of a history of puts, every
reference reads as what it was first issued for, if and only if no text was put again
under another title or with other warnings. -/
theorem refs_kept_iff (contentHash : String → String) (hinj : Function.Injective contentHash)
    (puts : List Put) :
    (∀ done, done <+: puts → RefsKept contentHash done) ↔ SameOverText puts := by
  constructor
  · intro h
    induction puts using List.reverseRecOn with
    | nil => exact List.Pairwise.nil
    | append_singleton puts q ih =>
      refine List.pairwise_append.mpr
        ⟨ih fun done hdone => h done (hdone.trans (List.prefix_append _ _)),
          List.pairwise_singleton _ _, fun p hp r hr htext => ?_⟩
      obtain rfl := List.mem_singleton.mp hr
      -- `p` was filed over an earlier put with its reference, if there was one, and so was `q`
      obtain ⟨earlier, later, hp⟩ := List.append_of_mem hp
      obtain ⟨before, first, after, hsplit, hsame, hnone⟩ :=
        @first_issued contentHash (earlier ++ [p]) p (by simp)
      have hthen : puts ++ [r] = before ++ first :: (after ++ later ++ [r]) := by
        rw [hp, ← List.singleton_append, ← List.append_assoc earlier, hsplit]
        simp
      have hup : earlier ++ [p] <+: puts ++ [r] := ⟨later ++ [r], by simp [hp]⟩
      have hpfirst := (h _ hup).last hinj rfl hsplit hnone hsame
      have hrfirst := (h _ List.prefix_rfl).last hinj htext hthen hnone hsame
      exact hrfirst.trans hpfirst.symm
  · intro h done hdone
    exact SameOverText.refsKept hinj (h.sublist hdone.sublist)

end Puts

/-! ## One text under two titles -/

def page (title : String) : Document :=
  { Document.empty .html 64 with title := some title, text := "Opens at nine." }

/-- One page, fetched from a mirror as well. -/
def mirrored : List Put := [⟨"https://a.example/", 64, page "The museum"⟩,
  ⟨"https://b.example/", 64, page "The museum"⟩]

/-- Two pages with the same text. -/
def twoPages : List Put := [⟨"https://a.example/", 64, page "The museum"⟩,
  ⟨"https://b.example/", 64, page "The bank"⟩]

theorem refs_kept_iff_mirrored : RefsKept id mirrored :=
  (refs_kept_iff id Function.injective_id mirrored).mpr (by decide) mirrored List.prefix_rfl

/-- The second page takes the first one's place, under the first one's reference. -/
theorem reference_retitled : ¬ ∀ (contentHash : String → String), Function.Injective contentHash →
    ∀ puts done, done <+: puts → RefsKept contentHash done := by
  intro hall
  obtain ⟨document, hget, hreads⟩ := hall id Function.injective_id twoPages twoPages
    List.prefix_rfl [] ⟨"https://a.example/", 64, page "The museum"⟩ _ rfl (by simp)
  have hbank : (filed id twoPages).get "Opens at nine." = some (page "The bank") := by decide
  obtain rfl : page "The bank" = document := Option.some.inj (hbank.symm.trans hget)
  exact absurd hreads.title (by decide)

end MarloweAgent.Extract
