import MarloweAgent.Tools.FrontMatter
import MarloweAgent.Tools.Pin

/-! Skill files. What is loaded of one is what its front matter declares, and where its body is; the body
is read from the disk when the skill is used. -/

namespace MarloweAgent.Tools.Skills
open Contract Library FrontMatter

def maxBodyBytes : Nat := 64 * 1024

def maxTriggerPhrases : Nat := 16

structure SkillId where
  text : String
  deriving DecidableEq, Repr

structure DeclaredSignature where
  algorithm : String
  value : String
  deriving DecidableEq, Repr

/-- Where the body is, and how long it was. -/
structure BodyRef where
  path : String
  bytes : Nat
  deriving DecidableEq, Repr

structure CredentialId where
  text : String
  deriving DecidableEq, Repr

/-- A manifest with the credentials that it declares, and where it is from. -/
structure SkillManifest extends CapabilityManifest where
  creds : List CredentialId
  provenance : ManifestProvenance

structure Skill where
  id : SkillId
  description : Description
  triggerPhrases : List String
  manifest : SkillManifest
  signature : Option DeclaredSignature
  body : BodyRef

inductive SkillError
  | frontmatter (path : String) (source : ParseError)
  | unreadable (path detail : String)
  | missingField (path field : String)
  | wrongShape (path field found expected : String)
  | unknownExtensionKey (id : SkillId) (path key : String)
  | unknownConsequence (id : SkillId) (path declared : String)
  | malformedSignature (id : SkillId) (path raw : String)
  | bodyTooLarge (id : SkillId) (path : String) (bytes : Nat)
  | tooManyTriggerPhrases (id : SkillId) (path : String) (got : Nat)
  | manifest (id : SkillId) (path : String) (source : LoadError)
  deriving DecidableEq, Repr

abbrev Loaded (α : Type) := Except SkillError α

/-! ## Front matter and body -/

/-- The first line with its newline, and what is left. -/
def cutLine (s : List Char) : List Char × List Char :=
  (s.takeWhile (· ≠ '\n') ++ (s.dropWhile (· ≠ '\n')).take 1, (s.dropWhile (· ≠ '\n')).drop 1)

def isLineEnd (c : Char) : Bool := c == '\n' || c == '\r'

/-- A line that ends the front matter. -/
def closesFront (line : List Char) : Bool :=
  line.rdropWhile isLineEnd == "---".toList || line.rdropWhile isLineEnd == "...".toList

/-- The loop of `split`, behind the lines that it has passed. -/
def splitFrom : Nat → List Char → List Char → Option (List Char × List Char)
  | 0, _, _ => none
  | fuel + 1, front, s =>
    if s = [] then none
    else if closesFront (cutLine s).1 then some (front, (cutLine s).2)
    else splitFrom fuel (front ++ (cutLine s).1) (cutLine s).2

/-- The front matter and the body. -/
def split (source : String) : Parse (String × String) :=
  let text := (Text.stripPrefix source.toList ['\ufeff']).getD source.toList
  match (Text.stripPrefix text "---\n".toList).or (Text.stripPrefix text "---\r\n".toList) with
  | none =>
    err 1 ("a SKILL.md must open with `---` on its first line, followed by YAML front " ++
      "matter. A file with no front matter has no capability declaration, and a " ++
      "defaulted declaration is one nobody wrote")
  | some rest =>
    match splitFrom (rest.length + 1) [] rest with
    | some (front, body) => .ok (String.ofList front, String.ofList body)
    | none =>
      err (rest.count '\n' + 2)
        "the front matter is never closed: expected a `---` line after the header block"

/-! ## Disclosure -/

/-- What is disclosed of a body. -/
def trimBody (body : String) : String := String.ofList (body.toList.dropWhile isLineEnd)

/-- `BodyRef::read`, of what the disk holds by now. -/
def BodyRef.read (ref : BodyRef) (disk : String → Except String String) : Loaded String := do
  let raw ← (disk ref.path).mapError (SkillError.unreadable ref.path)
  let (_, body) ← (split raw).mapError (SkillError.frontmatter ref.path)
  return trimBody body

/-- What goes into the discovery index. -/
def Skill.discoveryText (skill : Skill) : String :=
  skill.triggerPhrases.foldl (fun s p => s ++ " \u00b7 " ++ p) skill.description.text

/-! ## Loading -/

def scalarOf (path : String) (front : Block) (key : String) : Loaded String :=
  match front.get? key with
  | none => .error (.missingField path key)
  | some v =>
    match v.asScalar with
    | none => .error (.wrongShape path key v.kind "a scalar")
    | some s => .ok s

/-- A block, or an empty one if there is none. -/
def blockOf (path field : String) : Option Value → Loaded (List (String × Value))
  | none => .ok []
  | some v =>
    match v.asMap with
    | none => .error (.wrongShape path field v.kind "a block")
    | some bindings => .ok bindings

def listOf (path : String) (bindings : List (String × Value)) (key : String) : Loaded (List String) :=
  match OrderedMap.lookupIn key bindings with
  | none => .ok []
  | some v =>
    match v.asSeq with
    | none => .error (.wrongShape path key v.kind "a list")
    | some items => .ok items

/-- The keys of the extension block. -/
def vocabulary : List String := ["capability", "consequence", "trigger_phrases", "signature"]

def checkKeys (id : SkillId) (path : String) (x : List (String × Value)) : Loaded Unit :=
  match x.find? fun e => !vocabulary.contains e.1 with
  | some (key, _) => .error (.unknownExtensionKey id path key)
  | none => .ok ()

def consequenceFrom (s : String) : Option ConsequenceLevel :=
  match Text.toAsciiLowercase (Text.trim s) with
  | "inert" => some .inert
  | "reversible" => some .reversible
  | "consequential" => some .consequential
  | "irreversible" => some .irreversible
  | _ => none

def consequenceOf (id : SkillId) (path : String) (x : List (String × Value)) : Loaded (Option ConsequenceLevel) :=
  match OrderedMap.lookupIn "consequence" x with
  | none => .ok none
  | some v =>
    match v.asScalar with
    | none => .error (.wrongShape path "x-marlowe.consequence" v.kind "a scalar")
    | some raw =>
      match consequenceFrom raw with
      | none => .error (.unknownConsequence id path raw)
      | some level => .ok (some level)

def phrasesOf (id : SkillId) (path : String) (x : List (String × Value)) : Loaded (List String) := do
  let declared ← listOf path x "trigger_phrases"
  let phrases := (declared.map Text.sanitizeLine).filter fun p => !Text.isEmpty (Text.trim p)
  if maxTriggerPhrases < phrases.length then .error (.tooManyTriggerPhrases id path phrases.length)
  else .ok phrases

def signatureOf (id : SkillId) (path : String) (x : List (String × Value)) : Loaded (Option DeclaredSignature) :=
  match OrderedMap.lookupIn "signature" x with
  | none => .ok none
  | some v =>
    let raw := v.asScalar.getD ""
    match raw.toList.dropWhile (· ≠ ':') with
    | [] => .error (.malformedSignature id path raw)
    | _ :: value =>
      let algorithm := Text.trim (String.ofList (raw.toList.takeWhile (· ≠ ':')))
      let value := Text.trim (String.ofList value)
      if Text.isEmpty algorithm || Text.isEmpty value then .error (.malformedSignature id path raw)
      else .ok (some { algorithm, value })

/-- The manifest of what is declared. -/
def manifestOf (id : SkillId) (path : String) (paths hosts creds : List String) (consequence : Option ConsequenceLevel)
    (reviewedAt : Int) : Loaded SkillManifest := do
  let manifest ← (load { tool := ⟨id.text⟩, paths, hosts, consequence, params := [] } (.userReviewed reviewedAt)).mapError
    (SkillError.manifest id path)
  return { toCapabilityManifest := manifest, creds := creds.map CredentialId.mk, provenance := .userReviewed reviewedAt }

/-- `load_skill` behind the name and the description. -/
def loadExtension (path : String) (front : Block) (body : String) (reviewedAt : Int) (id : SkillId)
    (description : Description) : Loaded Skill := do
  let x ← blockOf path "x-marlowe" (front.get? "x-marlowe")
  checkKeys id path x
  let cap ← blockOf path "x-marlowe.capability" (OrderedMap.lookupIn "capability" x)
  let paths ← listOf path cap "paths"
  let hosts ← listOf path cap "hosts"
  let creds ← listOf path cap "creds"
  let consequence ← consequenceOf id path x
  let triggerPhrases ← phrasesOf id path x
  let signature ← signatureOf id path x
  let bytes := body.utf8ByteSize
  if maxBodyBytes < bytes then .error (.bodyTooLarge id path bytes)
  else do
    let manifest ← manifestOf id path paths hosts creds consequence reviewedAt
    return { id, description, triggerPhrases, manifest, signature, body := { path, bytes } }

def loadSkill (path source : String) (reviewedAt : Int) : Loaded Skill := do
  let (front, body) ← (split source).mapError (SkillError.frontmatter path)
  let front ← (parse front).mapError (SkillError.frontmatter path)
  let name ← scalarOf path front "name"
  if Text.isEmpty (Text.trim name) then .error (.missingField path "name")
  else do
    let description ← scalarOf path front "description"
    loadExtension path front body reviewedAt ⟨name⟩ (Description.new description)

/-! ## What a skill file says -/

/-- A key under a block, with the keys that it stands under. -/
inductive KeyUnder : List (String × Value) → List String → Prop
  | here {bindings key v} : OrderedMap.lookupIn key bindings = some v → KeyUnder bindings [key]
  | deeper {bindings key nested path} : OrderedMap.lookupIn key bindings = some (.map nested) → KeyUnder nested path →
      KeyUnder bindings (key :: path)

/-- The value of a key under a block. -/
def valueUnder (bindings : List (String × Value)) : List String → Option Value
  | [] => none
  | [key] => OrderedMap.lookupIn key bindings
  | key :: rest => ((OrderedMap.lookupIn key bindings).bind Value.asMap).bind fun nested => valueUnder nested rest

/-- The extension block of a front matter. -/
def extension (front : Block) : List (String × Value) := ((front.get? "x-marlowe").bind Value.asMap).getD []

/-- The keys of the capability block that are read. -/
def scopes : List String := ["paths", "hosts", "creds"]

/-- The keys of the extension block that are read, at any depth. -/
def readKeys : List (List String) := vocabulary.map ([·]) ++ scopes.map fun key => ["capability", key]

/-- The items that are declared under a key. -/
def declared (front : Block) (path : List String) : List String :=
  ((valueUnder (extension front) path).bind Value.asSeq).getD []

/-- The consequence that is declared; the maximum, if none is. -/
def DeclaredLevel (front : Block) (level : ConsequenceLevel) : Prop :=
  match valueUnder (extension front) ["consequence"] with
  | none => level = .irreversible
  | some v => ∃ s, v.asScalar = some s ∧ consequenceFrom s = some level

/-- The skill declares what the front matter does, and no more is in it. -/
structure Declares (front : Block) (skill : Skill) : Prop where
  read : ∀ path, KeyUnder (extension front) path → path ∈ readKeys
  paths : skill.manifest.paths.map (·.text) = declared front ["capability", "paths"]
  hosts : skill.manifest.hosts.map (·.text) = declared front ["capability", "hosts"]
  creds : skill.manifest.creds.map (·.text) = declared front ["capability", "creds"]
  consequence : DeclaredLevel front skill.manifest.consequence

/-- What is read of a file is the text behind its front matter, within the bound; or an error. -/
def Discloses (disk : String → Except String String) (ref : BodyRef) : Prop :=
  (∃ e, ref.read disk = .error e) ∨
    ∃ raw front body, disk ref.path = .ok raw ∧ split raw = .ok (front, body) ∧ ref.read disk = .ok (trimBody body) ∧
      (trimBody body).utf8ByteSize ≤ maxBodyBytes

/-- No key of the capability block is passed over. -/
def ReadsScopes (front : Block) : Prop :=
  ∀ key v, valueUnder (extension front) ["capability", key] = some v → key ∈ scopes

/-- The file has no longer body by now. -/
def StillBounded (disk : String → Except String String) (path : String) : Prop :=
  ∀ raw front body, disk path = .ok raw → split raw = .ok (front, body) → (trimBody body).utf8ByteSize ≤ maxBodyBytes

/-! ## Loading, step by step -/

theorem bind_ok {α β : Type} {x : Loaded α} {f : α → Loaded β} {b : β} (h : x >>= f = .ok b) :
    ∃ a, x = .ok a ∧ f a = .ok b := by
  cases x with
  | error e => cases h
  | ok a => exact ⟨a, rfl, h⟩

theorem bind_of_ok {α β : Type} {x : Loaded α} {a : α} (h : x = .ok a) (f : α → Loaded β) : x >>= f = f a := by
  rw [h]
  rfl

theorem mapError_ok {α ε : Type} {x : Except ε α} {f : ε → SkillError} {a : α} (h : x.mapError f = .ok a) : x = .ok a := by
  cases x with
  | error e => cases h
  | ok b => exact congrArg Except.ok (Except.ok.inj h)

theorem scalarOf_ok {path key s : String} {front : Block} (h : scalarOf path front key = .ok s) :
    (front.get? key).bind Value.asScalar = some s := by
  rw [scalarOf] at h
  split at h
  · cases h
  · rename_i v hsome
    split at h
    · cases h
    · rename_i hscalar
      rw [hsome, Option.bind_some, hscalar]
      exact congrArg some (Except.ok.inj h)

theorem blockOf_ok {path field : String} {v : Option Value} {bindings : List (String × Value)}
    (h : blockOf path field v = .ok bindings) : (v.bind Value.asMap).getD [] = bindings := by
  cases v with
  | none => exact Except.ok.inj h
  | some v =>
    rw [blockOf] at h
    split at h
    · cases h
    · rename_i hmap
      rw [Option.bind_some, hmap]
      exact Except.ok.inj h

theorem listOf_ok {path key : String} {bindings : List (String × Value)} {items : List String}
    (h : listOf path bindings key = .ok items) :
    ((OrderedMap.lookupIn key bindings).bind Value.asSeq).getD [] = items ∧
      ∀ nested, OrderedMap.lookupIn key bindings ≠ some (.map nested) := by
  rw [listOf] at h
  split at h
  · rename_i hnone
    rw [hnone]
    exact ⟨Except.ok.inj h, fun nested => nofun⟩
  · rename_i v hsome
    split at h
    · cases h
    · rename_i hseq
      rw [hsome, Option.bind_some, hseq]
      refine ⟨Except.ok.inj h, ?_⟩
      rintro nested hnested
      rw [Option.some.inj hnested] at hseq
      cases hseq

theorem mem_of_lookupIn {key : String} {bindings : List (String × Value)} {v : Value}
    (h : OrderedMap.lookupIn key bindings = some v) : (key, v) ∈ bindings := by
  induction bindings with
  | nil => cases h
  | cons e rest ih =>
    obtain ⟨k, w⟩ := e
    rw [OrderedMap.lookupIn] at h
    split at h
    · rename_i hkey
      rw [hkey, Option.some.inj h]
      exact List.mem_cons_self
    · exact List.mem_cons_of_mem _ (ih h)

theorem checkKeys_ok {id : SkillId} {path : String} {x : List (String × Value)} (h : checkKeys id path x = .ok ()) :
    ∀ key v, OrderedMap.lookupIn key x = some v → key ∈ vocabulary := by
  intro key v hlookup
  rw [checkKeys] at h
  split at h
  · cases h
  · rename_i hnone
    have hknown := List.find?_eq_none.mp hnone _ (mem_of_lookupIn hlookup)
    simpa using hknown

theorem consequenceOf_ok {id : SkillId} {path : String} {x : List (String × Value)} {level : Option ConsequenceLevel}
    (h : consequenceOf id path x = .ok level) :
    match OrderedMap.lookupIn "consequence" x with
    | none => level = none
    | some v => ∃ s l, v.asScalar = some s ∧ consequenceFrom s = some l ∧ level = some l := by
  rw [consequenceOf] at h
  split at h
  · exact (Except.ok.inj h).symm
  · split at h
    · cases h
    · rename_i s hscalar
      split at h
      · cases h
      · rename_i l hlevel
        exact ⟨s, l, hscalar, hlevel, (Except.ok.inj h).symm⟩

theorem signatureOf_ok {id : SkillId} {path : String} {x : List (String × Value)} {signature : Option DeclaredSignature}
    (h : signatureOf id path x = .ok signature) (nested : List (String × Value)) :
    OrderedMap.lookupIn "signature" x ≠ some (.map nested) := by
  intro hmap
  rw [signatureOf, hmap] at h
  cases h

/-- A manifest with no parameters that a user has reviewed is as it is declared. -/
theorem manifestOf_ok {id : SkillId} {path : String} {paths hosts creds : List String}
    {consequence : Option ConsequenceLevel} {reviewedAt : Int} {manifest : SkillManifest}
    (h : manifestOf id path paths hosts creds consequence reviewedAt = .ok manifest) :
    manifest.paths.map (·.text) = paths ∧ manifest.hosts.map (·.text) = hosts ∧ manifest.creds.map (·.text) = creds ∧
      manifest.consequence = consequence.getD .irreversible := by
  have hload : load { tool := ⟨id.text⟩, paths, hosts, consequence, params := [] } (.userReviewed reviewedAt) =
      .ok { tool := ⟨id.text⟩, paths := paths.map PathGlob.mk, hosts := hosts.map HostPattern.mk,
            consequence := consequence.getD .irreversible, params := [] } := by
    rfl
  rw [manifestOf, hload] at h
  obtain rfl := Except.ok.inj h
  refine ⟨?_, ?_, ?_, rfl⟩
  · exact List.map_map.trans (List.map_id paths)
  · exact List.map_map.trans (List.map_id hosts)
  · exact List.map_map.trans (List.map_id creds)

/-- What has been read when a skill is loaded. -/
structure Reads (path : String) (front : Block) (id : SkillId) (description : Description) (reviewedAt : Int)
    (skill : Skill) : Prop where
  keys : checkKeys id path (extension front) = .ok ()
  scope : ∃ cap paths hosts creds consequence,
    ((OrderedMap.lookupIn "capability" (extension front)).bind Value.asMap).getD [] = cap ∧
      (∀ v, OrderedMap.lookupIn "capability" (extension front) = some v → ∃ nested, v = .map nested) ∧
      listOf path cap "paths" = .ok paths ∧ listOf path cap "hosts" = .ok hosts ∧ listOf path cap "creds" = .ok creds ∧
      consequenceOf id path (extension front) = .ok consequence ∧
      manifestOf id path paths hosts creds consequence reviewedAt = .ok skill.manifest
  phrases : phrasesOf id path (extension front) = .ok skill.triggerPhrases
  signature : signatureOf id path (extension front) = .ok skill.signature
  described : skill.description = description
  body : skill.body.path = path

theorem loadExtension_ok {path body : String} {front : Block} {reviewedAt : Int} {id : SkillId}
    {description : Description} {skill : Skill}
    (h : loadExtension path front body reviewedAt id description = .ok skill) :
    Reads path front id description reviewedAt skill := by
  obtain ⟨x, hx, h⟩ := bind_ok h
  obtain ⟨⟨⟩, hkeys, h⟩ := bind_ok h
  obtain ⟨cap, hcap, h⟩ := bind_ok h
  obtain ⟨paths, hpaths, h⟩ := bind_ok h
  obtain ⟨hosts, hhosts, h⟩ := bind_ok h
  obtain ⟨creds, hcreds, h⟩ := bind_ok h
  obtain ⟨consequence, hconsequence, h⟩ := bind_ok h
  obtain ⟨phrases, hphrases, h⟩ := bind_ok h
  obtain ⟨signature, hsignature, h⟩ := bind_ok h
  have hext : extension front = x := blockOf_ok hx
  have hblock : ∀ v, OrderedMap.lookupIn "capability" x = some v → ∃ nested, v = .map nested := by
    intro v hv
    rw [hv] at hcap
    cases v with
    | map nested => exact ⟨nested, rfl⟩
    | scalar s => cases hcap
    | seq items => cases hcap
  have hcap' := blockOf_ok hcap
  dsimp only at h
  split at h
  · cases h
  · obtain ⟨manifest, hmanifest, h⟩ := bind_ok h
    obtain rfl := Except.ok.inj h
    rw [← hext] at hkeys hblock hcap' hconsequence hphrases hsignature
    exact { keys := hkeys, phrases := hphrases, signature := hsignature, described := rfl, body := rfl
            scope := ⟨cap, paths, hosts, creds, consequence, hcap', hblock, hpaths, hhosts, hcreds, hconsequence, hmanifest⟩ }

theorem loadSkill_ok {path source : String} {reviewedAt : Int} {skill : Skill}
    (h : loadSkill path source reviewedAt = .ok skill) :
    ∃ front body m name description, split source = .ok (front, body) ∧ parse front = .ok m ∧
      scalarOf path m "name" = .ok name ∧ scalarOf path m "description" = .ok description ∧
      Reads path m ⟨name⟩ (Description.new description) reviewedAt skill := by
  obtain ⟨⟨front, body⟩, hsplit, h⟩ := bind_ok h
  obtain ⟨m, hparse, h⟩ := bind_ok h
  obtain ⟨name, hname, h⟩ := bind_ok h
  split at h
  · cases h
  · obtain ⟨description, hdescription, h⟩ := bind_ok h
    exact ⟨front, body, m, name, description, mapError_ok hsplit, mapError_ok hparse, hname, hdescription,
      loadExtension_ok h⟩

/-! ## What is loaded is what is declared -/

/-- What is listed under a key of the capability block. -/
theorem declared_scope {front : Block} {cap : List (String × Value)}
    (hcap : ((OrderedMap.lookupIn "capability" (extension front)).bind Value.asMap).getD [] = cap) (key : String) :
    declared front ["capability", key] = ((OrderedMap.lookupIn key cap).bind Value.asSeq).getD [] := by
  have hunder : valueUnder (extension front) ["capability", key] =
      ((OrderedMap.lookupIn "capability" (extension front)).bind Value.asMap).bind (OrderedMap.lookupIn key) := rfl
  rw [declared, hunder]
  cases hblock : (OrderedMap.lookupIn "capability" (extension front)).bind Value.asMap with
  | none =>
    rw [hblock] at hcap
    rw [← hcap]
    rfl
  | some nested =>
    rw [hblock] at hcap
    rw [← hcap]
    rfl

theorem phrasesOf_ok {id : SkillId} {path : String} {x : List (String × Value)} {phrases : List String}
    (h : phrasesOf id path x = .ok phrases) :
    phrases = ((((OrderedMap.lookupIn "trigger_phrases" x).bind Value.asSeq).getD []).map Text.sanitizeLine).filter
        (fun p => !Text.isEmpty (Text.trim p)) ∧
      ∀ nested, OrderedMap.lookupIn "trigger_phrases" x ≠ some (.map nested) := by
  obtain ⟨items, hitems, h⟩ := bind_ok h
  obtain ⟨hdeclared, hmap⟩ := listOf_ok hitems
  refine ⟨?_, hmap⟩
  dsimp only at h
  split at h
  · cases h
  · rw [hdeclared]
    exact (Except.ok.inj h).symm

variable {path : String} {front : Block} {id : SkillId} {description : Description} {reviewedAt : Int} {skill : Skill}

/-- Each key of the extension block is read, if those of the capability block are. -/
theorem Reads.read_iff (h : Reads path front id description reviewedAt skill) :
    (∀ path, KeyUnder (extension front) path → path ∈ readKeys) ↔ ReadsScopes front := by
  obtain ⟨cap, paths, hosts, creds, consequence, hcap, hblock, hpaths, hhosts, hcreds, hconsequence, -⟩ := h.scope
  constructor
  · intro hread key v hv
    obtain ⟨nested, hnested, hkey⟩ := Option.bind_eq_some_iff.mp hv
    obtain ⟨v', hcapability, hmap⟩ := Option.bind_eq_some_iff.mp hnested
    obtain ⟨bindings, rfl⟩ := hblock v' hcapability
    obtain rfl := Option.some.inj hmap
    rcases List.mem_append.mp (hread _ (.deeper hcapability (.here hkey))) with htop | hscope
    · obtain ⟨k, -, hk⟩ := List.mem_map.mp htop
      cases hk
    · obtain ⟨k, hk, hsame⟩ := List.mem_map.mp hscope
      cases hsame
      exact hk
  · intro hscopes keys hunder
    cases hunder with
    | here hkey =>
      exact List.mem_append_left _ (List.mem_map_of_mem (checkKeys_ok h.keys _ _ hkey))
    | deeper hkey hnested =>
      rename_i key nested rest
      have hknown := checkKeys_ok h.keys _ _ hkey
      simp only [vocabulary, List.mem_cons, List.not_mem_nil, or_false] at hknown
      rcases hknown with rfl | rfl | rfl | rfl
      · -- only the capability block has keys of its own
        have hread : ∀ k v, OrderedMap.lookupIn k nested = some v → k ∈ scopes := by
          intro k v hk
          refine hscopes k v ?_
          show ((OrderedMap.lookupIn "capability" (extension front)).bind Value.asMap).bind (OrderedMap.lookupIn k) = _
          rw [hkey]
          exact hk
        have hflat : ∀ k deeper, OrderedMap.lookupIn k nested ≠ some (.map deeper) := by
          intro k deeper hk
          rw [hkey] at hcap
          obtain rfl : nested = cap := hcap
          have hscope := hread k _ hk
          simp only [scopes, List.mem_cons, List.not_mem_nil, or_false] at hscope
          rcases hscope with rfl | rfl | rfl
          · exact (listOf_ok hpaths).2 deeper hk
          · exact (listOf_ok hhosts).2 deeper hk
          · exact (listOf_ok hcreds).2 deeper hk
        cases hnested with
        | here hk => exact List.mem_append_right _ (List.mem_map_of_mem (hread _ _ hk))
        | deeper hk _ => exact absurd hk (hflat _ _)
      · have hlevel := consequenceOf_ok hconsequence
        rw [hkey] at hlevel
        obtain ⟨s, l, hscalar, -⟩ := hlevel
        cases hscalar
      · exact absurd hkey ((phrasesOf_ok h.phrases).2 nested)
      · exact absurd hkey (signatureOf_ok h.signature nested)

theorem Reads.declares_iff (h : Reads path front id description reviewedAt skill) :
    Declares front skill ↔ ReadsScopes front := by
  refine ⟨fun hdeclares => h.read_iff.mp hdeclares.read, fun hscopes => ?_⟩
  obtain ⟨cap, paths, hosts, creds, consequence, hcap, -, hpaths, hhosts, hcreds, hconsequence, hmanifest⟩ := h.scope
  obtain ⟨hp, hh, hc, hlevel⟩ := manifestOf_ok hmanifest
  refine { read := h.read_iff.mpr hscopes, paths := ?_, hosts := ?_, creds := ?_, consequence := ?_ }
  · rw [hp, declared_scope hcap, (listOf_ok hpaths).1]
  · rw [hh, declared_scope hcap, (listOf_ok hhosts).1]
  · rw [hc, declared_scope hcap, (listOf_ok hcreds).1]
  · have hdeclared := consequenceOf_ok hconsequence
    have hunder : valueUnder (extension front) ["consequence"] = OrderedMap.lookupIn "consequence" (extension front) := rfl
    rw [DeclaredLevel, hunder, hlevel]
    cases hv : OrderedMap.lookupIn "consequence" (extension front) with
    | none =>
      rw [hv] at hdeclared
      rw [show consequence = none from hdeclared]
      rfl
    | some v =>
      rw [hv] at hdeclared
      obtain ⟨s, l, hscalar, hfrom, rfl⟩ := hdeclared
      exact ⟨s, hscalar, hfrom⟩

theorem discloses_iff (disk : String → Except String String) (ref : BodyRef) :
    Discloses disk ref ↔ StillBounded disk ref.path := by
  constructor
  · rintro (⟨e, he⟩ | ⟨raw, front, body, hraw, hsplit, -, hbound⟩) raw' front' body' hraw' hsplit'
    · have hread : ref.read disk = .ok (trimBody body') := by
        rw [BodyRef.read, hraw', Except.mapError]
        show (split raw').mapError _ >>= _ = _
        rw [hsplit']
        rfl
      rw [hread] at he
      cases he
    · rw [hraw] at hraw'
      obtain rfl := Except.ok.inj hraw'
      rw [hsplit] at hsplit'
      obtain ⟨-, rfl⟩ := Prod.mk.inj (Except.ok.inj hsplit')
      exact hbound
  · intro hbound
    cases hread : ref.read disk with
    | error e => exact .inl ⟨e, hread⟩
    | ok text =>
      obtain ⟨raw, hraw, h⟩ := bind_ok hread
      obtain ⟨⟨front, body⟩, hsplit, h⟩ := bind_ok h
      obtain rfl := Except.ok.inj h
      have hraw := mapError_ok hraw
      have hsplit := mapError_ok hsplit
      exact .inr ⟨raw, front, body, hraw, hsplit, hread, hbound raw front body hraw hsplit⟩

/-- A key that is not of the extension block is refused by its name. -/
theorem refuses_unknown {source header body name description : String} {x : List (String × Value)}
    (hsplit : split source = .ok (header, body)) (hparse : parse header = .ok front)
    (hname : scalarOf path front "name" = .ok name) (hblank : Text.isEmpty (Text.trim name) = false)
    (hdescription : scalarOf path front "description" = .ok description)
    (hx : front.get? "x-marlowe" = some (.map x)) (hunknown : ∃ e ∈ x, e.1 ∉ vocabulary) :
    ∃ key ∈ x.map Prod.fst, key ∉ vocabulary ∧
      loadSkill path source reviewedAt = .error (.unknownExtensionKey ⟨name⟩ path key) := by
  cases hfound : x.find? fun e => !vocabulary.contains e.1 with
  | none =>
    obtain ⟨e, he, hnot⟩ := hunknown
    have hknown := List.find?_eq_none.mp hfound e he
    exact absurd (by simpa using hknown) hnot
  | some e =>
    obtain ⟨key, v⟩ := e
    have hnot := List.find?_some hfound
    refine ⟨key, List.mem_map_of_mem (List.mem_of_find?_eq_some hfound), by simpa using hnot, ?_⟩
    have hkeys : checkKeys ⟨name⟩ path x = .error (.unknownExtensionKey ⟨name⟩ path key) := by
      rw [checkKeys, hfound]
    have hblock : blockOf path "x-marlowe" (front.get? "x-marlowe") = .ok x := by
      rw [hx]
      rfl
    have hextension : loadExtension path front body reviewedAt ⟨name⟩ (Description.new description) =
        .error (.unknownExtensionKey ⟨name⟩ path key) := by
      rw [loadExtension, bind_of_ok hblock, hkeys]
      rfl
    have hcut : (split source).mapError (SkillError.frontmatter path) = .ok (header, body) := by
      rw [hsplit]
      rfl
    have hread : (parse header).mapError (SkillError.frontmatter path) = .ok front := by
      rw [hparse]
      rfl
    rw [loadSkill, bind_of_ok hcut]
    dsimp only
    rw [bind_of_ok hread, bind_of_ok hname, hblank, if_neg Bool.false_ne_true, bind_of_ok hdescription]
    exact hextension

/-- **A skill that is loaded declares what its front matter does, and discloses a bounded body, just if no
key of its capability block is unknown and its body is within the bound when it is read.** A key that
is unknown in the extension block is refused by name, and the discovery text is of the front matter alone. -/
theorem loadSkill_iff (path source : String) (reviewedAt : Int) (disk : String → Except String String) :
    (∀ header body front name description x, split source = .ok (header, body) → parse header = .ok front →
      scalarOf path front "name" = .ok name → Text.isEmpty (Text.trim name) = false →
      scalarOf path front "description" = .ok description → front.get? "x-marlowe" = some (.map x) →
      (∃ e ∈ x, e.1 ∉ vocabulary) → ∃ key ∈ x.map Prod.fst, key ∉ vocabulary ∧
        loadSkill path source reviewedAt = .error (.unknownExtensionKey ⟨name⟩ path key)) ∧
    ∀ header body front skill, split source = .ok (header, body) → parse header = .ok front →
      loadSkill path source reviewedAt = .ok skill →
      (∀ path' source' reviewedAt' body' skill', split source' = .ok (header, body') →
        loadSkill path' source' reviewedAt' = .ok skill' → skill'.discoveryText = skill.discoveryText) ∧
      (Declares front skill ∧ Discloses disk skill.body ↔ ReadsScopes front ∧ StillBounded disk path) := by
  refine ⟨fun header body front name description x => refuses_unknown, ?_⟩
  intro header body front skill hsplit hparse hload
  -- what is loaded is read of this front matter
  have hreads {path' source' : String} {reviewedAt' : Int} {body' : String} {skill' : Skill}
      (hsplit' : split source' = .ok (header, body')) (hload' : loadSkill path' source' reviewedAt' = .ok skill') :
      ∃ name description, scalarOf path' front "description" = .ok description ∧
        Reads path' front ⟨name⟩ (Description.new description) reviewedAt' skill' := by
    obtain ⟨header', body', m, name, description, hs, hp, -, hdescription, h⟩ := loadSkill_ok hload'
    rw [hsplit'] at hs
    obtain ⟨rfl, -⟩ := Prod.mk.inj (Except.ok.inj hs)
    rw [hparse] at hp
    obtain rfl := Except.ok.inj hp
    exact ⟨name, description, hdescription, h⟩
  obtain ⟨name, description, hdescription, h⟩ := hreads hsplit hload
  constructor
  · intro path' source' reviewedAt' body' skill' hsplit' hload'
    obtain ⟨name', description', hdescription', h'⟩ := hreads hsplit' hload'
    have hsame : description' = description :=
      Option.some.inj ((scalarOf_ok hdescription').symm.trans (scalarOf_ok hdescription))
    rw [Skill.discoveryText, Skill.discoveryText, h.described, h'.described, hsame, (phrasesOf_ok h.phrases).1,
      (phrasesOf_ok h'.phrases).1]
  · rw [h.declares_iff, discloses_iff, h.body]

/-- A file with an empty front matter. -/
theorem split_bare (body : List Char) :
    split (String.ofList ("---\n---\n".toList ++ body)) = .ok ("", String.ofList body) := by
  have hbom : Text.stripPrefix ("---\n---\n".toList ++ body) ['\ufeff'] = none := rfl
  have hopen : Text.stripPrefix ("---\n---\n".toList ++ body) "---\n".toList = some ("---\n".toList ++ body) := rfl
  have hcut : cutLine ("---\n".toList ++ body) = ("---\n".toList, body) := rfl
  have hcloses : closesFront "---\n".toList = true := by decide
  have hloop : splitFrom (("---\n".toList ++ body).length + 1) [] ("---\n".toList ++ body) = some ([], body) := by
    rw [splitFrom, if_neg (by simp), hcut, if_pos hcloses]
  rw [split, String.toList_ofList, hbom]
  dsimp only [Option.getD_none]
  rw [hopen, Option.some_or]
  dsimp only
  rw [hloop]

/-- A capability that no build reads is loaded, and a body that has grown is disclosed whole. -/
theorem network_declared :
    let source := "---\nname: n\ndescription: d\nx-marlowe:\n  capability:\n    network: all\n---\nuse it\n"
    let grown := String.ofList ("---\n---\n".toList ++ List.replicate (maxBodyBytes + 1) 'a')
    ∃ header body front skill, split source = .ok (header, body) ∧ parse header = .ok front ∧
      loadSkill "SKILL.md" source 0 = .ok skill ∧ KeyUnder (extension front) ["capability", "network"] ∧
      ¬ Declares front skill ∧ ¬ Discloses (fun _ => .ok grown) skill.body := by
  have hsplit : split "---\nname: n\ndescription: d\nx-marlowe:\n  capability:\n    network: all\n---\nuse it\n" =
      .ok ("name: n\ndescription: d\nx-marlowe:\n  capability:\n    network: all\n", "use it\n") := by rfl
  have hloads : (loadSkill "SKILL.md"
      "---\nname: n\ndescription: d\nx-marlowe:\n  capability:\n    network: all\n---\nuse it\n" 0).toOption.isSome =
        true := by decide +kernel
  have hvalue : ((parse "name: n\ndescription: d\nx-marlowe:\n  capability:\n    network: all\n").toOption.bind fun front =>
      (valueUnder (extension front) ["capability", "network"]).bind Value.asScalar) = some "all" := by decide +kernel
  have hok {α ε : Type} {x : Except ε α} {a : α} (h : x.toOption = some a) : x = .ok a := by
    cases x with
    | error e => cases h
    | ok b => rw [Option.some.inj h]
  obtain ⟨front, hfront, hnetwork⟩ := Option.bind_eq_some_iff.mp hvalue
  obtain ⟨v, hv, -⟩ := Option.bind_eq_some_iff.mp hnetwork
  obtain ⟨skill, hloaded⟩ := Option.isSome_iff_exists.mp hloads
  have hparse := hok hfront
  have hload := hok hloaded
  obtain ⟨header, body, m, name, description, hs, hp, -, -, hreads⟩ := loadSkill_ok hload
  rw [hsplit] at hs
  obtain ⟨rfl, rfl⟩ := Prod.mk.inj (Except.ok.inj hs)
  rw [hparse] at hp
  obtain rfl := Except.ok.inj hp
  obtain ⟨nested, hnested, hkey⟩ := Option.bind_eq_some_iff.mp hv
  obtain ⟨w, hcapability, hmap⟩ := Option.bind_eq_some_iff.mp hnested
  have hunder : KeyUnder (extension front) ["capability", "network"] := by
    cases w with
    | map bindings =>
      obtain rfl := Option.some.inj hmap
      exact .deeper hcapability (.here hkey)
    | scalar s => cases hmap
    | seq items => cases hmap
  refine ⟨_, _, front, skill, hsplit, hparse, hload, hunder, fun h => ?_, fun h => ?_⟩
  · exact absurd (hreads.declares_iff.mp h _ _ hv) (by decide)
  · have hbound := (discloses_iff _ _).mp h _ _ _ rfl (split_bare _)
    have hbody : trimBody (String.ofList (List.replicate (maxBodyBytes + 1) 'a')) =
        String.ofList (List.replicate (maxBodyBytes + 1) 'a') := by
      rw [trimBody, String.toList_ofList, List.replicate_succ, List.dropWhile_cons_of_neg (by decide)]
    rw [hbody, Text.utf8ByteSize_ofList, Text.byteLen, List.map_replicate, List.sum_replicate_nat] at hbound
    exact absurd hbound (by decide)

end MarloweAgent.Tools.Skills
