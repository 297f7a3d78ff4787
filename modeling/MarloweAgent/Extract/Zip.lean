import Mathlib.Data.List.Basic
import MarloweAgent.Library.Framing

/-! The zip reader. Sizes, offsets and counts come from the archive, so every index into it is a step that
may fail: `none` is an index out of range, which would end the process. A `usize` is a number here: what is
added up is an offset into the archive and fields of 16 and 32 bits. -/

namespace MarloweAgent.Extract.Zip
open Library

/-- The ceiling of one member. -/
def maxEntryBytes : Nat := 96 * 1024 * 1024

/-- The ceiling of all extracted members together. -/
def maxTotalBytes : Nat := 256 * 1024 * 1024

def eocdSig : Nat := 0x06054b50

def cdSig : Nat := 0x02014b50

inductive ZipError
  | notZip
  | malformed (pos : Nat)
  | unsupportedMethod (name : String) (method : Nat)
  | entryTooLarge (name : String)
  | inflate (name detail : String)
  deriving DecidableEq, Repr

def ZipError.text : ZipError → String
  | .notZip => "not a zip archive: no end-of-central-directory record"
  | .malformed pos => "the central directory is malformed at offset " ++ toString pos
  | .unsupportedMethod name method =>
    "entry " ++ name ++ " uses compression method " ++ toString method ++ ", which this build does not decode"
  | .entryTooLarge name =>
    "entry " ++ name ++ " inflates to more than the " ++ toString maxEntryBytes ++ " byte per-entry ceiling"
  | .inflate name detail => "decompressing " ++ name ++ ": " ++ detail

structure Entry where
  name : String
  compressedSize : Nat
  uncompressedSize : Nat
  method : Nat
  localHeaderOffset : Nat
  deriving DecidableEq, Repr

structure Archive where
  bytes : List UInt8
  entries : List Entry
  spent : Nat

/-! ## Reading fields -/

/-- The `width` bytes from `pos` on, each by its index. -/
def bytesAt (b : List UInt8) (pos : Nat) : Nat → Option (List UInt8)
  | 0 => some []
  | width + 1 => do
    let byte ← b[pos]?
    let rest ← bytesAt b (pos + 1) width
    some (byte :: rest)

/-- `b[start..stop]`. -/
def slice (b : List UInt8) (start stop : Nat) : Option (List UInt8) :=
  if start ≤ stop ∧ stop ≤ b.length then some ((b.take stop).drop start) else none

def readU16 (b : List UInt8) (pos : Nat) : Option Nat :=
  if b.length < pos + 2 then some 0 else (bytesAt b pos 2).map leValue

def readU32 (b : List UInt8) (pos : Nat) : Option Nat :=
  if b.length < pos + 4 then some 0 else (bytesAt b pos 4).map leValue

/-! ## Names -/

/-- A continuation byte of UTF-8. -/
def isContinuation (b : UInt8) : Bool := 0x80 ≤ b && b ≤ 0xBF

/-- What may follow the first byte of a character of three bytes. -/
def mayFollow3 (first second : UInt8) : Bool :=
  isContinuation second && (first != 0xE0 || 0xA0 ≤ second) && (first != 0xED || second ≤ 0x9F)

/-- What may follow the first byte of a character of four bytes. -/
def mayFollow4 (first second : UInt8) : Bool :=
  isContinuation second && (first != 0xF0 || 0x90 ≤ second) && (first != 0xF4 || second ≤ 0x8F)

/-- The character of a code. -/
def codeOf (lead : UInt8) (kept : Nat) (rest : List UInt8) : Char :=
  Char.ofNat (rest.foldl (fun n b => n * 64 + b.toNat % 64) (lead.toNat % kept))

/-- How many bytes the next character or the next malformed run takes, and the character that stands for it. -/
def nextChar (b : UInt8) (rest : List UInt8) : Nat × Char :=
  if b < 0x80 then (1, Char.ofNat b.toNat)
  else if 0xC2 ≤ b && b ≤ 0xDF then
    match rest with
    | c :: _ => if isContinuation c then (2, codeOf b 32 [c]) else (1, '\ufffd')
    | [] => (1, '\ufffd')
  else if 0xE0 ≤ b && b ≤ 0xEF then
    match rest with
    | c :: d :: _ =>
      if mayFollow3 b c then if isContinuation d then (3, codeOf b 16 [c, d]) else (2, '\ufffd') else (1, '\ufffd')
    | [c] => (if mayFollow3 b c then 2 else 1, '\ufffd')
    | [] => (1, '\ufffd')
  else if 0xF0 ≤ b && b ≤ 0xF4 then
    match rest with
    | c :: d :: e :: _ =>
      if mayFollow4 b c then
        if isContinuation d then if isContinuation e then (4, codeOf b 8 [c, d, e]) else (3, '\ufffd')
        else (2, '\ufffd')
      else (1, '\ufffd')
    | [c, d] => (if mayFollow4 b c then if isContinuation d then 3 else 2 else 1, '\ufffd')
    | [c] => (if mayFollow4 b c then 2 else 1, '\ufffd')
    | [] => (1, '\ufffd')
  else (1, '\ufffd')

/-- The characters of a byte string of at most `fuel` bytes. -/
def lossyChars : Nat → List UInt8 → List Char
  | _, [] => []
  | 0, _ => []
  | fuel + 1, b :: rest => (nextChar b rest).2 :: lossyChars fuel (rest.drop ((nextChar b rest).1 - 1))

/-- `String::from_utf8_lossy`: a malformed run is one replacement character. -/
def fromUtf8Lossy (bytes : List UInt8) : String := String.ofList (lossyChars bytes.length bytes)

/-! ## The central directory -/

/-- Down from position `i` to the record's signature or the end of the window. -/
def findEocdFrom (bytes : List UInt8) (window : Nat) : Nat → Option (Option Nat)
  | 0 => do
    let sig ← readU32 bytes 0
    some (if sig = eocdSig then some 0 else none)
  | i + 1 => do
    let sig ← readU32 bytes (i + 1)
    if sig = eocdSig then some (some (i + 1))
    else if i + 1 ≤ window then some none
    else findEocdFrom bytes window i

/-- The end-of-central-directory record, looked for from the end. -/
def findEocd (bytes : List UInt8) : Option (Option Nat) :=
  if bytes.length < 22 then some none
  else findEocdFrom bytes (bytes.length - 66000) (bytes.length - 22)

/-- The record at `pos`, with where the next one begins; no record ends the directory. -/
def record (bytes : List UInt8) (pos : Nat) : Option (Option (Except ZipError (Entry × Nat))) := do
  if bytes.length < pos + 46 then return none
  if (← readU32 bytes pos) ≠ cdSig then return none
  let method ← readU16 bytes (pos + 10)
  let compressedSize ← readU32 bytes (pos + 20)
  let uncompressedSize ← readU32 bytes (pos + 24)
  let nameLen ← readU16 bytes (pos + 28)
  let extraLen ← readU16 bytes (pos + 30)
  let commentLen ← readU16 bytes (pos + 32)
  let localHeaderOffset ← readU32 bytes (pos + 42)
  let nameEnd := pos + 46 + nameLen
  if bytes.length < nameEnd then return some (.error (.malformed pos))
  let name ← slice bytes (pos + 46) nameEnd
  return some (.ok
    ({ name := fromUtf8Lossy name, compressedSize, uncompressedSize, method, localHeaderOffset },
      nameEnd + extraLen + commentLen))

theorem bytesAt_eq {b : List UInt8} {pos width : Nat} (h : pos + width ≤ b.length) :
    bytesAt b pos width = some ((b.drop pos).take width) := by
  induction width generalizing pos with
  | zero => rw [bytesAt, List.take_zero]
  | succ width ih =>
    have hpos : pos < b.length := by omega
    rw [bytesAt, List.getElem?_eq_getElem hpos, ih (by omega), ← List.getElem_cons_drop hpos, List.take_succ_cons]
    rfl

theorem readU16_total (b : List UInt8) (pos : Nat) : ∃ n, readU16 b pos = some n ∧ n < 2 ^ 16 := by
  unfold readU16
  split
  · exact ⟨0, rfl, by decide⟩
  · refine ⟨_, by rw [bytesAt_eq (by omega)]; rfl, (leValue_lt _).trans_le ?_⟩
    exact (Nat.pow_le_pow_right (by decide) (List.length_take_le 2 _)).trans_eq rfl

theorem readU32_total (b : List UInt8) (pos : Nat) : ∃ n, readU32 b pos = some n ∧ n < 2 ^ 32 := by
  unfold readU32
  split
  · exact ⟨0, rfl, by decide⟩
  · refine ⟨_, by rw [bytesAt_eq (by omega)]; rfl, (leValue_lt _).trans_le ?_⟩
    exact (Nat.pow_le_pow_right (by decide) (List.length_take_le 4 _)).trans_eq rfl

/-- The sizes and the offset of an entry are 32-bit fields. -/
structure Entry.Small (entry : Entry) : Prop where
  compressedSize : entry.compressedSize < 2 ^ 32
  uncompressedSize : entry.uncompressedSize < 2 ^ 32
  localHeaderOffset : entry.localHeaderOffset < 2 ^ 32

/-- **A record's indices are in range**, and the next record lies behind it. -/
theorem record_cases (bytes : List UInt8) (pos : Nat) :
    record bytes pos = some none ∨ record bytes pos = some (some (.error (.malformed pos))) ∨
      ∃ entry next, record bytes pos = some (some (.ok (entry, next))) ∧ pos + 46 ≤ bytes.length ∧
        pos + 46 ≤ next ∧ next < pos + 2 ^ 18 ∧ entry.Small := by
  obtain ⟨sig, hsig, -⟩ := readU32_total bytes pos
  obtain ⟨method, hmethod, -⟩ := readU16_total bytes (pos + 10)
  obtain ⟨compressedSize, hcompressed, hcompressedSmall⟩ := readU32_total bytes (pos + 20)
  obtain ⟨uncompressedSize, huncompressed, huncompressedSmall⟩ := readU32_total bytes (pos + 24)
  obtain ⟨nameLen, hname, hnameSmall⟩ := readU16_total bytes (pos + 28)
  obtain ⟨extraLen, hextra, hextraSmall⟩ := readU16_total bytes (pos + 30)
  obtain ⟨commentLen, hcomment, hcommentSmall⟩ := readU16_total bytes (pos + 32)
  obtain ⟨localHeaderOffset, hlocal, hlocalSmall⟩ := readU32_total bytes (pos + 42)
  unfold record
  by_cases hroom : bytes.length < pos + 46
  · exact .inl (if_pos hroom)
  rw [if_neg hroom, hsig, hmethod, hcompressed, huncompressed, hname, hextra, hcomment, hlocal]
  simp only [Option.bind_eq_bind, Option.bind_some]
  by_cases hstop : sig ≠ cdSig
  · exact .inl (if_pos hstop)
  rw [if_neg hstop]
  by_cases hlong : bytes.length < pos + 46 + nameLen
  · exact .inr (.inl (if_pos hlong))
  rw [if_neg hlong, slice, if_pos ⟨by omega, by omega⟩]
  exact .inr (.inr ⟨_, _, rfl, by omega, by omega, by omega, hcompressedSmall, huncompressedSmall, hlocalSmall⟩)

theorem record_next {bytes : List UInt8} {pos next : Nat} {entry : Entry}
    (h : record bytes pos = some (some (.ok (entry, next)))) : pos + 46 ≤ bytes.length ∧ pos + 46 ≤ next := by
  rcases record_cases bytes pos with hnone | herror | ⟨entry', next', hok, hroom, hnext, -⟩
  · rw [hnone] at h
    cases h
  · rw [herror] at h
    cases h
  · rw [hok] at h
    cases h
    exact ⟨hroom, hnext⟩

/-- The records from `pos` on. -/
def directory (bytes : List UInt8) (pos : Nat) : Option (Except ZipError (List Entry)) :=
  match _h : record bytes pos with
  | none => none
  | some none => some (.ok [])
  | some (some (.error e)) => some (.error e)
  | some (some (.ok (entry, next))) => (directory bytes next).map (Except.map (entry :: ·))
termination_by bytes.length - pos
decreasing_by
  have hnext := record_next _h
  omega

/-- `Archive::open`: parse the central directory, and decompress nothing. -/
def openArchive (bytes : List UInt8) : Option (Except ZipError Archive) := do
  match ← findEocd bytes with
  | none => some (.error .notZip)
  | some eocd =>
    let _count := leValue (← bytesAt bytes (eocd + 10) 2)
    let cdOffset := leValue (← bytesAt bytes (eocd + 16) 4)
    match ← directory bytes cdOffset with
    | .error e => some (.error e)
    | .ok entries =>
      some (if entries.isEmpty then .error .notZip else .ok { bytes, entries, spent := 0 })

namespace Archive

/-- Find an entry by exact name. -/
def find (archive : Archive) (name : String) : Option Entry := archive.entries.find? (·.name == name)

end Archive

/-! ## Reading a member -/

/-- What the deflate decoder makes of some bytes: what it puts out, and what stops it before their end. -/
structure Inflated where
  content : List UInt8
  fault : Option String

/-- The bytes of a member, which begin where its local header says. -/
def locate (bytes : List UInt8) (entry : Entry) : Option (Except ZipError (List UInt8)) := do
  let lho := entry.localHeaderOffset
  if bytes.length < lho + 30 then return .error (.malformed lho)
  let nameLen ← readU16 bytes (lho + 26)
  let extraLen ← readU16 bytes (lho + 28)
  let start := lho + 30 + nameLen + extraLen
  if bytes.length < start then return .error (.malformed start)
  let stop := if 0 < entry.compressedSize then min (start + entry.compressedSize) bytes.length else bytes.length
  return .ok (← slice bytes start stop)

section Decoding

variable (inflate : List UInt8 → Inflated)

/-- The decoder is asked for no byte past the ceiling, so what comes after it is not noticed. -/
def decode (entry : Entry) (data : List UInt8) : Except ZipError (List UInt8) :=
  match entry.method with
  | 0 => .ok data
  | 8 =>
    let member := inflate data
    if member.content.length < maxEntryBytes then
      match member.fault with
      | some detail => .error (.inflate entry.name detail)
      | none => .ok member.content
    else .ok (member.content.take maxEntryBytes)
  | other => .error (.unsupportedMethod entry.name other)

/-- `Archive::read`. -/
def Archive.read (archive : Archive) (entry : Entry) : Option (Except ZipError (List UInt8) × Archive) :=
  if maxEntryBytes < entry.uncompressedSize ∨ maxTotalBytes < archive.spent then
    some (.error (.entryTooLarge entry.name), archive)
  else do
    match ← locate archive.bytes entry with
    | .error e => some (.error e, archive)
    | .ok data =>
      match decode inflate entry data with
      | .error e => some (.error e, archive)
      | .ok out => some (.ok out, { archive with spent := archive.spent + out.length })

end Decoding

/-! ## Every index is in range -/

theorem findEocdFrom_total (bytes : List UInt8) (window i : Nat) :
    ∃ found, findEocdFrom bytes window i = some found ∧ ∀ j, found = some j → j ≤ i := by
  induction i with
  | zero =>
    obtain ⟨sig, hsig, -⟩ := readU32_total bytes 0
    rw [findEocdFrom, hsig]
    refine ⟨_, rfl, fun j hj => ?_⟩
    split at hj
    · exact (Option.some.inj hj).ge
    · cases hj
  | succ i ih =>
    obtain ⟨sig, hsig, -⟩ := readU32_total bytes (i + 1)
    rw [findEocdFrom, hsig]
    simp only [Option.bind_eq_bind, Option.bind_some]
    by_cases hfound : sig = eocdSig
    · rw [if_pos hfound]
      exact ⟨_, rfl, fun j hj => (Option.some.inj hj).ge⟩
    rw [if_neg hfound]
    by_cases hwindow : i + 1 ≤ window
    · rw [if_pos hwindow]
      exact ⟨_, rfl, fun j hj => nomatch hj⟩
    · rw [if_neg hwindow]
      obtain ⟨found, hrest, hbound⟩ := ih
      exact ⟨found, hrest, fun j hj => (hbound j hj).trans (Nat.le_succ i)⟩

theorem findEocd_total (bytes : List UInt8) :
    ∃ found, findEocd bytes = some found ∧ ∀ eocd, found = some eocd → eocd + 22 ≤ bytes.length := by
  unfold findEocd
  split
  · exact ⟨none, rfl, fun eocd h => nomatch h⟩
  · obtain ⟨found, hfound, hbound⟩ := findEocdFrom_total bytes (bytes.length - 66000) (bytes.length - 22)
    refine ⟨found, hfound, fun eocd h => ?_⟩
    have hle := hbound eocd h
    omega

theorem directory_total (bytes : List UInt8) (pos : Nat) :
    ∃ result, directory bytes pos = some result ∧ ∀ entries, result = .ok entries → ∀ entry ∈ entries, entry.Small := by
  induction hleft : bytes.length - pos using Nat.strong_induction_on generalizing pos with
  | _ left ih =>
    rw [directory]
    rcases record_cases bytes pos with hnone | herror | ⟨entry, next, hok, hroom, hnext, -, hsmall⟩
    · rw [hnone]
      refine ⟨_, rfl, fun entries hentries => ?_⟩
      obtain rfl := Except.ok.inj hentries
      exact fun entry h => nomatch h
    · rw [herror]
      exact ⟨_, rfl, fun entries hentries => nomatch hentries⟩
    · obtain ⟨rest, hrest, hothers⟩ := ih (bytes.length - next) (by omega) next rfl
      rw [hok]
      dsimp only
      rw [hrest]
      refine ⟨_, rfl, fun entries hentries => ?_⟩
      cases rest with
      | error e => cases hentries
      | ok others =>
        obtain rfl := Except.ok.inj hentries
        exact List.forall_mem_cons.mpr ⟨hsmall, hothers others rfl⟩

/-- **Opening ends in an archive or an error**, whatever the bytes; nothing of the archive is spent, and its
entries are what 32 bits say. -/
theorem openArchive_total (bytes : List UInt8) :
    ∃ result, openArchive bytes = some result ∧ ∀ archive, result = .ok archive →
      archive.bytes = bytes ∧ archive.spent = 0 ∧ ∀ entry ∈ archive.entries, entry.Small := by
  obtain ⟨found, hfound, hbound⟩ := findEocd_total bytes
  unfold openArchive
  rw [hfound]
  cases found with
  | none => exact ⟨_, rfl, fun archive h => nomatch h⟩
  | some eocd =>
    have hroom := hbound eocd rfl
    dsimp only [Option.bind_eq_bind, Option.bind_some]
    rw [bytesAt_eq (by omega), bytesAt_eq (by omega)]
    dsimp only [Option.bind_some]
    obtain ⟨result, hresult, hsmall⟩ := directory_total bytes (leValue ((bytes.drop (eocd + 16)).take 4))
    rw [hresult]
    cases result with
    | error e => exact ⟨_, rfl, fun archive h => nomatch h⟩
    | ok entries =>
      refine ⟨_, rfl, fun archive h => ?_⟩
      split at h
      · cases h
      · obtain rfl := Except.ok.inj h
        exact ⟨rfl, rfl, hsmall entries rfl⟩

/-- The bytes of a member lie in the archive. -/
theorem locate_total (bytes : List UInt8) (entry : Entry) : ∃ result, locate bytes entry = some result := by
  unfold locate
  obtain ⟨nameLen, hname, -⟩ := readU16_total bytes (entry.localHeaderOffset + 26)
  obtain ⟨extraLen, hextra, -⟩ := readU16_total bytes (entry.localHeaderOffset + 28)
  by_cases hroom : bytes.length < entry.localHeaderOffset + 30
  · exact ⟨_, if_pos hroom⟩
  simp only [if_neg hroom, hname, hextra, Option.bind_eq_bind, Option.bind_some]
  by_cases hstart : bytes.length < entry.localHeaderOffset + 30 + nameLen + extraLen
  · exact ⟨_, if_pos hstart⟩
  rw [if_neg hstart, slice, if_pos]
  · exact ⟨_, rfl⟩
  · constructor
    · split <;> omega
    · split <;> omega

theorem Archive.read_total (inflate : List UInt8 → Inflated) (archive : Archive) (entry : Entry) :
    ∃ step, archive.read inflate entry = some step := by
  unfold Archive.read
  split
  · exact ⟨_, rfl⟩
  · obtain ⟨located, hlocated⟩ := locate_total archive.bytes entry
    rw [hlocated]
    cases located with
    | error e => exact ⟨_, rfl⟩
    | ok data =>
      dsimp only [Option.bind_eq_bind, Option.bind_some]
      cases decode inflate entry data with
      | error e => exact ⟨_, rfl⟩
      | ok out => exact ⟨_, rfl⟩

end MarloweAgent.Extract.Zip
