import MarloweAgent.Extract.Zip

/-! What the ceilings of the zip reader hold back. The declared size and the total spent so far are looked at
before a member is decompressed, and what it decompresses to is not looked at after. -/

namespace MarloweAgent.Extract.Zip
open Library

/-! ## Runs -/

section Runs

variable (inflate : List UInt8 → Inflated)

/-- A sequence of reads, each on the archive the one before it left. -/
def readAll : List Entry → Archive → Option (List (Except ZipError (List UInt8)) × Archive)
  | [], archive => some ([], archive)
  | entry :: rest, archive => do
    let (result, archive') ← archive.read inflate entry
    let (results, last) ← readAll rest archive'
    some (result :: results, last)

/-- What some bytes decompress to under a method that is known. -/
def unpacked (method : Nat) (data : List UInt8) : Option Inflated :=
  match method with
  | 0 => some { content := data, fault := none }
  | 8 => some (inflate data)
  | _ => none

/-- What a member decompresses to, where its bytes are in place. -/
def memberOf (bytes : List UInt8) (entry : Entry) : Option Inflated :=
  match locate bytes entry with
  | some (.ok data) => unpacked inflate entry.method data
  | _ => none

/-- How many bytes a read returned. -/
def sizeOf : Except ZipError (List UInt8) → Nat
  | .ok out => out.length
  | .error _ => 0

/-- All the bytes that a run returned. -/
def returned (results : List (Except ZipError (List UInt8))) : Nat := (results.map sizeOf).sum

/-- A member over the ceiling is refused for that. -/
def Refuses (bytes : List UInt8) (entry : Entry) (result : Except ZipError (List UInt8)) : Prop :=
  ∀ member, memberOf inflate bytes entry = some member → maxEntryBytes < member.content.length →
    result = .error (.entryTooLarge entry.name)

/-- The budgets hold, from a total already spent. -/
structure HardFrom (spent : Nat) (bytes : List UInt8) (entries : List Entry)
    (results : List (Except ZipError (List UInt8))) : Prop where
  total : spent + returned results ≤ maxTotalBytes
  member : ∀ result ∈ results, sizeOf result ≤ maxEntryBytes
  neverSilent : List.Forall₂ (Refuses inflate bytes) entries results

/-- An archive opens or is refused, and a sequence of reads of its entries ends with its budgets held. -/
def HardBudgets (bytes : List UInt8) (entries : List Entry) : Prop :=
  (∃ result, openArchive bytes = some result) ∧
    ∀ archive, openArchive bytes = some (.ok archive) → (∀ entry ∈ entries, entry ∈ archive.entries) →
      ∃ results last, readAll inflate entries archive = some (results, last) ∧
        HardFrom inflate 0 bytes entries results

/-! ## What has to fit -/

/-- The decoder stops with an error before the ceiling. -/
def Inflated.Fails (member : Inflated) : Prop :=
  member.fault.isSome = true ∧ member.content.length < maxEntryBytes

/-- The read is refused up front, or its member is within both ceilings. -/
def Fits (archive : Archive) (entry : Entry) : Prop :=
  maxEntryBytes < entry.uncompressedSize ∨ maxTotalBytes < archive.spent ∨
    ∀ member, memberOf inflate archive.bytes entry = some member → member.content.length ≤ maxEntryBytes ∧
      (member.Fails ∨ archive.spent + member.content.length ≤ maxTotalBytes)

/-- Every read of the run fits, at the archive it is made on. -/
def AllFit : List Entry → Archive → Prop
  | [], _ => True
  | entry :: rest, archive => Fits inflate archive entry ∧
      ∀ result archive', archive.read inflate entry = some (result, archive') → AllFit rest archive'

end Runs

/-! ## One read -/

section Reads

variable (inflate : List UInt8 → Inflated)

theorem memberOf_of_error {bytes : List UInt8} {entry : Entry} {e : ZipError}
    (h : locate bytes entry = some (.error e)) : memberOf inflate bytes entry = none := by
  unfold memberOf
  rw [h]

theorem memberOf_of_ok {bytes data : List UInt8} {entry : Entry} (h : locate bytes entry = some (.ok data)) :
    memberOf inflate bytes entry = unpacked inflate entry.method data := by
  unfold memberOf
  rw [h]

/-- What decoding does with what the bytes decompress to. -/
theorem decode_cases (entry : Entry) (data : List UInt8) :
    (unpacked inflate entry.method data = none ∧ ∃ e, decode inflate entry data = .error e) ∨
    ∃ member, unpacked inflate entry.method data = some member ∧
      ((member.Fails ∧ ∃ e, decode inflate entry data = .error e) ∨
        (¬ member.Fails ∧ ∃ out, decode inflate entry data = .ok out ∧
          (out = member.content ∨ maxEntryBytes ≤ member.content.length ∧ out.length = maxEntryBytes))) := by
  unfold unpacked decode
  generalize entry.method = method
  split
  case h_1 => exact .inr ⟨_, rfl, .inr ⟨fun hfails => (nomatch hfails.1), data, rfl, .inl rfl⟩⟩
  case h_2 =>
    refine .inr ⟨_, rfl, ?_⟩
    dsimp only
    by_cases hshort : (inflate data).content.length < maxEntryBytes
    · rw [if_pos hshort]
      cases hfault : (inflate data).fault with
      | some detail => exact .inl ⟨⟨by rw [hfault]; rfl, hshort⟩, _, rfl⟩
      | none =>
        refine .inr ⟨fun hfails => ?_, _, rfl, .inl rfl⟩
        have hsome := hfails.1
        rw [hfault] at hsome
        cases hsome
    · rw [if_neg hshort]
      refine .inr ⟨fun hfails => hshort hfails.2, _, rfl, .inr ⟨by omega, ?_⟩⟩
      rw [List.length_take]
      omega
  case h_3 =>
    refine .inl ⟨rfl, .unsupportedMethod entry.name method, ?_⟩
    simp

/-- **What one read does**: it is refused by the ceilings, or fails, or returns its member as far as the
decoder was asked for it. -/
theorem read_cases (archive : Archive) (entry : Entry) :
    ((maxEntryBytes < entry.uncompressedSize ∨ maxTotalBytes < archive.spent) ∧
      archive.read inflate entry = some (.error (.entryTooLarge entry.name), archive)) ∨
    (¬ (maxEntryBytes < entry.uncompressedSize ∨ maxTotalBytes < archive.spent) ∧
      (∀ member, memberOf inflate archive.bytes entry = some member → member.Fails) ∧
      ∃ e, archive.read inflate entry = some (.error e, archive)) ∨
    (¬ (maxEntryBytes < entry.uncompressedSize ∨ maxTotalBytes < archive.spent) ∧
      ∃ member, memberOf inflate archive.bytes entry = some member ∧ ¬ member.Fails ∧
        ∃ out, archive.read inflate entry = some (.ok out, { archive with spent := archive.spent + out.length }) ∧
          (out = member.content ∨ maxEntryBytes ≤ member.content.length ∧ out.length = maxEntryBytes)) := by
  unfold Archive.read
  by_cases hceiling : maxEntryBytes < entry.uncompressedSize ∨ maxTotalBytes < archive.spent
  · exact .inl ⟨hceiling, if_pos hceiling⟩
  rw [if_neg hceiling]
  obtain ⟨located, hlocated⟩ := locate_total archive.bytes entry
  rw [hlocated]
  cases located with
  | error e =>
    have hnone := memberOf_of_error inflate hlocated
    refine .inr (.inl ⟨hceiling, fun member hmember => ?_, e, rfl⟩)
    rw [hnone] at hmember
    cases hmember
  | ok data =>
    have hmemberOf := memberOf_of_ok inflate hlocated
    rcases decode_cases inflate entry data with ⟨hnone, e, hdecode⟩ |
      ⟨member, hmember, ⟨hfails, e, hdecode⟩ | ⟨hfine, out, hdecode, hout⟩⟩
    · refine .inr (.inl ⟨hceiling, fun member hmember => ?_, e, ?_⟩)
      · rw [hmemberOf, hnone] at hmember
        cases hmember
      · simp only [Option.bind_eq_bind, Option.bind_some, hdecode]
    · refine .inr (.inl ⟨hceiling, fun member' hmember' => ?_, e, ?_⟩)
      · rw [hmemberOf, hmember] at hmember'
        obtain rfl := Option.some.inj hmember'
        exact hfails
      · simp only [Option.bind_eq_bind, Option.bind_some, hdecode]
    · refine .inr (.inr ⟨hceiling, member, hmemberOf.trans hmember, hfine, out, ?_, hout⟩)
      simp only [Option.bind_eq_bind, Option.bind_some, hdecode]

/-- A read adds what it returns to the total, and nothing else. -/
theorem read_spent {archive archive' : Archive} {entry : Entry} {result : Except ZipError (List UInt8)}
    (h : archive.read inflate entry = some (result, archive')) :
    archive'.bytes = archive.bytes ∧ archive'.spent = archive.spent + sizeOf result := by
  rcases read_cases inflate archive entry with ⟨-, hread⟩ | ⟨-, -, e, hread⟩ | ⟨-, member, -, -, out, hread, -⟩
  all_goals
    rw [hread] at h
    cases h
    exact ⟨rfl, rfl⟩

/-- **One read keeps the budgets exactly if it fits.** -/
theorem fits_iff {archive archive' : Archive} {entry : Entry} {result : Except ZipError (List UInt8)}
    (hspent : archive.spent ≤ maxTotalBytes) (h : archive.read inflate entry = some (result, archive')) :
    Fits inflate archive entry ↔ archive.spent + sizeOf result ≤ maxTotalBytes ∧ sizeOf result ≤ maxEntryBytes ∧
      Refuses inflate archive.bytes entry result := by
  rcases read_cases inflate archive entry with
    ⟨hceiling, hread⟩ | ⟨-, hfails, e, hread⟩ | ⟨hfree, member, hmember, hfine, out, hread, hout⟩
  · rw [hread] at h
    cases h
    refine ⟨fun _ => ⟨hspent, Nat.zero_le _, fun _ _ _ => rfl⟩, fun _ => ?_⟩
    exact hceiling.imp_right .inl
  · rw [hread] at h
    cases h
    refine ⟨fun _ => ⟨hspent, Nat.zero_le _, fun member hmember hlarge => ?_⟩, fun _ => ?_⟩
    · exact absurd (hfails member hmember).2 (by omega)
    · exact .inr (.inr fun member hmember => ⟨(hfails member hmember).2.le, .inl (hfails member hmember)⟩)
  · rw [hread] at h
    cases h
    have hsize : member.content.length ≤ maxEntryBytes → out.length = member.content.length := by
      intro hsmall
      rcases hout with rfl | ⟨hlarge, hcut⟩
      · rfl
      · omega
    constructor
    · intro hfits
      obtain ⟨hsmall, hroom⟩ := ((or_assoc.mpr hfits).resolve_left hfree) member hmember
      have hroom := hroom.resolve_left hfine
      refine ⟨?_, ?_, fun member' hmember' hlarge => ?_⟩
      · rw [sizeOf, hsize hsmall]
        exact hroom
      · rw [sizeOf, hsize hsmall]
        exact hsmall
      · obtain rfl := Option.some.inj (hmember.symm.trans hmember')
        omega
    · rintro ⟨htotal, -, hrefuses⟩
      have hsmall : member.content.length ≤ maxEntryBytes := by
        by_contra hlarge
        exact nomatch hrefuses member hmember (by omega)
      rw [sizeOf, hsize hsmall] at htotal
      refine .inr (.inr fun member' hmember' => ?_)
      obtain rfl := Option.some.inj (hmember.symm.trans hmember')
      exact ⟨hsmall, .inr htotal⟩

/-! ## A run -/

theorem readAll_total (entries : List Entry) (archive : Archive) :
    ∃ results last, readAll inflate entries archive = some (results, last) := by
  induction entries generalizing archive with
  | nil => exact ⟨[], archive, rfl⟩
  | cons entry rest ih =>
    obtain ⟨⟨result, archive'⟩, hread⟩ := archive.read_total inflate entry
    obtain ⟨results, last, hrest⟩ := ih archive'
    refine ⟨result :: results, last, ?_⟩
    rw [readAll, hread]
    dsimp only [Option.bind_eq_bind, Option.bind_some]
    rw [hrest]
    rfl

theorem readAll_cons {entry : Entry} {rest : List Entry} {archive last : Archive}
    {results : List (Except ZipError (List UInt8))} (h : readAll inflate (entry :: rest) archive = some (results, last)) :
    ∃ result archive' others, archive.read inflate entry = some (result, archive') ∧
      readAll inflate rest archive' = some (others, last) ∧ results = result :: others := by
  obtain ⟨⟨result, archive'⟩, hread⟩ := archive.read_total inflate entry
  obtain ⟨others, last', hrest⟩ := readAll_total inflate rest archive'
  rw [readAll, hread] at h
  dsimp only [Option.bind_eq_bind, Option.bind_some] at h
  rw [hrest] at h
  cases h
  exact ⟨result, archive', others, hread, hrest, rfl⟩

theorem hardFrom_cons {spent : Nat} {bytes : List UInt8} {entry : Entry} {rest : List Entry}
    {result : Except ZipError (List UInt8)} {others : List (Except ZipError (List UInt8))} :
    HardFrom inflate spent bytes (entry :: rest) (result :: others) ↔
      (spent + sizeOf result ≤ maxTotalBytes ∧ sizeOf result ≤ maxEntryBytes ∧ Refuses inflate bytes entry result) ∧
        HardFrom inflate (spent + sizeOf result) bytes rest others := by
  have hreturned : returned (result :: others) = sizeOf result + returned others := List.sum_cons
  constructor
  · rintro ⟨htotal, hmember, hsilent⟩
    obtain ⟨hrefuses, hrest⟩ := List.forall₂_cons.mp hsilent
    obtain ⟨hsize, hothers⟩ := List.forall_mem_cons.mp hmember
    exact ⟨⟨by omega, hsize, hrefuses⟩, by omega, hothers, hrest⟩
  · rintro ⟨⟨-, hsize, hrefuses⟩, htotal, hothers, hrest⟩
    exact ⟨by omega, List.forall_mem_cons.mpr ⟨hsize, hothers⟩, .cons hrefuses hrest⟩

/-- **A run keeps the budgets exactly if every read of it fits.** -/
theorem hardFrom_iff {entries : List Entry} {archive last : Archive} {results : List (Except ZipError (List UInt8))}
    (hspent : archive.spent ≤ maxTotalBytes) (h : readAll inflate entries archive = some (results, last)) :
    HardFrom inflate archive.spent archive.bytes entries results ↔ AllFit inflate entries archive := by
  induction entries generalizing archive results with
  | nil =>
    cases h
    exact ⟨fun _ => trivial, fun _ => ⟨hspent, fun _ h => (nomatch h), .nil⟩⟩
  | cons entry rest ih =>
    obtain ⟨result, archive', others, hread, hrest, rfl⟩ := readAll_cons inflate h
    obtain ⟨hbytes, hadded⟩ := read_spent inflate hread
    have hnext : AllFit inflate (entry :: rest) archive ↔ Fits inflate archive entry ∧ AllFit inflate rest archive' := by
      refine and_congr_right fun _ => ⟨fun h => h result archive' hread, fun h result' archive'' hread' => ?_⟩
      rw [hread] at hread'
      cases hread'
      exact h
    rw [hardFrom_cons, hnext, fits_iff inflate hspent hread, ← hadded, ← hbytes]
    exact and_congr_right fun hkept => ih hkept.1 hrest

/-! ## The ceilings -/

theorem openArchive_ok {bytes : List UInt8} {archive : Archive} (h : openArchive bytes = some (.ok archive)) :
    archive.bytes = bytes ∧ archive.spent = 0 := by
  obtain ⟨result, hresult, hok⟩ := openArchive_total bytes
  obtain ⟨hbytes, hspent, -⟩ := hok archive (Option.some.inj (hresult.symm.trans h))
  exact ⟨hbytes, hspent⟩

/-- **The ceilings hold of a run exactly if each of its members fits**: it is refused by what it declares or by
what was spent before, or it is within the ceilings. -/
theorem hardBudgets_iff (bytes : List UInt8) (entries : List Entry) :
    HardBudgets inflate bytes entries ↔
      ∀ archive, openArchive bytes = some (.ok archive) → (∀ entry ∈ entries, entry ∈ archive.entries) →
        AllFit inflate entries archive := by
  constructor
  · rintro ⟨-, hruns⟩ archive hopen hown
    obtain ⟨hbytes, hspent⟩ := openArchive_ok hopen
    obtain ⟨results, last, hrun, hhard⟩ := hruns archive hopen hown
    refine (hardFrom_iff inflate (by omega) hrun).mp ?_
    rwa [hbytes, hspent]
  · intro hfit
    obtain ⟨result, hresult, -⟩ := openArchive_total bytes
    refine ⟨⟨result, hresult⟩, fun archive hopen hown => ?_⟩
    obtain ⟨hbytes, hspent⟩ := openArchive_ok hopen
    obtain ⟨results, last, hrun⟩ := readAll_total inflate entries archive
    refine ⟨results, last, hrun, ?_⟩
    have hhard := (hardFrom_iff inflate (by omega) hrun).mpr (hfit archive hopen hown)
    rwa [hbytes, hspent] at hhard

end Reads

/-! ## An archive that says it is empty -/

theorem bytesAt_append (front back : List UInt8) (k width : Nat) :
    bytesAt (front ++ back) (front.length + k) width = bytesAt back k width := by
  induction width generalizing k with
  | zero => rfl
  | succ width ih =>
    rw [bytesAt, bytesAt, List.getElem?_append_right (Nat.le_add_right ..), Nat.add_sub_cancel_left, Nat.add_assoc, ih]

theorem readU16_append (front back : List UInt8) (k : Nat) :
    readU16 (front ++ back) (front.length + k) = readU16 back k := by
  unfold readU16
  rw [bytesAt_append, List.length_append, Nat.add_assoc]
  simp only [Nat.add_lt_add_iff_left]

theorem readU32_append (front back : List UInt8) (k : Nat) :
    readU32 (front ++ back) (front.length + k) = readU32 back k := by
  unfold readU32
  rw [bytesAt_append, List.length_append, Nat.add_assoc]
  simp only [Nat.add_lt_add_iff_left]

theorem bytesAt_append_left {front : List UInt8} (back : List UInt8) {k width : Nat} (h : k + width ≤ front.length) :
    bytesAt (front ++ back) k width = bytesAt front k width := by
  rw [bytesAt_eq (by rw [List.length_append]; omega), bytesAt_eq h, List.drop_append_of_le_length (by omega),
    List.take_append_of_le_length (by rw [List.length_drop]; omega)]

theorem readU16_append_left {front : List UInt8} (back : List UInt8) {k : Nat} (h : k + 2 ≤ front.length) :
    readU16 (front ++ back) k = readU16 front k := by
  unfold readU16
  rw [bytesAt_append_left back h, if_neg (by rw [List.length_append]; omega), if_neg (by omega)]

theorem findEocdFrom_here {bytes : List UInt8} {window i : Nat} (h : readU32 bytes i = some eocdSig) :
    findEocdFrom bytes window i = some (some i) := by
  cases i with
  | zero =>
    rw [findEocdFrom, h]
    rfl
  | succ i =>
    rw [findEocdFrom, h, Option.bind_eq_bind, Option.bind_some, if_pos rfl]

/-- The local header of a stored member without a name. -/
def storedHeader : List UInt8 :=
  [0x50, 0x4b, 3, 4, 0, 0, 0, 0, 0, 0, 0, 0, 0, 0, 0, 0, 0, 0, 1, 0, 0, 6, 0, 0, 0, 0, 0, 0, 0, 0]

/-- The directory, which says that `96 MiB + 1` bytes are stored and that they are none unpacked, and its end. -/
def storedTail : List UInt8 :=
  [0x50, 0x4b, 1, 2, 0, 0, 0, 0, 0, 0, 0, 0, 0, 0, 0, 0, 0, 0, 0, 0, 1, 0, 0, 6, 0, 0, 0, 0, 0, 0,
    0, 0, 0, 0, 0, 0, 0, 0, 0, 0, 0, 0, 0, 0, 0, 0] ++
  [0x50, 0x4b, 5, 6, 0, 0, 0, 0, 1, 0, 1, 0, 46, 0, 0, 0, 0x1f, 0, 0, 6, 0, 0]

/-- The member, as the directory has it. -/
def storedEntry : Entry :=
  { name := "", compressedSize := 100663297, uncompressedSize := 0, method := 0, localHeaderOffset := 0 }

theorem length_storedHeader : storedHeader.length = 30 := rfl

theorem length_storedTail : storedTail.length = 68 := rfl

/-- The directory's one record is read wherever the directory begins. -/
theorem record_stored (front : List UInt8) :
    record (front ++ storedTail) front.length = some (some (.ok (storedEntry, front.length + 46))) := by
  have hlength : (front ++ storedTail).length = front.length + 68 := by rw [List.length_append, length_storedTail]
  have hsig : readU32 (front ++ storedTail) front.length = some cdSig :=
    (readU32_append front storedTail 0).trans (by decide)
  unfold record
  rw [if_neg (by omega), hsig, readU16_append, readU32_append, readU32_append, readU16_append, readU16_append,
    readU16_append, readU32_append, show readU16 storedTail 10 = some 0 by decide,
    show readU32 storedTail 20 = some 100663297 by decide, show readU32 storedTail 24 = some 0 by decide,
    show readU16 storedTail 28 = some 0 by decide, show readU16 storedTail 30 = some 0 by decide,
    show readU16 storedTail 32 = some 0 by decide, show readU32 storedTail 42 = some 0 by decide]
  simp only [Option.bind_eq_bind, Option.bind_some]
  rw [if_neg (fun h => h rfl), if_neg (by omega), slice, if_pos ⟨by omega, by omega⟩, List.drop_take, Nat.add_zero,
    Nat.sub_self, List.take_zero]
  rfl

theorem record_stored_end (front : List UInt8) : record (front ++ storedTail) (front.length + 46) = some none := by
  have hlength : (front ++ storedTail).length = front.length + 68 := by rw [List.length_append, length_storedTail]
  unfold record
  exact if_pos (by omega)

theorem directory_stored (front : List UInt8) :
    directory (front ++ storedTail) front.length = some (.ok [storedEntry]) := by
  have hend : directory (front ++ storedTail) (front.length + 46) = some (.ok []) := by
    rw [directory, record_stored_end]
  rw [directory, record_stored]
  dsimp only
  rw [hend]
  rfl

variable {content : List UInt8}

theorem findEocd_stored (front : List UInt8) :
    findEocd (front ++ storedTail) = some (some (front.length + 46)) := by
  have hlength : (front ++ storedTail).length = front.length + 68 := by rw [List.length_append, length_storedTail]
  have hlast : (front ++ storedTail).length - 22 = front.length + 46 := by omega
  unfold findEocd
  rw [if_neg (by omega), hlast]
  exact findEocdFrom_here ((readU32_append ..).trans (by decide))

/-- An archive opens from its record, its two fields and the directory they lead to. -/
theorem openArchive_of {bytes count offset : List UInt8} {eocd : Nat} {entries : List Entry}
    (hfound : findEocd bytes = some (some eocd)) (hcount : bytesAt bytes (eocd + 10) 2 = some count)
    (hoffset : bytesAt bytes (eocd + 16) 4 = some offset)
    (hentries : directory bytes (leValue offset) = some (.ok entries)) (hne : entries ≠ []) :
    openArchive bytes = some (.ok { bytes, entries, spent := 0 }) := by
  unfold openArchive
  simp only [hfound, hcount, hoffset, hentries, Option.bind_eq_bind, Option.bind_some, List.isEmpty_iff, if_neg hne]

/-- The archive opens, with its one member. -/
theorem openArchive_stored (hsize : content.length = 100663297) :
    openArchive (storedHeader ++ content ++ storedTail) =
      some (.ok { bytes := storedHeader ++ content ++ storedTail, entries := [storedEntry], spent := 0 }) := by
  generalize hfront : storedHeader ++ content = front
  have hvalue : leValue [0x1f, 0, 0, 6] = front.length := by
    rw [← hfront, List.length_append, hsize, length_storedHeader]
    decide
  have hcount : bytesAt (front ++ storedTail) (front.length + 46 + 10) 2 = some [1, 0] := by
    rw [Nat.add_assoc, bytesAt_append]
    rfl
  have hoffset : bytesAt (front ++ storedTail) (front.length + 46 + 16) 4 = some [0x1f, 0, 0, 6] := by
    rw [Nat.add_assoc, bytesAt_append]
    rfl
  refine openArchive_of (findEocd_stored front) hcount hoffset ?_ (List.cons_ne_nil _ _)
  rw [hvalue]
  exact directory_stored front

/-- Its member lies behind the local header. -/
theorem locate_stored (hsize : content.length = 100663297) :
    locate (storedHeader ++ content ++ storedTail) storedEntry = some (.ok content) := by
  have hfront : (storedHeader ++ content).length = 100663327 := by
    rw [List.length_append, hsize, length_storedHeader]
  have hlength : (storedHeader ++ content ++ storedTail).length = 100663395 := by
    rw [List.length_append, hfront, length_storedTail]
  have hname : readU16 (storedHeader ++ content ++ storedTail) 26 = some 0 := by
    rw [List.append_assoc, readU16_append_left _ (by decide)]
    decide
  have hextra : readU16 (storedHeader ++ content ++ storedTail) 28 = some 0 := by
    rw [List.append_assoc, readU16_append_left _ (by decide)]
    decide
  have hslice : slice (storedHeader ++ content ++ storedTail) 30 100663327 = some content := by
    rw [slice, if_pos ⟨by decide, by omega⟩, ← hfront, List.take_left, ← length_storedHeader, List.drop_left]
  unfold locate storedEntry
  dsimp only [Nat.zero_add]
  rw [if_neg (by omega), hname, hextra]
  dsimp only [Option.bind_eq_bind, Option.bind_some]
  rw [if_neg (by omega), if_pos (by decide), Nat.min_eq_left (by omega)]
  rw [show slice _ (0 + 30 + 0 + 0) (0 + 30 + 0 + 0 + 100663297) = some content from hslice]
  rfl

/-- **A member over the ceiling is returned whole**: its directory says that it is empty. -/
theorem stored_over_ceiling :
    ¬ ∃ inflate, HardBudgets inflate (storedHeader ++ List.replicate 100663297 0 ++ storedTail) [storedEntry] := by
  rintro ⟨inflate, -, hruns⟩
  have hsize : (List.replicate 100663297 (0 : UInt8)).length = 100663297 := List.length_replicate
  generalize List.replicate 100663297 (0 : UInt8) = content at hruns hsize
  obtain ⟨results, last, hrun, hhard⟩ :=
    hruns _ (openArchive_stored hsize) fun entry hentry => hentry
  obtain ⟨result, archive', others, hread, -, rfl⟩ := readAll_cons inflate hrun
  have hfree : ¬ (maxEntryBytes < storedEntry.uncompressedSize ∨ maxTotalBytes < 0) := by decide
  have hresult : result = .ok content := by
    unfold Archive.read at hread
    rw [if_neg hfree, locate_stored hsize] at hread
    exact (congrArg Prod.fst (Option.some.inj hread)).symm
  have hmember := hhard.member result List.mem_cons_self
  rw [hresult, sizeOf, hsize] at hmember
  exact absurd hmember (by decide)

end MarloweAgent.Extract.Zip
