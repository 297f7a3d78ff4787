import MarloweAgent.Memory.Pieces

/-! What the models are given. A text is wrapped in the special tokens, and a pair of texts is laid out
at a fixed length, with the boundary between them told by the segment ids. -/

namespace MarloweAgent.Memory
open Contract Library

/-! ## One text -/

structure Encoded where
  inputIds : List TokenId
  attentionMask : List Nat
  truncated : Bool

structure EncodedPair where
  inputIds : List TokenId
  attentionMask : List Nat
  tokenTypeIds : List Nat
  truncated : Bool

/-- `Vec::resize`. -/
def resize {α : Type} (l : List α) (length : Nat) (filler : α) : List α :=
  l.take length ++ List.replicate (length - l.length) filler

section
variable (vocab : Vocab) (unicode : Unicode)

def encode (text : String) (maxSeqLen : Nat) : Encoded :=
  let pieces := piecesOf vocab unicode text
  let room := maxSeqLen - 2
  let inputIds := vocab.clsId :: pieces.take room ++ [vocab.sepId]
  { inputIds, attentionMask := List.replicate inputIds.length 1, truncated := room < pieces.length }

/-- A text is never longer than the model allows, and its last token is the separator. -/
theorem encode_fits (text : String) {maxSeqLen : Nat} (hroom : 2 ≤ maxSeqLen) :
    (encode vocab unicode text maxSeqLen).inputIds.length ≤ maxSeqLen ∧
      (encode vocab unicode text maxSeqLen).inputIds.getLast? = some vocab.sepId ∧
      (encode vocab unicode text maxSeqLen).attentionMask.length =
        (encode vocab unicode text maxSeqLen).inputIds.length := by
  refine ⟨?_, List.getLast?_concat .., List.length_replicate⟩
  simp [encode]
  omega

/-! ## A pair -/

def encodePair (query document : String) (maxSeqLen : Nat) : EncodedPair :=
  let a := piecesOf vocab unicode query
  let b := piecesOf vocab unicode document
  let room := maxSeqLen - 3
  let truncated := room < a.length + b.length
  let (a, b) := fairCut room a b
  let first := vocab.clsId :: a ++ [vocab.sepId]
  let types := resize [] first.length 0
  let inputIds := first ++ b ++ [vocab.sepId]
  let types := resize types inputIds.length 1
  let mask := List.replicate inputIds.length 1
  { inputIds := resize inputIds maxSeqLen (vocab.special .pad)
    attentionMask := resize mask maxSeqLen 0
    tokenTypeIds := resize types maxSeqLen 0
    truncated }

end

theorem resize_of_le {α : Type} {l : List α} {length : Nat} (h : l.length ≤ length) (filler : α) :
    resize l length filler = l ++ List.replicate (length - l.length) filler := by
  rw [resize, List.take_of_length_le h]

theorem resize_nil {α : Type} (length : Nat) (filler : α) :
    resize [] length filler = List.replicate length filler :=
  resize_of_le (Nat.zero_le _) _

/-- A pair laid out at a length: this many of the pieces of each of its texts, from the first on, between the
special tokens, and padding. -/
structure LaidOut (vocab : Vocab) (a b : List TokenId) (x y maxSeqLen : Nat) (out : EncodedPair) : Prop where
  first_le : x ≤ a.length
  second_le : y ≤ b.length
  ids : out.inputIds = vocab.clsId :: a.take x ++ vocab.sepId :: b.take y ++ vocab.sepId ::
    List.replicate (maxSeqLen - (x + y + 3)) (vocab.special .pad)
  types : out.tokenTypeIds = List.replicate (x + 2) 0 ++ List.replicate (y + 1) 1 ++
    List.replicate (maxSeqLen - (x + y + 3)) 0
  mask : out.attentionMask = List.replicate (x + y + 3) 1 ++ List.replicate (maxSeqLen - (x + y + 3)) 0
  length_ids : out.inputIds.length = maxSeqLen
  length_types : out.tokenTypeIds.length = maxSeqLen
  length_mask : out.attentionMask.length = maxSeqLen
  truncated : out.truncated = decide (maxSeqLen - 3 < a.length + b.length)

/-- What is kept of two texts in a room: all where they fit, else all of one that fits in its half and of the
other what room that leaves, and else the halves. -/
structure FairlyCut (room m n x y : Nat) : Prop where
  fits : m + n ≤ room → x = m ∧ y = n
  first : room < m + n → m ≤ room / 2 → x = m ∧ y = room - m
  second : room < m + n → n ≤ (room + 1) / 2 → y = n ∧ x = room - n
  neither : room / 2 < m → (room + 1) / 2 < n → x = room / 2 ∧ y = (room + 1) / 2

theorem fairlyCut_shares (room m n : Nat) : FairlyCut room m n (shares room m n).1 (shares room m n).2 := by
  constructor
  · intro hfits
    rw [shares, if_pos hfits]
    exact ⟨rfl, rfl⟩
  · intro hlong hfirst
    rw [shares, if_neg (Nat.not_le.mpr hlong), if_pos hfirst]
    exact ⟨rfl, rfl⟩
  · intro hlong hsecond
    rw [shares, if_neg (Nat.not_le.mpr hlong), if_neg (by omega), if_pos hsecond]
    exact ⟨rfl, rfl⟩
  · intro hfirst hsecond
    rw [shares, if_neg (by omega), if_neg (Nat.not_le.mpr hfirst), if_neg (Nat.not_le.mpr hsecond)]
    exact ⟨rfl, rfl⟩

theorem shares_add_le (room m n : Nat) : (shares room m n).1 + (shares room m n).2 ≤ room := by
  by_cases h : m + n ≤ room
  · exact (Nat.add_le_add shares_le.1 shares_le.2).trans h
  · exact (shares_add (Nat.le_of_not_le h)).le

/-- **The layout of a pair.** -/
theorem encodePair_laidOut (vocab : Vocab) (unicode : Unicode) (query document : String) (maxSeqLen : Nat)
    (hroom : 3 ≤ maxSeqLen) :
    ∃ x y, LaidOut vocab (piecesOf vocab unicode query) (piecesOf vocab unicode document) x y maxSeqLen
        (encodePair vocab unicode query document maxSeqLen) ∧
      FairlyCut (maxSeqLen - 3) (piecesOf vocab unicode query).length (piecesOf vocab unicode document).length
        x y := by
  generalize ha : piecesOf vocab unicode query = a
  generalize hb : piecesOf vocab unicode document = b
  have hcut := fairCut_eq (maxSeqLen - 3) a b
  have hfair := fairlyCut_shares (maxSeqLen - 3) a.length b.length
  have hfits := shares_add_le (maxSeqLen - 3) a.length b.length
  have hshares : (shares (maxSeqLen - 3) a.length b.length).1 ≤ a.length ∧
      (shares (maxSeqLen - 3) a.length b.length).2 ≤ b.length := shares_le
  obtain ⟨hx, hy⟩ := hshares
  generalize (shares (maxSeqLen - 3) a.length b.length).1 = x at hcut hfair hfits hx
  generalize (shares (maxSeqLen - 3) a.length b.length).2 = y at hcut hfair hfits hy
  have hlengths : (a.take x).length = x ∧ (b.take y).length = y := by
    rw [List.length_take, List.length_take, Nat.min_eq_left hx, Nat.min_eq_left hy]
    exact ⟨rfl, rfl⟩
  have hlength : (vocab.clsId :: a.take x ++ [vocab.sepId] ++ b.take y ++ [vocab.sepId]).length = x + y + 3 := by
    simp only [List.length_append, List.length_cons, List.length_nil, hlengths.1, hlengths.2]
    omega
  have hle : x + y + 3 ≤ maxSeqLen := by omega
  have hids : (encodePair vocab unicode query document maxSeqLen).inputIds =
      vocab.clsId :: a.take x ++ vocab.sepId :: b.take y ++ vocab.sepId ::
        List.replicate (maxSeqLen - (x + y + 3)) (vocab.special .pad) := by
    unfold encodePair
    simp only [ha, hb, hcut]
    rw [resize_of_le (hlength.trans_le hle), hlength]
    simp
  have htypes : (encodePair vocab unicode query document maxSeqLen).tokenTypeIds =
      List.replicate (x + 2) 0 ++ List.replicate (y + 1) 1 ++ List.replicate (maxSeqLen - (x + y + 3)) 0 := by
    have hfirst : (vocab.clsId :: a.take x ++ [vocab.sepId]).length = x + 2 := by simp [hlengths.1]
    have hsegment : resize (List.replicate (x + 2) 0) (x + y + 3) 1 =
        List.replicate (x + 2) 0 ++ List.replicate (y + 1) 1 := by
      rw [resize_of_le (by rw [List.length_replicate]; omega), List.length_replicate]
      congr 2
      omega
    have hsegments : (List.replicate (x + 2) 0 ++ List.replicate (y + 1) 1).length = x + y + 3 := by
      simp
      omega
    unfold encodePair
    simp only [ha, hb, hcut]
    rw [hlength, hfirst, resize_nil, hsegment, resize_of_le (hsegments.trans_le hle), hsegments]
  have hmask : (encodePair vocab unicode query document maxSeqLen).attentionMask =
      List.replicate (x + y + 3) 1 ++ List.replicate (maxSeqLen - (x + y + 3)) 0 := by
    unfold encodePair
    simp only [ha, hb, hcut]
    rw [hlength, resize_of_le (by rwa [List.length_replicate]), List.length_replicate]
  refine ⟨x, y, ⟨hx, hy, hids, htypes, hmask, ?_, ?_, ?_, ?_⟩, hfair⟩
  · rw [hids]
    simp [hlengths.1, hlengths.2]
    omega
  · rw [htypes]
    simp
    omega
  · rw [hmask]
    simp
    omega
  · rw [← ha, ← hb]
    rfl

theorem encodePair_running :
    ∃ x y, LaidOut tinyVocab (piecesOf tinyVocab plainLetters "run running run")
        (piecesOf tinyVocab plainLetters "running") x y 8
        (encodePair tinyVocab plainLetters "run running run" "running" 8) ∧
      FairlyCut 5 (piecesOf tinyVocab plainLetters "run running run").length
        (piecesOf tinyVocab plainLetters "running").length x y :=
  encodePair_laidOut tinyVocab plainLetters "run running run" "running" 8 (by decide)

end MarloweAgent.Memory
