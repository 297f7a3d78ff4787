import MarloweAgent.Contract.Text
import MarloweAgent.Library.LongestMatch
import MarloweAgent.Library.OrderedMap
import Mathlib.Data.String.Basic

/-! The tokenizer of the embedding model and of the cross-encoder. A text is split at the literals of
the special tokens, and what stands between them is cleaned, folded and split into words, which are
cut into the longest pieces the vocabulary has. -/

namespace MarloweAgent.Memory
open Contract Library

/-! ## Vocabulary -/

abbrev TokenId := Nat

/-- `SPECIAL_LITERALS`. -/
inductive Literal
  | mask | unk | cls | sep | pad
  deriving DecidableEq, Repr

namespace Literal

def text : Literal → String
  | mask => "[MASK]"
  | unk => "[UNK]"
  | cls => "[CLS]"
  | sep => "[SEP]"
  | pad => "[PAD]"

/-- In the order in which they are looked for. -/
def all : List Literal := [mask, unk, cls, sep, pad]

theorem mem_all (literal : Literal) : literal ∈ all := by
  cases literal <;> decide

end Literal

inductive VocabError
  | missingSpecial (path token : String)
  | wrongSize (path : String) (found expected : Nat)

/-- Each special token has an id, and three of them are kept aside. -/
structure Vocab where
  tokens : OrderedMap String TokenId
  unkId : TokenId
  clsId : TokenId
  sepId : TokenId
  unk : tokens.get? Literal.unk.text = some unkId
  cls : tokens.get? Literal.cls.text = some clsId
  sep : tokens.get? Literal.sep.text = some sepId
  present : ∀ literal : Literal, (tokens.get? literal.text).isSome

namespace Vocab

def finish (tokens : OrderedMap String TokenId) (path : String) (expected : Nat) : Except VocabError Vocab :=
  if tokens.bindings.length ≠ expected then .error (.wrongSize path tokens.bindings.length expected)
  else
    match hunk : tokens.get? Literal.unk.text, hcls : tokens.get? Literal.cls.text,
      hsep : tokens.get? Literal.sep.text with
    | none, _, _ => .error (.missingSpecial path Literal.unk.text)
    | some _, none, _ => .error (.missingSpecial path Literal.cls.text)
    | some _, some _, none => .error (.missingSpecial path Literal.sep.text)
    | some unkId, some clsId, some sepId =>
      match hall : Literal.all.find? fun literal => (tokens.get? literal.text).isNone with
      | some literal => .error (.missingSpecial path literal.text)
      | none =>
        .ok { tokens, unkId, clsId, sepId, unk := hunk, cls := hcls, sep := hsep
              present := fun literal => by
                simpa [Option.isSome_iff_ne_none] using List.find?_eq_none.mp hall literal literal.mem_all }

/-- `parse_with_size`: one token a line, and its id is the number of its line. -/
def parseWithSize (text path : String) (expected : Nat) : Except VocabError Vocab :=
  finish ((Text.lines text).zipIdx.foldl (fun tokens (line, index) =>
    tokens.insert (String.ofList (Text.stripCr line.toList)) (index % 2 ^ 32)) .empty) path expected

/-- `VOCAB_SIZE`. -/
def vocabSize : Nat := 30528

def parse (text path : String) : Except VocabError Vocab := parseWithSize text path vocabSize

def id (vocab : Vocab) (token : String) : Option TokenId := vocab.tokens.get? token

/-- The id of a special token. -/
def special (vocab : Vocab) (literal : Literal) : TokenId :=
  (vocab.tokens.get? literal.text).get (vocab.present literal)

section
variable (vocab : Vocab)

theorem id_text (literal : Literal) : vocab.id literal.text = some (vocab.special literal) :=
  (Option.some_get _).symm

end

end Vocab

/-! ## Characters -/

/-- `GeneralCategory`. -/
inductive GeneralCategory
  | uppercaseLetter | lowercaseLetter | titlecaseLetter | modifierLetter | otherLetter
  | nonspacingMark | spacingMark | enclosingMark
  | decimalNumber | letterNumber | otherNumber
  | connectorPunctuation | dashPunctuation | openPunctuation | closePunctuation | initialPunctuation
  | finalPunctuation | otherPunctuation
  | mathSymbol | currencySymbol | modifierSymbol | otherSymbol
  | spaceSeparator | lineSeparator | paragraphSeparator
  | control | format | surrogate | privateUse | unassigned
  deriving DecidableEq, Repr

/-- The tables of Unicode: `get_general_category`, `to_lowercase` and `nfd`. -/
structure Unicode where
  category : Char → GeneralCategory
  lowercase : List Char → List Char
  nfd : List Char → List Char

namespace Unicode
variable (unicode : Unicode)

def isWhitespace (c : Char) : Bool :=
  c == ' ' || c == '\t' || c == '\n' || c == '\r' || unicode.category c = .spaceSeparator

def isControl (c : Char) : Bool :=
  if c = '\t' ∨ c = '\n' ∨ c = '\r' then false
  else
    match unicode.category c with
    | .control | .format | .privateUse | .surrogate | .unassigned => true
    | _ => false

def isSplitBoundary (c : Char) : Bool :=
  c == ' ' ||
    match unicode.category c with
    | .lineSeparator | .paragraphSeparator => true
    | _ => false

def isPunctuation (c : Char) : Bool :=
  let cp := c.toNat
  if (33 ≤ cp ∧ cp ≤ 47) ∨ (58 ≤ cp ∧ cp ≤ 64) ∨ (91 ≤ cp ∧ cp ≤ 96) ∨ (123 ≤ cp ∧ cp ≤ 126) then true
  else
    match unicode.category c with
    | .connectorPunctuation | .dashPunctuation | .openPunctuation | .closePunctuation
    | .initialPunctuation | .finalPunctuation | .otherPunctuation => true
    | _ => false

end Unicode

def isCjk (c : Char) : Bool :=
  let cp := c.toNat
  (0x4E00 ≤ cp ∧ cp ≤ 0x9FFF) ∨ (0x3400 ≤ cp ∧ cp ≤ 0x4DBF) ∨ (0x20000 ≤ cp ∧ cp ≤ 0x2A6DF)
    ∨ (0x2A700 ≤ cp ∧ cp ≤ 0x2B73F) ∨ (0x2B740 ≤ cp ∧ cp ≤ 0x2B81F) ∨ (0x2B820 ≤ cp ∧ cp ≤ 0x2CEAF)
    ∨ (0xF900 ≤ cp ∧ cp ≤ 0xFAFF) ∨ (0x2F800 ≤ cp ∧ cp ≤ 0x2FA1F)

/-! ## Words -/

section
variable (unicode : Unicode)

def cleanAndSpaceCjk (text : List Char) : List Char :=
  text.flatMap fun c =>
    if c = '\x00' ∨ c = '\uFFFD' then []
    else if unicode.isWhitespace c then [' ']
    else if unicode.isControl c then []
    else if isCjk c then [' ', c, ' ']
    else [c]

def lowerAndStripAccents (token : List Char) : List Char :=
  (unicode.nfd (unicode.lowercase token)).filter fun c => unicode.category c ≠ .nonspacingMark

/-- `split_on_punctuation`, with what has been read of the current token. -/
def splitOnPunctuation (current : List Char) : List Char → List (List Char)
  | [] => if current.isEmpty then [] else [current]
  | c :: rest =>
    if unicode.isPunctuation c then
      (if current.isEmpty then [] else [current]) ++ [c] :: splitOnPunctuation [] rest
    else splitOnPunctuation (current ++ [c]) rest

def basicTokenize (text : List Char) : List (List Char) :=
  ((cleanAndSpaceCjk unicode text).splitOnP unicode.isSplitBoundary).flatMap fun word =>
    if word.isEmpty then []
    else
      let folded := lowerAndStripAccents unicode word
      if folded.isEmpty then [] else splitOnPunctuation unicode [] folded

end

/-! ## Pieces -/

/-- `MAX_INPUT_CHARS_PER_WORD`. -/
def maxInputCharsPerWord : Nat := 100

namespace Vocab
variable (vocab : Vocab)

/-- The string under which a piece is looked up. -/
def pieceText (first : Bool) (piece : List Char) : String :=
  String.ofList (if first then piece else '#' :: '#' :: piece)

def piece (first : Bool) (piece : List Char) : Option TokenId := vocab.id (pieceText first piece)

def wordpiece (token : List Char) : List TokenId :=
  if maxInputCharsPerWord < token.length then [vocab.unkId]
  else (cut vocab.piece true token).getD [vocab.unkId]

end Vocab

inductive Segment
  | special (literal : Literal)
  | text (chunk : List Char)
  deriving DecidableEq

/-- The literal that stands at the beginning of a text. -/
def literalAt (text : List Char) : Option Literal :=
  if text.head? = some '[' then Literal.all.find? fun literal => literal.text.toList.isPrefixOf text
  else none

def textSegment (run : List Char) : List Segment := if run.isEmpty then [] else [.text run]

/-- `split_on_special`, with what has been read since the last literal, and how much of a literal
is still to be passed. -/
def splitOnSpecialFrom (run : List Char) : Nat → List Char → List Segment
  | _, [] => textSegment run
  | skip + 1, _ :: rest => splitOnSpecialFrom run skip rest
  | 0, c :: rest =>
    match literalAt (c :: rest) with
    | some literal =>
      textSegment run ++ .special literal :: splitOnSpecialFrom [] (literal.text.toList.length - 1) rest
    | none => splitOnSpecialFrom (run ++ [c]) 0 rest

def splitOnSpecial (text : List Char) : List Segment := splitOnSpecialFrom [] 0 text

section
variable (vocab : Vocab) (unicode : Unicode)

def Segment.pieces : Segment → List TokenId
  | .special literal => [vocab.special literal]
  | .text chunk => (basicTokenize unicode chunk).flatMap vocab.wordpiece

def piecesOf (text : String) : List TokenId := (splitOnSpecial text.toList).flatMap (Segment.pieces vocab unicode)

end

end MarloweAgent.Memory
