import MarloweAgent.Extract.Attributes
import MarloweAgent.Extract.Pass

/-! Which parts of a page reach its text. The elements that are open are those of the page, however many;
the parser keeps a bounded stack of them, and a counter that hides text while it is not zero. -/

namespace MarloweAgent.Extract.Html
open Contract Library

/-! ## Pieces of text -/

/-- What is put into a block: a text of the page with its place, the value of a tag that is read as the
alternative text of an image; or the end of the block. -/
inductive Piece
  | text (start : Nat) (s : List Char)
  | alt (start : Nat) (s : List Char)
  | boundary
  deriving DecidableEq, Repr

/-- What a piece adds to its block. -/
def Piece.added : Piece → List Char
  | text _ s => decoded s
  | alt _ s => collapse (decoded s) ++ [' ']
  | boundary => []

/-- A block, if there is anything in it. -/
def flushed (current : List Char) : List (List Char) := if collapse current = [] then [] else [collapse current]

/-- The blocks that pieces make, after what stands in the first already. -/
def blocksOf : List Char → List Piece → List (List Char)
  | current, [] => flushed current
  | current, .boundary :: rest => flushed current ++ blocksOf [] rest
  | current, .text start s :: rest => blocksOf (current ++ (Piece.text start s).added) rest
  | current, .alt start s :: rest => blocksOf (current ++ (Piece.alt start s).added) rest

/-- The blocks up to the limit of the block buffer. -/
def capped : Nat → List (List Char) → List (List Char)
  | _, [] => []
  | n, b :: rest => if maxTextChars ≤ n then [] else b :: capped (n + Text.byteLen b) rest

/-- What is read as the alternative text of an image, and its place in the tag. -/
def altRead (raw : List Char) : Option (Nat × List Char) :=
  if nameOf raw = "img" then
    (attrAt raw "alt".toList).filter fun found => 3 ≤ Text.byteLen (collapse (decoded found.2))
  else none

/-- The pieces of a part, if text is shown there. -/
def Token.pieces (start : Nat) (shown : Bool) : Token → List Piece
  | .text s => if shown then [.text start s] else []
  | .cdata body _ => if shown then [.text (start + cdataOpen.length) body] else []
  | .tag raw =>
    if nameOf raw = "" then []
    else (if !isClosing raw && shown then (altRead raw).toList.map fun found => .alt (start + found.1) found.2 else []) ++
      if isBlock (nameOf raw) then [.boundary] else []
  | .comment _ | .declaration _ | .rawElement _ _ _ | .unterminated _ => []

/-- The pieces of a page where it is known at each part whether text is shown. -/
def walk {σ : Type*} (step : σ → Token → σ) (shown : σ → Bool) : σ → Nat → List Token → List Piece
  | _, _, [] => []
  | state, start, t :: rest =>
    t.pieces start (shown state) ++ walk step shown (step state t) (start + t.source.length) rest

/-! ## The elements that are open -/

def isSkipped (name : String) : Bool := skipContent.contains name

/-- The elements that are open behind a part of the page: an element that has content is open until its
closing tag, or that of an element it stands in. -/
def opened (stack : List String) : Token → List String
  | .tag raw =>
    if nameOf raw = "" then stack
    else if isClosing raw then Parser.unwind stack (nameOf raw)
    else if isSelfClosing raw then stack
    else stack ++ [nameOf raw]
  | _ => stack

/-- The pieces of a page outside the elements whose contents are not prose. -/
def visible (tokens : List Token) : List Piece := walk opened (fun stack => !stack.any isSkipped) [] 0 tokens

/-- The parser's stack, and the skipped elements that it has counted and will never count off. -/
structure Held where
  stack : List String
  strays : List String
  deriving DecidableEq, Repr

/-- The elements that a closing tag unwinds above its own. -/
def above (stack : List String) (name : String) : List String := stack.drop ((Parser.unwind stack name).length + 1)

namespace Held

def new : Held := ⟨[], []⟩

def enter (h : Held) (name : String) (selfClosing : Bool) : Held :=
  if !selfClosing && decide (h.stack.length < maxStack) then ⟨h.stack ++ [name], h.strays⟩
  else ⟨h.stack, h.strays ++ [name].filter isSkipped⟩

def leave (h : Held) (name : String) : Held :=
  ⟨Parser.unwind h.stack name, h.strays ++ (above h.stack name).filter isSkipped⟩

def step (h : Held) : Token → Held
  | .tag raw =>
    if nameOf raw = "" then h
    else if isClosing raw then h.leave (nameOf raw)
    else h.enter (nameOf raw) (isSelfClosing raw)
  | _ => h

/-- The parser's counter. -/
def depth (h : Held) : Nat := (h.stack.filter isSkipped).length + h.strays.length

end Held

/-- The pieces that the parser puts into its blocks. -/
def kept (tokens : List Token) : List Piece := walk Held.step (fun h => decide (h.depth = 0)) Held.new 0 tokens

/-! ### The counter -/

theorem unwind_append (below : List String) {tops : List String} {name : String} (h : name ∉ tops) :
    Parser.unwind (below ++ name :: tops) name = below := by
  have htops : ∀ x ∈ tops.reverse, (decide (x ≠ name)) = true := by
    intro x hx
    rw [decide_eq_true_iff]
    rintro rfl
    exact h (List.mem_reverse.mp hx)
  have hreverse : (below ++ name :: tops).reverse = tops.reverse ++ name :: below.reverse := by simp
  rw [Parser.unwind, if_pos (by simp), List.rdropWhile, hreverse, List.dropWhile_append_of_pos htops,
    List.dropWhile_cons_of_neg (by simp)]
  simp

/-- A closing tag unwinds to the last element of its name. -/
theorem unwind_of_mem {stack : List String} {name : String} (h : name ∈ stack) :
    stack = Parser.unwind stack name ++ name :: above stack name ∧ name ∉ above stack name := by
  obtain ⟨tops, below, hreverse, htops⟩ := List.eq_append_cons_of_mem (List.mem_reverse.mpr h)
  have hstack : stack = below.reverse ++ name :: tops.reverse := by
    rw [← List.reverse_reverse stack, hreverse]
    simp
  have htops' : name ∉ tops.reverse := fun hmem => htops (List.mem_reverse.mp hmem)
  have hunwind := unwind_append below.reverse htops'
  rw [above, hstack, hunwind]
  have hdrop : (below.reverse ++ name :: tops.reverse).drop (below.reverse.length + 1) = tops.reverse := by
    rw [← List.drop_drop, List.drop_left, List.drop_one, List.tail_cons]
  rw [hdrop]
  exact ⟨rfl, htops'⟩

theorem unwind_of_notMem {stack : List String} {name : String} (h : name ∉ stack) :
    Parser.unwind stack name = stack ∧ above stack name = [] := by
  have hsame : Parser.unwind stack name = stack := if_neg h
  refine ⟨hsame, ?_⟩
  rw [above, hsame]
  exact List.drop_eq_nil_of_le (Nat.le_succ _)

/-- The parser's stack and counter are as they are held. -/
def Reading.Holds (r : Reading) (h : Held) : Prop := r.stack = h.stack ∧ r.skipDepth = h.depth

theorem depth_filter (stack strays : List String) (name : String) :
    (if skipContent.contains name then (stack.filter isSkipped).length + strays.length + 1
      else (stack.filter isSkipped).length + strays.length) =
      (stack.filter isSkipped).length + strays.length + ([name].filter isSkipped).length := by
  change (if isSkipped name then _ else _) = _
  split
  · rename_i hskipped
    rw [List.filter_cons_of_pos hskipped]
    rfl
  · rename_i hprose
    rw [List.filter_cons_of_neg hprose]
    rfl

theorem holds_enter {r : Reading} {h : Held} (hh : r.Holds h) (name : String) (selfClosing : Bool) :
    (r.enter name selfClosing).Holds (h.enter name selfClosing) := by
  obtain ⟨hstack, hdepth⟩ := hh
  rw [Held.enter, ← hstack]
  have hcount : (r.enter name selfClosing).skipDepth =
      (h.stack.filter isSkipped).length + h.strays.length + ([name].filter isSkipped).length := by
    rw [← depth_filter, Reading.enter, hdepth]
    rfl
  split
  · rename_i hpushed
    refine ⟨?_, ?_⟩
    · show (if _ then _ else _) = _
      rw [if_pos hpushed]
    · rw [hcount, Held.depth, List.filter_append, List.length_append, hstack, Nat.add_right_comm]
  · rename_i hdropped
    refine ⟨?_, ?_⟩
    · show (if _ then _ else _) = _
      rw [if_neg hdropped]
    · rw [hcount, Held.depth, List.length_append, hstack, Nat.add_assoc]

theorem holds_leave {r : Reading} {h : Held} (hh : r.Holds h) (name : String) :
    (r.leave name).Holds (h.leave name) := by
  obtain ⟨hstack, hdepth⟩ := hh
  refine ⟨congrArg (Parser.unwind · name) hstack, ?_⟩
  show (if skipContent.contains name && r.stack.contains name then r.skipDepth - 1 else r.skipDepth) = _
  rw [hdepth, hstack, Held.depth, Held.depth, Held.leave, List.length_append]
  dsimp only
  by_cases hmem : name ∈ h.stack
  · obtain ⟨hsplit, -⟩ := unwind_of_mem hmem
    have hlength := congrArg (fun l => (l.filter isSkipped).length) hsplit
    rw [List.filter_append, List.filter_cons, List.length_append] at hlength
    have hcontains : h.stack.contains name = true := List.contains_iff_mem.mpr hmem
    rw [hcontains, Bool.and_true]
    change (if isSkipped name then _ else _) = _
    split
    · rename_i hskipped
      rw [if_pos hskipped, List.length_cons] at hlength
      omega
    · rename_i hprose
      rw [if_neg hprose] at hlength
      omega
  · obtain ⟨hsame, hnone⟩ := unwind_of_notMem hmem
    have hcontains : h.stack.contains name = false := by
      rw [Bool.eq_false_iff]
      exact fun hmem' => hmem (List.contains_iff_mem.mp hmem')
    rw [hcontains, Bool.and_false, if_neg Bool.false_ne_true, hsame, hnone]
    rfl

/-! ## Blanks -/

/-- Whether a text, after a space or none, ends in a blank. -/
def endsBlank : Bool → List Char → Bool
  | space, [] => space
  | _, c :: rest => endsBlank (Text.isWhitespace c) rest

theorem squeeze_append (space : Bool) (s t : List Char) :
    squeeze space (s ++ t) = squeeze space s ++ squeeze (endsBlank space s) t := by
  induction s generalizing space with
  | nil => rfl
  | cons c rest ih =>
    rw [List.cons_append, squeeze, squeeze, endsBlank]
    cases hc : Text.isWhitespace c with
    | true => cases space <;> simp [ih]
    | false => simp [ih]

theorem endsBlank_append (space : Bool) (s t : List Char) :
    endsBlank space (s ++ t) = endsBlank (endsBlank space s) t := by
  induction s generalizing space with
  | nil => rfl
  | cons c rest ih => exact ih _

theorem squeeze_blank {s : List Char} (hs : s ≠ []) (h : ∀ c ∈ s, Text.isWhitespace c = true) (space : Bool) :
    squeeze space s = (if space then [] else [' ']) ∧ endsBlank space s = true := by
  have htrue {s : List Char} (h : ∀ c ∈ s, Text.isWhitespace c = true) :
      squeeze true s = [] ∧ endsBlank true s = true := by
    induction s with
    | nil => exact ⟨rfl, rfl⟩
    | cons c rest ih =>
      obtain ⟨hrest, hend⟩ := ih fun d hd => h d (List.mem_cons_of_mem _ hd)
      rw [squeeze, endsBlank, h c List.mem_cons_self]
      exact ⟨hrest, hend⟩
  obtain ⟨c, rest, rfl⟩ := List.exists_cons_of_ne_nil hs
  obtain ⟨hrest, hend⟩ := htrue fun d hd => h d (List.mem_cons_of_mem _ hd)
  rw [squeeze, endsBlank, h c List.mem_cons_self, hrest]
  refine ⟨?_, hend⟩
  cases space <;> rfl

/-- Two texts that read alike at the beginning of a block, whatever follows. -/
def Alike (s t : List Char) : Prop := squeeze true s = squeeze true t ∧ endsBlank true s = endsBlank true t

theorem Alike.append {s t : List Char} (h : Alike s t) (u : List Char) : Alike (s ++ u) (t ++ u) := by
  obtain ⟨hsqueeze, hend⟩ := h
  exact ⟨by rw [squeeze_append, squeeze_append, hsqueeze, hend],
    by rw [endsBlank_append, endsBlank_append, hend]⟩

theorem Alike.collapse {s t : List Char} (h : Alike s t) : Html.collapse s = Html.collapse t := by
  rw [Html.collapse, Html.collapse, h.1]

/-- One space for a run of blanks, and none after a space. -/
theorem alike_blank {s t blanks : List Char} (h : Alike s t) (hne : blanks ≠ [])
    (hblanks : ∀ c ∈ blanks, Text.isWhitespace c = true) :
    Alike (if s.getLast? ≠ some ' ' ∧ s ≠ [] then s ++ [' '] else s) (t ++ blanks) := by
  have hspace : ∀ c ∈ [' '], Text.isWhitespace c = true := fun c hc => by rw [List.mem_singleton.mp hc]; rfl
  split
  · obtain ⟨hsqueeze, hend⟩ := squeeze_blank (List.cons_ne_nil ' ' []) hspace (endsBlank true s)
    obtain ⟨hsqueeze', hend'⟩ := squeeze_blank hne hblanks (endsBlank true t)
    refine ⟨?_, by rw [endsBlank_append, endsBlank_append, hend, hend']⟩
    rw [squeeze_append, squeeze_append, hsqueeze, hsqueeze', h.1, h.2]
  · rename_i hnot
    have hs : endsBlank true s = true := by
      rcases List.eq_nil_or_concat s with rfl | ⟨front, c, rfl⟩
      · rfl
      · have hlast : c = ' ' := by simpa using hnot
        rw [List.concat_eq_append, endsBlank_append, hlast]
        rfl
    have ht : endsBlank true t = true := h.2 ▸ hs
    obtain ⟨hsqueeze, hend⟩ := squeeze_blank hne hblanks true
    refine ⟨?_, by rw [endsBlank_append, ht, hend, hs]⟩
    rw [squeeze_append, ht, hsqueeze, if_pos rfl, List.append_nil]
    exact h.1

theorem decoded_blank {s : List Char} (h : ∀ c ∈ s, Text.isWhitespace c = true) : decoded s = s := by
  have hnone : '&' ∉ s := fun hmem => absurd (h _ hmem) (by decide)
  rw [decoded, decodeEntities, if_pos hnone, Option.getD_some]

/-! ## What is read is what is kept -/

/-- A reading that stands where pieces have been put into a block already. -/
structure Reading.Stands (r : Reading) (h : Held) (current : List Char) : Prop where
  holds : r.Holds h
  alike : Alike r.current current

/-- A step that puts these pieces into the blocks. -/
def Reading.Advances (r : Reading) (current : List Char) (pieces : List Piece) (r' : Reading) (h' : Held) : Prop :=
  ∃ current', r'.Stands h' current' ∧ ∀ rest,
    r'.blocks ++ capped r'.blockChars (blocksOf current' rest) =
      r.blocks ++ capped r.blockChars (blocksOf current (pieces ++ rest))

namespace Reading

variable {r : Reading} {h : Held} {current : List Char}

theorem Advances.refl (hr : r.Stands h current) : r.Advances current [] r h := ⟨current, hr, fun _ => rfl⟩

theorem advances_push (hr : r.Stands h current) (start : Nat) (s : List Char) :
    r.Advances current (if decide (h.depth = 0) then [.text start s] else []) (r.push s) h := by
  have hdepth := hr.holds.2
  by_cases hshown : h.depth = 0
  · rw [if_pos (decide_eq_true hshown)]
    refine ⟨current ++ decoded s, ?_, ?_⟩
    · rw [push]
      split
      · rename_i hnone
        rcases hnone with hhidden | rfl
        · omega
        · exact ⟨hr.holds, by rw [decoded_blank (by simp), List.append_nil]; exact hr.alike⟩
      · rename_i hsome
        rw [not_or] at hsome
        split
        · rename_i hblank
          have hblanks := trim_eq_nil.mp hblank
          rw [decoded_blank hblanks]
          exact ⟨hr.holds, alike_blank hr.alike hsome.2 hblanks⟩
        · exact ⟨hr.holds, hr.alike.append _⟩
    · have hsame : (r.push s).blocks = r.blocks ∧ (r.push s).blockChars = r.blockChars := by
        rw [push]
        split
        · exact ⟨rfl, rfl⟩
        · split <;> exact ⟨rfl, rfl⟩
      intro rest
      rw [hsame.1, hsame.2]
      rfl
  · have hhidden : r.push s = r := if_pos (.inl (by omega))
    rw [if_neg (by simpa using hshown), hhidden]
    exact Advances.refl hr

theorem altOf_eq (raw : List Char) : altOf raw = (altRead raw).map fun found => collapse (decoded found.2) := by
  rw [altOf, altRead]
  split
  · rw [attr_eq raw (by decide) (by decide), Option.getD_some]
    cases attrAt raw "alt".toList with
    | none => rfl
    | some found =>
      rw [Option.map_some, Option.map_some, Option.filter_some, Option.filter_some]
      split <;> rfl
  · rfl

theorem advances_alt (hr : r.Stands h current) (start : Nat) (raw : List Char) :
    r.Advances current
      (if decide (h.depth = 0) then (altRead raw).toList.map fun found => .alt (start + found.1) found.2 else [])
      (r.pushAlt (altOf raw)) h := by
  have hdepth := hr.holds.2
  rw [altOf_eq]
  cases altRead raw with
  | none =>
    rw [Option.toList_none, List.map_nil, ite_self]
    exact Advances.refl hr
  | some found =>
    by_cases hshown : h.depth = 0
    · rw [if_pos (decide_eq_true hshown), Option.map_some, pushAlt, if_pos (hdepth.trans hshown)]
      refine ⟨current ++ (collapse (decoded found.2) ++ [' ']), ⟨hr.holds, ?_⟩, fun rest => rfl⟩
      rw [List.append_assoc]
      exact hr.alike.append _
    · rw [if_neg (by simpa using hshown), Option.map_some, pushAlt, if_neg (by omega)]
      exact Advances.refl hr

theorem capped_full {n : Nat} (h : maxTextChars ≤ n) (blocks : List (List Char)) : capped n blocks = [] := by
  cases blocks with
  | nil => rfl
  | cons b rest => exact if_pos h

theorem advances_flush (hr : r.Stands h current) (ends : Bool) :
    r.Advances current (if ends then [.boundary] else []) (r.flushIf ends) h := by
  cases ends with
  | false => exact Advances.refl hr
  | true =>
    have hcollapse := hr.alike.collapse
    refine ⟨[], ?_, fun rest => ?_⟩
    · rw [flushIf, if_pos rfl, flush]
      split
      · exact ⟨hr.holds, rfl, rfl⟩
      · exact ⟨hr.holds, rfl, rfl⟩
    · have hblocks : blocksOf current ([Piece.boundary] ++ rest) = flushed current ++ blocksOf [] rest := rfl
      rw [if_pos rfl, hblocks, flushIf, if_pos rfl, flush, flushed, hcollapse]
      split
      · rename_i hnone
        rcases hnone with hempty | hfull
        · rw [if_pos hempty]
          rfl
        · rw [capped_full hfull, capped_full hfull]
      · rename_i hsome
        rw [not_or] at hsome
        rw [if_neg hsome.1, List.singleton_append, capped, if_neg hsome.2]
        simp

theorem Advances.trans {r₁ r₂ r₃ : Reading} {h₂ h₃ : Held} {pieces more : List Piece}
    (ha : r₁.Advances current pieces r₂ h₂)
    (hb : ∀ current, r₂.Stands h₂ current → r₂.Advances current more r₃ h₃) :
    r₁.Advances current (pieces ++ more) r₃ h₃ := by
  obtain ⟨current', hstands, hrest⟩ := ha
  obtain ⟨current'', hstands', hrest'⟩ := hb current' hstands
  refine ⟨current'', hstands', fun rest => ?_⟩
  rw [hrest', hrest, List.append_assoc]

/-- What the stack and the counter become changes no block. -/
theorem Advances.turn {r₁ r₂ r₃ : Reading} {h₂ h₃ : Held} {pieces : List Piece}
    (ha : r₁.Advances current pieces r₂ h₂) (hholds : r₂.Holds h₂ → r₃.Holds h₃) (hblocks : r₃.blocks = r₂.blocks)
    (hchars : r₃.blockChars = r₂.blockChars) (hcurrent : r₃.current = r₂.current) :
    r₁.Advances current pieces r₃ h₃ := by
  obtain ⟨current', hstands, hrest⟩ := ha
  refine ⟨current', ⟨hholds hstands.holds, hcurrent ▸ hstands.alike⟩, fun rest => ?_⟩
  rw [hblocks, hchars, hrest]

/-- A part of the page puts in its pieces, if the counter is zero. -/
theorem advances_take (hr : r.Stands h current) (start : Nat) (t : Token) :
    r.Advances current (t.pieces start (decide (h.depth = 0))) (r.take t) (h.step t) := by
  cases t with
  | text s => exact advances_push hr start s
  | cdata body close => exact advances_push hr _ body
  | comment s => exact Advances.refl hr
  | declaration s => exact Advances.refl hr
  | rawElement opening body close => exact Advances.refl hr
  | unterminated s => exact Advances.refl hr
  | tag raw =>
    rw [Token.pieces, take, tag, Held.step]
    split
    · exact Advances.refl hr
    · cases hclosing : isClosing raw with
      | true =>
        rw [if_pos rfl, if_pos rfl, Bool.not_true, Bool.false_and, if_neg Bool.false_ne_true, List.nil_append]
        exact (advances_flush hr (isBlock (nameOf raw))).turn (fun hh => holds_leave hh _) rfl rfl rfl
      | false =>
        rw [if_neg Bool.false_ne_true, if_neg Bool.false_ne_true, Bool.not_false, Bool.true_and]
        refine Advances.turn (Advances.trans (advances_alt hr start raw) fun current hr =>
          advances_flush hr (isBlock (nameOf raw))) (fun hh => holds_enter hh _ _) rfl rfl rfl

theorem blocks_fold (hr : r.Stands h current) (start : Nat) (tokens : List Token) :
    ((tokens.foldl take r).flush).blocks =
      r.blocks ++ capped r.blockChars (blocksOf current
        (walk Held.step (fun h => decide (h.depth = 0)) h start tokens)) := by
  induction tokens generalizing r h current start with
  | nil =>
    obtain ⟨current', hstands, hrest⟩ := advances_flush hr true
    have hnone : flushed current' = [] := by
      have hempty : Alike [] current' := by
        have hcleared : (r.flushIf true).current = [] := by
          rw [flushIf, if_pos rfl, flush]
          split <;> rfl
        exact hcleared ▸ hstands.alike
      rw [flushed, ← hempty.collapse]
      rfl
    have hlast := hrest []
    have hleft : blocksOf current' [] = [] := hnone
    have hright : blocksOf current ([Piece.boundary] ++ []) = blocksOf current [] := List.append_nil _
    rw [hleft, if_pos rfl, hright, capped, List.append_nil] at hlast
    exact hlast
  | cons t rest ih =>
    obtain ⟨current', hstands, hrest⟩ := advances_take hr start t
    rw [List.foldl_cons, walk, ← hrest, ih hstands]

end Reading

/-- The parser's blocks are what the pieces make that it keeps, up to the limit. -/
theorem blocks_parse (text : List Char) (base : Option (List Char)) :
    ∃ p, parse text base = some p ∧ p.blocks.map (·.text) = capped 0 (blocksOf [] (kept (lex text))) := by
  obtain ⟨p, hp, hreading⟩ := parse_makes text base
  refine ⟨p, hp, ?_⟩
  have hblocks := congrArg Reading.blocks hreading
  have hstart : Reading.new.Stands Held.new [] := ⟨⟨rfl, rfl⟩, rfl, rfl⟩
  rw [Reading.blocks_fold hstart 0] at hblocks
  exact hblocks

end MarloweAgent.Extract.Html
