import MarloweAgent.Extract.Hiding
import Mathlib.Algebra.Order.BigOperators.Group.List
import Mathlib.Algebra.Order.Group.Nat

/-! Which of the visible text of a page is lost. A run of characters outside the skipped elements is in the
blocks just if the parser's counter is zero there; a skipped element that it counts and will never count
off hides all that comes after it. -/

namespace MarloweAgent.Extract.Html
open Contract Library

def isSolid (c : Char) : Bool := !Text.isWhitespace c

/-- A run of characters outside markup that are not all blank. -/
def Piece.isRun : Piece → Bool
  | text _ s => (decoded s).any isSolid
  | alt _ _ | boundary => false

/-- The runs among the pieces, in their order. -/
def runs (pieces : List Piece) : List Piece := pieces.filter Piece.isRun

/-- The characters of a part that are outside markup. -/
def Token.outside : Token → List Char
  | .text s => s
  | .cdata body _ => body
  | .comment _ | .declaration _ | .tag _ | .rawElement _ _ _ | .unterminated _ => []

def Token.hasRun (t : Token) : Bool := (decoded t.outside).any isSolid

/-- Whether a skipped element is counted open for good: it has no content, or there is no room for it on
the stack, or it ends with an element around it. -/
def Held.miscounts (h : Held) : Token → Bool
  | .tag raw =>
    if nameOf raw = "" then false
    else if isClosing raw then (above h.stack (nameOf raw)).any isSkipped
    else isSkipped (nameOf raw) && (isSelfClosing raw || decide (maxStack ≤ h.stack.length))
  | .text _ | .comment _ | .cdata _ _ | .declaration _ | .rawElement _ _ _ | .unterminated _ => false

/-- The beginning of a page in which each skipped element has been counted off. -/
def CountedOff (tokens : List Token) : Prop :=
  (∀ before t after, tokens = before ++ t :: after → (before.foldl Held.step Held.new).miscounts t = false) ∧
    (tokens.foldl Held.step Held.new).stack.any isSkipped = false

/-- Before each visible run of the page the skipped elements have been counted off. -/
def CountsOff (text : List Char) : Prop :=
  ∀ before t after, lex text = before ++ t :: after → t.hasRun = true →
    (before.foldl opened []).any isSkipped = false → CountedOff before

/-! ## When the counter is zero -/

theorem strays_step (h : Held) (t : Token) : (h.step t).strays = [] ↔ h.strays = [] ∧ h.miscounts t = false := by
  have hsame : h.strays = [] ↔ h.strays = [] ∧ false = false := ⟨fun h => ⟨h, rfl⟩, And.left⟩
  cases t with
  | tag raw =>
    rw [Held.step, Held.miscounts]
    split
    · exact hsame
    · split
      · rw [Held.leave, List.append_eq_nil_iff, List.filter_eq_nil_iff, List.any_eq_false]
      · rw [Held.enter, Bool.and_eq_false_iff, Bool.or_eq_false_iff, decide_eq_false_iff_not, Nat.not_le]
        split
        · rename_i hpushed
          rw [Bool.and_eq_true, Bool.not_eq_true', decide_eq_true_iff] at hpushed
          exact ⟨fun h => ⟨h, .inr hpushed⟩, And.left⟩
        · rename_i hdropped
          rw [Bool.and_eq_true, Bool.not_eq_true', decide_eq_true_iff] at hdropped
          rw [List.append_eq_nil_iff, List.filter_eq_nil_iff, or_iff_left hdropped]
          simp
  | text s => exact hsame
  | comment s => exact hsame
  | cdata body close => exact hsame
  | declaration s => exact hsame
  | rawElement opening body close => exact hsame
  | unterminated s => exact hsame

theorem strays_run (tokens : List Token) :
    (tokens.foldl Held.step Held.new).strays = [] ↔
      ∀ before t after, tokens = before ++ t :: after → (before.foldl Held.step Held.new).miscounts t = false := by
  induction tokens using List.reverseRecOn with
  | nil => simp [Held.new]
  | append_singleton rest u ih =>
    rw [List.foldl_append, List.foldl_cons, List.foldl_nil, strays_step, ih]
    constructor
    · rintro ⟨hrest, hlast⟩ before t after hsplit
      rcases List.eq_nil_or_concat after with rfl | ⟨after', v, rfl⟩
      · obtain ⟨rfl, htail⟩ := List.append_inj' hsplit rfl
        rw [← List.singleton_inj.mp htail]
        exact hlast
      · rw [List.concat_eq_append, ← List.cons_append, ← List.append_assoc] at hsplit
        exact hrest before t after' (List.append_inj' hsplit rfl).1
    · intro h
      refine ⟨fun before t after hsplit => h before t (after ++ [u]) ?_, h rest u [] rfl⟩
      rw [hsplit, List.append_assoc, List.cons_append]

theorem depth_iff (tokens : List Token) : (tokens.foldl Held.step Held.new).depth = 0 ↔ CountedOff tokens := by
  rw [Held.depth, Nat.add_eq_zero_iff, List.length_eq_zero_iff, List.length_eq_zero_iff, strays_run, CountedOff,
    List.filter_eq_nil_iff, List.any_eq_false, and_comm]

/-! ## Which runs are kept -/

theorem runs_text (start : Nat) (s : List Char) (shown : Bool) :
    runs (if shown then [.text start s] else []) =
      if shown && (decoded s).any isSolid then [.text start s] else [] := by
  cases shown with
  | true => rw [if_pos rfl, Bool.true_and, runs, List.filter_singleton, Bool.cond_eq_ite]; rfl
  | false => rfl

theorem runs_tag (start : Nat) (raw : List Char) (shown : Bool) : runs ((Token.tag raw).pieces start shown) = [] := by
  rw [runs, List.filter_eq_nil_iff]
  intro piece hpiece
  rw [Token.pieces] at hpiece
  split at hpiece
  · cases hpiece
  · rcases List.mem_append.mp hpiece with halt | hboundary
    · split at halt
      · obtain ⟨found, -, rfl⟩ := List.mem_map.mp halt
        exact Bool.false_ne_true
      · cases halt
    · split at hboundary
      · rw [List.mem_singleton.mp hboundary]
        exact Bool.false_ne_true
      · cases hboundary

/-- A part has one run, if it has any. -/
theorem runs_pieces (start : Nat) (t : Token) :
    ∃ piece, ∀ shown, runs (t.pieces start shown) = if shown && t.hasRun then [piece] else [] := by
  have hnone : t.hasRun = false → (∀ shown, runs (t.pieces start shown) = []) →
      ∃ piece, ∀ shown, runs (t.pieces start shown) = if shown && t.hasRun then [piece] else [] := by
    intro hrun hpieces
    refine ⟨.boundary, fun shown => ?_⟩
    rw [hpieces, hrun, Bool.and_false, if_neg Bool.false_ne_true]
  cases t with
  | text s => exact ⟨_, runs_text start s⟩
  | cdata body close => exact ⟨_, runs_text _ body⟩
  | tag raw => exact hnone rfl (runs_tag start raw)
  | comment s => exact hnone rfl fun _ => rfl
  | declaration s => exact hnone rfl fun _ => rfl
  | rawElement opening body close => exact hnone rfl fun _ => rfl
  | unterminated s => exact hnone rfl fun _ => rfl

/-- A part that is shown by the parser is visible. -/
theorem shown_of_depth {h : Held} {stack : List String} (hcovers : h.Covers stack) (hshown : decide (h.depth = 0) = true) :
    (!stack.any isSkipped) = true := by
  rw [open_of_depth hcovers (of_decide_eq_true hshown)]
  rfl

theorem length_runs_le {h : Held} {stack : List String} (hcovers : h.Covers stack) (start : Nat) (tokens : List Token) :
    (runs (walk Held.step (fun h => decide (h.depth = 0)) h start tokens)).length ≤
      (runs (walk opened (fun stack => !stack.any isSkipped) stack start tokens)).length := by
  induction tokens generalizing h stack start with
  | nil => exact Nat.le_refl _
  | cons t rest ih =>
    obtain ⟨piece, hpieces⟩ := runs_pieces start t
    have hhere : (runs (t.pieces start (decide (h.depth = 0)))).length ≤
        (runs (t.pieces start (!stack.any isSkipped))).length := by
      rw [hpieces, hpieces]
      cases hshown : decide (h.depth = 0) with
      | true => rw [shown_of_depth hcovers hshown]
      | false => exact Nat.zero_le _
    have hrest := ih (covers_step hcovers t) (start + t.source.length)
    rw [walk, walk, runs, List.filter_append, List.length_append, runs, List.filter_append, List.length_append]
    exact Nat.add_le_add hhere hrest

/-- The runs that the parser keeps are all that are visible, just if its counter is zero at each of them. -/
theorem runs_eq_iff {h : Held} {stack : List String} (hcovers : h.Covers stack) (start : Nat) (tokens : List Token) :
    runs (walk Held.step (fun h => decide (h.depth = 0)) h start tokens) =
        runs (walk opened (fun stack => !stack.any isSkipped) stack start tokens) ↔
      ∀ before t after, tokens = before ++ t :: after → t.hasRun = true →
        (before.foldl opened stack).any isSkipped = false → (before.foldl Held.step h).depth = 0 := by
  induction tokens generalizing h stack start with
  | nil =>
    refine ⟨fun _ before t after hsplit => ?_, fun _ => rfl⟩
    simp at hsplit
  | cons t rest ih =>
    obtain ⟨piece, hpieces⟩ := runs_pieces start t
    have hrest := ih (covers_step hcovers t) (start + t.source.length)
    have hless := length_runs_le (covers_step hcovers t) (start + t.source.length) rest
    rw [walk, walk, runs, List.filter_append, runs, List.filter_append]
    change runs _ ++ runs _ = runs _ ++ runs _ ↔ _
    rw [hpieces, hpieces]
    -- a visible run that is not kept leaves too few
    have hkept (hall : (if decide (h.depth = 0) && t.hasRun then [piece] else []) ++
        runs (walk Held.step (fun h => decide (h.depth = 0)) (h.step t) (start + t.source.length) rest) =
          (if !stack.any isSkipped && t.hasRun then [piece] else []) ++
            runs (walk opened (fun stack => !stack.any isSkipped) (opened stack t) (start + t.source.length) rest))
        (hrun : t.hasRun = true) (hopen : stack.any isSkipped = false) : h.depth = 0 := by
      by_contra hhidden
      have hlength := congrArg List.length hall
      rw [hrun, hopen, decide_eq_false hhidden] at hlength
      simp only [Bool.and_true, Bool.not_false, if_true, Bool.false_eq_true, if_false, List.nil_append,
        List.length_append, List.length_singleton] at hlength
      omega
    have hsame (hdepth : t.hasRun = true → stack.any isSkipped = false → h.depth = 0) :
        (if decide (h.depth = 0) && t.hasRun then [piece] else []) =
          if !stack.any isSkipped && t.hasRun then [piece] else [] := by
      cases hrun : t.hasRun with
      | false => rw [Bool.and_false, Bool.and_false]
      | true =>
        cases hopen : stack.any isSkipped with
        | false => rw [hdepth hrun hopen]; rfl
        | true =>
          have hhidden : decide (h.depth = 0) = false := by
            rw [Bool.eq_false_iff]
            intro hshown
            have := shown_of_depth hcovers hshown
            rw [hopen] at this
            cases this
          rw [hhidden]
          rfl
    constructor
    · intro hall before u after hsplit
      cases before with
      | nil =>
        obtain ⟨rfl, rfl⟩ := List.cons.inj hsplit
        exact hkept hall
      | cons v before =>
        obtain ⟨rfl, rfl⟩ := List.cons.inj hsplit
        rw [hsame (hkept hall)] at hall
        exact hrest.mp (List.append_cancel_left hall) before u after rfl
    · intro h'
      rw [hsame (h' [] t rest rfl), hrest.mpr fun before u after hsplit =>
        h' (t :: before) u after (by rw [hsplit, List.cons_append])]

/-! ## The blocks of the pieces -/

theorem solid_squeeze (space : Bool) (s : List Char) : (squeeze space s).filter isSolid = s.filter isSolid := by
  induction s generalizing space with
  | nil => rfl
  | cons c rest ih =>
    rw [squeeze, List.filter_cons, isSolid]
    cases hc : Text.isWhitespace c with
    | true =>
      rw [if_pos rfl, Bool.not_true, if_neg Bool.false_ne_true]
      split
      · exact ih true
      · rw [List.filter_cons_of_neg (by decide)]
        exact ih true
    | false =>
      rw [if_neg Bool.false_ne_true, Bool.not_false, if_pos rfl, List.filter_cons_of_pos (by rw [isSolid, hc]; rfl), ih]

theorem solid_collapse (s : List Char) : (collapse s).filter isSolid = s.filter isSolid := by
  have hsplit := List.rdropWhile_append_rtakeWhile (p := (· == ' ')) (l := squeeze true s)
  have hblanks : ((squeeze true s).rtakeWhile (· == ' ')).filter isSolid = [] := by
    rw [List.filter_eq_nil_iff]
    intro c hc
    have hspace := List.mem_rtakeWhile_imp hc
    rw [beq_iff_eq.mp hspace]
    decide
  rw [← solid_squeeze true s, ← hsplit, List.filter_append, hblanks, List.append_nil]
  rfl

theorem solid_flushed (s : List Char) : (flushed s).flatten.filter isSolid = s.filter isSolid := by
  rw [flushed]
  split
  · rename_i hempty
    rw [← solid_collapse s, hempty]
    rfl
  · rw [List.flatten_singleton, solid_collapse]

/-- The characters of the blocks are those of the pieces, each once and in order, but for the blanks. -/
theorem solid_blocksOf (current : List Char) (pieces : List Piece) :
    (blocksOf current pieces).flatten.filter isSolid = (current ++ pieces.flatMap Piece.added).filter isSolid := by
  induction pieces generalizing current with
  | nil => rw [blocksOf, solid_flushed, List.flatMap_nil, List.append_nil]
  | cons piece rest ih =>
    cases piece with
    | boundary =>
      rw [blocksOf, List.flatten_append, List.filter_append, solid_flushed, ih, List.nil_append, ← List.filter_append]
      rfl
    | text start s => rw [blocksOf, ih, List.flatMap_cons, List.append_assoc]
    | alt start s => rw [blocksOf, ih, List.flatMap_cons, List.append_assoc]

theorem byteLen_squeeze_le (space : Bool) (s : List Char) : Text.byteLen (squeeze space s) ≤ Text.byteLen s := by
  induction s generalizing space with
  | nil => exact Nat.le_refl _
  | cons c rest ih =>
    have hpos := c.utf8Size_pos
    have hspace : ' '.utf8Size = 1 := rfl
    rw [squeeze, byteLen_cons]
    split
    · have hrest := ih true
      split
      · omega
      · rw [byteLen_cons, hspace]
        omega
    · rw [byteLen_cons]
      exact Nat.add_le_add_left (ih false) _

theorem byteLen_flushed_le (s : List Char) : ((flushed s).map Text.byteLen).sum ≤ Text.byteLen s := by
  have hcollapse : Text.byteLen (collapse s) ≤ Text.byteLen s := by
    obtain ⟨blanks, hsplit⟩ := List.rdropWhile_prefix (· == ' ') (squeeze true s)
    have hsqueeze := byteLen_squeeze_le true s
    rw [← hsplit, byteLen_append] at hsqueeze
    exact Nat.le_of_add_right_le hsqueeze
  rw [flushed]
  split
  · exact Nat.zero_le _
  · rw [List.map_singleton, List.sum_singleton]
    exact hcollapse

/-- How much text pieces add. -/
def weight (pieces : List Piece) : Nat := (pieces.map fun piece => Text.byteLen piece.added).sum

theorem byteLen_blocksOf_le (current : List Char) (pieces : List Piece) :
    ((blocksOf current pieces).map Text.byteLen).sum ≤ Text.byteLen current + weight pieces := by
  induction pieces generalizing current with
  | nil => exact byteLen_flushed_le current
  | cons piece rest ih =>
    have hweight : weight (piece :: rest) = Text.byteLen piece.added + weight rest := rfl
    rw [hweight]
    cases piece with
    | boundary =>
      have hflushed := byteLen_flushed_le current
      have hrest := ih []
      rw [blocksOf, List.map_append, List.sum_append]
      exact Nat.add_le_add hflushed (hrest.trans (Nat.add_le_add_right (Nat.zero_le _) _))
    | text start s =>
      have hrest := ih (current ++ (Piece.text start s).added)
      rwa [byteLen_append, Nat.add_assoc] at hrest
    | alt start s =>
      have hrest := ih (current ++ (Piece.alt start s).added)
      rwa [byteLen_append, Nat.add_assoc] at hrest

theorem capped_eq {n : Nat} {blocks : List (List Char)} (h : n + (blocks.map Text.byteLen).sum < maxTextChars) :
    capped n blocks = blocks := by
  induction blocks generalizing n with
  | nil => rfl
  | cons b rest ih =>
    rw [List.map_cons, List.sum_cons] at h
    rw [capped, if_neg (by omega), ih (by omega)]

theorem pieces_sublist {shown shown' : Bool} (h : shown = true → shown' = true) (start : Nat) (t : Token) :
    List.Sublist (t.pieces start shown) (t.pieces start shown') := by
  have hif {c c' : Bool} (hc : c = true → c' = true) (pieces : List Piece) :
      List.Sublist (if c then pieces else []) (if c' then pieces else []) := by
    split
    · rename_i hshown
      rw [if_pos (hc hshown)]
    · exact List.nil_sublist _
  cases t with
  | text s => exact hif h _
  | cdata body close => exact hif h _
  | tag raw =>
    rw [Token.pieces, Token.pieces]
    split
    · exact List.Sublist.refl _
    · refine (hif (fun hboth => ?_) _).append (List.Sublist.refl _)
      rw [Bool.and_eq_true] at hboth ⊢
      exact ⟨hboth.1, h hboth.2⟩
  | comment s => exact List.Sublist.refl _
  | declaration s => exact List.Sublist.refl _
  | rawElement opening body close => exact List.Sublist.refl _
  | unterminated s => exact List.Sublist.refl _

theorem kept_sublist {h : Held} {stack : List String} (hcovers : h.Covers stack) (start : Nat) (tokens : List Token) :
    List.Sublist (walk Held.step (fun h => decide (h.depth = 0)) h start tokens)
      (walk opened (fun stack => !stack.any isSkipped) stack start tokens) := by
  induction tokens generalizing h stack start with
  | nil => exact List.Sublist.refl _
  | cons t rest ih =>
    exact (pieces_sublist (shown_of_depth hcovers) start t).append (ih (covers_step hcovers t) _)

/-- **All of a page's visible text is in its blocks, just if each skipped element has been counted off
before each of its runs.** -/
theorem visible_iff (text : List Char) (base : Option (List Char)) (hcap : weight (visible (lex text)) < maxTextChars) :
    ∃ p, parse text base = some p ∧ p.blocks.map (·.text) = blocksOf [] (kept (lex text)) ∧
      (p.blocks.flatMap (·.text)).filter isSolid = ((kept (lex text)).flatMap Piece.added).filter isSolid ∧
      (runs (kept (lex text)) = runs (visible (lex text)) ↔ CountsOff text) := by
  obtain ⟨p, hp, hblocks⟩ := blocks_parse text base
  have hcovers : Held.new.Covers [] := fun _ _ => Nat.le_refl _
  have hweight : weight (kept (lex text)) ≤ weight (visible (lex text)) :=
    ((kept_sublist hcovers 0 (lex text)).map _).sum_le_sum fun _ _ => Nat.zero_le _
  have hall : p.blocks.map (·.text) = blocksOf [] (kept (lex text)) := by
    have hblocksOf := byteLen_blocksOf_le [] (kept (lex text))
    rw [hblocks]
    refine capped_eq ?_
    have hzero : Text.byteLen [] = 0 := rfl
    omega
  refine ⟨p, hp, hall, ?_, ?_⟩
  · have hsolid := solid_blocksOf [] (kept (lex text))
    rwa [← hall] at hsolid
  · rw [kept, visible, runs_eq_iff hcovers]
    simp only [depth_iff]
    rfl

theorem visible_svg :
    let page := "one<svg><p>two</svg>three".toList
    weight (visible (lex page)) < maxTextChars ∧
      ∃ p, parse page none = some p ∧ p.blocks.map (·.text) = blocksOf [] (kept (lex page)) ∧
        (p.blocks.flatMap (·.text)).filter isSolid = ((kept (lex page)).flatMap Piece.added).filter isSolid ∧
        (runs (kept (lex page)) = runs (visible (lex page)) ↔ CountsOff page) :=
  ⟨by decide +kernel, visible_iff "one<svg><p>two</svg>three".toList none (by decide +kernel)⟩

/-- An element without content hides the rest of the page. -/
theorem embed_hides :
    let page := "a<embed>b".toList
    weight (visible (lex page)) < maxTextChars ∧ blocksOf [] (visible (lex page)) = ["ab".toList] ∧
      (∃ p, parse page none = some p ∧ p.blocks.map (·.text) = ["a".toList]) ∧
      runs (kept (lex page)) ≠ runs (visible (lex page)) := by
  have hblocks : (parse "a<embed>b".toList none).map (fun p => p.blocks.map (·.text)) = some ["a".toList] := by
    decide +kernel
  exact ⟨by decide +kernel, by decide +kernel, Option.map_eq_some_iff.mp hblocks, by decide +kernel⟩

end MarloweAgent.Extract.Html
