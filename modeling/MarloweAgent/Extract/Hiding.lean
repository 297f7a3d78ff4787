import MarloweAgent.Extract.Exposure

/-! What a page hides, place by place: its markup, but for the alternative text of the images, and all that
stands in an element whose contents are not prose. -/

namespace MarloweAgent.Extract.Html
open Contract Library

/-! ## The places of a page -/

/-- Where the characters of a piece stand. -/
def Piece.start : Piece → Nat
  | text start _ | alt start _ => start
  | boundary => 0

def Piece.source : Piece → List Char
  | text _ s | alt _ s => s
  | boundary => []

/-- Whether a place of a tag is one of the alternative text of an image. -/
def isAltText (raw : List Char) (i : Nat) : Bool :=
  decide (nameOf raw = "img") && !isClosing raw &&
    (ownAttr raw "alt".toList).any fun found => decide (found.1 ≤ i) && decide (i < found.1 + found.2.length)

/-- Which places of a part are hidden, in a skipped element or outside. -/
def Token.hides (skipped : Bool) : Token → List Bool
  | .text s => List.replicate s.length skipped
  | .cdata body close =>
    List.replicate cdataOpen.length true ++ (List.replicate body.length skipped ++ List.replicate close.length true)
  | .tag raw => (List.range raw.length).map fun i => skipped || !isAltText raw i
  | t => List.replicate t.source.length true

def hiddenFrom : List String → List Token → List Bool
  | _, [] => []
  | stack, t :: rest => t.hides (stack.any isSkipped) ++ hiddenFrom (opened stack t) rest

/-- Which places of a page are hidden. -/
def hidden (text : List Char) : List Bool := hiddenFrom [] (lex text)

/-- A piece of the page, no character of which stands at a hidden place. -/
def Exposed (text : List Char) (piece : Piece) : Prop :=
  ∀ i < piece.source.length,
    text[piece.start + i]? = piece.source[i]? ∧ (hidden text)[piece.start + i]? = some false

/-- In each image that the parser comes to with its counter at zero, the search for the alternative text
stops where that text stands. -/
def OwnAlts (text : List Char) : Prop :=
  ∀ before raw after, lex text = before ++ .tag raw :: after → (before.foldl Held.step Held.new).depth = 0 →
    isClosing raw = false → ∀ found ∈ altRead raw, ∀ i < found.2.length, isAltText raw (found.1 + i) = true

/-! ## The counter covers what is open -/

/-- Each skipped element that is open is on the parser's stack, or has been counted for good. -/
def Held.Covers (h : Held) (stack : List String) : Prop :=
  ∀ name, isSkipped name = true → stack.count name ≤ h.stack.count name + h.strays.count name

theorem count_unwind (stack : List String) (name other : String) :
    stack.count other = (Parser.unwind stack name).count other + (above stack name).count other +
      if name ∈ stack ∧ other = name then 1 else 0 := by
  by_cases hmem : name ∈ stack
  · obtain ⟨hsplit, -⟩ := unwind_of_mem hmem
    conv_lhs => rw [hsplit]
    rw [List.count_append, List.count_cons]
    by_cases hsame : other = name
    · rw [if_pos (beq_iff_eq.mpr hsame.symm), if_pos ⟨hmem, hsame⟩]
      omega
    · rw [if_neg (fun h => hsame (beq_iff_eq.mp h).symm), if_neg fun h => hsame h.2]
      omega
  · obtain ⟨hsame, hnone⟩ := unwind_of_notMem hmem
    rw [hsame, hnone, if_neg fun h => hmem h.1]
    rfl

theorem covers_leave {h : Held} {stack : List String} (hcovers : h.Covers stack) (name : String) :
    (h.leave name).Covers (Parser.unwind stack name) := by
  intro other hskipped
  have hopen := count_unwind stack name other
  have hheld := count_unwind h.stack name other
  have hbefore := hcovers other hskipped
  show _ ≤ (Parser.unwind h.stack name).count other + (h.strays ++ (above h.stack name).filter isSkipped).count other
  rw [List.count_append, List.count_filter hskipped]
  by_cases hsame : other = name
  · subst hsame
    by_cases hin : other ∈ stack
    · rw [if_pos ⟨hin, rfl⟩] at hopen
      split at hheld <;> omega
    · have hzero : stack.count other = 0 := List.count_eq_zero.mpr hin
      omega
  · rw [if_neg fun h => hsame h.2] at hheld
    omega

theorem covers_enter {h : Held} {stack : List String} (hcovers : h.Covers stack) (name : String) (selfClosing : Bool) :
    (h.enter name selfClosing).Covers (if selfClosing then stack else stack ++ [name]) := by
  intro other hskipped
  have hbefore := hcovers other hskipped
  have hopen : (if selfClosing then stack else stack ++ [name]).count other ≤ stack.count other + [name].count other := by
    split
    · exact Nat.le_add_right _ _
    · rw [List.count_append]
  have hheld : (h.enter name selfClosing).stack.count other + (h.enter name selfClosing).strays.count other =
      h.stack.count other + h.strays.count other + [name].count other := by
    rw [Held.enter]
    split
    · show (h.stack ++ [name]).count other + h.strays.count other = _
      rw [List.count_append]
      omega
    · show h.stack.count other + (h.strays ++ [name].filter isSkipped).count other = _
      rw [List.count_append, List.count_filter hskipped]
      omega
  omega

theorem covers_step {h : Held} {stack : List String} (hcovers : h.Covers stack) (t : Token) :
    (h.step t).Covers (opened stack t) := by
  cases t with
  | tag raw =>
    rw [Held.step, opened]
    split
    · exact hcovers
    · split
      · exact covers_leave hcovers _
      · exact covers_enter hcovers (nameOf raw) (isSelfClosing raw)
  | text s => exact hcovers
  | comment s => exact hcovers
  | cdata body close => exact hcovers
  | declaration s => exact hcovers
  | rawElement opening body close => exact hcovers
  | unterminated s => exact hcovers

theorem covers_run (tokens : List Token) : (tokens.foldl Held.step Held.new).Covers (tokens.foldl opened []) := by
  induction tokens using List.reverseRecOn with
  | nil => exact fun _ _ => Nat.le_refl _
  | append_singleton before t ih =>
    rw [List.foldl_append, List.foldl_append]
    exact covers_step ih t

/-- Where the counter is zero, no skipped element is open. -/
theorem open_of_depth {h : Held} {stack : List String} (hcovers : h.Covers stack) (hdepth : h.depth = 0) :
    stack.any isSkipped = false := by
  obtain ⟨hstack, hstrays⟩ := Nat.add_eq_zero_iff.mp hdepth
  rw [List.any_eq_false]
  intro name hmem hskipped
  have hopen : 0 < stack.count name := List.count_pos_iff.mpr hmem
  have hheld : h.stack.count name = 0 := by
    rw [List.count_eq_zero]
    intro hin
    have := List.mem_filter.mpr ⟨hin, hskipped⟩
    rw [List.length_eq_zero_iff.mp hstack] at this
    cases this
  have hstray : h.strays.count name = 0 := by rw [List.length_eq_zero_iff.mp hstrays, List.count_nil]
  have hless := hcovers name hskipped
  omega

/-! ## Where the pieces stand -/

theorem length_hides (skipped : Bool) (t : Token) : (t.hides skipped).length = t.source.length := by
  cases t <;> simp [Token.hides, Token.source]

theorem length_hiddenFrom (stack : List String) (tokens : List Token) :
    (hiddenFrom stack tokens).length = (tokens.flatMap Token.source).length := by
  induction tokens generalizing stack with
  | nil => rfl
  | cons t rest ih => rw [hiddenFrom, List.length_append, length_hides, ih, List.flatMap_cons, List.length_append]

theorem hiddenFrom_append (stack : List String) (before after : List Token) :
    hiddenFrom stack (before ++ after) = hiddenFrom stack before ++ hiddenFrom (before.foldl opened stack) after := by
  induction before generalizing stack with
  | nil => rfl
  | cons t rest ih => rw [List.cons_append, hiddenFrom, hiddenFrom, ih, List.foldl_cons, List.append_assoc]

/-- The pieces are those of the parts, at their places. -/
theorem mem_walk {σ : Type*} {step : σ → Token → σ} {shown : σ → Bool} {state : σ} {start : Nat} {tokens : List Token}
    {piece : Piece} :
    piece ∈ walk step shown state start tokens ↔ ∃ before t after, tokens = before ++ t :: after ∧
      piece ∈ t.pieces (start + (before.flatMap Token.source).length) (shown (before.foldl step state)) := by
  induction tokens generalizing state start with
  | nil =>
    refine ⟨fun h => absurd h List.not_mem_nil, ?_⟩
    rintro ⟨before, t, after, hsplit, -⟩
    simp at hsplit
  | cons t rest ih =>
    rw [walk, List.mem_append, ih]
    constructor
    · rintro (hhere | ⟨before, u, after, rfl, hpiece⟩)
      · exact ⟨[], t, rest, rfl, hhere⟩
      · refine ⟨t :: before, u, after, rfl, ?_⟩
        rwa [List.flatMap_cons, List.length_append, ← Nat.add_assoc]
    · rintro ⟨before, u, after, hsplit, hpiece⟩
      cases before with
      | nil =>
        obtain ⟨rfl, rfl⟩ := List.cons.inj hsplit
        exact .inl hpiece
      | cons v before =>
        obtain ⟨rfl, rfl⟩ := List.cons.inj hsplit
        rw [List.flatMap_cons, List.length_append, ← Nat.add_assoc] at hpiece
        exact .inr ⟨before, u, after, rfl, hpiece⟩

/-- The places of a part, on the page. -/
theorem place_of_part {text : List Char} {before after : List Token} {t : Token}
    (hlex : lex text = before ++ t :: after) {i : Nat} (hi : i < t.source.length) :
    text[(before.flatMap Token.source).length + i]? = t.source[i]? ∧
      (hidden text)[(before.flatMap Token.source).length + i]? =
        (t.hides ((before.foldl opened []).any isSkipped))[i]? := by
  have hsource := source_lex text
  rw [hlex, List.flatMap_append, List.flatMap_cons] at hsource
  constructor
  · conv_lhs => rw [← hsource]
    rw [List.getElem?_append_right (Nat.le_add_right _ _), Nat.add_sub_cancel_left, List.getElem?_append_left hi]
  · have hlength := length_hiddenFrom [] before
    rw [hidden, hlex, hiddenFrom_append, hiddenFrom, ← hlength,
      List.getElem?_append_right (Nat.le_add_right _ _), Nat.add_sub_cancel_left,
      List.getElem?_append_left (by rw [length_hides]; exact hi)]

/-- A run of characters outside markup is exposed, if no skipped element is open. -/
theorem exposed_text {text : List Char} {before after : List Token} {t : Token} (hlex : lex text = before ++ t :: after)
    (hopen : (before.foldl opened []).any isSkipped = false) (front s back : List Char) (hides hidesAfter : List Bool)
    (hsource : t.source = front ++ (s ++ back))
    (hhides : t.hides false = hides ++ (List.replicate s.length false ++ hidesAfter)) (hlength : hides.length = front.length) :
    Exposed text (.text ((before.flatMap Token.source).length + front.length) s) := by
  intro i hi
  have hi : i < s.length := hi
  have hplace := place_of_part hlex (i := front.length + i) (by rw [hsource, List.length_append, List.length_append]; omega)
  rw [hopen, hsource, hhides, List.getElem?_append_right (Nat.le_add_right _ _), Nat.add_sub_cancel_left,
    List.getElem?_append_left hi, ← hlength, List.getElem?_append_right (Nat.le_add_right _ _), Nat.add_sub_cancel_left,
    List.getElem?_append_left (by rw [List.length_replicate]; exact hi), List.getElem?_replicate, if_pos hi] at hplace
  rw [← hlength]
  rw [← Nat.add_assoc] at hplace
  exact hplace

theorem exposed_alt {text : List Char} {before after : List Token} {raw : List Char}
    (hlex : lex text = before ++ .tag raw :: after) (hopen : (before.foldl opened []).any isSkipped = false)
    {found : Nat × List Char} (hfound : altRead raw = some found) :
    Exposed text (.alt ((before.flatMap Token.source).length + found.1) found.2) ↔
      ∀ i < found.2.length, isAltText raw (found.1 + i) = true := by
  have hread : attrAt raw "alt".toList = some found := by
    rw [altRead] at hfound
    split at hfound
    · exact (Option.filter_eq_some_iff.mp hfound).1
    · cases hfound
  obtain ⟨tail, htail⟩ := attrAt_prefix hread
  have hplace {i : Nat} (hi : i < found.2.length) := by
    have hin : found.1 + i < raw.length := by
      have hlength := congrArg List.length htail
      rw [List.length_append, List.length_drop] at hlength
      omega
    have hplace := place_of_part hlex (t := .tag raw) hin
    have hsame : raw[found.1 + i]? = found.2[i]? := by
      rw [← List.getElem?_drop, ← htail, List.getElem?_append_left hi]
    rw [hopen, Token.source, hsame, Token.hides, List.getElem?_map, List.getElem?_range hin, Option.map_some,
      Bool.false_or, ← Nat.add_assoc] at hplace
    exact hplace
  constructor
  · intro h i hi
    have hshown : some (!isAltText raw (found.1 + i)) = some false := (hplace hi).2.symm.trans (h i hi).2
    simpa using hshown
  · intro h i hi
    refine ⟨(hplace hi).1, (hplace hi).2.trans ?_⟩
    rw [h i hi, Bool.not_true]

/-- **No hidden character of a page reaches a block, just if the search for the alternative text of an
image stops where that text stands; and the parser ends on every page.** -/
theorem exposed_iff (text : List Char) (base : Option (List Char)) :
    ∃ p, parse text base = some p ∧ p.blocks.map (·.text) = capped 0 (blocksOf [] (kept (lex text))) ∧
      ((∀ piece ∈ kept (lex text), Exposed text piece) ↔ OwnAlts text) := by
  obtain ⟨p, hp, hblocks⟩ := blocks_parse text base
  refine ⟨p, hp, hblocks, ?_, ?_⟩
  · intro hexposed before raw after hlex hdepth hopening found hfound
    have hopen := open_of_depth (covers_run before) hdepth
    refine (exposed_alt hlex hopen hfound).mp (hexposed _ (mem_walk.mpr ⟨before, _, after, hlex, ?_⟩))
    have hname : nameOf raw ≠ "" := by
      intro hempty
      rw [altRead, hempty, if_neg (by decide)] at hfound
      cases hfound
    rw [Token.pieces, if_neg hname, hopening, hdepth, Nat.zero_add]
    exact List.mem_append_left _ (List.mem_map_of_mem (Option.mem_toList.mpr hfound))
  · intro howns piece hkept
    obtain ⟨before, t, after, hlex, hpiece⟩ := mem_walk.mp hkept
    rw [Nat.zero_add] at hpiece
    cases t with
    | text s =>
      rw [Token.pieces] at hpiece
      split at hpiece
      · rename_i hshown
        rw [List.mem_singleton.mp hpiece]
        have hnone : (before.foldl opened []).any isSkipped = false :=
          open_of_depth (covers_run before) (of_decide_eq_true hshown)
        exact exposed_text hlex hnone [] s [] [] [] (by simp [Token.source]) (by simp [Token.hides]) rfl
      · cases hpiece
    | cdata body close =>
      rw [Token.pieces] at hpiece
      split at hpiece
      · rename_i hshown
        rw [List.mem_singleton.mp hpiece]
        have hnone : (before.foldl opened []).any isSkipped = false :=
          open_of_depth (covers_run before) (of_decide_eq_true hshown)
        exact exposed_text hlex hnone Token.cdataOpen body close _ _ rfl rfl (List.length_replicate ..)
      · cases hpiece
    | tag raw =>
      rw [Token.pieces] at hpiece
      split at hpiece
      · cases hpiece
      · rcases List.mem_append.mp hpiece with halt | hboundary
        · split at halt
          · rename_i hboth
            rw [Bool.and_eq_true, Bool.not_eq_true', decide_eq_true_iff] at hboth
            obtain ⟨found, hfound, rfl⟩ := List.mem_map.mp halt
            have hread := Option.mem_toList.mp hfound
            exact (exposed_alt hlex (open_of_depth (covers_run before) hboth.2) hread).mpr
              (howns before raw after hlex hboth.2 hboth.1 found hread)
          · cases halt
        · split at hboundary
          · rw [List.mem_singleton.mp hboundary]
            exact fun i hi => absurd hi (Nat.not_lt_zero i)
          · cases hboundary
    | comment s => cases hpiece
    | declaration s => cases hpiece
    | rawElement opening body close => cases hpiece
    | unterminated s => cases hpiece

/-- The title of an image without an alternative text is searched for one, and shown. -/
theorem title_shown :
    let page := "<img title=\" alt=secret\">".toList
    (attributes page).map (·.name) = ["title".toList] ∧
      (∃ p, parse page none = some p ∧ p.blocks.map (·.text) = ["secret\"".toList]) ∧
      ¬ ∀ piece ∈ kept (lex page), Exposed page piece := by
  have hkept : kept (lex "<img title=\" alt=secret\">".toList) = [.alt 17 "secret\"".toList] := by decide +kernel
  have hblocks : (parse "<img title=\" alt=secret\">".toList none).map (fun p => p.blocks.map (·.text)) =
      some ["secret\"".toList] := by decide +kernel
  have hhidden : (hidden "<img title=\" alt=secret\">".toList)[17]? = some true := by decide +kernel
  refine ⟨by decide +kernel, Option.map_eq_some_iff.mp hblocks, fun h => ?_⟩
  rw [hkept] at h
  have hshown := (h _ List.mem_cons_self 0 (by decide)).2
  exact absurd (hhidden.symm.trans hshown) (by decide)

end MarloweAgent.Extract.Html
