import MarloweAgent.Contract.Text
import MarloweAgent.Library.Replacing
import MarloweAgent.Library.Trace

/-! The steer field of a run's window. A pasted block stands in the draft as a chip, a marker of its
place in the list of pastes and its size, and is put in for it when the steer is sent. Beside the draft
as the field has it stands the draft by where its characters came from. -/

namespace MarloweAgent.Surface
open Contract Library

def pasteMinLines : Nat := 3

def pasteMinChars : Nat := 240

/-- The chip of paste `i`. -/
def pasteMarker (i : Nat) (body : String) : String :=
  let lines := (Text.lines body).length
  if 1 < lines then "[Pasted #" ++ toString (i + 1) ++ " +" ++ toString lines ++ " lines]"
  else "[Pasted #" ++ toString (i + 1) ++ " +" ++ toString body.toList.length ++ " chars]"

/-- A paste that is put in as it is. -/
def isShort (text : String) : Bool :=
  (Text.lines text).length < pasteMinLines && text.toList.length < pasteMinChars

/-- What the steer field takes of the keys. -/
inductive Key
  | char (c : Char)
  | ctrlA
  | ctrlC
  | ctrlBackspace
  | backspace
  | shiftEnter
  | enter
  | other
  deriving DecidableEq, Repr

inductive Action
  | key (k : Key)
  | paste (text : String)
  deriving DecidableEq, Repr

/-- The field, and the steers it asked to send. -/
structure Window where
  steer : List Char
  pastes : List String
  selectAll : Bool
  requests : List (List Char)
  deriving DecidableEq, Repr

/-- `delete_word_back`. -/
def deleteWordBack (s : List Char) : List Char :=
  (s.rdropWhile Text.isWhitespace).rdropWhile fun c => !Text.isWhitespace c

/-- `str::trim`, of characters. -/
def trimmed (s : List Char) : List Char := (Text.trim (String.ofList s)).toList

/-- The text with each paste put in for its marker, one after another. -/
def expandPastes (pastes : List String) (s : List Char) : List Char :=
  pastes.zipIdx.foldl (fun out (body, i) => Text.replace out (pasteMarker i body).toList body.toList) s

namespace Window

/-- The paste whose chip ends the draft. -/
def trailingPaste (w : Window) : Option (Nat × List Char) :=
  w.pastes.zipIdx.reverse.findSome? fun (body, i) =>
    let marker := (pasteMarker i body).toList
    if marker.isSuffixOf w.steer then some (i, marker) else none

def paste (w : Window) (text : String) : Window :=
  if isShort text then
    { w with steer := w.steer ++ text.toList }
  else
    { w with
      steer := w.steer ++ (pasteMarker w.pastes.length text).toList
      pastes := w.pastes ++ [text] }

def cleared (w : Window) : Window := { w with steer := [], pastes := [], selectAll := false }

/-- The chip that ends the draft goes whole, and its paste with it if it is the last. -/
def dropChip (w : Window) (i : Nat) (marker : List Char) : Window :=
  { w with
    steer := w.steer.take (w.steer.length - marker.length)
    pastes := if i + 1 = w.pastes.length then w.pastes.dropLast else w.pastes }

/-- `on_text_key`, and what `^c` does with the selection. -/
def onKey (w : Window) : Key → Window
  | .char c =>
    let w := if w.selectAll then w.cleared else w
    { w with steer := w.steer ++ [c] }
  | .ctrlA => { w with selectAll := !w.steer.isEmpty }
  | .ctrlC => { w with selectAll := false }
  | .ctrlBackspace =>
    if w.selectAll then w.cleared
    else match w.trailingPaste with
      | some (i, marker) => w.dropChip i marker
      | none => { w with steer := deleteWordBack w.steer }
  | .backspace =>
    if w.selectAll then w.cleared
    else match w.trailingPaste with
      | some (i, marker) => w.dropChip i marker
      | none => { w with steer := w.steer.dropLast }
  | .shiftEnter => { w with steer := w.steer ++ ['\n'] }
  | .enter =>
    let text := expandPastes w.pastes (trimmed w.steer)
    { w with
      steer := []
      pastes := []
      requests := if (trimmed text).isEmpty then w.requests else w.requests ++ [text] }
  | .other => w

def act (w : Window) : Action → Window
  | .key k => w.onKey k
  | .paste text => w.paste text

end Window

/-- The markers of the pastes. -/
def marks (pastes : List String) : List (Mark Char) :=
  pastes.zipIdx.map fun (body, i) => ⟨(pasteMarker i body).toList, body.toList⟩

/-! ## The draft by where it came from -/

/-- A character of the draft, or a whole chip with the paste it was inserted for. -/
inductive Piece
  | typed (c : Char)
  | chip (i : Nat) (body : String)
  deriving DecidableEq, Repr

namespace Piece

/-- What stands in the draft. -/
def shown : Piece → List Char
  | typed c => [c]
  | chip i body => (pasteMarker i body).toList

/-- What is meant by it. -/
def meant : Piece → List Char
  | typed c => [c]
  | chip _ body => body.toList

/-- The place of its paste. -/
def number : Piece → Option Nat
  | typed _ => none
  | chip i _ => some i

def isBlank : Piece → Bool
  | typed c => Text.isWhitespace c
  | chip _ _ => false

end Piece

abbrev Draft := List Piece

namespace Draft

def shown (d : Draft) : List Char := d.flatMap Piece.shown

def meant (d : Draft) : List Char := d.flatMap Piece.meant

/-- The first `n` characters of the draft; a chip that is cut is whole no longer. -/
def keep : Nat → Draft → Draft
  | _, [] => []
  | n, p :: rest =>
    if p.shown.length ≤ n then p :: keep (n - p.shown.length) rest else (p.shown.take n).map .typed

/-- Each chip with its paste in its place, and each marker of a paste among the characters between
them, after those of `run`. -/
def sentFrom (pastes : List String) : List Char → Draft → List Char
  | run, [] => Mark.atOnce (marks pastes) run
  | run, .typed c :: rest => sentFrom pastes (run ++ [c]) rest
  | run, .chip _ body :: rest => Mark.atOnce (marks pastes) run ++ (body.toList ++ sentFrom pastes [] rest)

/-- The chips of the draft hold pastes of the list. -/
def Of (pastes : List String) (d : Draft) : Prop :=
  ∀ i body, .chip i body ∈ d → pastes[i]? = some body

/-- The draft without the blanks around it. -/
def trim (d : Draft) : Draft := (d.dropWhile Piece.isBlank).rdropWhile Piece.isBlank

end Draft

/-- A steer as it was sent, with the draft and the pastes it was sent from. -/
structure Sent where
  draft : Draft
  pastes : List String
  text : List Char
  deriving DecidableEq, Repr

/-- What was sent is the draft with each chip as it was pasted. -/
def Sent.AsPasted (x : Sent) : Prop := x.draft.Of x.pastes ∧ x.text = x.draft.trim.sentFrom x.pastes []

/-- The field with its draft by where it came from. -/
structure Composing where
  window : Window
  draft : Draft
  sent : List Sent
  deriving DecidableEq, Repr

namespace Composing

def blank : Composing := ⟨⟨[], [], false, []⟩, [], []⟩

/-- What a key adds to the draft. -/
def typedBy : Key → Draft
  | .char c => [.typed c]
  | .shiftEnter => [.typed '\n']
  | .ctrlA | .ctrlC | .ctrlBackspace | .backspace | .enter | .other => []

/-- What an action adds to it. -/
def added (w : Window) : Action → Draft
  | .key k => typedBy k
  | .paste text => if isShort text then text.toList.map .typed else [.chip w.pastes.length text]

/-- The draft loses what it is shortened by, and has added to it what is added. -/
def act (s : Composing) (a : Action) : Composing :=
  let window := s.window.act a
  let add := added s.window a
  { window
    draft := s.draft.keep (window.steer.length - add.shown.length) ++ add
    sent := s.sent ++
      if window.requests.length = s.window.requests.length then []
      else [⟨s.draft, s.window.pastes, expandPastes s.window.pastes (trimmed s.window.steer)⟩] }

def reached (actions : List Action) : Composing := actions.foldl act blank

theorem reached_concat (actions : List Action) (a : Action) :
    reached (actions ++ [a]) = (reached actions).act a := by
  simp [reached]

/-- A deletion that takes a paste off the list leaves no chip of it in the draft. -/
def KeepsPastes (s : Composing) : Prop :=
  s.window.selectAll = false → ∀ dropped ∈ s.window.trailingPaste,
    dropped.1 + 1 = s.window.pastes.length →
      ∀ p ∈ s.draft.keep (s.window.steer.length - dropped.2.length), p.number ≠ some dropped.1

instance (s : Composing) : Decidable s.KeepsPastes :=
  inferInstanceAs (Decidable (s.window.selectAll = false → ∀ dropped ∈ s.window.trailingPaste,
    dropped.1 + 1 = s.window.pastes.length →
      ∀ p ∈ s.draft.keep (s.window.steer.length - dropped.2.length), p.number ≠ some dropped.1))

/-- An action that keeps the pastes of the chips that stay, and expands no marker that a paste put in
before had a part in. -/
def Clean (s : Composing) : Action → Prop
  | .key .backspace => s.KeepsPastes
  | .key .ctrlBackspace => s.KeepsPastes
  | .key .enter => Mark.AllFoundAsIs (marks s.window.pastes) (Mark.asIs (trimmed s.window.steer))
  | _ => True

instance (s : Composing) : (a : Action) → Decidable (Clean s a)
  | .key .backspace => inferInstanceAs (Decidable s.KeepsPastes)
  | .key .ctrlBackspace => inferInstanceAs (Decidable s.KeepsPastes)
  | .key .enter => inferInstanceAs (Decidable (Mark.AllFoundAsIs (marks s.window.pastes) _))
  | .key (.char _) | .key .ctrlA | .key .ctrlC | .key .shiftEnter | .key .other | .paste _ => isTrue trivial

end Composing

/-! ## The markers -/

theorem not_mem_toDigits {n : Nat} {c : Char} (hc : c.isDigit = false) : c ∉ Nat.toDigits 10 n := fun hmem => by
  rw [Nat.isDigit_of_mem_toDigits (by decide) (by decide) hmem] at hc
  cases hc

/-- A marker is bracketed, and gives the number of its paste first. -/
theorem toList_pasteMarker (i : Nat) (body : String) :
    ∃ inner, (pasteMarker i body).toList = '[' :: (inner ++ [']']) ∧ '[' ∉ inner ∧ ']' ∉ inner ∧
      ∃ rest, inner = "Pasted #".toList ++ (Nat.toDigits 10 (i + 1) ++ ' ' :: rest) := by
  have hinner (size : Nat) (unit : List Char) (hopen : '[' ∉ unit) (hclose : ']' ∉ unit) :
      let inner := "Pasted #".toList ++ (Nat.toDigits 10 (i + 1) ++ ' ' :: '+' :: (Nat.toDigits 10 size ++ unit))
      '[' ∉ inner ∧ ']' ∉ inner ∧
        ∃ rest, inner = "Pasted #".toList ++ (Nat.toDigits 10 (i + 1) ++ ' ' :: rest) := by
    refine ⟨?_, ?_, _, rfl⟩
    · simp [hopen, not_mem_toDigits]
    · simp [hclose, not_mem_toDigits]
  unfold pasteMarker
  dsimp only
  split
  · have hunit := hinner (Text.lines body).length " lines".toList (by decide) (by decide)
    exact ⟨_, by simp, hunit⟩
  · have hunit := hinner body.toList.length " chars".toList (by decide) (by decide)
    exact ⟨_, by simp, hunit⟩

theorem number_of_marker {i j : Nat} {body body' : String} (h : pasteMarker i body = pasteMarker j body') :
    i = j := by
  obtain ⟨inner, hmarker, -, -, rest, rfl⟩ := toList_pasteMarker i body
  obtain ⟨inner', hmarker', -, -, rest', rfl⟩ := toList_pasteMarker j body'
  have hsame : Nat.toDigits 10 (i + 1) ++ ' ' :: (rest ++ [']']) =
      Nat.toDigits 10 (j + 1) ++ ' ' :: (rest' ++ [']']) := by
    rw [h, hmarker'] at hmarker
    simpa using hmarker.symm
  have hdigits (n : Nat) (l : List Char) :
      (Nat.toDigits 10 n ++ ' ' :: l).takeWhile Char.isDigit = Nat.toDigits 10 n := by
    rw [List.takeWhile_append_of_pos fun c hc => Nat.isDigit_of_mem_toDigits (by decide) (by decide) hc,
      List.takeWhile_cons_of_neg (by decide), List.append_nil]
  have htaken := congrArg (List.takeWhile Char.isDigit) hsame
  rw [hdigits, hdigits] at htaken
  have hnumber := Text.toDigits_injective htaken
  omega

theorem mem_marks {pastes : List String} {m : Mark Char} :
    m ∈ marks pastes ↔ ∃ i body, pastes[i]? = some body ∧ m = ⟨(pasteMarker i body).toList, body.toList⟩ := by
  unfold marks
  rw [List.mem_map]
  constructor
  · rintro ⟨⟨body, i⟩, hmem, rfl⟩
    exact ⟨i, body, List.mem_zipIdx_iff_getElem?.mp hmem, rfl⟩
  · rintro ⟨i, body, hget, rfl⟩
    exact ⟨(body, i), List.mem_zipIdx_iff_getElem?.mpr hget, rfl⟩

theorem nodup_map_zipIdx {α β : Type*} {f : α × Nat → β} (hf : ∀ a b, f a = f b → a.2 = b.2) (l : List α) :
    (l.zipIdx.map f).Nodup := by
  have hnodup : l.zipIdx.Nodup := by
    refine List.Nodup.of_map Prod.snd ?_
    rw [List.zipIdx_map_snd]
    exact List.nodup_range'
  refine List.Nodup.map_on (fun a ha b hb hsame => ?_) hnodup
  have hplace := hf a b hsame
  have hfirst := (List.mem_zipIdx_iff_getElem?.mp ha).symm.trans
    (hplace ▸ List.mem_zipIdx_iff_getElem?.mp hb)
  exact Prod.ext (Option.some.inj hfirst) hplace

theorem signs_marks (pastes : List String) :
    (marks pastes).map Mark.sign = pastes.zipIdx.map fun p => (pasteMarker p.2 p.1).toList := by
  rw [marks, List.map_map]
  rfl

theorem bracketed_marks {pastes : List String} (h : ∀ body ∈ pastes, body ≠ "") :
    Mark.Bracketed (marks pastes) '[' ']' where
  shape m hm := by
    obtain ⟨i, body, -, rfl⟩ := mem_marks.mp hm
    obtain ⟨inner, hmarker, hopen, hclose, -⟩ := toList_pasteMarker i body
    exact ⟨inner, hmarker, hopen, hclose⟩
  apart := by decide
  bodies m hm := by
    obtain ⟨i, body, hget, rfl⟩ := mem_marks.mp hm
    have hne := h body (List.mem_of_getElem? hget)
    simpa using hne
  distinct := by
    rw [signs_marks]
    exact nodup_map_zipIdx (fun a b hsame => number_of_marker (String.toList_inj.mp hsame)) pastes

theorem replaceFrom_eq_putFrom (pat new : List Char) (n : Nat) (s : List Char) :
    Text.replaceFrom pat new n s = Mark.putFrom id pat new n s := by
  induction s generalizing n with
  | nil => cases n <;> rfl
  | cons c rest ih =>
    cases n with
    | succ n => exact ih n
    | zero => rw [Text.replaceFrom, Mark.putFrom, List.map_id, ih, ih]

theorem expandPastes_eq_inTurn (pastes : List String) (s : List Char) :
    expandPastes pastes s = Mark.inTurn (marks pastes) s := by
  rw [expandPastes, Mark.inTurn, marks, List.foldl_map]
  refine congrArg (fun f => List.foldl f s pastes.zipIdx) (funext fun out => funext fun p => ?_)
  exact replaceFrom_eq_putFrom _ _ 0 out

/-! ## The draft and the field -/

namespace Draft

theorem shown_cons (p : Piece) (d : Draft) : shown (p :: d) = p.shown ++ d.shown := by
  rw [shown, List.flatMap_cons, shown]

theorem shown_append (d e : Draft) : shown (d ++ e) = d.shown ++ e.shown := by
  rw [shown, List.flatMap_append, shown, shown]

@[simp] theorem shown_map_typed (cs : List Char) : shown (cs.map .typed) = cs := by
  simp [shown, List.flatMap_map, Piece.shown]

theorem shown_keep (n : Nat) (d : Draft) : (d.keep n).shown = d.shown.take n := by
  induction d generalizing n with
  | nil => cases n <;> rfl
  | cons p rest ih =>
    rw [keep, shown_cons, List.take_append]
    split
    · rename_i hwhole
      rw [shown_cons, ih, List.take_of_length_le hwhole]
    · rename_i hcut
      rw [shown_map_typed, Nat.sub_eq_zero_of_le (by omega), List.take_zero, List.append_nil]

theorem chip_of_mem_keep {n i : Nat} {body : String} {d : Draft} (h : .chip i body ∈ d.keep n) :
    .chip i body ∈ d := by
  induction d generalizing n with
  | nil => cases n <;> cases h
  | cons p rest ih =>
    rw [keep] at h
    split at h
    · rcases List.mem_cons.mp h with rfl | hrest
      · exact List.mem_cons_self
      · exact List.mem_cons_of_mem _ (ih hrest)
    · obtain ⟨c, -, hc⟩ := List.mem_map.mp h
      cases hc

theorem shown_dropWhile (d : Draft) :
    shown (d.dropWhile Piece.isBlank) = d.shown.dropWhile Text.isWhitespace := by
  induction d with
  | nil => rfl
  | cons p rest ih =>
    cases p with
    | typed c =>
      rw [shown_cons, List.dropWhile_cons, Piece.shown, List.singleton_append, List.dropWhile_cons, Piece.isBlank]
      split
      · exact ih
      · rw [shown_cons]
        rfl
    | chip i body =>
      obtain ⟨inner, hmarker, -⟩ := toList_pasteMarker i body
      rw [shown_cons, List.dropWhile_cons_of_neg (by simp [Piece.isBlank]), shown_cons, Piece.shown, hmarker,
        List.cons_append, List.dropWhile_cons_of_neg (by decide)]

theorem shown_rdropWhile (d : Draft) :
    shown (d.rdropWhile Piece.isBlank) = d.shown.rdropWhile Text.isWhitespace := by
  induction d using List.reverseRecOn with
  | nil => rfl
  | append_singleton rest p ih =>
    cases p with
    | typed c =>
      have htyped : shown [Piece.typed c] = [c] := rfl
      rw [shown_append, htyped, List.rdropWhile_concat, List.rdropWhile_concat, Piece.isBlank]
      split
      · exact ih
      · rw [shown_append, htyped]
    | chip i body =>
      obtain ⟨inner, hmarker, -⟩ := toList_pasteMarker i body
      have hchip : shown [Piece.chip i body] = ('[' :: inner) ++ [']'] := by
        rw [shown_cons, Piece.shown, hmarker]
        simp [shown]
      rw [List.rdropWhile_concat_neg _ _ _ (by simp [Piece.isBlank]), shown_append, hchip, ← List.append_assoc,
        List.rdropWhile_concat_neg _ _ _ (by decide)]

/-- The field is trimmed as its draft is. -/
theorem trimmed_shown (d : Draft) : trimmed d.shown = d.trim.shown := by
  rw [trim, shown_rdropWhile, shown_dropWhile]
  simp [trimmed, Text.trim, List.rdropWhile]

theorem chip_of_mem_trim {i : Nat} {body : String} {d : Draft} (h : .chip i body ∈ d.trim) : .chip i body ∈ d :=
  (List.dropWhile_sublist _).subset ((List.rdropWhile_prefix _ _).subset h)

theorem sentFrom_eq_atOnce {pastes : List String} (hpastes : ∀ body ∈ pastes, body ≠ "") {d : Draft}
    (h : d.Of pastes) (run : List Char) : d.sentFrom pastes run = Mark.atOnce (marks pastes) (run ++ d.shown) := by
  induction d generalizing run with
  | nil => rw [sentFrom, shown, List.flatMap_nil, List.append_nil]
  | cons p rest ih =>
    have hrest : Of pastes rest := fun i body hmem => h i body (List.mem_cons_of_mem _ hmem)
    cases p with
    | typed c => rw [sentFrom, ih hrest, shown_cons, Piece.shown, List.append_assoc]
    | chip i body =>
      have hmark := mem_marks.mpr ⟨i, body, h i body List.mem_cons_self, rfl⟩
      have hchip := (bracketed_marks hpastes).atOnce_append_sign hmark run (shown rest)
      rw [sentFrom, ih hrest, List.nil_append, shown_cons, Piece.shown]
      exact hchip.symm

end Draft

theorem trailingPaste_some {w : Window} {i : Nat} {marker : List Char}
    (h : w.trailingPaste = some (i, marker)) : i < w.pastes.length := by
  obtain ⟨⟨body, j⟩, hmem, hfound⟩ := List.exists_of_findSome?_eq_some h
  rw [List.mem_reverse] at hmem
  have hget := List.mem_zipIdx_iff_getElem?.mp hmem
  dsimp only at hfound
  split at hfound
  · obtain ⟨rfl, -⟩ := Prod.mk.inj (Option.some.inj hfound)
    exact (List.getElem?_eq_some_iff.mp hget).1
  · cases hfound

namespace Composing

/-- An action leaves the beginning of what is in the field, and what it adds. -/
theorem steer_act (w : Window) (a : Action) :
    ∃ kept, kept <+: w.steer ∧ (w.act a).steer = kept ++ Draft.shown (added w a) := by
  have hnone : Draft.shown [] = [] := rfl
  have hstay : ∃ kept, kept <+: w.steer ∧ w.steer = kept ++ Draft.shown [] :=
    ⟨w.steer, List.prefix_refl _, by rw [hnone, List.append_nil]⟩
  have hclear : ∃ kept, kept <+: w.steer ∧ [] = kept ++ Draft.shown [] := ⟨[], List.nil_prefix, rfl⟩
  have hdelete {kept : List Char} (h : kept <+: w.steer) :
      ∃ k, k <+: w.steer ∧ (if w.selectAll then w.cleared else
        match w.trailingPaste with
        | some (i, marker) => w.dropChip i marker
        | none => { w with steer := kept }).steer = k ++ Draft.shown [] := by
    split
    · exact hclear
    · split
      · exact ⟨_, List.take_prefix _ _, by rw [hnone, List.append_nil, Window.dropChip]⟩
      · exact ⟨kept, h, by rw [hnone, List.append_nil]⟩
  cases a with
  | key k =>
    cases k with
    | char c =>
      simp only [Window.act, Window.onKey]
      split
      · exact ⟨[], List.nil_prefix, rfl⟩
      · exact ⟨w.steer, List.prefix_refl _, rfl⟩
    | ctrlA => exact hstay
    | ctrlC => exact hstay
    | ctrlBackspace => exact hdelete ((List.rdropWhile_prefix _ _).trans (List.rdropWhile_prefix _ _))
    | backspace => exact hdelete (List.dropLast_prefix _)
    | shiftEnter => exact ⟨w.steer, List.prefix_refl _, rfl⟩
    | enter => exact hclear
    | other => exact hstay
  | paste text =>
    simp only [Window.act, Window.paste, added]
    split
    · exact ⟨w.steer, List.prefix_refl _, by rw [Draft.shown_map_typed]⟩
    · refine ⟨w.steer, List.prefix_refl _, ?_⟩
      rw [Draft.shown_cons, Piece.shown]
      simp [Draft.shown]

/-- The draft is what is in the field, and its chips hold pastes of the list, none of them empty. -/
structure Valid (s : Composing) : Prop where
  shown : s.draft.shown = s.window.steer
  chips : s.draft.Of s.window.pastes
  pastes : ∀ body ∈ s.window.pastes, body ≠ ""

theorem keep_zero (d : Draft) : d.keep 0 = [] := by
  cases d with
  | nil => rfl
  | cons p rest =>
    have hsome : p.shown.length ≠ 0 := by
      cases p with
      | typed c => simp [Piece.shown]
      | chip i body =>
        obtain ⟨inner, hmarker, -⟩ := toList_pasteMarker i body
        simp [Piece.shown, hmarker]
    rw [Draft.keep, if_neg (by omega), List.take_zero, List.map_nil]

variable {s : Composing}

/-- What an action adds to the draft is not in the list of pastes already. -/
theorem of_added (w : Window) (a : Action) : Draft.Of (w.act a).pastes (added w a) := by
  intro i body hmem
  cases a with
  | key k => cases k <;> simp [added, typedBy] at hmem
  | paste text =>
    simp only [added, Window.act, Window.paste] at hmem ⊢
    split at hmem
    · simp at hmem
    · rename_i hlong
      obtain ⟨rfl, rfl⟩ := Piece.chip.inj (List.mem_singleton.mp hmem)
      rw [if_neg hlong]
      exact List.getElem?_concat_length

/-- The chips that a clean action leaves keep their pastes. -/
theorem of_kept (h : s.draft.Of s.window.pastes) {a : Action} (hclean : Clean s a) :
    Draft.Of (s.window.act a).pastes
      (s.draft.keep ((s.window.act a).steer.length - (Draft.shown (added s.window a)).length)) := by
  have hsame {n : Nat} : Draft.Of s.window.pastes (s.draft.keep n) := fun i body hmem =>
    h i body (Draft.chip_of_mem_keep hmem)
  have hnone {pastes : List String} : Draft.Of pastes (s.draft.keep 0) := by
    rw [keep_zero]
    exact fun i body hmem => absurd hmem List.not_mem_nil
  have hdrop {i : Nat} {marker : List Char} (hfound : s.window.trailingPaste = some (i, marker))
      (hgone : i + 1 = s.window.pastes.length →
        ∀ p ∈ s.draft.keep (s.window.steer.length - marker.length), p.number ≠ some i) :
      Draft.Of (s.window.dropChip i marker).pastes
        (s.draft.keep (s.window.steer.length - marker.length)) := by
    intro j body hmem
    have hget := hsame j body hmem
    rw [Window.dropChip]
    split
    · rename_i hlast
      have hother : j ≠ i := fun heq => hgone hlast _ hmem (by rw [Piece.number, heq])
      have hbound := (List.getElem?_eq_some_iff.mp hget).1
      rw [List.getElem?_dropLast, if_pos (by omega), hget]
    · exact hget
  have hdelete {left : List Char} (hgone : s.KeepsPastes) :
      let w := if s.window.selectAll then s.window.cleared else
        match s.window.trailingPaste with
        | some (i, marker) => s.window.dropChip i marker
        | none => { s.window with steer := left }
      Draft.Of w.pastes (s.draft.keep (w.steer.length - (Draft.shown []).length)) := by
    dsimp only
    split
    · exact hnone
    · rename_i hselect
      split
      · rename_i i marker hfound
        have hlength : (s.window.dropChip i marker).steer.length - (Draft.shown []).length =
            s.window.steer.length - marker.length := by
          simp [Window.dropChip, Draft.shown]
        rw [hlength]
        exact hdrop hfound (hgone (Bool.eq_false_iff.mpr hselect) _ hfound)
      · exact hsame
  cases a with
  | key k =>
    cases k with
    | char c =>
      simp only [Window.act, Window.onKey]
      split
      · exact hnone
      · exact hsame
    | ctrlA => exact hsame
    | ctrlC => exact hsame
    | ctrlBackspace => exact hdelete hclean
    | backspace => exact hdelete hclean
    | shiftEnter => exact hsame
    | enter => exact hnone
    | other => exact hsame
  | paste text =>
    simp only [Window.act, Window.paste]
    split
    · exact hsame
    · intro i body hmem
      have hget := hsame i body hmem
      rw [List.getElem?_append_left (List.getElem?_eq_some_iff.mp hget).1, hget]

theorem pastes_act (h : ∀ body ∈ s.window.pastes, body ≠ "") (a : Action) :
    ∀ body ∈ (s.window.act a).pastes, body ≠ "" := by
  intro body hbody
  have hdelete {left : List Char}
      (hmem : body ∈ (if s.window.selectAll then s.window.cleared else
        match s.window.trailingPaste with
        | some (i, marker) => s.window.dropChip i marker
        | none => { s.window with steer := left }).pastes) : body ≠ "" := by
    split at hmem
    · cases hmem
    · split at hmem
      · rw [Window.dropChip] at hmem
        split at hmem
        · exact h body ((List.dropLast_subset _) hmem)
        · exact h body hmem
      · exact h body hmem
  cases a with
  | key k =>
    cases k with
    | char c =>
      simp only [Window.act, Window.onKey] at hbody
      split at hbody
      · cases hbody
      · exact h body hbody
    | ctrlA => exact h body hbody
    | ctrlC => exact h body hbody
    | ctrlBackspace => exact hdelete hbody
    | backspace => exact hdelete hbody
    | shiftEnter => exact h body hbody
    | enter => cases hbody
    | other => exact h body hbody
  | paste text =>
    simp only [Window.act, Window.paste] at hbody
    split at hbody
    · exact h body hbody
    · rename_i hlong
      rcases List.mem_append.mp hbody with hmem | hnew
      · exact h body hmem
      · rintro rfl
        refine hlong ?_
        rw [← List.mem_singleton.mp hnew]
        decide

theorem Valid.act (h : s.Valid) {a : Action} (hclean : Clean s a) : (s.act a).Valid where
  shown := by
    obtain ⟨kept, hkept, hsteer⟩ := steer_act s.window a
    rw [Composing.act, Draft.shown_append, Draft.shown_keep, h.shown, hsteer, List.length_append,
      Nat.add_sub_cancel, ← List.prefix_iff_eq_take.mp hkept]
  chips i body hmem := by
    rcases List.mem_append.mp hmem with hkept | hadded
    · exact of_kept h.chips hclean i body hkept
    · exact of_added s.window a i body hadded
  pastes := pastes_act h.pastes a

theorem requests_act (w : Window) {a : Action} (h : a ≠ .key .enter) : (w.act a).requests = w.requests := by
  have hdelete (left : List Char) :
      (if w.selectAll then w.cleared else
        match w.trailingPaste with
        | some (i, marker) => w.dropChip i marker
        | none => { w with steer := left }).requests = w.requests := by
    split
    · rfl
    · split <;> rfl
  cases a with
  | key k =>
    cases k with
    | char c =>
      simp only [Window.act, Window.onKey]
      split <;> rfl
    | ctrlBackspace => exact hdelete _
    | backspace => exact hdelete _
    | enter => exact absurd rfl h
    | _ => rfl
  | paste text =>
    simp only [Window.act, Window.paste]
    split <;> rfl

theorem sent_act (h : s.Valid) {a : Action} (hclean : Clean s a) (hsent : ∀ x ∈ s.sent, x.AsPasted) :
    ∀ x ∈ (s.act a).sent, x.AsPasted := by
  intro x hx
  rcases List.mem_append.mp hx with hbefore | hnow
  · exact hsent x hbefore
  · split at hnow
    · cases hnow
    · rename_i hasked
      obtain rfl := List.mem_singleton.mp hnow
      refine ⟨h.chips, ?_⟩
      have henter : a = .key .enter := by
        by_contra hne
        exact hasked (congrArg List.length (requests_act s.window hne))
      have hfound : Mark.AllFoundAsIs (marks s.window.pastes) (Mark.asIs (trimmed s.window.steer)) := by
        rw [henter] at hclean
        exact hclean
      have htrim : s.draft.trim.Of s.window.pastes := fun i body hmem =>
        h.chips i body (Draft.chip_of_mem_trim hmem)
      calc expandPastes s.window.pastes (trimmed s.window.steer)
        _ = Mark.inTurn (marks s.window.pastes) (trimmed s.window.steer) := expandPastes_eq_inTurn _ _
        _ = Mark.atOnce (marks s.window.pastes) (trimmed s.window.steer) :=
          Mark.inTurn_eq_atOnce (bracketed_marks h.pastes) hfound
        _ = Mark.atOnce (marks s.window.pastes) s.draft.trim.shown := by
          rw [← h.shown, Draft.trimmed_shown]
        _ = s.draft.trim.sentFrom s.window.pastes [] := (Draft.sentFrom_eq_atOnce h.pastes htrim []).symm

theorem asked_act (hasked : s.window.requests = s.sent.map Sent.text) (a : Action) :
    (s.act a).window.requests = (s.act a).sent.map Sent.text := by
  have hwindow : (s.act a).window = s.window.act a := rfl
  have hsent : (s.act a).sent = s.sent ++
      if (s.window.act a).requests.length = s.window.requests.length then []
      else [⟨s.draft, s.window.pastes, expandPastes s.window.pastes (trimmed s.window.steer)⟩] := rfl
  rw [hwindow, hsent, List.map_append, ← hasked]
  by_cases henter : a = .key .enter
  · subst henter
    simp only [Window.act, Window.onKey]
    split <;> simp
  · rw [requests_act s.window henter, if_pos rfl, List.map_nil, List.append_nil]

/-- The draft is only looked at. -/
theorem window_reached (actions : List Action) :
    (reached actions).window = actions.foldl Window.act blank.window := by
  induction actions using List.reverseRecOn with
  | nil => rfl
  | append_singleton rest a ih => rw [reached_concat, List.foldl_concat, ← ih, act]

theorem valid_reached {actions : List Action}
    (h : Throughout (fun before a => Clean (reached before) a) actions) :
    (reached actions).Valid ∧ ∀ x ∈ (reached actions).sent, x.AsPasted := by
  induction actions using List.reverseRecOn with
  | nil =>
    refine ⟨⟨rfl, ?_, ?_⟩, ?_⟩
    · intro i body hmem
      cases hmem
    · intro body hmem
      cases hmem
    · intro x hx
      cases hx
  | append_singleton rest a ih =>
    obtain ⟨hrest, ha⟩ := Throughout.concat_iff.mp h
    obtain ⟨hvalid, hsent⟩ := ih hrest
    rw [reached_concat]
    exact ⟨hvalid.act ha, sent_act hvalid ha hsent⟩

theorem asked_reached (actions : List Action) :
    (reached actions).window.requests = (reached actions).sent.map Sent.text := by
  induction actions using List.reverseRecOn with
  | nil => rfl
  | append_singleton rest a ih =>
    rw [reached_concat]
    exact asked_act ih a

/-- **A pasted block is sent as pasted**: after every run of clean actions, what the field asked to send
is, for each steer, its draft without the blanks around it, with the paste of each whole chip in its
place, the paste of each marker that stands among the other characters in the marker's, and the other
characters as they are. -/
theorem asked_as_pasted (actions : List Action)
    (h : Throughout (fun before a => Clean (reached before) a) actions) :
    (reached actions).window = actions.foldl Window.act blank.window ∧
      (reached actions).draft.shown = (reached actions).window.steer ∧
      (reached actions).window.requests = (reached actions).sent.map Sent.text ∧
      ∀ x ∈ (reached actions).sent, x.AsPasted := by
  obtain ⟨hvalid, hsent⟩ := valid_reached h
  exact ⟨window_reached actions, hvalid.shown, asked_reached actions, hsent⟩

theorem asked_as_pasted_once :
    let actions := [.paste "a\nb\nc", .paste "d\ne\nf", .key .backspace, .key (.char '!'), .key .enter]
    ((reached actions).window = actions.foldl Window.act blank.window ∧
      (reached actions).draft.shown = (reached actions).window.steer ∧
      (reached actions).window.requests = (reached actions).sent.map Sent.text ∧
      ∀ x ∈ (reached actions).sent, x.AsPasted) ∧
      (reached actions).window.requests = ["a\nb\nc!".toList] :=
  ⟨asked_as_pasted _ ((((((Throughout.nil : Throughout _ []).concat trivial).concat trivial).concat
    (by decide +kernel)).concat trivial).concat (by decide +kernel)), by decide +kernel⟩

/-- Blanks around a draft are not sent, and the marker of a paste that was typed is sent as the paste. -/
theorem typed_changed :
    (∃ x ∈ (reached [.key (.char ' '), .key (.char 'a'), .key .enter]).sent, x.text ≠ x.draft.meant) ∧
      ∃ x ∈ (reached (.paste "a\nb\nc" :: "[Pasted #1 +3 lines]".toList.map (fun c => .key (.char c)) ++
        [.key .enter])).sent, x.text ≠ x.draft.trim.meant := by
  decide +kernel

end Composing

end MarloweAgent.Surface
