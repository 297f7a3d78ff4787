import Mathlib.Algebra.Ring.Nat
import Mathlib.Data.List.Basic

/-! Requests on the wire: the lines of a stream, and the requests without bodies that it
holds, read line by line. Nothing but a carriage return and a line feed together ends a
line, and no line of a request holds a control character. -/

namespace MarloweAgent.Library.Http

/-- A character before the first line. -/
def intoFirst (c : Char) : List (List Char) → List (List Char)
  | [] => [[c]]
  | line :: more => (c :: line) :: more

/-- The lines of a stream. What follows the last line end is the last of them. -/
def lines : List Char → List (List Char)
  | [] => [[]]
  | '\r' :: '\n' :: rest => [] :: lines rest
  | c :: rest => intoFirst c (lines rest)

/-- Lines, each with its end. -/
def write (ls : List (List Char)) : List Char := ls.flatMap (· ++ ['\r', '\n'])

/-- A character of a method or of a field's name. -/
def isTokenChar (c : Char) : Bool := c.isAlphanum || c ∈ "!#$%&'*+-.^_`|~".toList

/-- A character of a request's target: neither a blank nor a control character. -/
def isTargetChar (c : Char) : Bool := 0x20 < c.toNat && c.toNat ≠ 0x7F

/-- A character of a field's value. -/
def isFieldChar (c : Char) : Bool := c = '\t' || (0x20 ≤ c.toNat && c.toNat ≠ 0x7F)

def isBlank (c : Char) : Bool := c = ' ' || c = '\t'

structure Request where
  method : List Char
  target : List Char
  fields : List (List Char × List Char)
  deriving DecidableEq, Repr

/-- `method SP target SP HTTP/1.1`. -/
def requestLine (line : List Char) : Option (List Char × List Char) :=
  let method := line.takeWhile (· ≠ ' ')
  let rest := (line.dropWhile (· ≠ ' ')).drop 1
  let target := rest.takeWhile (· ≠ ' ')
  if method ≠ [] ∧ method.all isTokenChar ∧ target ≠ [] ∧ target.all isTargetChar ∧
      rest.dropWhile (· ≠ ' ') = " HTTP/1.1".toList then
    some (method, target)
  else none

/-- `name: value`, with the blanks around the value taken off. -/
def field (line : List Char) : Option (List Char × List Char) :=
  let name := line.takeWhile (· ≠ ':')
  let value := (((line.dropWhile (· ≠ ':')).drop 1).dropWhile isBlank).reverse.dropWhile isBlank
  if ':' ∈ line ∧ name ≠ [] ∧ name.all isTokenChar ∧ value.all isFieldChar then
    some (name, value.reverse)
  else none

/-- What has been read: the requests that are complete, and the one whose fields are coming. -/
structure Reading where
  done : List Request
  current : Option Request

/-- One more line. -/
def readLine (reading : Option Reading) (line : List Char) : Option Reading :=
  match reading with
  | none => none
  | some ⟨done, none⟩ =>
    (requestLine line).map fun (method, target) => ⟨done, some ⟨method, target, []⟩⟩
  | some ⟨done, some request⟩ =>
    if line = [] then some ⟨done ++ [request], none⟩
    else (field line).map fun f => ⟨done, some { request with fields := request.fields ++ [f] }⟩

/-- The requests of a stream, when it holds whole requests and nothing else. -/
def requests (stream : List Char) : Option (List Request) :=
  if (lines stream).getLast? = some [] then
    match (lines stream).dropLast.foldl readLine (some ⟨[], none⟩) with
    | some ⟨done, none⟩ => some done
    | _ => none
  else none

/-! ## Lines -/

theorem lines_cons {c : Char} {rest : List Char} (h : c = '\r' → rest.head? ≠ some '\n') :
    lines (c :: rest) = intoFirst c (lines rest) :=
  lines.eq_3 c rest fun rest' hc hrest => h hc (by simp [hrest])

theorem intoFirst_ne_nil (c : Char) (ls : List (List Char)) : intoFirst c ls ≠ [] := by
  cases ls <;> simp [intoFirst]

theorem lines_ne_nil (stream : List Char) : lines stream ≠ [] := by
  unfold lines
  split
  · simp
  · simp
  · exact intoFirst_ne_nil _ _

/-- A line end ends the lines before it. -/
theorem lines_append (a b : List Char) : lines (a ++ '\r' :: '\n' :: b) = lines a ++ lines b := by
  fun_induction lines a with
  | case1 => simp [lines]
  | case2 rest ih => simpa [lines] using ih
  | case3 c rest hnot ih =>
    have hcons : lines (c :: (rest ++ '\r' :: '\n' :: b)) =
        intoFirst c (lines (rest ++ '\r' :: '\n' :: b)) := by
      refine lines_cons fun hc => ?_
      cases rest with
      | nil => simp
      | cons d rest =>
        intro hd
        obtain rfl : d = '\n' := by simpa using hd
        exact hnot rest hc rfl
    rw [List.cons_append, hcons, ih]
    cases hrest : lines rest with
    | nil => exact absurd hrest (lines_ne_nil rest)
    | cons line more => rfl

/-- A stream without a carriage return is one line. -/
theorem lines_of_notMem {stream : List Char} (h : '\r' ∉ stream) : lines stream = [stream] := by
  induction stream with
  | nil => rfl
  | cons c rest ih =>
    simp only [List.mem_cons, not_or] at h
    obtain ⟨hc, hrest⟩ := h
    rw [lines_cons fun heq => absurd heq.symm hc, ih hrest]
    rfl

theorem write_cons (line : List Char) (ls : List (List Char)) :
    write (line :: ls) = line ++ '\r' :: '\n' :: write ls := by
  simp [write]

/-- Lines without a carriage return are read back. -/
theorem lines_write {ls : List (List Char)} (h : ∀ line ∈ ls, '\r' ∉ line) :
    lines (write ls) = ls ++ [[]] := by
  induction ls with
  | nil => rfl
  | cons line ls ih =>
    rw [write_cons, lines_append, lines_of_notMem (h line List.mem_cons_self),
      ih fun l hl => h l (List.mem_cons_of_mem _ hl)]
    rfl

/-- A single line is the stream. -/
theorem eq_of_lines_eq {stream line : List Char} (h : lines stream = [line]) : stream = line := by
  fun_induction lines stream generalizing line with
  | case1 => simpa using h
  | case2 rest ih =>
    have hnil := (List.cons.inj h).2
    exact absurd hnil (lines_ne_nil rest)
  | case3 c rest hnot ih =>
    cases hrest : lines rest with
    | nil => exact absurd hrest (lines_ne_nil rest)
    | cons first more =>
      rw [hrest] at h
      obtain ⟨hfirst, rfl⟩ := List.cons.inj h
      rw [ih hrest, hfirst]

/-! ## Reading -/

theorem readLine_field {done : List Request} {request : Request} {line : List Char}
    {f : List Char × List Char} (hne : line ≠ []) (hf : field line = some f) :
    readLine (some ⟨done, some request⟩) line =
      some ⟨done, some { request with fields := request.fields ++ [f] }⟩ := by
  simp [readLine, hne, hf]

/-- How many lines have been read. -/
def Reading.size (reading : Reading) : Nat :=
  (reading.done.map fun r => r.fields.length + 2).sum +
    (match reading.current with
      | none => 0
      | some request => request.fields.length + 1)

theorem foldl_readLine_none (ls : List (List Char)) : ls.foldl readLine none = none := by
  induction ls with
  | nil => rfl
  | cons line rest ih => exact ih

/-- Every line counts. -/
theorem size_readLine {reading after : Reading} {line : List Char}
    (h : readLine (some reading) line = some after) : after.size = reading.size + 1 := by
  obtain ⟨done, current⟩ := reading
  cases current with
  | none =>
    obtain ⟨start, -, rfl⟩ := Option.map_eq_some_iff.mp h
    simp [Reading.size]
  | some request =>
    simp only [readLine] at h
    split at h
    · cases h
      simp [Reading.size]
      omega
    · obtain ⟨f, -, rfl⟩ := Option.map_eq_some_iff.mp h
      simp [Reading.size]
      omega

theorem size_foldl {ls : List (List Char)} {reading after : Reading}
    (h : ls.foldl readLine (some reading) = some after) : after.size = reading.size + ls.length := by
  induction ls generalizing reading with
  | nil =>
    cases h
    rfl
  | cons line rest ih =>
    rw [List.foldl_cons] at h
    cases hline : readLine (some reading) line with
    | none =>
      rw [hline, foldl_readLine_none] at h
      cases h
    | some next =>
      rw [hline] at h
      have hnext := size_readLine hline
      have hrest := ih h
      simp only [List.length_cons]
      omega

/-- A stream of one request has a line for each field, and three more. -/
theorem length_lines_of_requests {stream : List Char} {request : Request}
    (h : requests stream = some [request]) :
    (lines stream).length = request.fields.length + 3 := by
  unfold requests at h
  split at h
  · split at h
    · rename_i done heq
      cases h
      have hsize := size_foldl heq
      have hpos := List.length_pos_iff.mpr (lines_ne_nil stream)
      simp [Reading.size] at hsize
      omega
    · cases h
  · cases h

/-- The first line of a stream of requests is a request line, if there is another. -/
theorem requestLine_of_requests {stream line : List Char} {more : List (List Char)} {done : List Request}
    (h : requests stream = some done) (hlines : lines stream = line :: more) (hmore : more ≠ []) :
    (requestLine line).isSome := by
  unfold requests at h
  split at h
  · rw [hlines, List.dropLast_cons_of_ne_nil hmore, List.foldl_cons] at h
    cases hline : requestLine line with
    | none => simp [readLine, hline, foldl_readLine_none] at h
    | some start => rfl
  · cases h

/-! ## Lines that are written -/

theorem notMem_of_all {p : Char → Bool} {c : Char} {cs : List Char} (hall : cs.all p = true)
    (hc : p c = false) : c ∉ cs := by
  intro hmem
  rw [List.all_eq_true.mp hall c hmem] at hc
  cases hc

theorem takeWhile_append_sep {cs rest : List Char} {c : Char} (h : c ∉ cs) :
    (cs ++ c :: rest).takeWhile (· ≠ c) = cs := by
  rw [List.takeWhile_append_of_pos]
  · simp
  · intro d hd
    simpa using fun heq : d = c => h (heq ▸ hd)

theorem dropWhile_append_sep {cs rest : List Char} {c : Char} (h : c ∉ cs) :
    (cs ++ c :: rest).dropWhile (· ≠ c) = c :: rest := by
  rw [List.dropWhile_append_of_pos]
  · simp
  · intro d hd
    simpa using fun heq : d = c => h (heq ▸ hd)

/-- A target with a blank in it leaves more than the version after that blank. -/
theorem version_of_blank {target : List Char} (h : ' ' ∈ target) :
    (target ++ " HTTP/1.1".toList).dropWhile (· ≠ ' ') ≠ " HTTP/1.1".toList := by
  intro heq
  obtain ⟨before, after, rfl, hnone⟩ := List.eq_append_cons_of_mem h
  rw [List.append_assoc, List.cons_append, dropWhile_append_sep hnone] at heq
  have hlength := congrArg List.length heq
  rw [List.length_cons, List.length_append] at hlength
  have hsuffix : after = [] := List.eq_nil_of_length_eq_zero (by simp at hlength)
  subst hsuffix
  exact absurd (congrArg List.length heq) (by decide)

/-- A request line is read back exactly where its target holds neither a blank nor a
control character. -/
theorem requestLine_written {method target : List Char} (hne : method ≠ [])
    (htoken : method.all isTokenChar = true) :
    requestLine (method ++ ' ' :: (target ++ " HTTP/1.1".toList)) =
      if target ≠ [] ∧ target.all isTargetChar = true then some (method, target) else none := by
  have hmethod : ' ' ∉ method := notMem_of_all htoken (by decide)
  unfold requestLine
  rw [takeWhile_append_sep hmethod, dropWhile_append_sep hmethod]
  simp only [List.drop_succ_cons, List.drop_zero]
  by_cases hblank : ' ' ∈ target
  · have hversion := version_of_blank hblank
    have htarget : ¬target.all isTargetChar = true := fun h =>
      notMem_of_all h (c := ' ') (by decide) hblank
    rw [if_neg fun h => hversion h.2.2.2.2, if_neg fun h => htarget h.2]
  · have hsep : target ++ " HTTP/1.1".toList = target ++ ' ' :: "HTTP/1.1".toList := rfl
    rw [hsep, takeWhile_append_sep hblank, dropWhile_append_sep hblank]
    simp [hne, htoken]

/-- A field with no blank in its value is read back. -/
theorem field_written {name value : List Char} (hne : name ≠ []) (htoken : name.all isTokenChar = true)
    (hvalue : value.all isTargetChar = true) :
    field (name ++ ':' :: ' ' :: value) = some (name, value) := by
  have hname : ':' ∉ name := notMem_of_all htoken (by decide)
  have hblank : ∀ c ∈ value, isBlank c = false := by
    intro c hc
    have htarget := List.all_eq_true.mp hvalue c hc
    cases hb : isBlank c with
    | false => rfl
    | true =>
      simp only [isBlank, Bool.or_eq_true, decide_eq_true_eq] at hb
      rcases hb with rfl | rfl <;> exact absurd htarget (by decide)
  have hfield : value.all isFieldChar = true := by
    rw [List.all_eq_true] at hvalue ⊢
    intro c hc
    have htarget := hvalue c hc
    simp only [isTargetChar, isFieldChar, Bool.and_eq_true, decide_eq_true_eq, Bool.or_eq_true] at htarget ⊢
    exact .inr ⟨by omega, htarget.2⟩
  have hdrop : ∀ cs : List Char, (∀ c ∈ cs, isBlank c = false) → cs.dropWhile isBlank = cs := by
    intro cs hcs
    cases cs with
    | nil => rfl
    | cons c rest => simp [hcs c List.mem_cons_self]
  have htrim : (' ' :: value).dropWhile isBlank = value := by
    rw [List.dropWhile_cons_of_pos (by decide)]
    exact hdrop value hblank
  unfold field
  rw [takeWhile_append_sep hname, dropWhile_append_sep hname]
  simp only [List.drop_succ_cons, List.drop_zero]
  rw [htrim, hdrop value.reverse fun c hc => hblank c (List.mem_reverse.mp hc)]
  rw [if_pos ⟨by simp, hne, htoken, by simpa using hfield⟩, List.reverse_reverse]

end MarloweAgent.Library.Http
