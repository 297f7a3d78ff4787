import Mathlib.Data.List.Basic

/-! Reading from a connection: what arrives is items and failed reads, in any order. A
read that fails has taken everything before the failure with it, and past the last
arrival every read finds the end. -/

namespace MarloweAgent.Library

inductive Arrival (α ε : Type)
  | item (a : α)
  | failure (e : ε)
  deriving DecidableEq, Repr

namespace Arrival

variable {α ε : Type}

/-- Read up to and with the first item that `p` picks, or to the end. -/
def readThrough (p : α → Bool) : List (Arrival α ε) → Except ε (List α) × List (Arrival α ε)
  | [] => (.ok [], [])
  | .failure e :: rest => (.error e, rest)
  | .item a :: rest =>
    if p a then (.ok [a], rest)
    else
      let (items, rest) := readThrough p rest
      (items.map (a :: ·), rest)

/-- Read so many items; an early end is the error `short`. -/
def readExact (short : ε) : Nat → List (Arrival α ε) → Except ε (List α × List (Arrival α ε))
  | 0, arrivals => .ok ([], arrivals)
  | _ + 1, [] => .error short
  | _ + 1, .failure e :: _ => .error e
  | n + 1, .item a :: rest => (readExact short n rest).map fun (items, rest) => (a :: items, rest)

/-- The first items there are, so many at most. -/
def takeItems : Nat → List (Arrival α ε) → List α × List (Arrival α ε)
  | n + 1, .item a :: rest =>
    let (items, rest) := takeItems n rest
    (a :: items, rest)
  | _, arrivals => ([], arrivals)

/-- Read what is there, which is something unless nothing comes: at most so many items. -/
def readSome (want ready : Nat) : List (Arrival α ε) → Except ε (List α) × List (Arrival α ε)
  | .failure e :: rest => (.error e, rest)
  | arrivals =>
    let (items, rest) := takeItems (min want (max ready 1)) arrivals
    (.ok items, rest)

/-- Read to the end, or so many items where there are more. -/
def readToEnd : Nat → List (Arrival α ε) → Except ε (List α)
  | 0, _ => .ok []
  | _ + 1, [] => .ok []
  | _ + 1, .failure e :: _ => .error e
  | n + 1, .item a :: rest => (readToEnd n rest).map (a :: ·)

theorem length_readThrough_le (p : α → Bool) (arrivals : List (Arrival α ε)) :
    (readThrough p arrivals).2.length ≤ arrivals.length := by
  fun_induction readThrough p arrivals with
  | case1 => simp
  | case2 e rest => simp
  | case3 a rest hp => simp
  | case4 a rest hp items left hread ih =>
    simp only [hread] at ih
    simp only [List.length_cons]
    omega

/-- What there is to read from gets shorter. -/
theorem length_readThrough_lt (p : α → Bool) {arrivals : List (Arrival α ε)} (h : arrivals ≠ []) :
    (readThrough p arrivals).2.length < arrivals.length := by
  cases arrivals with
  | nil => exact absurd rfl h
  | cons first rest =>
    cases first with
    | failure e => simp [readThrough]
    | item a =>
      have hrest := length_readThrough_le p rest
      unfold readThrough
      split
      · simp
      · show (readThrough p rest).2.length < rest.length + 1
        omega

/-- Where nothing fails, a line with its end is read up to its end. -/
theorem readThrough_line {p : α → Bool} {l rest : List α} {a : α} (hl : ∀ b ∈ l, p b = false)
    (ha : p a = true) : readThrough p ((l ++ a :: rest).map (item : α → Arrival α ε)) =
      (.ok (l ++ [a]), rest.map item) := by
  induction l with
  | nil => simp [readThrough, ha]
  | cons b l ih =>
    obtain ⟨hb, hl⟩ := List.forall_mem_cons.mp hl
    rw [List.cons_append, List.map_cons, readThrough, ih hl, hb]
    rfl

theorem readThrough_last {p : α → Bool} {l : List α} (hl : ∀ b ∈ l, p b = false) :
    readThrough p (l.map (item : α → Arrival α ε)) = (.ok l, []) := by
  induction l with
  | nil => rfl
  | cons b l ih =>
    obtain ⟨hb, hl⟩ := List.forall_mem_cons.mp hl
    simp [readThrough, hb, ih hl, Except.map]

theorem length_readExact {short : ε} {n : Nat} {arrivals rest : List (Arrival α ε)} {items : List α}
    (h : readExact short n arrivals = .ok (items, rest)) :
    items.length = n ∧ arrivals.length = n + rest.length := by
  induction n generalizing arrivals items rest with
  | zero =>
    cases h
    simp
  | succ n ih =>
    cases arrivals with
    | nil => cases h
    | cons first more =>
      cases first with
      | failure e => cases h
      | item a =>
        cases hread : readExact short n more with
        | error e => simp [readExact, hread, Except.map] at h
        | ok parts =>
          obtain ⟨taken, left⟩ := parts
          obtain ⟨htaken, hleft⟩ := ih hread
          simp only [readExact, hread, Except.map, Except.ok.injEq, Prod.mk.injEq] at h
          obtain ⟨rfl, rfl⟩ := h
          simp only [List.length_cons]
          omega

end Arrival

end MarloweAgent.Library

/-! ## Draining

A reader that is called until it says that it is done. Each call brings a buffer; the
items it gives are the next ones, and none for a buffer with room is the end. What a reader
owes is what all its calls together give, and how they end. -/

namespace MarloweAgent.Library

/-- One call of a reader: the room in the buffer, and how much is there to be read. -/
structure Call where
  room : Nat
  ready : Nat
  deriving DecidableEq, Repr

inductive Outcome (ε : Type)
  | pending
  | ended
  | failed (e : ε)
  deriving DecidableEq, Repr

variable {σ α ε : Type} {read : Call → σ → Except ε (List α) × σ}
  {owes : σ → List α → Option ε → Prop} {s : σ} {body : List α} {failure : Option ε}

/-- What the calls give, up to the one that gives nothing or fails. -/
def drain (read : Call → σ → Except ε (List α) × σ) : List Call → σ → List α × Outcome ε
  | [], _ => ([], .pending)
  | call :: calls, s =>
    match read call s with
    | (.error e, _) => ([], .failed e)
    | (.ok [], s') => if call.room = 0 then drain read calls s' else ([], .ended)
    | (.ok items, s') =>
      let (more, outcome) := drain read calls s'
      (items ++ more, outcome)

/-- What one call may give where so much is owed, and a failure or the end behind it. -/
def Pays (owes : σ → List α → Option ε → Prop) (body : List α) (failure : Option ε) (room : Nat) :
    Except ε (List α) × σ → Prop
  | (.error e, _) => body = [] ∧ failure = some e
  | (.ok items, s') => (∃ rest, body = items ++ rest ∧ owes s' rest failure) ∧
      (items = [] → room ≠ 0 → body = [] ∧ failure = none)

/-- The calls with room in their buffer. -/
def roomy (calls : List Call) : Nat := calls.countP fun call => call.room ≠ 0

/-- What calls bring of what is owed: they end at its end, and there they do end. -/
structure Delivered (body : List α) (failure : Option ε) (calls : List Call)
    (given : List α × Outcome ε) : Prop where
  start : given.1 <+: body
  ended : given.2 = .ended → given.1 = body ∧ failure = none
  failed : ∀ e, given.2 = .failed e → given.1 = body ∧ failure = some e
  done : body.length < roomy calls → given.2 ≠ .pending

theorem drain_delivers (hread : ∀ s body failure call, owes s body failure →
      Pays owes body failure call.room (read call s)) (calls : List Call)
    (h : owes s body failure) : Delivered body failure calls (drain read calls s) := by
  induction calls generalizing s body with
  | nil => exact ⟨List.nil_prefix, by simp [drain], by simp [drain], by simp [roomy]⟩
  | cons call calls ih =>
    have hpays := hread s body failure call h
    unfold drain
    split
    next e s' hcall =>
      rw [hcall] at hpays
      obtain ⟨rfl, rfl⟩ := hpays
      exact ⟨List.nil_prefix, by simp, by simp, by simp⟩
    next s' hcall =>
      rw [hcall] at hpays
      obtain ⟨⟨rest, rfl, hrest⟩, hend⟩ := hpays
      split
      next hroom =>
        have hlater := ih hrest
        refine ⟨hlater.start, hlater.ended, hlater.failed, fun hmany => hlater.done ?_⟩
        simpa [roomy, hroom] using hmany
      next hroom =>
        obtain ⟨hbody, rfl⟩ := hend rfl hroom
        exact ⟨List.nil_prefix, fun _ => ⟨hbody.symm, rfl⟩, by simp, by simp⟩
    next items s' hne hcall =>
      rw [hcall] at hpays
      obtain ⟨⟨rest, rfl, hrest⟩, -⟩ := hpays
      have hlater := ih hrest
      refine ⟨(List.prefix_append_right_inj items).mpr hlater.start, fun hended => ?_,
        fun e hfailed => ?_, fun hmany => hlater.done ?_⟩
      · exact (hlater.ended hended).imp_left (congrArg (items ++ ·))
      · exact (hlater.failed e hfailed).imp_left (congrArg (items ++ ·))
      · have hsome : 0 < items.length := List.length_pos_iff.mpr hne
        have hcount : roomy (call :: calls) ≤ roomy calls + 1 := by
          rw [roomy, roomy, List.countP_cons]
          split <;> omega
        rw [List.length_append] at hmany
        omega

end MarloweAgent.Library
