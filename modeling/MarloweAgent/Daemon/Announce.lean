import MarloweAgent.Daemon.Project
import MarloweAgent.Library.Ranked
import MarloweAgent.Library.Trace
import Mathlib.Data.List.DropRight

/-! What the daemon says about itself: a number taken without the lock, a ring that keeps the last
announcements, and a client that flushes what came after the mark of its last flush. The threads that
say something and the client run between each other's steps. -/

namespace MarloweAgent.Daemon.Announce
open Library Protocol

def capacity : Nat := 64

/-- An announcement with its number. -/
abbrev Numbered := Nat × Announcement

/-- `ISSUED` and the ring. -/
structure Log where
  issued : Nat
  ring : List Numbered
  deriving DecidableEq

namespace Log

/-- `fetch_add` and the number it gives. -/
def nextSeq (log : Log) : Nat × Log :=
  let seq := (log.issued + 1) % 2 ^ 64
  (seq, { log with issued := seq })

/-- What `say` does under the lock. -/
def pushBack (log : Log) (entry : Numbered) : Log :=
  let ring := if log.ring.length = capacity then log.ring.tail else log.ring
  { log with ring := ring ++ [entry] }

/-- What `since` does under the lock. -/
def after (log : Log) (seq : Nat) : List Numbered := log.ring.filter (seq < ·.1)

end Log

/-! ## The threads and the client -/

/-- What was in the ring at a flush, and what the flush returned. -/
structure Flush where
  retained : List Numbered
  fresh : List Numbered
  deriving DecidableEq

/-- The log with the calls of `say` that have a number and not yet the lock, in the order they took
it, and the client with the mark it began at, its own mark, and the mark a flush in progress has read. -/
structure Hall where
  log : Log
  saying : List Numbered
  pushed : List Numbered
  base : Nat
  mark : Nat
  reading : Option Nat
  flushes : List Flush
  deriving DecidableEq

inductive Step
  /-- A call of `say` takes its number. -/
  | take (a : Announcement)
  /-- One of those that have a number gets the lock. -/
  | push (i : Nat)
  /-- A client begins, at what was issued. -/
  | join
  /-- A flush reads what was issued. -/
  | read
  /-- It gets the lock, and hands over its mark. -/
  | lock
  deriving DecidableEq

namespace Hall

def start : Hall :=
  { log := ⟨0, []⟩, saying := [], pushed := [], base := 0, mark := 0, reading := none, flushes := [] }

def step (s : Hall) : Step → Hall
  | .take a =>
    let (seq, log) := s.log.nextSeq
    { s with log, saying := s.saying ++ [(seq, a)] }
  | .push i =>
    match s.saying[i]? with
    | none => s
    | some entry =>
      { s with
        log := s.log.pushBack entry
        saying := s.saying.eraseIdx i
        pushed := s.pushed ++ [entry] }
  | .join => { s with base := s.log.issued, mark := s.log.issued, reading := none, flushes := [] }
  | .read =>
    match s.reading with
    | none => { s with reading := some s.log.issued }
    | some _ => s
  | .lock =>
    match s.reading with
    | none => s
    | some now =>
      { s with
        mark := now
        reading := none
        flushes := s.flushes ++ [⟨s.log.ring, s.log.after s.mark⟩] }

def reached (steps : List Step) : Hall := steps.foldl step start

theorem reached_concat (steps : List Step) (x : Step) :
    reached (steps ++ [x]) = (reached steps).step x := by
  simp [reached]

/-- What the client has received. -/
def received (s : Hall) : List Numbered := s.flushes.flatMap Flush.fresh

end Hall

open Hall

/-- Delivered once and in order: the numbers received increase; what was issued after the client
began and is in the ring at a flush is received once; the ring holds the newest there are. -/
structure Delivers (s : Hall) : Prop where
  inOrder : s.received.Pairwise (·.1 < ·.1)
  once : ∀ f ∈ s.flushes, ∀ x ∈ f.retained, s.base < x.1 → s.received.count x = 1
  newest : s.log.ring = (ranked Prod.fst s.pushed).rtake capacity

/-- The steps that keep numbers and the ring together: the lock goes to the least number that waits for
it, and a flush gets it when no number up to the mark it has read still waits, and the ring has none
above that mark. -/
def InTurn (s : Hall) : Step → Prop
  | .take _ => s.log.issued + 1 < 2 ^ 64
  | .push i => ∀ entry ∈ s.saying[i]?, ∀ w ∈ s.saying, entry.1 ≤ w.1
  | .lock => ∀ now ∈ s.reading,
      (∀ w ∈ s.saying, s.mark < w.1 → now < w.1) ∧ ∀ x ∈ s.log.ring, x.1 ≤ now
  | .join | .read => True

instance (s : Hall) : (x : Step) → Decidable (InTurn s x)
  | .take _ => inferInstanceAs (Decidable (_ < _))
  | .push _ => inferInstanceAs (Decidable (∀ _ ∈ _, _))
  | .lock => inferInstanceAs (Decidable (∀ _ ∈ _, _))
  | .join | .read => inferInstanceAs (Decidable True)

/-! ## The ring -/

theorem ring_pushBack {log : Log} {all : List Numbered} (h : log.ring = all.rtake capacity) (x : Numbered) :
    (log.pushBack x).ring = (all ++ [x]).rtake capacity := by
  unfold Log.pushBack
  dsimp only
  rw [h, show capacity = 63 + 1 from rfl, List.rtake_concat_succ]
  congr 1
  unfold List.rtake
  rw [List.length_drop]
  by_cases hfull : 63 + 1 ≤ all.length
  · rw [if_pos (by omega), List.tail_drop]
    congr 1
    omega
  · rw [if_neg (by omega), Nat.sub_eq_zero_of_le (by omega), Nat.sub_eq_zero_of_le (by omega)]

theorem mem_of_mem_rtake {all : List Numbered} {n : Nat} {x : Numbered} (h : x ∈ all.rtake n) : x ∈ all :=
  List.mem_of_mem_drop h

/-! ## The run -/

/-- The numbers in the order of the pushes and then of those that wait, and where the client stands
among them. -/
structure Inv (s : Hall) : Prop where
  numbers : (s.pushed ++ s.saying).Pairwise (·.1 < ·.1)
  issued : ∀ x ∈ s.pushed ++ s.saying, x.1 ≤ s.log.issued
  ring : s.log.ring = s.pushed.rtake capacity
  began : s.base ≤ s.mark
  marked : s.mark ≤ s.log.issued
  reading : ∀ now, s.reading = some now → s.mark ≤ now ∧ now ≤ s.log.issued
  inOrder : s.received.Pairwise (·.1 < ·.1)
  passed : ∀ x ∈ s.received, x.1 ≤ s.mark
  got : ∀ x ∈ s.log.ring, s.base < x.1 → x.1 ≤ s.mark → x ∈ s.received
  waiting : ∀ w ∈ s.saying, s.base < w.1 → s.mark < w.1
  flushed : ∀ f ∈ s.flushes, ∀ x ∈ f.retained, s.base < x.1 → x ∈ s.received

theorem Inv.start : Inv .start := by
  constructor <;> simp [Hall.start, received]

theorem Inv.delivers {s : Hall} (h : Inv s) : Delivers s where
  inOrder := h.inOrder
  once f hf x hx hbase :=
    List.count_eq_one_of_mem (h.inOrder.imp fun hlt => (ne_of_apply_ne Prod.fst hlt.ne)) (h.flushed f hf x hx hbase)
  newest := by
    have hsorted : s.pushed.Pairwise fun a b => a.1 ≤ b.1 :=
      (List.pairwise_append.mp h.numbers).1.imp le_of_lt
    rw [ranked, hsorted.insertionSort_eq, h.ring]

/-- The first of those that wait is the least of them. -/
theorem Inv.next {s : Hall} (h : Inv s) {i : Nat} {entry : Numbered} (hi : s.saying[i]? = some entry)
    (hleast : ∀ w ∈ s.saying, entry.1 ≤ w.1) : s.saying = entry :: s.saying.eraseIdx i := by
  have hsorted := (List.pairwise_append.mp h.numbers).2.1
  cases hsaying : s.saying with
  | nil => simp [hsaying] at hi
  | cons w rest =>
    rw [hsaying] at hi hleast hsorted
    cases i with
    | zero =>
      obtain rfl := Option.some.inj hi
      rfl
    | succ i =>
      have hmem : entry ∈ rest := List.mem_of_getElem? hi
      have hlt := List.rel_of_pairwise_cons hsorted hmem
      have hle := hleast w List.mem_cons_self
      omega

theorem Inv.take {s : Hall} (h : Inv s) {a : Announcement} (hin : InTurn s (.take a)) :
    Inv (s.step (.take a)) := by
  have hseq : (s.log.issued + 1) % 2 ^ 64 = s.log.issued + 1 := Nat.mod_eq_of_lt hin
  have hstep : s.step (.take a) =
      { s with
        log := { s.log with issued := s.log.issued + 1 }
        saying := s.saying ++ [(s.log.issued + 1, a)] } := by
    simp only [step, Log.nextSeq, hseq]
  rw [hstep]
  have hbegan := h.began
  have hmarked := h.marked
  exact {
    numbers := by
      rw [← List.append_assoc]
      refine List.pairwise_append.mpr ⟨h.numbers, List.pairwise_singleton _ _, fun x hx y hy => ?_⟩
      obtain rfl := List.mem_singleton.mp hy
      exact Nat.lt_succ_of_le (h.issued x hx)
    issued := fun x hx => by
      rw [← List.append_assoc] at hx
      rcases List.mem_append.mp hx with hx | hx
      · exact Nat.le_succ_of_le (h.issued x hx)
      · obtain rfl := List.mem_singleton.mp hx
        exact Nat.le_refl _
    ring := h.ring
    began := hbegan
    marked := Nat.le_succ_of_le hmarked
    reading := fun now hnow => ⟨(h.reading now hnow).1, Nat.le_succ_of_le (h.reading now hnow).2⟩
    inOrder := h.inOrder
    passed := h.passed
    got := h.got
    waiting := fun w hw hbase => by
      rcases List.mem_append.mp hw with hw | hw
      · exact h.waiting w hw hbase
      · obtain rfl := List.mem_singleton.mp hw
        exact Nat.lt_succ_of_le hmarked
    flushed := h.flushed }

theorem Inv.push {s : Hall} (h : Inv s) {i : Nat} (hin : InTurn s (.push i)) : Inv (s.step (.push i)) := by
  cases hi : s.saying[i]? with
  | none =>
    have hstep : s.step (.push i) = s := by simp only [step, hi]
    rw [hstep]
    exact h
  | some entry =>
    have hstep : s.step (.push i) =
        { s with
          log := s.log.pushBack entry
          saying := s.saying.eraseIdx i
          pushed := s.pushed ++ [entry] } := by
      simp only [step, hi]
    have hnext := h.next hi (hin entry hi)
    have hsame : s.pushed ++ [entry] ++ s.saying.eraseIdx i = s.pushed ++ s.saying := by
      rw [List.append_assoc, List.singleton_append, ← hnext]
    rw [hstep]
    exact {
      numbers := by
        rw [hsame]
        exact h.numbers
      issued := fun x hx => h.issued x (by rwa [hsame] at hx)
      ring := ring_pushBack h.ring entry
      began := h.began
      marked := h.marked
      reading := h.reading
      inOrder := h.inOrder
      passed := h.passed
      got := fun x hx hbase hmark => by
        rcases List.mem_append.mp hx with hx | hx
        · refine h.got x ?_ hbase hmark
          split at hx
          · exact List.mem_of_mem_tail hx
          · exact hx
        · obtain rfl := List.mem_singleton.mp hx
          exact absurd hmark (Nat.not_le.mpr (h.waiting x (List.mem_of_getElem? hi) hbase))
      waiting := fun w hw => h.waiting w (List.mem_of_mem_eraseIdx hw)
      flushed := h.flushed }

theorem Inv.join {s : Hall} (h : Inv s) : Inv (s.step .join) where
  numbers := h.numbers
  issued := h.issued
  ring := h.ring
  began := Nat.le_refl _
  marked := Nat.le_refl _
  reading := fun _ hnow => nomatch hnow
  inOrder := .nil
  passed := fun _ hx => nomatch hx
  got := fun _ _ hbase hmark => absurd hmark (Nat.not_le.mpr hbase)
  waiting := fun w hw hbase => absurd (h.issued w (List.mem_append_right _ hw)) (Nat.not_le.mpr hbase)
  flushed := fun _ hf => nomatch hf

theorem Inv.read {s : Hall} (h : Inv s) : Inv (s.step .read) := by
  cases hreading : s.reading with
  | some now =>
    have hstep : s.step .read = s := by simp only [step, hreading]
    rw [hstep]
    exact h
  | none =>
    have hstep : s.step .read = { s with reading := some s.log.issued } := by simp only [step, hreading]
    rw [hstep]
    exact { h with
      reading := fun now hnow => by
        obtain rfl := Option.some.inj hnow
        exact ⟨h.marked, Nat.le_refl _⟩ }

theorem Inv.lock {s : Hall} (h : Inv s) (hin : InTurn s .lock) : Inv (s.step .lock) := by
  cases hreading : s.reading with
  | none =>
    have hstep : s.step .lock = s := by simp only [step, hreading]
    rw [hstep]
    exact h
  | some now =>
    have hstep : s.step .lock =
        { s with
          mark := now
          reading := none
          flushes := s.flushes ++ [⟨s.log.ring, s.log.after s.mark⟩] } := by
      simp only [step, hreading]
    rw [hstep]
    obtain ⟨hwaits, hring⟩ := hin now hreading
    obtain ⟨hmark, hissued⟩ := h.reading now hreading
    have hreceived (t : Hall) (ht : t.flushes = s.flushes ++ [⟨s.log.ring, s.log.after s.mark⟩]) :
        t.received = s.received ++ s.log.after s.mark := by
      rw [received, ht, List.flatMap_append, received, List.flatMap_singleton]
    have hfresh {x : Numbered} : x ∈ s.log.after s.mark ↔ x ∈ s.log.ring ∧ s.mark < x.1 := by
      simp [Log.after]
    have hsorted : s.log.ring.Pairwise (·.1 < ·.1) := by
      rw [h.ring]
      exact (List.pairwise_append.mp h.numbers).1.sublist (List.drop_sublist _ _)
    -- what is in the ring and up to the new mark was received before or is handed over now
    have hgot (x : Numbered) (hx : x ∈ s.log.ring) (hbase : s.base < x.1) :
        x ∈ s.received ++ s.log.after s.mark := by
      rcases Nat.lt_or_ge s.mark x.1 with hnew | hold
      · exact List.mem_append_right _ (hfresh.mpr ⟨hx, hnew⟩)
      · exact List.mem_append_left _ (h.got x hx hbase hold)
    exact {
      numbers := h.numbers
      issued := h.issued
      ring := h.ring
      began := Nat.le_trans h.began hmark
      marked := hissued
      reading := fun _ hnow => nomatch hnow
      inOrder := by
        rw [hreceived _ rfl]
        refine List.pairwise_append.mpr ⟨h.inOrder, hsorted.filter _, fun x hx y hy => ?_⟩
        exact Nat.lt_of_le_of_lt (h.passed x hx) (hfresh.mp hy).2
      passed := fun x hx => by
        rw [hreceived _ rfl] at hx
        rcases List.mem_append.mp hx with hx | hx
        · exact Nat.le_trans (h.passed x hx) hmark
        · exact hring x (hfresh.mp hx).1
      got := fun x hx hbase _ => by
        rw [hreceived _ rfl]
        exact hgot x hx hbase
      waiting := fun w hw hbase => hwaits w hw (h.waiting w hw hbase)
      flushed := fun f hf x hx hbase => by
        rw [hreceived _ rfl]
        rcases List.mem_append.mp hf with hf | hf
        · exact List.mem_append_left _ (h.flushed f hf x hx hbase)
        · obtain rfl := List.mem_singleton.mp hf
          exact hgot x hx hbase }

theorem Inv.step {s : Hall} (h : Inv s) {x : Step} (hin : InTurn s x) : Inv (s.step x) := by
  cases x with
  | take a => exact h.take hin
  | push i => exact h.push hin
  | join => exact h.join
  | read => exact h.read
  | lock => exact h.lock hin

/-- **Where every lock is got in turn, every announcement is delivered once and in order**, whatever the
threads say and however the client's flushes fall between their steps. -/
theorem delivers_of_inTurn {steps : List Step}
    (hin : Throughout (fun before x => InTurn (reached before) x) steps) : Delivers (reached steps) := by
  suffices h : Inv (reached steps) from h.delivers
  induction steps using List.reverseRecOn with
  | nil => exact .start
  | append_singleton steps x ih =>
    rw [reached_concat]
    exact (ih hin.of_append).step hin.at_last

/-! ## Two threads -/

def started : Announcement := ⟨.info, "engine started"⟩

def fellBack : Announcement := ⟨.warn, "engine fell back"⟩

theorem delivers_flushed : Delivers (reached [.take started, .push 0, .read, .lock]) := by
  have htaken : Throughout (fun before x => InTurn (reached before) x) [.take started] :=
    Throughout.nil.concat (by decide)
  have hpushed : Throughout (fun before x => InTurn (reached before) x) [.take started, .push 0] :=
    htaken.concat (by decide)
  have hread : Throughout (fun before x => InTurn (reached before) x) [.take started, .push 0, .read] :=
    hpushed.concat (by decide)
  exact delivers_of_inTurn (hread.concat (by decide))

/-- The first takes its number, the second its own and the lock; a flush hands over the mark of both. -/
def overtaken : List Step :=
  [.take started, .take fellBack, .push 1, .read, .lock, .push 0, .read, .lock]

/-- What the first said is in the ring at the second flush, and is never received. -/
theorem overtaken_not_delivered : ¬ ∀ steps : List Step, Delivers (reached steps) := by
  intro h
  have honce := (h overtaken).once ⟨[(2, fellBack), (1, started)], []⟩ (by decide) (1, started) (by decide)
    (by decide)
  exact absurd honce (by decide)

end MarloweAgent.Daemon.Announce
