import MarloweAgent.Extract.Tokens

/-! The parser searches a page by its bytes. What it finds is what is found by characters, and stands at
the byte where the characters before it end. -/

namespace MarloweAgent.Extract.Html
open Contract Library

/-- Before a byte of the page, all but what is left stands. -/
def At (text : List Char) (pos : Nat) (rest : List Char) : Prop :=
  ∃ before, text = before ++ rest ∧ pos = Text.byteLen before

namespace At

variable {text rest : List Char} {pos : Nat}

theorem start (text : List Char) : At text 0 text := ⟨[], rfl, rfl⟩

theorem drop (h : At text pos rest) : (Utf8.bytes text).drop pos = Utf8.bytes rest := by
  obtain ⟨before, rfl, rfl⟩ := h
  exact drop_byteLen before rest

theorem length (h : At text pos rest) : (Utf8.bytes text).length = pos + Text.byteLen rest := by
  obtain ⟨before, rfl, rfl⟩ := h
  rw [← byteLen_eq, byteLen_append]

theorem past {mid after : List Char} (h : At text pos (mid ++ after)) : At text (pos + Text.byteLen mid) after := by
  obtain ⟨before, rfl, rfl⟩ := h
  exact ⟨before ++ mid, (List.append_assoc ..).symm, (byteLen_append ..).symm⟩

theorem slice {mid after : List Char} (h : At text pos (mid ++ after)) :
    Utf8.slice text pos (pos + Text.byteLen mid) = some mid := by
  obtain ⟨before, rfl, rfl⟩ := h
  exact slice_mid before mid after

/-- What is left at the end of the page. -/
theorem finish (h : At text pos rest) : At text (Utf8.bytes text).length [] := by
  obtain ⟨before, rfl, rfl⟩ := h
  exact ⟨before ++ rest, (List.append_nil _).symm, (byteLen_eq _).symm⟩

end At

section
variable {text rest : List Char} {pos : Nat}

theorem memchr_at {c : Char} (hc : Utf8.isAscii c = true) (h : At text pos rest) :
    Utf8.memchr c ((Utf8.bytes text).drop pos) =
      (Utf8.split (fun s => s.head? == some c) rest).map fun cut => Text.byteLen cut.1 := by
  rw [h.drop, Utf8.memchr_bytes hc]
  simp only [byteLen_eq]

theorem findFrom_at {mark : List Char} (hascii : ∀ c ∈ mark, Utf8.isAscii c = true) (hne : mark ≠ [])
    (h : At text pos rest) :
    findFrom (Utf8.bytes text) pos mark = (cutAt mark rest).map fun cut => pos + Text.byteLen cut.1 := by
  have hsearch : Utf8.search (Utf8.bytes mark).isPrefixOf (Utf8.bytes rest) =
      (Utf8.split mark.isPrefixOf rest).map fun cut => (Utf8.bytes cut.1).length := by
    refine Utf8.search_bytes (fun s _ => Utf8.isPrefixOf_bytes hascii s) (fun b l hb => ?_) rest
    obtain ⟨c, more, rfl⟩ := List.exists_cons_of_ne_nil hne
    have hc := hascii c List.mem_cons_self
    have hsmall := Utf8.byteOf_lt hc
    rw [Utf8.bytes_cons, Utf8.encode_ascii hc, List.singleton_append, List.isPrefixOf_cons_cons, Bool.and_eq_false_iff]
    refine .inl (beq_eq_false_iff_ne.mpr ?_)
    rintro rfl
    omega
  rw [findFrom, h.drop, hsearch, cutAt, Option.map_map, Option.map_map]
  split
  · rename_i hend
    rw [h.length] at hend
    cases rest with
    | nil => rfl
    | cons c rest =>
      have hpos := byteLen_pos (List.cons_ne_nil c rest)
      omega
  · simp only [byteLen_eq]
    rfl

/-! ## The end of a tag -/

theorem tagEndFrom_high {q : Option Char} (hq : ∀ c ∈ q, Utf8.isAscii c = true) {l : List UInt8}
    (hl : ∀ b ∈ l, 128 ≤ b.toNat) (r : List UInt8) (i : Nat) :
    tagEndFrom (q.map Utf8.byteOf) (l ++ r) i = tagEndFrom (q.map Utf8.byteOf) r (i + l.length) := by
  induction l generalizing i with
  | nil => rfl
  | cons b l ih =>
    have hb := hl b List.mem_cons_self
    have hne {c : Char} (hc : Utf8.isAscii c = true) : (b == Utf8.byteOf c) = false := by
      have hsmall := Utf8.byteOf_lt hc
      rw [beq_eq_false_iff_ne]
      rintro rfl
      omega
    have hrest := ih (fun x hx => hl x (List.mem_cons_of_mem _ hx)) (i + 1)
    rw [List.length_cons, Nat.add_comm l.length, ← Nat.add_assoc, ← hrest]
    cases q with
    | none =>
      rw [Option.map_none, List.cons_append, tagEndFrom, hne (by decide), hne (by decide), hne (by decide)]
      rfl
    | some q =>
      rw [Option.map_some, List.cons_append, tagEndFrom, hne (hq q rfl), if_neg (by simp)]

theorem tagEndFrom_bytes {q : Option Char} (hq : ∀ c ∈ q, Utf8.isAscii c = true) (s : List Char) (i : Nat) :
    tagEndFrom (q.map Utf8.byteOf) (Utf8.bytes s) i = (cutTag q s).map fun cut => i + Text.byteLen cut.1 := by
  induction s generalizing q i with
  | nil => cases q <;> rfl
  | cons c rest ih =>
    rw [Utf8.bytes_cons]
    have hgo {q : Option Char} (hq : ∀ c ∈ q, Utf8.isAscii c = true) :
        tagEndFrom (q.map Utf8.byteOf) (Utf8.bytes rest) (i + c.utf8Size) =
          ((cutTag q rest).map fun cut => (c :: cut.1, cut.2)).map fun cut => i + Text.byteLen cut.1 := by
      rw [ih hq, Option.map_map]
      refine congrArg (fun f => Option.map f (cutTag q rest)) (funext fun cut => ?_)
      rw [Function.comp_apply, byteLen_cons, Nat.add_assoc]
    cases hc : Utf8.isAscii c with
    | false =>
      have hne {d : Char} (hd : Utf8.isAscii d = true) : c ≠ d := by
        rintro rfl
        rw [hd] at hc
        cases hc
      rw [tagEndFrom_high hq (fun b hb => Utf8.high_of_mem_encode hc hb), String.length_utf8EncodeChar, hgo hq]
      cases q with
      | none => rw [cutTag, if_neg (by simp [hne (d := '"') (by decide), hne (d := '\'') (by decide)]),
          if_neg (hne (by decide))]
      | some q => rw [cutTag, if_neg (hne (hq q rfl))]
    | true =>
      have hsize : c.utf8Size = 1 := by
        rw [← String.length_utf8EncodeChar, Utf8.encode_ascii hc]
        rfl
      rw [hsize] at hgo
      rw [Utf8.encode_ascii hc, List.singleton_append]
      have heq {d : Char} (hd : Utf8.isAscii d = true) : (Utf8.byteOf c == Utf8.byteOf d) = decide (c = d) := by
        rw [Bool.eq_iff_iff, beq_iff_eq, decide_eq_true_iff]
        exact Utf8.byteOf_inj hc hd
      cases q with
      | none =>
        rw [Option.map_none, tagEndFrom, cutTag, heq (by decide), heq (by decide), heq (by decide)]
        simp only [Bool.or_eq_true, decide_eq_true_iff]
        split
        · exact hgo (q := some c) fun d hd => by rwa [← Option.some_inj.mp hd]
        · split
          · rfl
          · exact hgo (q := none) hq
      | some q =>
        rw [Option.map_some, tagEndFrom, cutTag, heq (hq q rfl)]
        simp only [decide_eq_true_iff]
        split
        · exact hgo (q := none) fun d hd => by cases hd
        · exact hgo (q := some q) hq

theorem tagEnd_at (h : At text pos ('<' :: rest)) :
    tagEnd (Utf8.bytes text) pos = (cutTag none rest).map fun cut => pos + Text.byteLen ('<' :: cut.1) := by
  have hpast : At text (pos + 1) rest := (show At text pos (['<'] ++ rest) from h).past
  have hbytes := tagEndFrom_bytes (q := none) (fun c hc => by cases hc) rest (pos + 1)
  rw [tagEnd, hpast.drop]
  refine hbytes.trans (congrArg (fun f => Option.map f (cutTag none rest)) (funext fun cut => ?_))
  rw [byteLen_cons, Nat.add_assoc]
  rfl

/-! ## The closing tag of a raw-text element -/

theorem lowerByte_byteOf {c : Char} (hc : Utf8.isAscii c = true) :
    lowerByte (Utf8.byteOf c) = Utf8.byteOf (Text.toAsciiLowercaseChar c) ∧
      Utf8.isAscii (Text.toAsciiLowercaseChar c) = true := by
  have hall : ∀ n < 128, lowerByte (Utf8.byteOf (Char.ofNat n)) =
      Utf8.byteOf (Text.toAsciiLowercaseChar (Char.ofNat n)) ∧
        Utf8.isAscii (Text.toAsciiLowercaseChar (Char.ofNat n)) = true := by decide
  have hcode := hall c.toNat (of_decide_eq_true hc)
  rwa [Char.ofNat_toNat] at hcode

theorem lower_of_not_ascii {c : Char} (hc : Utf8.isAscii c = false) : Text.toAsciiLowercaseChar c = c := by
  refine if_neg fun hletter => ?_
  have hhigh : c.toNat ≤ 90 := hletter.2
  have hlarge := of_decide_eq_false hc
  omega

theorem beginsAs_ignoreCase {mark : List Char} (hmark : ∀ c ∈ mark, Utf8.isAscii c = true) (s : List Char) :
    Utf8.beginsAs eqIgnoreCase (Utf8.bytes mark) (Utf8.bytes s) = Utf8.beginsAs eqIgnoreCaseChar mark s := by
  refine Utf8.beginsAs_bytes hmark (fun c hc d hd => ?_) (fun c hc b hb => ?_) (fun c hc d hd => ?_) s
  · obtain ⟨hlower, hascii⟩ := lowerByte_byteOf (hmark c hc)
    obtain ⟨hlower', hascii'⟩ := lowerByte_byteOf hd
    rw [eqIgnoreCase, eqIgnoreCaseChar, hlower, hlower', Bool.eq_iff_iff, beq_iff_eq, beq_iff_eq]
    exact Utf8.byteOf_inj hascii hascii'
  · obtain ⟨hlower, hascii⟩ := lowerByte_byteOf (hmark c hc)
    have hsmall := Utf8.byteOf_lt hascii
    have hself : lowerByte b = b := if_neg (by omega)
    rw [eqIgnoreCase, hlower, hself, beq_eq_false_iff_ne]
    rintro rfl
    omega
  · obtain ⟨-, hascii⟩ := lowerByte_byteOf (hmark c hc)
    rw [eqIgnoreCaseChar, lower_of_not_ascii hd, beq_eq_false_iff_ne]
    rintro rfl
    rw [hascii] at hd
    cases hd

theorem closeMark_ne_nil (name : String) : "</".toList ++ name.toList ≠ [] := by simp

/-- What stands behind a closing tag's name is judged by its first byte. -/
theorem terminated_bytes (s : List Char) :
    ((Utf8.bytes s).head?.all fun b => (terminators.map Utf8.byteOf).contains b) =
      s.head?.all fun c => terminators.contains c := by
  cases s with
  | nil => rfl
  | cons c rest =>
    have hterminators : ∀ t ∈ terminators, Utf8.isAscii t = true := Utf8.ascii_of_all (by decide)
    rw [List.head?_cons, Option.all_some]
    cases hc : Utf8.isAscii c with
    | true =>
      rw [Utf8.bytes_cons, Utf8.encode_ascii hc, List.singleton_append, List.head?_cons, Option.all_some,
        Bool.eq_iff_iff, List.contains_iff_mem, List.contains_iff_mem, List.mem_map]
      constructor
      · rintro ⟨t, ht, heq⟩
        rwa [← (Utf8.byteOf_inj (hterminators t ht) hc).mp heq]
      · exact fun hmem => ⟨c, hmem, rfl⟩
    | false =>
      obtain ⟨b, hhead, hb⟩ := Utf8.head?_bytes_cons hc rest
      rw [hhead, Option.all_some]
      have hleft : (terminators.map Utf8.byteOf).contains b = false := by
        rw [Bool.eq_false_iff]
        intro hmem
        obtain ⟨t, ht, rfl⟩ := List.mem_map.mp (List.contains_iff_mem.mp hmem)
        have hsmall := Utf8.byteOf_lt (hterminators t ht)
        omega
      have hright : terminators.contains c = false := by
        rw [Bool.eq_false_iff]
        intro hmem
        rw [hterminators c (List.contains_iff_mem.mp hmem)] at hc
        cases hc
      rw [hleft, hright]

theorem findCi_at {mark : List Char} (hmark : ∀ c ∈ mark, Utf8.isAscii c = true) (hne : mark ≠ [])
    (h : At text pos rest) :
    findCi (Utf8.bytes text) pos mark =
      (Utf8.split (Utf8.beginsAs eqIgnoreCaseChar mark) rest).map fun cut => pos + Text.byteLen cut.1 := by
  have hsearch : Utf8.search (Utf8.beginsAs eqIgnoreCase (Utf8.bytes mark)) (Utf8.bytes rest) =
      (Utf8.split (Utf8.beginsAs eqIgnoreCaseChar mark) rest).map fun cut => (Utf8.bytes cut.1).length := by
    refine Utf8.search_bytes (fun s _ => beginsAs_ignoreCase hmark s) (fun b l hb => ?_) rest
    obtain ⟨c, more, rfl⟩ := List.exists_cons_of_ne_nil hne
    have hc := hmark c List.mem_cons_self
    obtain ⟨hlower, hascii⟩ := lowerByte_byteOf hc
    have hsmall := Utf8.byteOf_lt hascii
    have hself : lowerByte b = b := if_neg (by omega)
    rw [Utf8.bytes_cons, Utf8.encode_ascii hc, List.singleton_append, Utf8.beginsAs, Bool.and_eq_false_iff, eqIgnoreCase,
      hlower, hself]
    refine .inl (beq_eq_false_iff_ne.mpr ?_)
    rintro rfl
    omega
  rw [findCi, h.drop, hsearch, Option.map_map]
  split
  · rename_i hend
    rw [h.length] at hend
    cases rest with
    | nil => rfl
    | cons c rest =>
      have hpos := byteLen_pos (List.cons_ne_nil c rest)
      rcases hend with hend | hend
      · omega
      · exact absurd hend hne
  · simp only [byteLen_eq]
    rfl

theorem findCloseTag_at {name : String} (hname : ∀ c ∈ name.toList, Utf8.isAscii c = true) (fuel : Nat)
    (hfuel : Text.byteLen rest < fuel) (h : At text pos rest) :
    findCloseTag (Utf8.bytes text) ("</".toList ++ name.toList) fuel pos =
      (Utf8.split (closesHere name) rest).map fun cut => pos + Text.byteLen cut.1 := by
  have hmark : ∀ c ∈ "</".toList ++ name.toList, Utf8.isAscii c = true := by
    intro c hc
    rcases List.mem_append.mp hc with hc | hc
    · have hboth : ∀ c ∈ "</".toList, Utf8.isAscii c = true := Utf8.ascii_of_all (by decide)
      exact hboth c hc
    · exact hname c hc
  induction fuel generalizing pos rest with
  | zero => omega
  | succ fuel ih =>
    rw [findCloseTag, findCi_at hmark (closeMark_ne_nil name) h]
    have hnever {s : List Char} (hs : Utf8.beginsAs eqIgnoreCaseChar ("</".toList ++ name.toList) s = false) :
        closesHere name s = false := by rw [closesHere, hs, Bool.false_and]
    cases hsplit : Utf8.split (Utf8.beginsAs eqIgnoreCaseChar ("</".toList ++ name.toList)) rest with
    | none =>
      have hnone : Utf8.split (closesHere name) rest = none := by
        cases hclose : Utf8.split (closesHere name) rest with
        | none => rfl
        | some cut =>
          obtain ⟨rfl, hfound, hcloses, -⟩ := Utf8.split_eq_some hclose
          have hnot := hnever (Utf8.split_eq_none hsplit hfound (List.suffix_append _ _))
          rw [hcloses] at hnot
          cases hnot
      rw [hnone]
      rfl
    | some cut =>
      obtain ⟨before, found⟩ := cut
      obtain ⟨rfl, hsome, hfound, hearlier⟩ := Utf8.split_eq_some hsplit
      have hskip := Utf8.split_skip (q := closesHere name) fun tail hne htail =>
        hnever (hearlier tail hne htail)
      obtain ⟨matched, after, rfl, hlength, hmatched⟩ := Utf8.beginsAs_true hfound
      have hascii : ∀ d ∈ matched, Utf8.isAscii d = true := by
        intro d hd
        obtain ⟨c, hc, heq⟩ := hmatched d hd
        cases hd' : Utf8.isAscii d with
        | true => rfl
        | false =>
          have hlower := (lowerByte_byteOf (hmark c hc)).2
          rw [eqIgnoreCaseChar, lower_of_not_ascii hd', beq_iff_eq] at heq
          rw [heq, hd'] at hlower
          cases hlower
      have hbehind : (Utf8.bytes text)[pos + Text.byteLen before + ("</".toList ++ name.toList).length]? =
          (Utf8.bytes after).head? := by
        have hpast := (At.past h).past
        rw [byteLen_eq matched, Utf8.length_bytes_ascii hascii, hlength] at hpast
        rw [← List.head?_drop, hpast.drop]
      rw [Option.map_some]
      dsimp only
      rw [hbehind, terminated_bytes, hskip]
      have hdrop : (matched ++ after).drop ("</".toList ++ name.toList).length = after := by
        rw [← hlength, List.drop_left]
      split
      · rename_i hterminated
        have hhere : closesHere name (matched ++ after) = true := by
          rw [closesHere, hfound, hdrop, Bool.true_and]
          exact hterminated
        rw [Utf8.split_here hsome hhere]
        simp
      · rename_i hopen
        have hnot : closesHere name (matched ++ after) = false := by
          rw [closesHere, hfound, hdrop, Bool.true_and]
          exact Bool.eq_false_iff.mpr hopen
        obtain ⟨c, more, rfl⟩ : ∃ c more, matched = c :: more := by
          refine List.exists_cons_of_ne_nil fun hnil => ?_
          rw [hnil] at hlength
          exact closeMark_ne_nil name (List.length_eq_zero_iff.mp hlength.symm)
        have hsize : c.utf8Size = 1 := by
          rw [← String.length_utf8EncodeChar, Utf8.encode_ascii (hascii c List.mem_cons_self)]
          rfl
        have hone : Text.byteLen [c] = 1 := hsize
        have hpast := (show At text (pos + Text.byteLen before) ([c] ++ (more ++ after)) from At.past h).past
        rw [hone] at hpast
        have hroom : Text.byteLen (more ++ after) < fuel := by
          simp only [byteLen_append, byteLen_cons] at hfuel ⊢
          omega
        rw [ih hroom hpast, List.cons_append, Utf8.split, ← List.cons_append, hnot, if_neg (by simp), Option.map_map,
          Option.map_map]
        refine congrArg (fun f => Option.map f (Utf8.split (closesHere name) (more ++ after))) (funext fun cut => ?_)
        simp only [Function.comp_apply, byteLen_append, byteLen_cons, hsize, Nat.add_assoc]

end

end MarloweAgent.Extract.Html
