/-
Looking up lines.

The lines of a text begin at increasing offsets.  A search for an offset among these either
hits the start of a line or gives the place where the offset would have to be put in, and both
tell the line of the offset.  The start of the line and the column lead back to the offset, so
that positions come in the order of offsets.
-/
import Component.Proofs.Diagnosing
import Component.Proofs.Lines

namespace Component

/-! ### Line starts -/

theorem lt_of_mem_lineStartsFrom {here start : Nat} {t : Text}
    (h : start ∈ lineStartsFrom here t) : here < start := by
  induction t generalizing here with
  | nil => cases h
  | cons c rest ih =>
      have hpos := c.utf8Size_pos
      rw [lineStartsFrom] at h
      split_ifs at h
      · rcases List.mem_cons.1 h with rfl | hmore
        · omega
        · have := ih hmore
          omega
      · have := ih h
        omega

theorem lineStartsFrom_increasing (here : Nat) (t : Text) :
    (lineStartsFrom here t).Pairwise (· < ·) := by
  induction t generalizing here with
  | nil => exact .nil
  | cons c rest ih =>
      rw [lineStartsFrom]
      split_ifs
      · exact .cons (fun _ hlater => lt_of_mem_lineStartsFrom hlater) (ih _)
      · exact ih _

theorem lineStarts_increasing (t : Text) : (lineStarts t).Pairwise (· < ·) :=
  .cons (fun _ hlater => lt_of_mem_lineStartsFrom hlater) (lineStartsFrom_increasing 0 t)

/-- Every line but the first begins behind a line feed. -/
theorem length_lineStartsFrom (here : Nat) (t : Text) :
    (lineStartsFrom here t).length = t.bytes.count lineFeed := by
  induction t generalizing here with
  | nil => rfl
  | cons c rest ih =>
      rw [lineStartsFrom, Text.bytes_cons, List.count_append]
      split_ifs with hfeed
      · have hone : (String.utf8EncodeChar '\n').count lineFeed = 1 := rfl
        rw [List.length_cons, ih, hfeed, hone, Nat.add_comm]
      · rw [ih, List.count_eq_zero.2 (lineFeed_not_mem_utf8EncodeChar hfeed), Nat.zero_add]

/-- The lines after the one that is found begin behind the offset. -/
theorem locateFrom_last (line offset : Nat) {start : Nat} {starts : List Nat}
    (h : (start :: starts).Pairwise (· < ·)) :
    ∀ later ∈ (start :: starts).drop ((locateFrom line start offset starts).line - line + 1),
      offset < later := by
  induction starts generalizing line start with
  | nil => simp [locateFrom]
  | cons next more ih =>
      have hmore := (List.pairwise_cons.1 h).2
      rw [locateFrom]
      split_ifs with hnext
      · have hline := (locateFrom_column (line + 1) more hnext).1
        have hindex : (locateFrom (line + 1) next offset more).line - line + 1 =
            ((locateFrom (line + 1) next offset more).line - (line + 1) + 1) + 1 := by
          omega
        rw [hindex, List.drop_succ_cons]
        exact ih (line + 1) hmore
      · intro later hlater
        simp only [Nat.sub_self, Nat.zero_add, List.drop_succ_cons, List.drop_zero] at hlater
        rcases List.mem_cons.1 hlater with rfl | hlater
        · omega
        · have := (List.pairwise_cons.1 hmore).1 later hlater
          omega

/-! ### Where a line begins -/

/-- The line of an offset begins at `start`: at the front of the bytes or behind a line feed, with
no line feed from there up to the offset. -/
structure BeginsLine (bytes : List UInt8) (start offset : Nat) : Prop where
  le : start ≤ offset
  behind : start = 0 ∨ 0 < start ∧ bytes[start - 1]? = some lineFeed
  last : ∀ i, start ≤ i → i < offset → bytes[i]? ≠ some lineFeed

theorem beginsLine_of_append {bytes lines line : List UInt8} {offset : Nat}
    (h : bytes.take offset = lines ++ line) (hlines : lines ≠ [] → lines.getLast? = some lineFeed)
    (hline : lineFeed ∉ line) : BeginsLine bytes lines.length offset := by
  have hlength := congrArg List.length h
  rw [List.length_append, List.length_take] at hlength
  refine ⟨by omega, ?_, ?_⟩
  · by_cases hnone : lines = []
    · exact .inl (by rw [hnone, List.length_nil])
    · have hpos := List.length_pos_iff.2 hnone
      refine .inr ⟨hpos, ?_⟩
      rw [← List.getElem?_take_of_lt (show lines.length - 1 < offset by omega), h,
        List.getElem?_append_left (by omega), ← List.getLast?_eq_getElem?, hlines hnone]
  · intro i hstart hoffset hfeed
    rw [← List.getElem?_take_of_lt hoffset, h, List.getElem?_append_right hstart] at hfeed
    exact hline (List.mem_of_getElem? hfeed)

theorem beginsLine_wholeLines (bytes : List UInt8) (offset : Nat) :
    BeginsLine bytes (wholeLines (bytes.take offset)).length offset := by
  have hparts : bytes.take offset = wholeLines (bytes.take offset) ++
      (bytes.take offset).rtakeWhile (· != lineFeed) :=
    List.rdropWhile_append_rtakeWhile.symm
  refine beginsLine_of_append hparts ?_ ?_
  · intro hsome
    have hlast := List.rdropWhile_last_not (· != lineFeed) (bytes.take offset) hsome
    rw [List.getLast?_eq_getLast_of_ne_nil hsome]
    simpa [wholeLines] using hlast
  · intro hfeed
    have hnot := List.mem_rtakeWhile_imp hfeed
    simp at hnot

/-- The line of an offset and where it begins. -/
theorem locate_spec (t : Text) (offset : Nat) :
    (locate t offset).line = (t.bytes.take offset).count lineFeed ∧
      ∃ start, BeginsLine t.bytes start offset ∧
        (lineStarts t)[(locate t offset).line]? = some start ∧
        start + (locate t offset).column = offset := by
  obtain ⟨-, start, hstart, hcolumn⟩ :=
    locateFrom_column 0 (lineStartsFrom 0 t) (Nat.zero_le offset)
  have hbegins := beginsLine_wholeLines t.bytes offset
  have hposition := locate_eq t offset
  have hsame : start = (wholeLines (t.bytes.take offset)).length := by
    have hle := hbegins.le
    have hother := congrArg Position.column hposition
    dsimp only at hother
    rw [← locate] at hcolumn
    omega
  refine ⟨congrArg Position.line hposition, start, hsame ▸ hbegins, ?_, hcolumn⟩
  exact hstart

/-! ### Searching -/

/-- What a search for a number among increasing ones gives. -/
inductive Search where
  /-- The number stands at an index. -/
  | hit (index : Nat)
  /-- The number would have to be put in at an index. -/
  | miss (index : Nat)
deriving DecidableEq

/-- Whether a search among increasing numbers is right. -/
def Search.Finds (numbers : List Nat) (number : Nat) : Search → Prop
  | .hit index => numbers[index]? = some number
  | .miss index => index ≤ numbers.length ∧ (∀ n ∈ numbers.take index, n < number) ∧
      ∀ n ∈ numbers.drop index, number < n

theorem mem_drop_of_getElem? {numbers : List Nat} {index i n : Nat} (h : numbers[i]? = some n)
    (hi : index ≤ i) : n ∈ numbers.drop index := by
  refine List.mem_of_getElem? (i := i - index) ?_
  rw [List.getElem?_drop, Nat.add_sub_cancel' hi, h]

theorem mem_take_of_getElem? {numbers : List Nat} {index i n : Nat} (h : numbers[i]? = some n)
    (hi : i < index) : n ∈ numbers.take index :=
  List.mem_of_getElem? ((List.getElem?_take_of_lt hi).trans h)

/-- If `n` is the last number that is not above `number`, a search has one right answer. -/
theorem Search.finds_iff {numbers : List Nat} {number n index : Nat}
    (hincreasing : numbers.Pairwise (· < ·)) (hn : numbers[index]? = some n) (hle : n ≤ number)
    (hlater : ∀ later ∈ numbers.drop (index + 1), number < later) (search : Search) :
    search.Finds numbers number ↔
      search = if n = number then .hit index else .miss (index + 1) := by
  obtain ⟨hindex, -⟩ := List.getElem?_eq_some_iff.1 hn
  have hbefore : ∀ earlier ∈ numbers.take index, earlier < n := by
    rw [← List.take_append_drop index numbers, List.pairwise_append] at hincreasing
    exact fun earlier hearlier => hincreasing.2.2 earlier hearlier n
      (mem_drop_of_getElem? hn le_rfl)
  constructor
  · intro hfinds
    cases search with
    | hit i =>
        rcases Nat.lt_trichotomy i index with hlt | rfl | hgt
        · have := hbefore number (mem_take_of_getElem? hfinds hlt)
          omega
        · rw [if_pos (Option.some.inj (hn.symm.trans hfinds))]
        · exact absurd (hlater number (mem_drop_of_getElem? hfinds hgt)) (Nat.lt_irrefl _)
    | miss i =>
        obtain ⟨hi, hbelow, habove⟩ := hfinds
        have hgt : index < i := by
          by_contra hge
          have := habove n (mem_drop_of_getElem? hn (by omega))
          omega
        have hnext : i = index + 1 := by
          by_contra hne
          have hlong : index + 1 < numbers.length := by omega
          have hmem := List.getElem?_eq_getElem hlong
          have hless := hbelow _ (mem_take_of_getElem? hmem (by omega))
          have hmore := hlater _ (mem_drop_of_getElem? hmem le_rfl)
          omega
        have hless := hbelow n (mem_take_of_getElem? hn hgt)
        rw [hnext, if_neg (Nat.ne_of_lt hless)]
  · rintro rfl
    split_ifs with heq
    · exact heq ▸ hn
    · refine ⟨hindex, fun earlier hearlier => ?_, hlater⟩
      rw [List.take_add_one, hn] at hearlier
      rcases List.mem_append.1 hearlier with hearlier | hearlier
      · have := hbefore earlier hearlier
        omega
      · rw [Option.toList_some, List.mem_singleton] at hearlier
        omega

/-- A search for an offset among the line starts hits at the front of a line, and else misses
behind the start of its line. -/
theorem finds_lineStarts_iff (t : Text) (offset : Nat) (search : Search) :
    search.Finds (lineStarts t) offset ↔ search =
      if (locate t offset).column = 0 then .hit (locate t offset).line
      else .miss ((locate t offset).line + 1) := by
  obtain ⟨-, start, -, hstart, hcolumn⟩ := locate_spec t offset
  have hincreasing := lineStarts_increasing t
  have hlater := locateFrom_last 0 offset hincreasing
  rw [Search.finds_iff hincreasing hstart (by omega) hlater search]
  have hzero : start = offset ↔ (locate t offset).column = 0 := by omega
  simp only [hzero]

/-! ### Positions -/

/-- The order of positions: by line, and within a line by column. -/
def Position.Before (p q : Position) : Prop :=
  p.line < q.line ∨ p.line = q.line ∧ p.column < q.column

theorem locate_before {first second : Nat} (t : Text) (h : first < second) :
    (locate t first).Before (locate t second) := by
  obtain ⟨hline, start, -, hstart, hcolumn⟩ := locate_spec t first
  obtain ⟨hline', start', -, hstart', hcolumn'⟩ := locate_spec t second
  have hle : (locate t first).line ≤ (locate t second).line := by
    rw [hline, hline']
    exact (List.take_prefix_take_left h.le).sublist.count_le _
  rcases Nat.lt_or_eq_of_le hle with hlt | heq
  · exact .inl hlt
  · rw [heq, hstart', Option.some.injEq] at hstart
    exact .inr ⟨heq, by omega⟩

/-- The position of an offset is exact and leads back to it, for offsets anywhere in a text and
behind it.  Its line is the number of line feeds before it, its column the distance from the
last of them; the line is the one that a search among the line starts gives.  A later offset has
a later position. -/
theorem locate_exact_and_invertible (t : Text) :
    lineCount t = t.bytes.count lineFeed + 1 ∧
      (∀ offset, (locate t offset).line = (t.bytes.take offset).count lineFeed ∧
        (locate t offset).line ≤ offset ∧
        ∃ start, BeginsLine t.bytes start offset ∧ (locate t offset).column = offset - start ∧
          (lineStarts t)[(locate t offset).line]? = some start ∧
          start + (locate t offset).column = offset) ∧
      (∀ offset search, Search.Finds (lineStarts t) offset search ↔ search =
        if (locate t offset).column = 0 then .hit (locate t offset).line
        else .miss ((locate t offset).line + 1)) ∧
      ∀ first second, first < second → (locate t first).Before (locate t second) := by
  refine ⟨?_, fun offset => ?_, finds_lineStarts_iff t, fun _ _ => locate_before t⟩
  · rw [lineCount, lineStarts, List.length_cons, length_lineStartsFrom]
  · obtain ⟨hline, start, hbegins, hstart, hcolumn⟩ := locate_spec t offset
    refine ⟨hline, ?_, start, hbegins, by omega, hstart, hcolumn⟩
    rw [hline]
    exact List.count_le_length.trans (List.length_take_le _ _)

theorem locate_inside_and_behind :
    locate "a\n\né\nb" 4 = ⟨2, 1⟩ ∧ locate "a\n\né\nb" 9 = ⟨3, 3⟩ ∧ 4 < 9 ∧
      (locate "a\n\né\nb" 4).Before (locate "a\n\né\nb" 9) :=
  ⟨by decide +kernel, by decide +kernel, by decide,
    (locate_exact_and_invertible "a\n\né\nb").2.2.2 4 9 (by decide)⟩

end Component
