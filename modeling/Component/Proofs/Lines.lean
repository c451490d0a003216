/-
Lines and columns in terms of bytes.

The position of an offset is found by going over the lines of a text character by
character.  In the bytes of the text, its line is the number of line feeds before the
offset, and its column is counted from behind the last of them.
-/
import Component.Lines
import Mathlib.Data.List.DropRight

namespace Component

/-- The UTF-8 encoding of a text. -/
def Text.bytes (t : Text) : List UInt8 := t.flatMap String.utf8EncodeChar

def lineFeed : UInt8 := 10

/-- The part of some bytes that their last line feed ends. -/
def wholeLines (bytes : List UInt8) : List UInt8 := bytes.rdropWhile (· != lineFeed)

namespace Text

@[simp] theorem bytes_nil : bytes [] = [] := rfl

@[simp] theorem bytes_cons (c : Char) (rest : Text) :
    bytes (c :: rest) = String.utf8EncodeChar c ++ bytes rest := rfl

theorem length_bytes (t : Text) : t.bytes.length = t.size := by
  induction t with
  | nil => rfl
  | cons c rest ih => simp [ih]

end Text

/-- Only a line feed is encoded with the byte of one. -/
theorem lineFeed_not_mem_utf8EncodeChar {c : Char} (h : c ≠ '\n') :
    lineFeed ∉ String.utf8EncodeChar c := by
  have hval : c.val.toNat ≠ 10 := fun hval => h (Char.ext (UInt32.toNat_inj.mp hval))
  have hbyte : ∀ n, n < 256 → n ≠ 10 → lineFeed ≠ UInt8.ofNat n := by
    intro n hn hne heq
    have hnat := congrArg UInt8.toNat heq
    rw [UInt8.toNat_ofNat_of_lt' hn] at hnat
    exact hne hnat.symm
  -- Every byte of a longer encoding has its first bit set.
  have hhigh : ∀ n, 128 ≤ n → n < 256 → lineFeed ≠ UInt8.ofNat n :=
    fun n hlow hn => hbyte n hn (by omega)
  intro hmem
  simp only [String.utf8EncodeChar] at hmem
  split_ifs at hmem with hone htwo hthree
  · exact hbyte _ (by omega) hval (List.mem_singleton.mp hmem)
  all_goals
    simp only [List.mem_cons, List.not_mem_nil, or_false] at hmem
    revert hmem
    simp only [imp_false, not_or]
  · exact ⟨hhigh _ (by omega) (by omega), hhigh _ (by omega) (by omega)⟩
  · exact ⟨hhigh _ (by omega) (by omega), hhigh _ (by omega) (by omega),
      hhigh _ (by omega) (by omega)⟩
  · exact ⟨hhigh _ (by omega) (by omega), hhigh _ (by omega) (by omega),
      hhigh _ (by omega) (by omega), hhigh _ (by omega) (by omega)⟩

/-! ### The last line feed -/

theorem wholeLines_append (l m : List UInt8) :
    wholeLines (l ++ m) = if wholeLines m = [] then wholeLines l else l ++ wholeLines m := by
  simp only [wholeLines, List.rdropWhile, List.reverse_append, List.dropWhile_append,
    List.isEmpty_iff, List.reverse_eq_nil_iff]
  split_ifs <;> simp

theorem wholeLines_eq_nil {bytes : List UInt8} (h : lineFeed ∉ bytes) : wholeLines bytes = [] := by
  refine List.rdropWhile_eq_nil_iff.mpr fun b hb => ?_
  rw [bne_iff_ne]
  rintro rfl
  exact h hb

/-! ### Positions -/

/-- Where the line begins that comes after some bytes, of which the first stands at
`here` and belongs to a line that began at `start`. -/
def lineStart (start here : Nat) (bytes : List UInt8) : Nat :=
  if wholeLines bytes = [] then start else here + (wholeLines bytes).length

theorem lineStart_feed (start here : Nat) (bytes : List UInt8) :
    lineStart start here (lineFeed :: bytes) = lineStart (here + 1) (here + 1) bytes := by
  have hfeed : wholeLines [lineFeed] = [lineFeed] := rfl
  have happend := wholeLines_append [lineFeed] bytes
  rw [List.singleton_append] at happend
  by_cases hnone : wholeLines bytes = []
  · rw [if_pos hnone, hfeed] at happend
    simp [lineStart, happend, hnone]
  · rw [if_neg hnone] at happend
    simp [lineStart, happend, hnone]
    omega

/-- Bytes that are no line feeds lead to the place behind them. -/
theorem lineStart_plain {run bytes : List UInt8} {size : Nat} (hrun : lineFeed ∉ run)
    (hsize : bytes ≠ [] → run.length = size) (start here : Nat) :
    lineStart start here (run ++ bytes) = lineStart start (here + size) bytes := by
  have happend := wholeLines_append run bytes
  rw [wholeLines_eq_nil hrun] at happend
  by_cases hnone : wholeLines bytes = []
  · rw [if_pos hnone] at happend
    simp [lineStart, happend, hnone]
  · have hbytes : bytes ≠ [] := by
      rintro rfl
      exact hnone rfl
    rw [if_neg hnone] at happend
    simp [lineStart, happend, hnone, hsize hbytes, Nat.add_assoc]

theorem lineStart_zero (bytes : List UInt8) : lineStart 0 0 bytes = (wholeLines bytes).length := by
  unfold lineStart
  split_ifs with hnone
  · rw [hnone, List.length_nil]
  · exact Nat.zero_add _

/-- Going over the lines that begin behind `here` leads to the last line feed before the
offset. -/
theorem locateFrom_eq (t : Text) (line start here offset : Nat) :
    locateFrom line start offset (lineStartsFrom here t) =
      ⟨line + (t.bytes.take (offset - here)).count lineFeed,
        offset - lineStart start here (t.bytes.take (offset - here))⟩ := by
  induction t generalizing line start here with
  | nil => simp [lineStartsFrom, locateFrom, lineStart, wholeLines]
  | cons c rest ih =>
      rw [lineStartsFrom]
      by_cases hfeed : c = '\n'
      · subst hfeed
        have hbytes : Text.bytes ('\n' :: rest) = lineFeed :: Text.bytes rest := rfl
        have hsize : here + '\n'.utf8Size = here + 1 := rfl
        rw [if_pos rfl, locateFrom, hbytes, hsize]
        by_cases hnext : here + 1 ≤ offset
        · obtain ⟨n, rfl⟩ := Nat.exists_eq_add_of_le hnext
          have hfront : here + 1 + n - here = n + 1 := by omega
          have hrest : here + 1 + n - (here + 1) = n := by omega
          rw [if_pos hnext, ih, hfront, hrest, List.take_succ_cons, lineStart_feed,
            List.count_cons_self, Nat.add_assoc, Nat.add_comm 1]
        · have hfront : offset - here = 0 := by omega
          rw [if_neg hnext, hfront]
          simp [lineStart, wholeLines]
      · -- The offset may lie inside the character, whose bytes are no line feeds.
        have hrun : lineFeed ∉ (String.utf8EncodeChar c).take (offset - here) :=
          fun hmem => lineFeed_not_mem_utf8EncodeChar hfeed (List.mem_of_mem_take hmem)
        have hfront : (Text.bytes (c :: rest)).take (offset - here) =
            (String.utf8EncodeChar c).take (offset - here) ++
              (Text.bytes rest).take (offset - (here + c.utf8Size)) := by
          rw [Text.bytes_cons, List.take_append, String.length_utf8EncodeChar, Nat.sub_sub]
        have hsize : (Text.bytes rest).take (offset - (here + c.utf8Size)) ≠ [] →
            ((String.utf8EncodeChar c).take (offset - here)).length = c.utf8Size := by
          intro hmore
          have hpast : offset - (here + c.utf8Size) ≠ 0 := fun hzero => hmore (by simp [hzero])
          rw [List.length_take, String.length_utf8EncodeChar]
          omega
        rw [if_neg hfeed, ih, hfront, List.count_append, List.count_eq_zero.mpr hrun, Nat.zero_add,
          lineStart_plain hrun hsize]

/-- The line of an offset is the number of line feeds before it, and its column the
distance from behind the last of them, also past the end and inside a character. -/
theorem locate_eq (t : Text) (offset : Nat) :
    locate t offset = ⟨(t.bytes.take offset).count lineFeed,
      offset - (wholeLines (t.bytes.take offset)).length⟩ := by
  rw [locate, locateFrom_eq, lineStart_zero]
  simp

end Component
