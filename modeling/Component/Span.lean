/-
Spans: half-open ranges of byte offsets into a text.
-/
import Component.Text.Basic

namespace Component

/-- The byte range from `start` up to, but not including, `stop`. -/
structure Span where
  start : Nat
  stop : Nat
deriving Repr, DecidableEq, Inhabited

namespace Span

/-- The span of no bytes at an offset. -/
def empty (offset : Nat) : Span := ⟨offset, offset⟩

/-- The span between two offsets, of which the lowest 32 bits are kept. -/
def ofOffsets (start stop : Nat) : Span := ⟨start % UInt32.size, stop % UInt32.size⟩

theorem ofOffsets_eq {start stop : Nat} (hstart : start < UInt32.size)
    (hstop : stop < UInt32.size) :
    ofOffsets start stop = ⟨start, stop⟩ := by
  rw [ofOffsets, Nat.mod_eq_of_lt hstart, Nat.mod_eq_of_lt hstop]

/-- Number of bytes covered. -/
def length (s : Span) : Nat := s.stop - s.start

/-- The part of a span between two offsets counted from its start. -/
def slice (s : Span) (first last : Nat) : Span := ofOffsets (s.start + first) (s.start + last)

/-- The smallest span around two spans. -/
def cover (a b : Span) : Span := ⟨min a.start b.start, max a.stop b.stop⟩

/-- The characters of a text that a span covers. -/
def read (s : Span) (t : Text) : Text := t.slice s.start s.stop

end Span

end Component
