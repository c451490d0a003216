/-
Source text as a list of characters, measured in bytes.

Offsets into a text count the bytes of its UTF-8 encoding.  `Text.size` is that
count, and a cut at a byte offset is a cut of the list at the position whose
prefix has that size.  A cut that falls inside a character goes to its end.
-/

namespace Component

/-- A text is the list of its characters. -/
abbrev Text := List Char

namespace Text

/-- Number of bytes in the UTF-8 encoding of a text. -/
def size : Text → Nat
  | [] => 0
  | c :: rest => c.utf8Size + size rest

@[simp] theorem size_nil : size [] = 0 := rfl

@[simp] theorem size_cons (c : Char) (rest : Text) : size (c :: rest) = c.utf8Size + size rest :=
  rfl

@[simp] theorem size_append (a b : Text) : size (a ++ b) = size a + size b := by
  induction a with
  | nil => simp
  | cons c rest ih => simp [ih, Nat.add_assoc]

/-- The text from byte offset `n` on. -/
def dropBytes : Nat → Text → Text
  | _, [] => []
  | n, c :: rest => if n = 0 then c :: rest else dropBytes (n - c.utf8Size) rest

/-- The text before byte offset `n`. -/
def takeBytes : Nat → Text → Text
  | _, [] => []
  | n, c :: rest => if n = 0 then [] else c :: takeBytes (n - c.utf8Size) rest

@[simp] theorem dropBytes_zero (t : Text) : dropBytes 0 t = t := by
  cases t <;> simp [dropBytes]

@[simp] theorem takeBytes_zero (t : Text) : takeBytes 0 t = [] := by
  cases t <;> simp [takeBytes]

theorem dropBytes_size_append (a b : Text) : dropBytes (size a) (a ++ b) = b := by
  induction a with
  | nil => simp
  | cons c rest ih =>
      have hpos : c.utf8Size ≠ 0 := Nat.ne_of_gt c.utf8Size_pos
      simp [dropBytes, hpos, ih]

theorem takeBytes_size_append (a b : Text) : takeBytes (size a) (a ++ b) = a := by
  induction a with
  | nil => simp
  | cons c rest ih =>
      have hpos : c.utf8Size ≠ 0 := Nat.ne_of_gt c.utf8Size_pos
      simp [takeBytes, hpos, ih]

/-- The part of a text between two byte offsets. -/
def slice (start stop : Nat) (t : Text) : Text :=
  takeBytes (stop - start) (dropBytes start t)

/-- Whether a byte offset falls between two characters, or at an end of the text. -/
def isBoundary (t : Text) (n : Nat) : Bool := size (takeBytes n t) == n

/-- The part of a text between two byte offsets, if both fall between characters. -/
def slice? (start stop : Nat) (t : Text) : Option Text :=
  if t.isBoundary start && t.isBoundary stop then some (t.slice start stop) else none

/-- The ASCII letters of a text in lower case. -/
def lower (t : Text) : Text := t.map Char.toLower

/-- Equality up to the case of ASCII letters. -/
def eqIgnoreCase (a b : Text) : Bool := a.lower == b.lower

/-- Cuts a text before the first position at which the text that remains
satisfies `p`.  The second part is empty when there is no such position. -/
def breakBefore (p : Text → Bool) : Text → Text × Text
  | [] => ([], [])
  | c :: rest =>
      if p (c :: rest) then ([], c :: rest)
      else
        let (before, after) := breakBefore p rest
        (c :: before, after)

theorem breakBefore_append (p : Text → Bool) (t : Text) :
    (breakBefore p t).1 ++ (breakBefore p t).2 = t := by
  induction t with
  | nil => rfl
  | cons c rest ih =>
      by_cases h : p (c :: rest)
      · simp [breakBefore, h]
      · simp [breakBefore, h, ih]

/-- The words of a text in which single spaces separate them. -/
def words : Text → List Text
  | [] => [[]]
  | c :: rest =>
      match words rest with
      | [] => []
      | word :: more => if c = ' ' then [] :: word :: more else (c :: word) :: more

/-- Separates the items of a list of texts. -/
def join (separator : Text) : List Text → Text
  | [] => []
  | [t] => t
  | t :: more => t ++ separator ++ join separator more

end Text

/-- A text written as a string literal. -/
instance : Coe String Text := ⟨String.toList⟩

end Component
