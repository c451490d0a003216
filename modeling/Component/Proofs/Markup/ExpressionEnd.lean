/-
Where a braced expression ends.

The search for the closing brace goes over the expression character by character and keeps
how many braces are open and the string it is in.  It stops at the one brace before which
the text is well nested: strings are closed, and braces outside of them are paired.
-/
import Component.Proofs.Lines
import Component.Proofs.Markup.Printing

namespace Component

/-! ### Encoded texts -/

/-- The bytes of a character tell where they end. -/
theorem utf8EncodeChar_append_inj {c d : Char} {l m : List UInt8}
    (h : String.utf8EncodeChar c ++ l = String.utf8EncodeChar d ++ m) : c = d ∧ l = m := by
  have hdecode := congrArg (fun bytes => ByteArray.utf8DecodeChar? bytes.toByteArray 0) h
  simp only [List.toByteArray_append, ByteArray.utf8DecodeChar?_utf8EncodeChar_append,
    Option.some.injEq] at hdecode
  subst hdecode
  exact ⟨rfl, List.append_cancel_left h⟩

theorem Text.exists_append_of_bytes {a t : Text} {more : List UInt8}
    (h : t.bytes = a.bytes ++ more) : ∃ b, t = a ++ b ∧ b.bytes = more := by
  induction a generalizing t with
  | nil => exact ⟨t, rfl, h⟩
  | cons c rest ih =>
      cases t with
      | nil =>
          have hlength := congrArg List.length h
          have hpos := c.utf8Size_pos
          simp only [bytes_nil, bytes_cons, List.length_nil, List.length_append,
            String.length_utf8EncodeChar] at hlength
          omega
      | cons d rest' =>
          rw [bytes_cons, bytes_cons, List.append_assoc] at h
          obtain ⟨rfl, hrest⟩ := utf8EncodeChar_append_inj h
          obtain ⟨b, rfl, hb⟩ := ih hrest
          exact ⟨b, rfl, hb⟩

namespace Markup

/-! ### Well-nested texts -/

/-- The least language that contains the empty text, every character but the quotes and the
braces, the closed strings and its own members between braces, and that concatenation
does not leave. -/
inductive WellNested : Text → Prop where
  | empty : WellNested []
  | char {c : Char} (hc : c ∉ ['{', '}', '"', '\'', '\x60']) : WellNested [c]
  | string {quote : Char} {body : Text} (hquote : quote ∈ ['"', '\'', '\x60'])
      (hbody : QuotedBody quote body) : WellNested (quote :: (body ++ [quote]))
  | braces {inner : Text} (hinner : WellNested inner) : WellNested ('{' :: (inner ++ ['}']))
  | append {a b : Text} (ha : WellNested a) (hb : WellNested b) : WellNested (a ++ b)

theorem Balanced.append {a b : Text} (ha : Balanced a) (hb : Balanced b) : Balanced (a ++ b) := by
  induction ha with
  | nil => exact hb
  | char hc _ ih => exact .char hc ih
  | braces hinner _ _ ih =>
      rw [List.cons_append, List.append_assoc]
      exact .braces hinner ih
  | quoted hquote hbody _ ih =>
      rw [List.cons_append, List.append_assoc]
      exact .quoted hquote hbody ih

/-- Well-nested texts can be built from the front. -/
theorem wellNested_iff_balanced {t : Text} : WellNested t ↔ Balanced t := by
  constructor
  · intro h
    induction h with
    | empty => exact .nil
    | char hc => exact .char hc .nil
    | string hquote hbody => exact .quoted hquote hbody .nil
    | braces _ ih => exact .braces ih .nil
    | append _ _ iha ihb => exact iha.append ihb
  · intro h
    induction h with
    | nil => exact .empty
    | char hc _ ih => exact .append (.char hc) ih
    | braces _ _ ihinner ih => simpa using WellNested.append (.braces ihinner) ih
    | quoted hquote hbody _ ih => simpa using WellNested.append (.string hquote hbody) ih

/-! ### One character of an expression -/

namespace BraceState

/-- How a character that does not end the expression changes where it stands. -/
inductive Step : BraceState → Char → BraceState → Prop where
  | afterEscape {depth : Nat} {quote c : Char} :
      Step ⟨depth, some quote, true⟩ c ⟨depth, some quote, false⟩
  | escape {depth : Nat} {quote : Char} :
      Step ⟨depth, some quote, false⟩ '\\' ⟨depth, some quote, true⟩
  | closeString {depth : Nat} {quote : Char} (hescape : quote ≠ '\\') :
      Step ⟨depth, some quote, false⟩ quote ⟨depth, none, false⟩
  | inString {depth : Nat} {quote c : Char} (hquote : c ≠ quote) (hescape : c ≠ '\\') :
      Step ⟨depth, some quote, false⟩ c ⟨depth, some quote, false⟩
  | openString {depth : Nat} {quote : Char} (hquote : quote ∈ ['"', '\'', '\x60']) :
      Step ⟨depth, none, false⟩ quote ⟨depth, some quote, false⟩
  | openBrace {depth : Nat} : Step ⟨depth, none, false⟩ '{' ⟨depth + 1, none, false⟩
  | closeBrace {depth : Nat} : Step ⟨depth + 1, none, false⟩ '}' ⟨depth, none, false⟩
  | other {depth : Nat} {c : Char} (hc : c ∉ ['{', '}', '"', '\'', '\x60']) :
      Step ⟨depth, none, false⟩ c ⟨depth, none, false⟩

/-- Nothing is escaped outside of strings. -/
def Proper (s : BraceState) : Prop := s.quote = none → s.escaped = false

theorem Step.proper {s s' : BraceState} {c : Char} (h : s.Step c s') : s'.Proper := by
  cases h <;> simp [Proper]

/-- The texts that close as many braces as are open and nothing more. -/
def ClosesBraces : Nat → Text → Prop
  | 0, value => Balanced value
  | depth + 1, value =>
      ∃ inner rest, value = inner ++ '}' :: rest ∧ Balanced inner ∧ ClosesBraces depth rest

/-- The texts that lead from a state to the end of the expression. -/
def Completes : BraceState → Text → Prop
  | ⟨depth, none, _⟩, value => ClosesBraces depth value
  | ⟨depth, some quote, false⟩, value =>
      ∃ body rest, value = body ++ quote :: rest ∧ QuotedBody quote body ∧ ClosesBraces depth rest
  | ⟨depth, some quote, true⟩, value =>
      ∃ c body rest, value = c :: (body ++ quote :: rest) ∧ QuotedBody quote body ∧
        ClosesBraces depth rest

theorem ClosesBraces.prepend {depth : Nat} {text value : Text} (htext : Balanced text)
    (h : ClosesBraces depth value) : ClosesBraces depth (text ++ value) := by
  cases depth with
  | zero => exact htext.append h
  | succ depth =>
      obtain ⟨inner, rest, rfl, hinner, hrest⟩ := h
      exact ⟨text ++ inner, rest, (List.append_assoc _ _ _).symm, htext.append hinner, hrest⟩

theorem Step.completes {s s' : BraceState} {c : Char} {value : Text} (h : s.Step c s')
    (hvalue : s'.Completes value) : s.Completes (c :: value) := by
  cases h with
  | afterEscape =>
      obtain ⟨body, rest, rfl, hbody, hrest⟩ := hvalue
      exact ⟨c, body, rest, rfl, hbody, hrest⟩
  | escape =>
      obtain ⟨d, body, rest, rfl, hbody, hrest⟩ := hvalue
      exact ⟨'\\' :: d :: body, rest, rfl, .escaped hbody, hrest⟩
  | closeString _ => exact ⟨[], value, rfl, .nil, hvalue⟩
  | inString hquote hescape =>
      obtain ⟨body, rest, rfl, hbody, hrest⟩ := hvalue
      exact ⟨c :: body, rest, rfl, .char hquote hescape hbody, hrest⟩
  | openString hquote =>
      obtain ⟨body, rest, rfl, hbody, hrest⟩ := hvalue
      have hstring := ClosesBraces.prepend (.quoted hquote hbody .nil) hrest
      simpa [Completes] using hstring
  | openBrace =>
      obtain ⟨inner, rest, rfl, hinner, hrest⟩ := hvalue
      have hbraces := ClosesBraces.prepend (.braces hinner .nil) hrest
      simpa [Completes] using hbraces
  | closeBrace => exact ⟨[], value, rfl, .nil, hvalue⟩
  | other hc => exact ClosesBraces.prepend (.char hc .nil) hvalue

end BraceState

/-- The first character of an expression ends it or is a step of the search. -/
theorem expressionFrom_cons_cases {s : BraceState} (hs : s.Proper) {c : Char}
    {rest value tail : Text} (h : expressionFrom s (c :: rest) = some (value, tail)) :
    (s = ⟨0, none, false⟩ ∧ value = []) ∨
      ∃ s' body, s.Step c s' ∧ expressionFrom s' rest = some (body, tail) ∧ value = c :: body := by
  have hgo : ∀ s', s.Step c s' →
      (expressionFrom s' rest).map (fun cut => (c :: cut.1, cut.2)) = some (value, tail) →
      ∃ s' body, s.Step c s' ∧ expressionFrom s' rest = some (body, tail) ∧ value = c :: body := by
    intro s' hstep hmap
    obtain ⟨⟨body, tail'⟩, hbody, heq⟩ := Option.map_eq_some_iff.mp hmap
    obtain ⟨rfl, rfl⟩ := Prod.mk.inj heq
    exact ⟨s', body, hstep, hbody, rfl⟩
  obtain ⟨depth, _ | quote, escaped⟩ := s
  · obtain rfl : escaped = false := hs rfl
    unfold expressionFrom at h
    simp only [Bool.or_eq_true, decide_eq_true_eq, or_assoc] at h
    split_ifs at h with hquote hopen hclose hdepth
    · exact .inr (hgo _ (.openString (by simpa using hquote)) h)
    · subst hopen
      exact .inr (hgo _ .openBrace h)
    · subst hdepth
      exact .inl ⟨rfl, (Prod.mk.inj (Option.some.inj h)).1.symm⟩
    · subst hclose
      obtain ⟨depth, rfl⟩ := Nat.exists_eq_succ_of_ne_zero hdepth
      exact .inr (hgo _ .closeBrace h)
    · exact .inr (hgo _ (.other (by simp_all)) h)
  · unfold expressionFrom at h
    simp only at h
    split_ifs at h with hescaped hescape hquote
    · subst hescaped
      exact .inr (hgo _ .afterEscape h)
    all_goals obtain rfl : escaped = false := by simpa using hescaped
    · subst hescape
      exact .inr (hgo _ .escape h)
    · subst hquote
      exact .inr (hgo _ (.closeString hescape) h)
    · exact .inr (hgo _ (.inString hquote hescape) h)

/-! ### The end of an expression -/

theorem completes_of_expressionFrom {s : BraceState} (hs : s.Proper) {t value tail : Text}
    (h : expressionFrom s t = some (value, tail)) : s.Completes value := by
  induction t generalizing s value with
  | nil => simp [expressionFrom] at h
  | cons c rest ih =>
      obtain ⟨rfl, rfl⟩ | ⟨s', body, hstep, hbody, rfl⟩ := expressionFrom_cons_cases hs h
      · exact Balanced.nil
      · exact hstep.completes (ih hstep.proper hbody)

/-- An expression is cut off before the brace that follows a well-nested text. -/
theorem bracedExpression_eq_some_iff {t value tail : Text} :
    bracedExpression t = some (value, tail) ↔
      t = value ++ tail ∧ tail.head? = some '}' ∧ WellNested value := by
  rw [wellNested_iff_balanced]
  constructor
  · intro h
    obtain ⟨hsplit, more, rfl⟩ := expressionFrom_eq_some h
    exact ⟨hsplit, rfl, completes_of_expressionFrom (fun _ => rfl) h⟩
  · rintro ⟨rfl, hhead, hvalue⟩
    obtain ⟨more, rfl⟩ := List.head?_eq_some_iff.mp hhead
    exact bracedExpression_balanced hvalue more

/-- The offset of the brace that closes the expression a text begins with. -/
def expressionEnd (t : Text) : Option Nat := (bracedExpression t).map fun (value, _) => value.size

def closingBrace : UInt8 := 0x7d

/-- The first `i` bytes of a text are those of a well-nested text, and the next byte is
that of a closing brace. -/
def ClosesAt (t : Text) (i : Nat) : Prop :=
  (∃ value, WellNested value ∧ t.bytes.take i = value.bytes) ∧ t.bytes[i]? = some closingBrace

theorem head?_of_bytes {t : Text} (h : t.bytes.head? = some closingBrace) : t.head? = some '}' := by
  obtain ⟨more, hmore⟩ := List.head?_eq_some_iff.mp h
  obtain ⟨rest, rfl, -⟩ := Text.exists_append_of_bytes (a := ['}']) hmore
  rfl

theorem closesAt_iff {t : Text} {i : Nat} :
    ClosesAt t i ↔
      ∃ value tail, t = value ++ tail ∧ tail.head? = some '}' ∧ WellNested value ∧
        value.size = i := by
  constructor
  · rintro ⟨⟨value, hvalue, htake⟩, hbyte⟩
    have hsplit : t.bytes = value.bytes ++ t.bytes.drop i := by
      rw [← htake, List.take_append_drop]
    obtain ⟨tail, rfl, htail⟩ := Text.exists_append_of_bytes hsplit
    have hsize := congrArg List.length htake
    have hlt := (List.getElem?_eq_some_iff.mp hbyte).1
    rw [List.length_take, Text.length_bytes value] at hsize
    refine ⟨value, tail, rfl, head?_of_bytes ?_, hvalue, by omega⟩
    rw [htail, List.head?_drop, hbyte]
  · rintro ⟨value, tail, rfl, hhead, hvalue, rfl⟩
    obtain ⟨more, rfl⟩ := List.head?_eq_some_iff.mp hhead
    have hbytes : Text.bytes (value ++ '}' :: more) =
        value.bytes ++ closingBrace :: Text.bytes more :=
      List.flatMap_append
    rw [ClosesAt, hbytes, ← Text.length_bytes]
    exact ⟨⟨value, hvalue, List.take_left⟩, by simp⟩

theorem expressionEnd_eq_some_iff {t : Text} {i : Nat} :
    expressionEnd t = some i ↔ ClosesAt t i := by
  rw [closesAt_iff]
  constructor
  · intro h
    obtain ⟨⟨value, tail⟩, hcut, rfl⟩ := Option.map_eq_some_iff.mp h
    obtain ⟨hsplit, hhead, hvalue⟩ := bracedExpression_eq_some_iff.mp hcut
    exact ⟨value, tail, hsplit, hhead, hvalue, rfl⟩
  · rintro ⟨value, tail, hsplit, hhead, hvalue, rfl⟩
    rw [expressionEnd, bracedExpression_eq_some_iff.mpr ⟨hsplit, hhead, hvalue⟩]
    rfl

/-- The end of an expression is found exactly: it is the only offset at which a closing brace
follows a well-nested text, and none is found if there is no such offset. -/
theorem expression_end_found_exactly (t : Text) :
    (∀ i, expressionEnd t = some i ↔ ClosesAt t i) ∧
      (∀ i j, ClosesAt t i → ClosesAt t j → i = j) ∧
      (expressionEnd t = none ↔ ¬∃ i, ClosesAt t i) := by
  refine ⟨fun i => expressionEnd_eq_some_iff, fun i j hi hj => ?_, ?_⟩
  · rw [← expressionEnd_eq_some_iff] at hi hj
    exact Option.some.inj (hi.symm.trans hj)
  · simp only [← expressionEnd_eq_some_iff, Option.eq_none_iff_forall_ne_some, not_exists, ne_eq]

end Markup

end Component
