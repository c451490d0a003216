/-
How far parsers of scripts read.

What the lexer leaves of a text is an end of it.  A parser stays at its place or goes past the
next token: `Moves` says so, and `Passes` that it goes past the next token in any case.  Both
compose along `bind`, and along the steps of a loop.
-/
import Component.Proofs.Compiling
import Component.Proofs.Script.Reading
import Mathlib.Data.List.Infix

namespace Component.Script

/-! ### What the lexer leaves -/

section Suffixes

variable {t after : Text}

theorem hexDigits_suffix {count value n : Nat} (h : hexDigits count value t = .ok (n, after)) :
    after <:+ t := by
  induction t generalizing count value with
  | nil =>
    simp only [hexDigits] at h
    split at h <;> cases h
    exact List.suffix_refl _
  | cons c rest ih =>
    simp only [hexDigits] at h
    split at h
    · cases h
      exact List.suffix_refl _
    · apply List.IsSuffix.trans ?_ (List.suffix_cons c rest)
      split at h
      · split at h
        · exact ih h
        · cases h
      · split at h
        · exact ih h
        · cases h

theorem hexDigitsToBrace_suffix {value : Option Nat} {n : Nat}
    (h : hexDigitsToBrace value t = .ok (n, after)) : after <:+ t := by
  induction t generalizing value with
  | nil => cases h
  | cons c rest ih =>
    apply List.IsSuffix.trans ?_ (List.suffix_cons c rest)
    simp only [hexDigitsToBrace] at h
    split at h
    · split at h
      · exact ih h
      · cases h
    · split at h
      · exact ih h
      · split at h <;> cases h
        exact List.suffix_refl _
      · cases h

theorem codePoint_suffix {n : Nat} (h : codePoint t = .ok (n, after)) : after <:+ t := by
  unfold codePoint at h
  split at h
  · exact (hexDigitsToBrace_suffix h).trans (List.suffix_cons _ _)
  · exact hexDigits_suffix h

theorem readUnicodeEscape_suffix {chars : Text} (h : readUnicodeEscape t = .ok (chars, after)) :
    after <:+ t := by
  simp only [readUnicodeEscape, bind, Except.bind] at h
  split at h
  · cases h
  · rename_i found hfound
    have hrest := codePoint_suffix hfound
    split at h
    case h_1 following hfollowing =>
      split at h
      · split at h
        · cases h
        · rename_i low hlow
          cases h
          have hlow := hexDigits_suffix hlow
          apply List.IsSuffix.trans ?_ hrest
          rw [hfollowing]
          exact (hlow.trans (List.suffix_cons _ _)).trans (List.suffix_cons _ _)
      · cases h
        exact hrest
    case h_2 =>
      cases h
      exact hrest

theorem readEscape_suffix {chars : Text} (h : readEscape t = .ok (chars, after)) : after <:+ t := by
  unfold readEscape at h
  split at h
  case h_1 => cases h
  case h_2 rest =>
    cases h
    exact (List.suffix_cons _ _).trans (List.suffix_cons _ _)
  case h_3 rest =>
    apply List.IsSuffix.trans ?_ (List.suffix_cons _ _)
    cases hfound : hexDigits 2 0 rest with
    | error => rw [hfound] at h; cases h
    | ok found =>
      rw [hfound] at h
      cases h
      exact hexDigits_suffix hfound
  case h_4 rest => exact (readUnicodeEscape_suffix h).trans (List.suffix_cons _ _)
  case h_5 c rest _ _ _ =>
    split_ifs at h <;> cases h <;> exact List.suffix_cons _ _

theorem readString_suffix {quote : Char} {steps : Nat} {value : Text} {escaped : Bool}
    (h : readString quote steps t = some (value, escaped, after)) : after <:+ t := by
  induction steps generalizing t value escaped with
  | zero => cases h
  | succ steps ih =>
    cases t with
    | nil => cases h
    | cons c rest =>
      apply List.IsSuffix.trans ?_ (List.suffix_cons c rest)
      simp only [readString] at h
      split_ifs at h
      · cases h
        exact List.suffix_refl _
      · simp only [bind, Option.bind_eq_some_iff] at h
        obtain ⟨⟨chars, rest'⟩, hescape, ⟨value', escaped', after'⟩, hmore, h⟩ := h
        cases h
        exact (ih hmore).trans (readEscape_suffix (eq_ok_of_toOption hescape))
      · simp only [bind, Option.bind_eq_some_iff] at h
        obtain ⟨⟨value', escaped', after'⟩, hmore, h⟩ := h
        cases h
        exact ih hmore

theorem readWord_suffix {steps : Nat} {first escaped : Bool} {name : Text}
    (h : readWord steps first t = some (name, escaped, after)) :
    after <:+ t ∧ (first = true → after <:+ t.tail) := by
  induction steps generalizing first t name escaped with
  | zero => cases h
  | succ steps ih =>
    cases t with
    | nil =>
      cases first <;> cases h
      simp
    | cons c rest =>
      have hmore : after <:+ rest → after <:+ c :: rest ∧ (first = true → after <:+ rest) :=
        fun h => ⟨h.trans (List.suffix_cons c rest), fun _ => h⟩
      simp only [readWord] at h
      generalize (if first then Identifier.isStart else Identifier.isPart) = fits at h
      split_ifs at h
      case pos =>
        split at h
        case h_1 =>
          simp only [bind, Option.bind_eq_some_iff] at h
          obtain ⟨⟨n, rest'⟩, hpoint, h⟩ := h
          split_ifs at h
          simp only [Option.bind_eq_some_iff] at h
          obtain ⟨⟨name', escaped', after'⟩, hword, h⟩ := h
          cases h
          have hpoint := codePoint_suffix (eq_ok_of_toOption hpoint)
          exact hmore (((ih hword).1.trans hpoint).trans (List.suffix_cons _ _))
        case h_2 => cases h
      case pos =>
        simp only [bind, Option.bind_eq_some_iff] at h
        obtain ⟨⟨name', escaped', after'⟩, hword, h⟩ := h
        cases h
        exact hmore (ih hword).1
      case neg hfirst =>
        cases h
        exact ⟨List.suffix_refl _, fun h => absurd h hfirst⟩

theorem takeDigits_append (isDigit : Char → Bool) (t : Text) :
    (takeDigits isDigit t).1 ++ (takeDigits isDigit t).2 = t := by
  simp [takeDigits, List.span_eq_takeWhile_dropWhile]

theorem takeDigits_suffix (isDigit : Char → Bool) (t : Text) : (takeDigits isDigit t).2 <:+ t :=
  ⟨_, takeDigits_append isDigit t⟩

theorem unlessName_suffix (h : unlessName t = some after) : after <:+ t := by
  unfold unlessName at h
  split at h <;> cases h
  exact List.suffix_refl _

theorem afterRadix_suffix {base : Nat} (h : afterRadix base t = some after) : after <:+ t := by
  apply List.IsSuffix.trans ?_ (takeDigits_suffix (isDigitOf base) t)
  simp only [afterRadix] at h
  split at h
  · split at h
    case h_1 rest hrest =>
      cases h
      rw [hrest]
      exact List.suffix_cons _ _
    case h_2 => exact unlessName_suffix h
  · cases h

theorem afterExponent_suffix (h : afterExponent t = some after) : after <:+ t := by
  unfold afterExponent at h
  split at h
  case h_1 c rest =>
    dsimp only at h
    split_ifs at h
    · apply ((unlessName_suffix h).trans (takeDigits_suffix _ rest.tail)).trans
      exact (List.tail_suffix rest).trans (List.suffix_cons c rest)
    · exact ((unlessName_suffix h).trans (takeDigits_suffix _ rest)).trans (List.suffix_cons c rest)
    · exact unlessName_suffix h
  case h_2 =>
    cases h
    exact List.suffix_refl _

theorem afterPoint_suffix (h : afterPoint t = some after) : after <:+ t := by
  simp only [afterPoint] at h
  split at h
  · exact (afterExponent_suffix h).trans (takeDigits_suffix _ t)
  · cases h

theorem afterDecimal_suffix (h : afterDecimal t = some after) : after <:+ t.tail := by
  simp only [afterDecimal] at h
  have hsplit := takeDigits_append Char.isDigit t
  generalize takeDigits Char.isDigit t = parts at h hsplit
  obtain ⟨digits, rest⟩ := parts
  dsimp only at h
  split at h
  · cases h
  · rename_i hdigits
    cases digits with
    | nil => simp [wellSeparated] at hdigits
    | cons digit digits =>
      subst hsplit
      rw [List.cons_append, List.tail_cons]
      apply List.IsSuffix.trans ?_ (List.suffix_append digits rest)
      split at h
      · cases h
        exact List.suffix_cons _ _
      · exact (afterPoint_suffix h).trans (List.suffix_cons _ _)
      · exact afterExponent_suffix h

theorem afterNumber_suffix (h : afterNumber t = some after) : after <:+ t.tail := by
  unfold afterNumber at h
  split at h
  case h_1 c rest =>
    split_ifs at h
    · exact (afterRadix_suffix h).trans (List.suffix_cons _ _)
    · exact (afterRadix_suffix h).trans (List.suffix_cons _ _)
    · exact (afterRadix_suffix h).trans (List.suffix_cons _ _)
    · exact afterDecimal_suffix h
  case h_2 rest =>
    split at h
    · exact afterPoint_suffix h
    · cases h
  case h_3 => exact afterDecimal_suffix h

theorem mark?_pos {symbol : Symbol} {length : Nat} (h : mark? t = some (symbol, length)) :
    0 < length := by
  have hlong : ∀ m ∈ longMarks, 0 < m.1.toList.length := by decide
  unfold mark? at h
  split at h
  case h_1 hfind =>
    cases h
    exact hlong _ (List.mem_of_find?_eq_some hfind)
  case h_2 =>
    simp only [Option.bind_eq_some_iff, Option.map_eq_some_iff, Prod.mk.injEq] at h
    obtain ⟨-, -, -, -, -, rfl⟩ := h
    exact Nat.one_pos

/-- A token takes a character at least, unless it is the end of the script. -/
theorem readToken_suffix {token : Token} (h : readToken t = some (token, after)) :
    after <:+ t.tail := by
  unfold readToken at h
  split at h
  case h_1 =>
    cases h
    exact List.suffix_refl _
  case h_2 =>
    cases h
    exact List.suffix_refl _
  case h_3 => cases h
  case h_4 c rest _ _ =>
    split_ifs at h
    · obtain ⟨⟨value, escaped, after'⟩, hstring, heq⟩ := Option.map_eq_some_iff.1 h
      cases heq
      exact readString_suffix hstring
    · obtain ⟨after', hnumber, heq⟩ := Option.map_eq_some_iff.1 h
      cases heq
      exact afterNumber_suffix hnumber
    · simp only [readWordToken, bind, Option.bind_eq_some_iff] at h
      obtain ⟨⟨name, escaped, after'⟩, hword, h⟩ := h
      split at h <;> cases h
      exact (readWord_suffix hword).2 rfl
    · obtain ⟨⟨symbol, length⟩, hmark, heq⟩ := Option.map_eq_some_iff.1 h
      cases heq
      obtain ⟨length, rfl⟩ := Nat.exists_eq_add_of_lt (mark?_pos hmark)
      simpa using List.drop_suffix length rest

theorem readTemplateChunk_suffix {steps : Nat} {valid : Bool} {chunk : TemplateChunk}
    (h : readTemplateChunk steps valid t = some chunk) : chunk.after <:+ t := by
  fun_induction readTemplateChunk steps valid t with
  | case1 => cases h
  | case2 => cases h
  | case3 =>
    cases h
    exact List.suffix_cons _ _
  | case4 =>
    cases h
    exact (List.suffix_cons _ _).trans (List.suffix_cons _ _)
  | case5 _ _ rest _ after hescape ih =>
    exact ((ih h).trans (readEscape_suffix hescape)).trans (List.suffix_cons _ _)
  | case6 _ _ rest _ ih => exact ((ih h).trans (List.tail_suffix rest)).trans (List.suffix_cons _ _)
  | case7 => cases h
  | case8 => rename_i ih; exact (ih h).trans (List.suffix_cons _ _)

theorem afterPatternBody_suffix {inClass escaped : Bool}
    (h : afterPatternBody inClass escaped t = some after) : after <:+ t := by
  induction t generalizing inClass escaped with
  | nil => cases h
  | cons c rest ih =>
    apply List.IsSuffix.trans ?_ (List.suffix_cons c rest)
    simp only [afterPatternBody] at h
    split_ifs at h
    · exact ih h
    · cases h
      exact List.suffix_refl _
    · exact ih h
    · exact ih h
    · exact ih h

theorem afterPattern_suffix (h : afterPattern t = some after) : after <:+ t := by
  simp only [afterPattern, bind, Option.bind_eq_some_iff] at h
  obtain ⟨rest, hbody, ⟨flags, after'⟩, hflags, h⟩ := h
  split at h <;> cases h
  apply List.IsSuffix.trans ?_ (afterPatternBody_suffix hbody)
  unfold readFlags at hflags
  split at hflags
  · obtain ⟨⟨name, escaped, after'⟩, hword, heq⟩ := Option.map_eq_some_iff.1 hflags
    cases heq
    exact (readWord_suffix hword).1
  · cases hflags
    exact List.suffix_refl _

end Suffixes

/-! ### Places -/

/-- A later place in the same text, or the same place. -/
def Input.Upto (i j : Input) : Prop :=
  ∃ passed, i.rest = passed ++ j.rest ∧ j.offset = i.offset + passed.size

/-- A place that is later by a character at least, unless no text is left. -/
def Input.Past (i j : Input) : Prop := i.Upto j ∧ (i.rest ≠ [] → i.offset < j.offset)

theorem consumed_append (passed after : Text) : consumed (passed ++ after) after = passed := by
  simp [consumed]

namespace Input

variable {i j k : Input}

theorem Upto.refl (i : Input) : i.Upto i := ⟨[], rfl, rfl⟩

theorem Upto.trans (h : i.Upto j) (h' : j.Upto k) : i.Upto k := by
  obtain ⟨first, hfirst, hj⟩ := h
  obtain ⟨second, hsecond, hk⟩ := h'
  refine ⟨first ++ second, ?_, ?_⟩
  · rw [hfirst, hsecond, List.append_assoc]
  · rw [hk, hj, Text.size_append, Nat.add_assoc]

theorem Upto.offset_le (h : i.Upto j) : i.offset ≤ j.offset := by
  obtain ⟨passed, -, hoffset⟩ := h
  exact hoffset ▸ Nat.le_add_right ..

theorem Past.upto (h : i.Past j) : i.Upto j := h.1

theorem Past.trans_upto (h : i.Past j) (h' : j.Upto k) : i.Past k :=
  ⟨h.1.trans h', fun hi => Nat.lt_of_lt_of_le (h.2 hi) h'.offset_le⟩

theorem upto_past {after : Text} (h : after <:+ i.rest) :
    i.Upto (i.past (consumed i.rest after) after) := by
  obtain ⟨passed, hpassed⟩ := h
  refine ⟨passed, hpassed.symm, ?_⟩
  rw [past, ← hpassed, consumed_append]

theorem past_past {after : Text} (h : after <:+ i.rest.tail) :
    i.Past (i.past (consumed i.rest after) after) := by
  refine ⟨upto_past (h.trans (List.tail_suffix i.rest)), fun hi => ?_⟩
  obtain ⟨c, rest, hrest⟩ := List.exists_cons_of_ne_nil hi
  rw [hrest, List.tail_cons] at h
  obtain ⟨passed, hpassed⟩ := h
  have hconsumed : consumed i.rest after = c :: passed := by
    rw [hrest, ← hpassed, ← List.cons_append, consumed_append]
  rw [hconsumed, past, Text.size_cons]
  have := c.utf8Size_pos
  dsimp only
  omega

end Input

theorem skipGap_upto {gap : Gap} {newline ended : Bool} {offset : Nat} {t : Text} {here : Input}
    (h : skipGap gap newline offset t = some (ended, here)) : Input.Upto ⟨t, offset⟩ here := by
  induction t generalizing gap newline offset with
  | nil =>
    simp only [skipGap] at h
    split at h <;> cases h
    exact .refl _
  | cons c rest ih =>
    simp only [skipGap] at h
    split at h
    · have hskip : Input.Upto ⟨c :: rest, offset⟩ ⟨rest, offset + c.utf8Size⟩ :=
        ⟨[c], rfl, by simp⟩
      exact hskip.trans (ih h)
    · cases h
      exact .refl _

theorem readLexeme_upto {i : Input} {l : Lexeme} (h : readLexeme i = some l) :
    i.Upto l.here ∧ l.here.Past l.after := by
  simp only [readLexeme, bind, Option.bind_eq_some_iff] at h
  obtain ⟨⟨newline, here⟩, hgap, ⟨token, after⟩, htoken, h⟩ := h
  cases h
  exact ⟨skipGap_upto hgap, Input.past_past (readToken_suffix htoken)⟩

/-! ### States -/

namespace State

variable {s s₁ s₂ : State}

theorem upto_here (s : State) : s.ahead.Upto s.next.here := (readLexeme_upto s.lexed).1

theorem rest_ne_nil (h : s.next.token ≠ .endOfInput) : s.next.here.rest ≠ [] := by
  intro hnil
  have hlexed := s.lexed
  simp only [readLexeme, bind, Option.bind_eq_some_iff] at hlexed
  obtain ⟨⟨newline, here⟩, -, ⟨token, after⟩, htoken, hnext⟩ := hlexed
  rw [← Option.some.inj hnext] at h hnil
  rw [hnil] at htoken
  cases htoken
  exact h rfl

/-- A state past the next token. -/
def Passes (s s' : State) : Prop := s.next.here.Past s'.ahead

/-- A state at the same place or past the next token. -/
def Reaches (s s' : State) : Prop := s'.ahead = s.ahead ∨ s.Passes s'

theorem next_eq (h : s₁.ahead = s.ahead) : s₁.next = s.next := by
  have hlexed := s₁.lexed
  rw [h, s.lexed] at hlexed
  exact (Option.some.inj hlexed).symm

theorem Reaches.refl (s : State) : s.Reaches s := .inl rfl

theorem Passes.trans_reaches (h : s.Passes s₁) (h' : s₁.Reaches s₂) : s.Passes s₂ := by
  obtain hsame | hpass := h'
  · rw [Passes, hsame]
    exact h
  · exact h.trans_upto (s₁.upto_here.trans hpass.upto)

theorem Reaches.trans_passes (h : s.Reaches s₁) (h' : s₁.Passes s₂) : s.Passes s₂ := by
  obtain hsame | hpass := h
  · rw [Passes, ← next_eq hsame]
    exact h'
  · exact hpass.trans_reaches (.inr h')

theorem Reaches.trans (h : s.Reaches s₁) (h' : s₁.Reaches s₂) : s.Reaches s₂ := by
  obtain hsame | hpass := h'
  · rw [Reaches, Passes, hsame]
    exact h
  · exact .inr (h.trans_passes hpass)

end State

/-! ### Parsers that go on -/

namespace Parser

/-- A parser that stays at its place or goes past the next token. -/
def Moves {α : Type} (p : Parser α) : Prop := ∀ s a s', p s = some (a, s') → s.Reaches s'

/-- A parser that goes past the next token. -/
def Passes {α : Type} (p : Parser α) : Prop := ∀ s a s', p s = some (a, s') → s.Passes s'

variable {α β : Type} {p q : Parser α} {f : α → Parser β}

theorem exists_of_bind {s s' : State} {b : β} (h : (p >>= f) s = some (b, s')) :
    ∃ a middle, p s = some (a, middle) ∧ f a middle = some (b, s') := by
  obtain ⟨⟨a, middle⟩, hp, hf⟩ := Option.bind_eq_some_iff.1 h
  exact ⟨a, middle, hp, hf⟩

/-- What every step of a loop keeps, from the state and the value it begins with, holds at the
end of the loop. -/
theorem holds_of_repeated {step : α → Parser (α ⊕ β)} (Kept : State → α → Prop)
    (Wanted : State → β → Prop)
    (hstep : ∀ s a next s', Kept s a → step a s = some (next, s') →
      Sum.elim (Kept s') (Wanted s') next)
    {s s' : State} {a : α} {b : β} (ha : Kept s a) (h : repeated step a s = some (b, s')) :
    Wanted s' b := by
  obtain ⟨_, _, ⟨⟩, hrun⟩ := exists_of_bind h
  clear h
  generalize s.ahead.rest.length + 2 = steps at hrun
  induction steps generalizing s a with
  | zero => cases hrun
  | succ steps ih =>
    obtain ⟨next, middle, hfirst, hrest⟩ := exists_of_bind hrun
    have hnext := hstep s a next middle ha hfirst
    cases next with
    | inl a => exact ih hnext hrest
    | inr b =>
      cases hrest
      exact hnext

theorem Passes.moves (h : p.Passes) : p.Moves := fun s a s' hrun => .inr (h s a s' hrun)

namespace Moves

theorem pure (a : α) : Moves (Pure.pure a : Parser α) := by
  rintro s _ s' ⟨⟩
  exact .refl s

theorem failure : Moves (failure : Parser α) := by
  rintro s a s' ⟨⟩

theorem bind (hp : p.Moves) (hf : ∀ a, (f a).Moves) : (p >>= f).Moves := by
  intro s b s' hrun
  obtain ⟨a, middle, hfirst, hrest⟩ := exists_of_bind hrun
  exact (hp s a middle hfirst).trans (hf a middle b s' hrest)

theorem ite {condition : Prop} [Decidable condition] (hp : p.Moves) (hq : q.Moves) :
    (if condition then p else q).Moves := by
  split
  · exact hp
  · exact hq

theorem repeated {step : α → Parser (α ⊕ β)} (hstep : ∀ a, (step a).Moves) (a : α) :
    (Parser.repeated step a).Moves := by
  intro s b s' hrun
  apply holds_of_repeated (fun middle _ => s.Reaches middle) (fun middle _ => s.Reaches middle)
    ?_ (.refl s) hrun
  rintro middle a (next | result) last hreach hrun
  · exact hreach.trans (hstep a middle _ last hrun)
  · exact hreach.trans (hstep a middle _ last hrun)

theorem get : Moves (get : Parser State) := by
  rintro s _ s' ⟨⟩
  exact .refl s

theorem token : token.Moves := .bind .get fun _ => .pure _

theorem position : position.Moves := .bind .get fun _ => .pure _

theorem previous : previous.Moves := .bind .get fun _ => .pure _

theorem newline : newline.Moves := .bind .get fun _ => .pure _

theorem peek : peek.Moves := .bind .get fun _ => .pure _

theorem sees (symbol : Symbol) : (sees symbol).Moves := .bind .token fun _ => .pure _

theorem seesWord (word : String) : (seesWord word).Moves := .bind .token fun _ => .pure _

theorem canEnd : canEnd.Moves :=
  .bind .newline fun _ => .bind (.sees _) fun _ => .bind .token fun _ => .pure _

theorem require (condition : Bool) : (require condition).Moves := .ite (.pure _) .failure

end Moves

/-- To go on at a place is to go past the next token if the place is past it. -/
theorem passes_of_resume {i : Input} {s s' : State} (h : resume i s = some ((), s'))
    (hi : s.next.here.Past i) : s.Passes s' := by
  unfold resume at h
  split at h
  · cases h
    exact hi
  · cases h

namespace Passes

theorem failure : Passes (failure : Parser α) := by
  rintro s a s' ⟨⟩

theorem bind (hp : p.Passes) (hf : ∀ a, (f a).Moves) : (p >>= f).Passes := by
  intro s b s' hrun
  obtain ⟨a, middle, hfirst, hrest⟩ := exists_of_bind hrun
  exact (hp s a middle hfirst).trans_reaches (hf a middle b s' hrest)

/-- What passes may stand after what moves. -/
theorem after (hp : p.Moves) (hf : ∀ a, (f a).Passes) : (p >>= f).Passes := by
  intro s b s' hrun
  obtain ⟨a, middle, hfirst, hrest⟩ := exists_of_bind hrun
  exact (hp s a middle hfirst).trans_passes (hf a middle b s' hrest)

theorem ite {condition : Prop} [Decidable condition] (hp : p.Passes) (hq : q.Passes) :
    (if condition then p else q).Passes := by
  split
  · exact hp
  · exact hq

theorem advance : advance.Passes := by
  intro s _ s' hrun
  exact passes_of_resume hrun (readLexeme_upto s.lexed).2

/-- A branch that a symbol or a word opens need not go on. -/
theorem branch {test : Parser Bool} (htest : test.Moves) (hp : p.Moves) (hq : q.Passes) :
    ((do if ← test then Parser.advance; Pure.pure true else Pure.pure false) >>= fun found =>
      if found = true then p else q).Passes := by
  intro s b s' hrun
  obtain ⟨found, middle, hfirst, hrest⟩ := exists_of_bind hrun
  obtain ⟨seen, s₁, hseen, hfirst⟩ := exists_of_bind hfirst
  have hreach := htest s seen s₁ hseen
  cases seen with
  | true =>
    obtain ⟨_, s₂, hadvance, hfirst⟩ := exists_of_bind hfirst
    cases hfirst
    exact hreach.trans_passes ((advance s₁ _ middle hadvance).trans_reaches (hp middle b s' hrest))
  | false =>
    cases hfirst
    exact hreach.trans_passes (hq middle b s' hrest)

/-- A branch that a symbol opens need not go on. -/
theorem eat {symbol : Symbol} (hp : p.Moves) (hq : q.Passes) :
    (eat symbol >>= fun found => if found = true then p else q).Passes :=
  branch (.sees symbol) hp hq

theorem eatWord {word : String} (hp : p.Moves) (hq : q.Passes) :
    (eatWord word >>= fun found => if found = true then p else q).Passes :=
  branch (.seesWord word) hp hq

theorem expect (symbol : Symbol) : (expect symbol).Passes := eat (.pure _) .failure

theorem expectWord (word : String) : (expectWord word).Passes := eatWord (.pure _) .failure

end Passes

namespace Moves

theorem eat (symbol : Symbol) : (eat symbol).Moves :=
  .bind (.sees symbol) fun _ => .ite (.bind Passes.advance.moves fun _ => .pure _) (.pure _)

theorem eatWord (word : String) : (eatWord word).Moves :=
  .bind (.seesWord word) fun _ => .ite (.bind Passes.advance.moves fun _ => .pure _) (.pure _)

theorem semicolon : semicolon.Moves :=
  .bind (.eat _) fun _ => .ite (.pure _) (.bind .canEnd fun _ => .require _)

end Moves

end Parser

end Component.Script
