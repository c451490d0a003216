/-
What a parser does with a text whose tokens are known.

`Begins` says which token stands at the front of a text.  `Parser.Reads` says
that a parser gets from one text to a later one with a result that is as
wanted; it composes along `bind`, and along the steps of a loop.
-/
import Component.Script.Grammar

namespace Component.Script

/-- The token after the next one and whether a line ends before it. -/
def State.following (s : State) : Option (Token × Bool) :=
  (readLexeme s.next.after).map fun l => (l.token, l.newline)

/-! ### Parsers at a state -/

namespace Parser

variable {α β : Type}

@[simp] theorem bind_apply (p : Parser α) (f : α → Parser β) (s : State) :
    (p >>= f) s = (p s).bind fun r => f r.1 r.2 := rfl

@[simp] theorem map_apply (f : α → β) (p : Parser α) (s : State) :
    (f <$> p) s = (p s).bind fun r => some (f r.1, r.2) := rfl

@[simp] theorem pure_apply (a : α) (s : State) : (pure a : Parser α) s = some (a, s) := rfl

@[simp] theorem failure_apply (s : State) : (failure : Parser α) s = none := rfl

@[simp] theorem get_apply (s : State) : (get : Parser State) s = some (s, s) := rfl

@[simp] theorem modify_apply (f : State → State) (s : State) :
    (modify f : Parser PUnit) s = some (⟨⟩, f s) := rfl

@[simp] theorem token_apply (s : State) : token s = some (s.next.token, s) := rfl

@[simp] theorem newline_apply (s : State) : newline s = some (s.next.newline, s) := rfl

@[simp] theorem position_apply (s : State) : position s = some (s.next.here.offset, s) := rfl

@[simp] theorem previous_apply (s : State) : previous s = some (s.ahead.offset, s) := rfl

@[simp] theorem peek_apply (s : State) : peek s = some (s.following, s) := rfl

@[simp] theorem sees_apply (symbol : Symbol) (s : State) :
    sees symbol s = some (decide (s.next.token = .symbol symbol), s) := rfl

@[simp] theorem seesWord_apply (word : String) (s : State) :
    seesWord word s = some (decide (s.next.token = .word word.toList false), s) := rfl

@[simp] theorem require_apply (condition : Bool) (s : State) :
    require condition s = if condition then some ((), s) else none := by
  cases condition <;> rfl

theorem eat_apply_of_ne {symbol : Symbol} {s : State} (h : s.next.token ≠ .symbol symbol) :
    eat symbol s = some (false, s) := by
  simp [eat, h]

theorem resume_apply {i : Input} {next : Lexeme} (h : readLexeme i = some next) (s : State) :
    resume i s = some ((), { s with ahead := i, next := next, lexed := h }) := by
  unfold resume
  split
  case h_1 found hfound =>
    obtain rfl : found = next := Option.some.inj (hfound.symm.trans h)
    rfl
  case h_2 hnone => simp [h] at hnone

end Parser

/-! ### Texts and their tokens -/

/-- The token at the front of a text, whether a line ends before it, and the text after
it. -/
def front (text : Text) : Option (Token × Bool × Text) :=
  (readLexeme ⟨text, 0⟩).map fun l => (l.token, l.newline, l.after.rest)

/-- Where a gap is does not matter for what it skips. -/
theorem skipGap_offset (gap : Gap) (newline : Bool) (offset offset' : Nat) (text : Text) :
    (skipGap gap newline offset text).map (fun r => (r.1, r.2.rest)) =
      (skipGap gap newline offset' text).map (fun r => (r.1, r.2.rest)) := by
  induction text generalizing gap newline offset offset' with
  | nil => simp only [skipGap]; split <;> rfl
  | cons c rest ih =>
    simp only [skipGap]
    cases gap.step c rest.head? with
    | none => rfl
    | some gap => exact ih ..

theorem map_readLexeme (i : Input) :
    (readLexeme i).map (fun l => (l.token, l.newline, l.after.rest)) = front i.rest := by
  have hgap := skipGap_offset .plain false i.offset 0 i.rest
  simp only [front, readLexeme]
  cases hleft : skipGap .plain false i.offset i.rest <;>
    cases hright : skipGap .plain false 0 i.rest <;> simp [hleft, hright] at hgap ⊢
  case some.some left right =>
    rw [hgap.1, hgap.2]
    cases readToken right.2.rest <;> rfl

/-- A text that `token` begins, perhaps after a gap.  The flag says whether a line ends
before the token; `after` is the text that follows it. -/
def Begins (text : Text) (token : Token) (newline : Bool) (after : Text) : Prop :=
  front text = some (token, newline, after)

namespace Begins

variable {text after later : Text} {token following : Token} {newline newline' : Bool} {s : State}

theorem isSome (h : Begins text token newline after) : (front text).isSome :=
  Option.isSome_of_mem h

theorem exists_of_isSome (h : (front text).isSome) : ∃ token newline after,
    Begins text token newline after := by
  obtain ⟨⟨token, newline, after⟩, hfront⟩ := Option.isSome_iff_exists.1 h
  exact ⟨token, newline, after, hfront⟩

/-- A state at the text has its first token next. -/
theorem next (h : Begins text token newline after) (hs : s.ahead.rest = text) :
    s.next.token = token ∧ s.next.newline = newline ∧ s.next.after.rest = after := by
  have hnext := map_readLexeme s.ahead
  rw [s.lexed, hs, h] at hnext
  simpa using hnext

theorem token_eq (h : Begins text token newline after) (hs : s.ahead.rest = text) :
    s.next.token = token := (h.next hs).1

theorem newline_eq (h : Begins text token newline after) (hs : s.ahead.rest = text) :
    s.next.newline = newline := (h.next hs).2.1

theorem following_eq (h : Begins text token newline after)
    (hafter : Begins after following newline' later) (hs : s.ahead.rest = text) :
    s.following = some (following, newline') := by
  have hfollowing := map_readLexeme s.next.after
  rw [(h.next hs).2.2, hafter, Option.map_eq_some_iff] at hfollowing
  obtain ⟨lexeme, hread, hlexeme⟩ := hfollowing
  simp only [Prod.mk.injEq] at hlexeme
  simp [State.following, hread, hlexeme]

end Begins

/-! ### Reading -/

/-- From any state at `text` the parser gets to `rest`, with a result that fits; there
are such states. -/
def Parser.Reads {α : Type} (p : Parser α) (text : Text) (Fits : α → Prop) (rest : Text) : Prop :=
  (front text).isSome ∧
    ∀ s : State, s.ahead.rest = text → ∃ a s', p s = some (a, s') ∧ Fits a ∧ s'.ahead.rest = rest

/-- A place that begins with a token is that of a state. -/
theorem exists_lexed {i : Input} (h : (front i.rest).isSome) :
    ∃ next, readLexeme i = some next := by
  rw [← map_readLexeme, Option.isSome_map] at h
  exact Option.isSome_iff_exists.1 h

namespace Parser.Reads

variable {α β : Type} {p q : Parser α} {f : α → Parser β} {Fits Fits' : α → Prop}
variable {Wanted : β → Prop} {text middle rest after : Text} {token : Token} {newline : Bool}

theorem imp (h : p.Reads text Fits rest) (himp : ∀ a, Fits a → Fits' a) :
    p.Reads text Fits' rest := by
  refine ⟨h.1, fun s hs => ?_⟩
  obtain ⟨a, s', hrun, hfits, hrest⟩ := h.2 s hs
  exact ⟨a, s', hrun, himp a hfits, hrest⟩

theorem pure {a : α} (htext : (front text).isSome) (ha : Fits a) :
    Parser.Reads (Pure.pure a) text Fits text :=
  ⟨htext, fun s hs => ⟨a, s, rfl, ha, hs⟩⟩

theorem exists_run (h : p.Reads text Fits rest) :
    ∃ (s s' : State) (a : α), s.ahead.rest = text ∧ p s = some (a, s') ∧ s'.ahead.rest = rest := by
  obtain ⟨next, hnext⟩ := exists_lexed (i := ⟨text, 0⟩) h.1
  obtain ⟨a, s', hrun, -, hrest⟩ := h.2 ⟨⟨text, 0⟩, next, hnext, none⟩ rfl
  exact ⟨_, s', a, rfl, hrun, hrest⟩

/-- Where the parser ends, a token follows again. -/
theorem isSome_rest (h : p.Reads text Fits rest) : (front rest).isSome := by
  obtain ⟨-, s', -, -, -, hrest⟩ := h.exists_run
  rw [← hrest, ← map_readLexeme, s'.lexed]
  rfl

/-- One parser after another. -/
theorem bind (h : p.Reads text Fits middle) (hf : ∀ a, Fits a → (f a).Reads middle Wanted rest) :
    (p >>= f).Reads text Wanted rest := by
  refine ⟨h.1, fun s hs => ?_⟩
  obtain ⟨a, s₁, hrun, hfits, hmiddle⟩ := h.2 s hs
  obtain ⟨b, s₂, hrun', hwanted, hrest⟩ := (hf a hfits).2 s₁ hmiddle
  exact ⟨b, s₂, by simp [hrun, hrun'], hwanted, hrest⟩

/-- A result that depends on what the parser gave. -/
theorem map {g : α → β} (h : p.Reads text Fits rest) (hg : ∀ a, Fits a → Wanted (g a)) :
    (p >>= fun a => Pure.pure (g a)).Reads text Wanted rest :=
  h.bind fun a ha => pure h.isSome_rest (hg a ha)

/-- A parser that does the same as another where the text is. -/
theorem of_eq (h : q.Reads text Fits rest) (heq : ∀ s : State, s.ahead.rest = text → p s = q s) :
    p.Reads text Fits rest := by
  refine ⟨h.1, fun s hs => ?_⟩
  rw [heq s hs]
  exact h.2 s hs

/-- A parser that only looks at the state comes first. -/
theorem look {p : Parser β} {k : β → Parser α} (htext : (front text).isSome)
    (hp : ∀ s, ∃ b, p s = some (b, s)) (h : ∀ b, (k b).Reads text Fits rest) :
    (p >>= k).Reads text Fits rest := by
  refine ⟨htext, fun s hs => ?_⟩
  obtain ⟨b, hb⟩ := hp s
  simpa [hb] using (h b).2 s hs

/-- A parser that looks at the state comes first, and what it finds is known. -/
theorem test {p : Parser β} {k : β → Parser α} {b : β}
    (hp : ∀ s : State, s.ahead.rest = text → p s = some (b, s)) (h : (k b).Reads text Fits rest) :
    (p >>= k).Reads text Fits rest := by
  refine of_eq h fun s hs => ?_
  simp [hp s hs]

/-- A parser that first changes what the state holds besides its place. -/
theorem adjust {change : State → State} (hchange : ∀ s, (change s).ahead = s.ahead)
    (h : p.Reads text Fits rest) :
    ((modify change : Parser PUnit) >>= fun _ => p).Reads text Fits rest := by
  refine ⟨h.1, fun s hs => ?_⟩
  simpa using h.2 (change s) (by rw [hchange, hs])

/-- A parser that first moves past the token at the front. -/
theorem past (hbegins : Begins text token newline after) (h : p.Reads after Fits rest) :
    (Parser.advance >>= fun _ => p).Reads text Fits rest := by
  refine ⟨hbegins.isSome, fun s hs => ?_⟩
  have hafter := (hbegins.next hs).2.2
  obtain ⟨next, hnext⟩ := exists_lexed (i := s.next.after) (hafter ▸ h.1)
  obtain ⟨a, s', hrun, hfits, hrest⟩ :=
    h.2 { s with ahead := s.next.after, next := next, lexed := hnext } hafter
  refine ⟨a, s', ?_, hfits, hrest⟩
  simp [Parser.advance, Parser.resume_apply hnext, hrun]

/-- A parser that moves past the token at the front and then goes on as `q` does. -/
theorem step (hbegins : Begins text token newline after) (h : q.Reads after Fits rest)
    (heq : ∀ s : State, s.ahead.rest = text → p s = (Parser.advance >>= fun _ => q) s) :
    p.Reads text Fits rest :=
  of_eq (past hbegins h) heq

theorem eat {symbol : Symbol} {k : Bool → Parser α}
    (hbegins : Begins text (.symbol symbol) newline after) (h : (k true).Reads after Fits rest) :
    (Parser.eat symbol >>= k).Reads text Fits rest := by
  refine step hbegins h fun s hs => ?_
  have htoken := hbegins.token_eq hs
  cases hadvance : Parser.advance s <;> simp [Parser.eat, htoken, hadvance]

theorem eat_other {symbol : Symbol} {k : Bool → Parser α}
    (hbegins : Begins text token newline after)
    (hne : token ≠ .symbol symbol) (h : (k false).Reads text Fits rest) :
    (Parser.eat symbol >>= k).Reads text Fits rest := by
  refine of_eq h fun s hs => ?_
  have htoken := hbegins.token_eq hs
  simp [Parser.eat, htoken, hne]

theorem eatWord {word : String} {k : Bool → Parser α}
    (hbegins : Begins text (.word word.toList false) newline after)
    (h : (k true).Reads after Fits rest) : (Parser.eatWord word >>= k).Reads text Fits rest := by
  refine step hbegins h fun s hs => ?_
  have htoken := hbegins.token_eq hs
  cases hadvance : Parser.advance s <;> simp [Parser.eatWord, htoken, hadvance]

theorem eatWord_other {word : String} {k : Bool → Parser α}
    (hbegins : Begins text token newline after) (hne : token ≠ .word word.toList false)
    (h : (k false).Reads text Fits rest) : (Parser.eatWord word >>= k).Reads text Fits rest := by
  refine of_eq h fun s hs => ?_
  have htoken := hbegins.token_eq hs
  simp [Parser.eatWord, htoken, hne]

theorem expectWord {word : String} {k : Unit → Parser α}
    (hbegins : Begins text (.word word.toList false) newline after)
    (h : (k ()).Reads after Fits rest) : (Parser.expectWord word >>= k).Reads text Fits rest := by
  refine step hbegins h fun s hs => ?_
  have htoken := hbegins.token_eq hs
  cases hadvance : Parser.advance s <;> simp [Parser.expectWord, Parser.eatWord, htoken, hadvance]

theorem expect {symbol : Symbol} {k : Unit → Parser α}
    (hbegins : Begins text (.symbol symbol) newline after) (h : (k ()).Reads after Fits rest) :
    (Parser.expect symbol >>= k).Reads text Fits rest := by
  refine step hbegins h fun s hs => ?_
  have htoken := hbegins.token_eq hs
  cases hadvance : Parser.advance s <;> simp [Parser.expect, Parser.eat, htoken, hadvance]

theorem expect_last {symbol : Symbol} (hbegins : Begins text (.symbol symbol) newline after)
    (hafter : (front after).isSome) : (Parser.expect symbol).Reads text (fun _ => True) after := by
  refine step hbegins (pure (a := ()) hafter trivial) fun s hs => ?_
  have htoken := hbegins.token_eq hs
  cases hadvance : Parser.advance s <;> simp [Parser.expect, Parser.eat, htoken, hadvance]

end Parser.Reads

/-! ### Loops -/

/-- The loop that repeats `step` gets from `text` to `rest` if it may take more steps than
the text has characters. -/
def Parser.Loops {α β : Type} (step : α → Parser (α ⊕ β)) (a : α) (text : Text) (Fits : β → Prop)
    (rest : Text) : Prop :=
  ∀ steps, text.length < steps → (Parser.iterate step steps a).Reads text Fits rest

namespace Parser.Loops

variable {α β : Type} {step : α → Parser (α ⊕ β)} {a : α} {Fits : β → Prop} {Next : α → Prop}
variable {text middle rest : Text}

/-- A step that gives a result ends the loop. -/
theorem done (h : (step a).Reads text (fun r => ∃ b, r = .inr b ∧ Fits b) rest) :
    Parser.Loops step a text Fits rest := by
  intro steps hsteps
  obtain ⟨steps, rfl⟩ := Nat.exists_eq_add_of_lt hsteps
  refine h.bind ?_
  rintro _ ⟨b, rfl, hfits⟩
  exact .pure h.isSome_rest hfits

/-- A step that goes on moves past some of the text. -/
theorem more (h : (step a).Reads text (fun r => ∃ b, r = .inl b ∧ Next b) middle)
    (hlength : middle.length < text.length)
    (hmore : ∀ b, Next b → Parser.Loops step b middle Fits rest) :
    Parser.Loops step a text Fits rest := by
  intro steps hsteps
  obtain ⟨extra, rfl⟩ := Nat.exists_eq_add_of_lt hsteps
  refine h.bind ?_
  rintro _ ⟨b, rfl, hnext⟩
  exact hmore b hnext (text.length + extra) (by omega)

theorem repeated (h : Parser.Loops step a text Fits rest) :
    (Parser.repeated step a).Reads text Fits rest := by
  have hreads := h (text.length + 2) (by omega)
  refine hreads.of_eq fun s hs => ?_
  simp [Parser.repeated, hs]

end Parser.Loops

end Component.Script
