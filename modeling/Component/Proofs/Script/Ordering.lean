/-
The order of the items of a script.

Rules read onward, so the items that are read stand one after another in the script, and so do
the declarators that an item exports, each with its initializer at its end.
-/
import Component.Proofs.Markup.StartTag
import Component.Proofs.Script.Names
import Component.Proofs.Script.Progress.Statements

namespace Component

theorem Markup.OrderedWithin.append {first middle last : Nat} {spans more : List Span}
    (h : OrderedWithin first middle spans) (hmore : OrderedWithin middle last more) :
    OrderedWithin first last (spans ++ more) := by
  induction spans generalizing first with
  | nil => exact hmore.of_le h
  | cons span spans ih => exact ⟨h.1, h.2.1, ih h.2.2⟩

namespace Script

open Component.Script.Parser
open Markup (OrderedWithin)

/-! ### Items in order -/

/-- Declarators that stand one after another between two offsets, each with its initializer
before its end. -/
structure Declarator.Placed (first last : Nat) (declarators : List Declarator) : Prop where
  ordered : OrderedWithin first last (declarators.map Declarator.span)
  values : ∀ d ∈ declarators, ∀ span, d.initializer = some span →
    span.start ≤ span.stop ∧ span.stop ≤ d.span.stop

/-- Items that stand one after another in a script, each around the declarators that it
exports. -/
structure InOrder (script : Text) (items : List Item) : Prop where
  ordered : OrderedWithin 0 script.size (items.map Item.span)
  exported : ∀ item ∈ items, Declarator.Placed item.span.start item.span.stop item.exported

theorem InOrder.of_le {script script' : Text} {items : List Item} (h : InOrder script items)
    (hle : script.size ≤ script'.size) : InOrder script' items :=
  ⟨h.ordered.le_of_le hle, h.exported⟩

namespace Declarator.Placed

variable {first last : Nat} {declarators : List Declarator}

theorem nil (h : first ≤ last) : Placed first last [] := ⟨h, fun d hd => by cases hd⟩

theorem of_le {first' last' : Nat} (h : Placed first last declarators) (hfirst : first' ≤ first)
    (hlast : last ≤ last') : Placed first' last' declarators :=
  ⟨(h.ordered.of_le hfirst).le_of_le hlast, h.values⟩

theorem append {middle : Nat} {more : List Declarator} (h : Placed first middle declarators)
    (hmore : Placed middle last more) : Placed first last (declarators ++ more) := by
  constructor
  · rw [List.map_append]
    exact h.ordered.append hmore.ordered
  · intro d hd
    rcases List.mem_append.1 hd with hold | hnew
    · exact h.values d hold
    · exact hmore.values d hnew

end Declarator.Placed

/-! ### Declarators -/

namespace State

variable {s s' : State}

theorem Reaches.upto (h : s.Reaches s') : s.ahead.Upto s'.ahead := by
  obtain hsame | hpass := h
  · rw [hsame]
    exact .refl _
  · exact s.upto_here.trans hpass.upto

theorem Reaches.here_le (h : s.Reaches s') : s.next.here.offset ≤ s'.next.here.offset := by
  obtain hsame | hpass := h
  · rw [next_eq hsame]
  · exact (hpass.upto.trans s'.upto_here).offset_le

theorem Passes.here_lt (h : s.Passes s') (htoken : s.next.token ≠ .endOfInput) :
    s.next.here.offset < s'.ahead.offset := h.2 (rest_ne_nil htoken)

end State

section Declarators

variable {depth : Nat} {c : Context} {s s' : State}

/-- No pattern begins at the end of a script. -/
theorem token_ne_of_pattern {pattern : Pattern}
    (h : (Grammar.atDepth depth).pattern c s = some (pattern, s')) :
    s.next.token ≠ .endOfInput := by
  intro htoken
  cases depth with
  | zero => cases h
  | succ depth =>
    have hnone : readPattern (.atDepth depth) c s = none := by
      simp [readPattern, eat_apply_of_ne, bindingName, htoken]
    exact absurd (hnone.symm.trans h) (by simp)

/-- A declarator is a pattern, perhaps with a value; what is read after the pattern is the mark
between the two, if it is there. -/
theorem readDeclarator_cases {g : Grammar} {d : Declarator}
    (h : readDeclarator g c s = some (d, s')) :
    ∃ s₁ found s₂, g.pattern c s = some (d.pattern, s₁) ∧ eat .assign s₁ = some (found, s₂) ∧
      d.span = ⟨s.next.here.offset, s'.ahead.offset⟩ ∧
      (d.initializer = none ∨ ∃ shape, g.assignment c s₂ = some (shape, s') ∧
        d.initializer = some ⟨s₂.next.here.offset, s'.ahead.offset⟩) := by
  obtain ⟨_, _, ⟨⟩, hrest⟩ := exists_of_bind h
  obtain ⟨pattern, s₁, hpattern, htest⟩ := exists_of_bind hrest
  obtain ⟨found, s₂, heat, hbranch⟩ := exists_of_bind htest
  cases found with
  | true =>
    obtain ⟨_, _, ⟨⟩, hvalue⟩ := exists_of_bind hbranch
    obtain ⟨shape, _, hassignment, hend⟩ := exists_of_bind hvalue
    obtain ⟨_, _, ⟨⟩, ⟨⟩⟩ := exists_of_bind hend
    exact ⟨s₁, true, s₂, hpattern, heat, rfl, .inr ⟨shape, hassignment, rfl⟩⟩
  | false =>
    obtain ⟨_, _, ⟨⟩, ⟨⟩⟩ := exists_of_bind hbranch
    exact ⟨s₁, false, s', hpattern, heat, rfl, .inl rfl⟩

theorem placed_of_readDeclarator {d : Declarator}
    (h : readDeclarator (.atDepth depth) c s = some (d, s')) :
    Declarator.Placed s.next.here.offset s'.ahead.offset [d] := by
  have hg := Grammar.passes_atDepth depth
  have hpass := Passes.readDeclarator hg s d s' h
  obtain ⟨s₁, found, s₂, hpattern, -, hspan, hvalue⟩ := readDeclarator_cases h
  have hlt := hpass.here_lt (token_ne_of_pattern hpattern)
  refine ⟨?_, List.forall_mem_singleton.2 fun span hinitializer => ?_⟩
  · rw [List.map_singleton, hspan]
    exact ⟨Nat.le_refl _, hlt, Nat.le_refl _⟩
  · obtain hnone | ⟨shape, hassignment, hsome⟩ := hvalue
    · rw [hnone] at hinitializer
      cases hinitializer
    · rw [hsome] at hinitializer
      cases hinitializer
      rw [hspan]
      exact ⟨(hg.assignment c s₂ _ s' hassignment).upto.offset_le, Nat.le_refl _⟩

theorem placed_of_readVariables {isConstant : Bool} {declarators : List Declarator}
    (h : readVariables (.atDepth depth) c isConstant s = some (declarators, s')) :
    Declarator.Placed s.next.here.offset s'.ahead.offset declarators := by
  obtain ⟨_, s₁, hdeclarators, hcheck⟩ := exists_of_bind h
  obtain ⟨_, _, hcomplete, hrest⟩ := exists_of_bind hcheck
  obtain rfl := eq_of_require hcomplete
  obtain ⟨_, _, hsemicolon, ⟨⟩⟩ := exists_of_bind hrest
  apply Declarator.Placed.of_le ?_ (Nat.le_refl _) (Moves.semicolon _ _ _ hsemicolon).upto.offset_le
  -- Between two turns the declarators end before the next token.
  apply holds_of_repeated
    (fun m ds => Declarator.Placed s.next.here.offset m.next.here.offset ds)
    (fun m ds => Declarator.Placed s.next.here.offset m.ahead.offset ds)
    ?_ (.nil (Nat.le_refl _)) hdeclarators
  intro m ds next last hplaced hstep
  obtain ⟨d, s₂, hdeclarator, htest⟩ := exists_of_bind hstep
  obtain ⟨found, s₃, heat, hbranch⟩ := exists_of_bind htest
  have hreach : s₂.Reaches s₃ := Moves.eat _ _ _ _ heat
  have hmore := hplaced.append (placed_of_readDeclarator hdeclarator)
  cases found with
  | true =>
    cases hbranch
    exact hmore.of_le (Nat.le_refl _) (s₂.upto_here.offset_le.trans hreach.here_le)
  | false =>
    cases hbranch
    exact hmore.of_le (Nat.le_refl _) hreach.upto.offset_le

end Declarators

/-! ### Exported declarators -/

/-- The parser gives declarators that are related to where it begins and ends, if it gives
any. -/
def Parser.Relates {α : Type} (Rel : State → State → List Declarator → Prop) (p : Parser α)
    (declarators : α → List Declarator) : Prop :=
  ∀ s a s', p s = some (a, s') → declarators a ≠ [] → Rel s s' (declarators a)

/-- A relation that holds from an earlier state on if it holds from a later one. -/
def Extends (Rel : State → State → List Declarator → Prop) : Prop :=
  ∀ s middle s' declarators, s.Reaches middle → Rel middle s' declarators → Rel s s' declarators

namespace Parser.Relates

variable {α β : Type} {p q : Parser α} {f : α → Parser β} {declarators : α → List Declarator}
  {given : β → List Declarator} {Rel : State → State → List Declarator → Prop}

theorem none (h : p.Gives fun a => declarators a = []) : p.Relates Rel declarators :=
  fun s a s' hrun hne => absurd (h s a s' hrun) hne

theorem after (hextends : Extends Rel) (hp : p.Moves) (hf : ∀ a, (f a).Relates Rel given) :
    (p >>= f).Relates Rel given := by
  intro s b s' hrun hne
  obtain ⟨a, middle, hfirst, hrest⟩ := exists_of_bind hrun
  exact hextends s middle s' _ (hp s a middle hfirst) (hf a middle b s' hrest hne)

theorem ite {condition : Prop} [Decidable condition] (hp : p.Relates Rel declarators)
    (hq : q.Relates Rel declarators) : (if condition then p else q).Relates Rel declarators := by
  split
  · exact hp
  · exact hq

/-- What is made of a result has the declarators of the result. -/
theorem made (hp : p.Relates Rel declarators)
    (hf : ∀ a, ∃ b, f a = pure b ∧ given b = declarators a) : (p >>= f).Relates Rel given := by
  intro s b s' hrun
  obtain ⟨a, _, hfirst, hrest⟩ := exists_of_bind hrun
  obtain ⟨made, hmade, hgiven⟩ := hf a
  rw [hmade] at hrest
  cases hrest
  rw [hgiven]
  exact hp s a s' hfirst

end Parser.Relates

def Exported.declarators : Exported → List Declarator
  | .variables declarators => declarators
  | .other _ => []

section Items

variable {depth : Nat} {c : Context} {Rel : State → State → List Declarator → Prop}

theorem relates_readExport (hextends : Extends Rel)
    (h : ∀ isConstant, (readVariables (.atDepth depth) c isConstant).Relates Rel id) :
    (readExport (.atDepth depth) c).Relates Rel Exported.declarators := by
  refine .after hextends (.eat _) fun seesStar => .ite (.none ?_) ?_
  · refine .after fun named => .ite (.after fun _ => ?_) ?_
    · exact .after fun _ => .after fun _ => .after fun _ => .pure rfl
    · exact .after fun _ => .after fun _ => .after fun _ => .pure rfl
  refine .after hextends (.eat _) fun seesBrace => .ite (.none (.after fun _ => .pure rfl)) ?_
  refine .after hextends (.eatWord _) fun seesDefault => .ite (.none (.after fun _ => .pure rfl)) ?_
  refine .after hextends (.seesWord _) fun _ => .after hextends (.seesWord _) fun _ => .ite ?_ ?_
  · exact .after hextends Passes.advance.moves fun _ => .made (h false) fun _ => ⟨_, rfl, rfl⟩
  refine .after hextends (.eatWord _) fun _ => .ite ?_ (.none ?_)
  · exact .made (h true) fun _ => ⟨_, rfl, rfl⟩
  refine .after fun _ => .ite (.after fun _ => .pure rfl) ?_
  exact .after fun _ => .ite (.after fun _ => .pure rfl) (.after fun _ => .pure rfl)

/-- An item has the span it is given. -/
theorem span_of_readTopLevel :
    (readTopLevel (.atDepth depth) c).Gives fun make => ∀ span, (make span).span = span := by
  refine .after fun _ => .ite (.after fun _ => .after fun _ => .pure fun _ => rfl) ?_
  refine .after fun _ => .ite (.after fun exported => ?_) ?_
  · cases exported <;> exact .pure fun _ => rfl
  refine .after fun _ => .after fun _ => .ite ?_ ?_
  · exact .after fun _ => .after fun _ => .pure fun _ => rfl
  refine .after fun _ => .ite (.after fun _ => .pure fun _ => rfl) ?_
  refine .after fun _ => .ite (.after fun _ => .pure fun _ => rfl) ?_
  refine .after fun _ => .ite (.after fun _ => .pure fun _ => rfl) ?_
  refine .after fun _ => .ite (.after fun _ => .pure fun _ => rfl) ?_
  exact .after fun _ => .pure fun _ => rfl

theorem relates_readTopLevel (hextends : Extends Rel)
    (h : ∀ isConstant, (readVariables (.atDepth depth) c isConstant).Relates Rel id) (span : Span) :
    (readTopLevel (.atDepth depth) c).Relates Rel fun make => (make span).exported := by
  refine .after hextends .seesImportDeclaration fun _ => .ite (.none ?_) ?_
  · exact .after fun _ => .after fun _ => .pure rfl
  refine .after hextends (.eatWord _) fun _ =>
    .ite (.made (relates_readExport hextends h) fun exported => ?_) (.none ?_)
  · cases exported <;> exact ⟨_, rfl, rfl⟩
  refine .after fun _ => .after fun _ => .ite (.after fun _ => .after fun _ => .pure rfl) ?_
  refine .after fun _ => .ite (.after fun _ => .pure rfl) ?_
  refine .after fun _ => .ite (.after fun _ => .pure rfl) ?_
  refine .after fun _ => .ite (.after fun _ => .pure rfl) ?_
  exact .after fun _ => .ite (.after fun _ => .pure rfl) (.after fun _ => .pure rfl)

/-- Exported declarators stand between the next token and where the item ends. -/
theorem places_readTopLevel (span : Span) :
    (readTopLevel (.atDepth depth) c).Relates
      (fun s s' ds => Declarator.Placed s.next.here.offset s'.ahead.offset ds)
      fun make => (make span).exported := by
  refine relates_readTopLevel ?_ (fun _ _ _ _ hrun _ => placed_of_readVariables hrun) span
  exact fun s middle s' ds hreach hplaced => hplaced.of_le hreach.here_le (Nat.le_refl _)

end Items

/-! ### Scripts -/

/-- The place from which a script is read on lies in the script: an interpreter line counts
among the offsets, though it is not read. -/
theorem Input.upto_start (script : Text) : Input.Upto ⟨script, 0⟩ (.start script) := by
  unfold Input.start
  split
  case h_1 rest =>
    have hline := List.takeWhile_prefix (l := rest) fun c => !isLineBreak c
    have hmarks : '#'.utf8Size = 1 ∧ '!'.utf8Size = 1 := by decide
    refine ⟨'#' :: '!' :: rest.takeWhile fun c => !isLineBreak c, ?_, ?_⟩
    · exact congrArg ('#' :: '!' :: ·) (List.prefix_iff_eq_append.1 hline).symm
    · simp only [Text.size_cons]
      omega
  case h_2 => exact .refl _

/-- What holds of no items and is kept by each item that is read holds of the items of a module. -/
theorem holds_of_readModule {depth : Nat} (Kept : State → List Item → Prop)
    (hstep : ∀ (m last : State) (known : List Item) (make : Span → Item), Kept m known →
      m.next.token ≠ .endOfInput → readTopLevel (.atDepth depth) .module m = some (make, last) →
      Kept last (known ++ [make ⟨m.next.here.offset, last.ahead.offset⟩]))
    {s s' : State} {items : List Item} (hstart : Kept s [])
    (h : readModule (.atDepth depth) s = some (items, s')) : Kept s' items := by
  apply holds_of_repeated Kept Kept ?_ hstart h
  intro m known next last hkept hturn
  obtain ⟨_, _, ⟨⟩, hbranch⟩ := exists_of_bind hturn
  split at hbranch
  case isTrue =>
    cases hbranch
    exact hkept
  case isFalse htoken =>
    obtain ⟨_, _, ⟨⟩, hitem⟩ := exists_of_bind hbranch
    obtain ⟨make, s₁, htop, hend⟩ := exists_of_bind hitem
    obtain ⟨_, _, ⟨⟩, ⟨⟩⟩ := exists_of_bind hend
    exact hstep m last known make hkept htoken htop

/-- The items of a module stand one after another, up to where it has been read. -/
theorem inOrder_of_readModule {depth : Nat} {s s' : State} {items : List Item}
    (h : readModule (.atDepth depth) s = some (items, s')) :
    s.Reaches s' ∧ OrderedWithin 0 s'.ahead.offset (items.map Item.span) ∧
      ∀ item ∈ items, Declarator.Placed item.span.start item.span.stop item.exported := by
  apply holds_of_readModule (fun m known => s.Reaches m ∧
    OrderedWithin 0 m.ahead.offset (known.map Item.span) ∧
      ∀ item ∈ known, Declarator.Placed item.span.start item.span.stop item.exported)
    ?_ ⟨.refl s, Nat.zero_le _, by simp⟩ h
  rintro m last known make ⟨hreach, hordered, hexported⟩ htoken htop
  have hpass := Passes.readTopLevel (Grammar.passes_atDepth depth) m make last htop
  have hlt := hpass.here_lt htoken
  have hspan := span_of_readTopLevel m make last htop
  refine ⟨.inr (hreach.trans_passes hpass), ?_, ?_⟩
  · rw [List.map_append]
    apply hordered.append
    rw [List.map_singleton, hspan]
    exact ⟨m.upto_here.offset_le, hlt, Nat.le_refl _⟩
  · refine List.forall_mem_append.2 ⟨hexported, List.forall_mem_singleton.2 ?_⟩
    rw [hspan]
    by_cases hnone : (make ⟨m.next.here.offset, last.ahead.offset⟩).exported = []
    · rw [hnone]
      exact .nil (Nat.le_of_lt hlt)
    · exact places_readTopLevel _ m make last htop hnone

theorem inOrder_of_read {script : Text} {items : List Item} (h : read script = .ok items) :
    InOrder script items := by
  obtain ⟨depth, s, s', hstart, hmodule⟩ := exists_readModule_of_read h
  obtain ⟨hreach, hordered, hexported⟩ := inOrder_of_readModule hmodule
  refine ⟨hordered.le_of_le ?_, hexported⟩
  obtain ⟨passed, hrest, hoffset⟩ := (Input.upto_start script).trans (hstart ▸ hreach.upto)
  have hsize := congrArg Text.size hrest
  rw [Text.size_append] at hsize
  dsimp only at hoffset hsize
  omega

end Script
end Component
