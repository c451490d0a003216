/-
How far the rules of expressions read.

Each rule stays at its place or goes past the next token, as long as the rules to which it
refers go past theirs.  The argument for a rule follows the steps of the rule.
-/
import Component.Proofs.Script.Progress

namespace Component.Script

open Component.Script.Parser

/-- A table of which every parser goes past the next token. -/
structure Grammar.Passes (g : Grammar) : Prop where
  assignment : ∀ c, (g.assignment c).Passes
  unary : ∀ c, (g.unary c).Passes
  binary : ∀ level c, (g.binary level c).Passes
  leftHandSide : ∀ c, (g.leftHandSide c).Passes
  constructed : ∀ c, (g.constructed c).Passes
  pattern : ∀ c, (g.pattern c).Passes
  item : ∀ c, (g.item c).Passes
  statement : ∀ c, (g.statement c).Passes

/-! ### Names and lists -/

theorem Parser.eq_some_of_lift {α : Type} {found : Option α} {a : α} {s s' : State}
    (h : (liftM found : Parser α) s = some (a, s')) : found = some a ∧ s = s' := by
  cases found with
  | none => cases h
  | some b =>
    cases h
    exact ⟨rfl, rfl⟩

theorem Parser.eq_of_require {condition : Bool} {u : Unit} {s s' : State}
    (h : require condition s = some (u, s')) : s = s' := by
  rw [require_apply] at h
  split at h <;> cases h
  rfl

theorem Parser.Passes.reference {c : Context} : (reference c).Passes := by
  apply Passes.after .token
  intro t
  split
  · exact .after (.require _) fun _ => .bind .advance fun _ => .pure _
  · exact .failure

theorem Parser.Passes.bindingName : bindingName.Passes := by
  apply Passes.after .token
  intro t
  split
  · exact .after (.require _) fun _ => .bind .advance fun _ => .pure _
  · exact .failure

theorem Parser.Passes.privateName : privateName.Passes := by
  apply Passes.bind (.expect _)
  intro _
  apply Moves.bind .token
  intro t
  split
  · exact .bind Passes.advance.moves fun _ => .pure _
  · exact .failure

theorem Parser.Moves.listUntil {α : Type} {closing : Symbol} {item : Parser α}
    (hitem : item.Moves) : (listUntil closing item).Moves := by
  apply Moves.repeated
  intro items
  refine .bind (.eat _) fun _ => .ite (.pure _) (.bind hitem fun _ => .bind (.eat _) fun _ => ?_)
  exact .ite (.pure _) (.bind (Passes.expect _).moves fun _ => .pure _)

section Rules

variable {g : Grammar} {c : Context} (hg : g.Passes)

include hg

theorem Parser.Passes.expression : (expression g c).Passes := by
  apply Passes.bind (hg.assignment c)
  intro first
  apply Moves.bind (.sees _)
  intro _
  refine .ite (.bind (.repeated (fun _ => ?_) ()) fun _ => .pure _) (.pure _)
  exact .bind (.eat _) fun _ => .ite (.bind (hg.assignment c).moves fun _ => .pure _) (.pure _)

theorem Parser.Passes.condition : (condition g c).Passes :=
  .bind (.expect _) fun _ => .bind (Passes.expression hg).moves fun _ => (Passes.expect _).moves

/-! ### Patterns and keys -/

theorem Parser.Passes.readKey : (readKey g c).Passes := by
  apply Passes.after .token
  intro t
  split
  · exact .bind .advance fun _ => .pure _
  · exact .bind .advance fun _ => .pure _
  · exact .bind .advance fun _ => .pure _
  · exact .bind .advance fun _ => .bind (hg.assignment _).moves fun _ =>
      .bind (Passes.expect _).moves fun _ => .pure _
  · exact .failure

theorem Parser.Moves.readDefault {pattern : Pattern} : (readDefault g c pattern).Moves :=
  .bind (.eat _) fun _ => .ite (.bind (hg.assignment _).moves fun _ => .pure _) (.pure _)

theorem Parser.Passes.readElement : (readElement g c).Passes :=
  .bind (hg.pattern c) fun _ => .readDefault hg

theorem Parser.Moves.readArrayPattern : (readArrayPattern g c).Moves := by
  apply Moves.repeated
  intro elements
  refine .bind (.eat _) fun _ => .ite (.pure _) (.bind (.eat _) fun _ => .ite (.pure _) ?_)
  refine .bind (.require _) fun _ => .bind (.eat _) fun isRest => ?_
  extract_lets rest
  have hrest : ∀ element, (rest element).Moves := fun element =>
    .bind (.eat _) fun _ => .ite (.pure _) (.bind (Passes.expect _).moves fun _ =>
      .bind (.sees _) fun _ => .bind (.require _) fun _ => .pure _)
  exact .ite (.bind (.bind (hg.pattern c).moves fun _ => .pure _) hrest)
    (.bind (Passes.readElement hg).moves hrest)

theorem Parser.Passes.readPropertyPattern : (readPropertyPattern g c).Passes := by
  refine .after .token fun first => .bind (.readKey hg) fun key => .bind (.eat _) fun _ => ?_
  apply Moves.ite (Passes.readElement hg).moves
  split
  · exact .readDefault hg
  · exact .failure

theorem Parser.Moves.readObjectPattern : (readObjectPattern g c).Moves := by
  apply Moves.repeated
  intro properties
  refine .bind (.eat _) fun _ => .ite (.pure _) (.bind (.eat _) fun _ => .ite ?_ ?_)
  · exact .bind Passes.bindingName.moves fun _ => .bind (Passes.expect _).moves fun _ => .pure _
  · refine .bind (Passes.readPropertyPattern hg).moves fun _ => .bind (.eat _) fun _ => ?_
    exact .ite (.pure _) (.bind (Passes.expect _).moves fun _ => .pure _)

theorem Parser.Passes.readPattern : (readPattern g c).Passes := by
  apply Passes.eat (.bind (.readArrayPattern hg) fun _ => .pure _)
  apply Passes.eat (.bind (.readObjectPattern hg) fun _ => .pure _)
  exact .bind .bindingName fun _ => .pure _

theorem Parser.Passes.readParameters : (readParameters g c).Passes := by
  refine .bind (.expect _) fun _ => .repeated (fun parameters => ?_) []
  refine .bind (.eat _) fun _ => .ite (.pure _) (.bind (.eat _) fun _ => .ite ?_ ?_)
  · exact .bind (hg.pattern c).moves fun _ => .bind (Passes.expect _).moves fun _ => .pure _
  · refine .bind (Passes.readElement hg).moves fun _ => .bind (.eat _) fun _ => ?_
    exact .ite (.pure _) (.bind (Passes.expect _).moves fun _ => .pure _)

/-! ### Functions -/

omit hg in
theorem Parser.Moves.directive : directive.Moves := by
  refine .bind .token fun t => .bind .peek fun following => ?_
  split
  · exact .ite (.pure _) (.pure _)
  · exact .pure _

theorem Parser.Passes.readFunctionBody {simple : Bool} : (readFunctionBody g c simple).Passes := by
  refine .bind (.expect _) fun _ => .repeated (fun prologue => ?_) true
  refine .bind (.eat _) fun _ => .ite (.pure _) ?_
  extract_lets rest
  have hrest : ∀ found, (rest found).Moves := fun found =>
    .bind (.require _) fun _ => .bind (hg.item c).moves fun _ => .pure _
  exact .ite (.bind .directive hrest) (.bind (.pure _) hrest)

theorem Parser.Passes.readCallable : (readCallable g c).Passes :=
  .bind (.readParameters hg) fun _ => .bind (Passes.readFunctionBody hg).moves fun _ => .pure _

omit hg in
theorem Parser.Moves.optionalName {following : Symbol} : (optionalName following).Moves :=
  .bind (.sees _) fun _ => .ite (.pure _) (.bind Passes.bindingName.moves fun _ => .pure _)

theorem Parser.Passes.readFunction {isAsync : Bool} : (readFunction g isAsync).Passes :=
  .bind (.expectWord _) fun _ => .bind (.eat _) fun _ => .bind .optionalName fun _ =>
    .bind (Passes.readCallable hg).moves fun _ => .pure _

theorem Parser.Passes.readArrowBody {isAsync simple inParens : Bool} :
    (readArrowBody g c isAsync simple inParens).Passes := by
  refine .bind (.expect _) fun _ => .bind (.sees _) fun _ => .ite ?_ ?_
  · exact .bind (Passes.readFunctionBody hg).moves fun _ => .bind .token fun _ =>
      .bind (.require _) fun _ => .pure _
  · exact .bind (hg.assignment _).moves fun _ => .pure _

omit hg in
theorem Parser.Moves.seesAsyncFunction : seesAsyncFunction.Moves :=
  .bind (.seesWord _) fun _ => .ite (.bind .peek fun _ => .pure _) (.pure _)

theorem Parser.Passes.readAccessor {accessor : Accessor} : (readAccessor g accessor).Passes :=
  .bind (.readCallable hg) fun _ => .require _

omit hg in
theorem Parser.Moves.modifier {word : String} {beforeStar sameLine : Bool} :
    (modifier word beforeStar sameLine).Moves := by
  apply Moves.bind .token
  intro t
  split
  · refine .ite (.bind Passes.advance.moves fun _ => .bind .token fun t => ?_) (.pure _)
    extract_lets rest
    have hrest : ∀ isKey, (rest isKey).Moves := fun isKey => .bind .newline fun _ => .pure _
    split <;> exact .bind (.pure _) hrest
  · exact .pure _

/-! ### Classes -/

theorem Parser.Passes.readMemberKey : (readMemberKey g c).Passes := by
  refine .after (.sees _) fun _ => .ite ?_ (.readKey hg)
  exact .bind .privateName fun _ => .bind (.require _) fun _ => .pure _

theorem Parser.Passes.readMethod {isAsync isGenerator : Bool} {key : Key} :
    (readMethod g isAsync isGenerator key).Passes :=
  .after (.require _) fun _ => .bind (.readCallable hg) fun _ => .pure _

theorem Parser.Passes.readMemberAccessor {accessor : Accessor} :
    (readMemberAccessor g c accessor).Passes :=
  .bind (.readMemberKey hg) fun _ => .bind (.require _) fun _ => (Passes.readAccessor hg).moves

theorem Parser.Moves.readField {key : Key} : (readField g c key).Moves :=
  .bind (.require _) fun _ => .bind (.eat _) fun _ =>
    .ite (.bind (hg.assignment _).moves fun _ => .semicolon) .semicolon

theorem Parser.Moves.readPlainMember {hasConstructor isStatic : Bool} {key : Key} :
    (readPlainMember g c hasConstructor isStatic key).Moves := by
  refine .bind (.sees _) fun _ => .ite ?_ (.bind (.readField hg) fun _ => .pure _)
  exact .bind (.require _) fun _ => .bind (Passes.readCallable hg).moves fun _ => .pure _

theorem Parser.Moves.readAccessorMember {hasConstructor isStatic : Bool} {word : String}
    {accessor : Accessor} :
    (readAccessorMember g c hasConstructor isStatic word accessor).Moves := by
  apply Moves.bind .modifier
  intro found
  split
  · exact .bind (Passes.readMemberAccessor hg).moves fun _ => .pure _
  · exact .bind (.readPlainMember hg) fun _ => .pure _
  · exact .pure _

theorem Parser.Moves.readMember {hasConstructor isStatic : Bool} :
    (readMember g c hasConstructor isStatic).Moves := by
  have hkey : (readMemberKey g c).Moves := (Passes.readMemberKey hg).moves
  refine .bind (.eat _) fun _ => .ite ?_ (.bind .modifier fun isAsync => ?_)
  · exact .bind hkey fun _ => .bind (Passes.readMethod hg).moves fun _ => .pure _
  split
  · exact .bind (.eat _) fun _ => .bind hkey fun _ =>
      .bind (Passes.readMethod hg).moves fun _ => .pure _
  · exact .readPlainMember hg
  · apply Moves.bind (.readAccessorMember hg)
    intro getter
    split
    · exact .pure _
    · apply Moves.bind (.readAccessorMember hg)
      intro setter
      split
      · exact .pure _
      · exact .bind hkey fun _ => .readPlainMember hg

theorem Parser.Passes.readStaticBlock : (readStaticBlock g c).Passes := by
  refine .bind (.expect _) fun _ => .repeated (fun _ => ?_) ()
  exact .bind (.eat _) fun _ => .ite (.pure _) (.bind (hg.item _).moves fun _ => .pure _)

theorem Parser.Passes.readClassBody : (readClassBody g c).Passes := by
  refine .bind (.expect _) fun _ => .repeated (fun hasConstructor => ?_) false
  refine .bind (.eat _) fun _ => .ite (.pure _) (.bind (.eat _) fun _ => .ite (.pure _) ?_)
  apply Moves.bind (.seesWord _)
  intro _
  extract_lets rest
  have hrest : ∀ isStatic, (rest isStatic).Moves := by
    intro isStatic
    simp only [rest]
    split
    · exact .bind (.readMember hg) fun _ => .pure _
    · refine .bind (.sees _) fun _ => .ite ?_ (.bind (.readPlainMember hg) fun _ => .pure _)
      exact .bind (Passes.readStaticBlock hg).moves fun _ => .pure _
    · exact .bind (.readMember hg) fun _ => .pure _
  exact .ite (.bind .modifier hrest) (.bind (.pure _) hrest)

theorem Parser.Passes.readClass : (readClass g c).Passes := by
  refine .bind (.expectWord _) fun _ => .bind (.sees _) fun _ => .bind (.seesWord _) fun _ => ?_
  extract_lets rest
  have hbody : ∀ name : Option Text, Moves (Script.readClassBody g c >>= fun _ => pure name) :=
    fun name => .bind (Passes.readClassBody hg).moves fun _ => .pure _
  have hrest : ∀ name, (rest name).Moves := by
    intro name
    apply Moves.bind (.eatWord _)
    intro _
    exact .ite (.bind (hg.leftHandSide _).moves fun _ => hbody name) (hbody name)
  exact .ite (.bind (.pure _) hrest) (.bind (.bind Passes.bindingName.moves fun _ => .pure _) hrest)

/-! ### Primary expressions -/

omit hg in
theorem Parser.Passes.readPatternLiteral : readPatternLiteral.Passes := by
  intro s e s' hrun
  obtain ⟨_, _, ⟨⟩, hrun⟩ := exists_of_bind hrun
  obtain ⟨after, _, hlift, hrun⟩ := exists_of_bind hrun
  obtain ⟨hafter, rfl⟩ := eq_some_of_lift hlift
  obtain ⟨_, _, hresume, ⟨⟩⟩ := exists_of_bind hrun
  exact passes_of_resume hresume (Input.past_past (afterPattern_suffix hafter))

/-- A template goes on after each of its pieces, of which the next token opens the first. -/
theorem Parser.Passes.readTemplate {tagged : Bool} : (readTemplate g c tagged).Passes := by
  intro s u s' hread
  obtain ⟨_, _, ⟨⟩, hrun⟩ := exists_of_bind hread
  apply holds_of_repeated (fun m here => s.Reaches m ∧ here = m.next.after) (fun m _ => s.Passes m)
    ?_ ⟨.refl s, rfl⟩ hrun
  rintro m _ next last ⟨hreach, rfl⟩ hstep
  obtain ⟨chunk, _, hlift, hpiece⟩ := exists_of_bind hstep
  obtain ⟨hchunk, rfl⟩ := eq_some_of_lift hlift
  obtain ⟨_, _, hvalid, hplace⟩ := exists_of_bind hpiece
  obtain rfl := eq_of_require hvalid
  obtain ⟨_, s₁, hresume, hrest⟩ := exists_of_bind hplace
  have hpass : m.Passes s₁ := passes_of_resume hresume
    ((readLexeme_upto m.lexed).2.trans_upto (Input.upto_past (readTemplateChunk_suffix hchunk)))
  split at hrest
  · cases hrest
    exact hreach.trans_passes hpass
  · obtain ⟨_, s₂, hexpression, hclose⟩ := exists_of_bind hrest
    obtain ⟨_, s₃, hsees, hbrace⟩ := exists_of_bind hclose
    obtain ⟨_, _, hrequire, hnext⟩ := exists_of_bind hbrace
    obtain rfl := eq_of_require hrequire
    obtain ⟨_, _, ⟨⟩, ⟨⟩⟩ := exists_of_bind hnext
    have hlater : s₁.Reaches last := ((Passes.expression hg).moves _ _ _ hexpression).trans
      (Moves.sees _ _ _ _ hsees)
    exact ⟨.inr (hreach.trans_passes (hpass.trans_reaches hlater)), rfl⟩

omit hg in
theorem Parser.Moves.readItems {closing : Symbol} {holes : Bool} {item : Parser Expr}
    (hitem : item.Moves) : (readItems closing holes item).Moves := by
  apply Moves.repeated
  intro items
  refine .bind (.eat _) fun _ => .ite (.pure _) (.bind (.sees _) fun _ => .ite ?_ ?_)
  · exact .bind Passes.advance.moves fun _ => .pure _
  · refine .bind hitem fun next => .bind (.eat _) fun _ => .ite (.pure _) ?_
    apply Moves.bind (Passes.expect _).moves
    intro _
    split <;> exact .pure _

theorem Parser.Passes.readItem : (readItem g c).Passes :=
  .after (.eat _) fun _ => .ite (.bind (hg.assignment _) fun _ => .pure _) (hg.assignment _)

theorem Parser.Passes.readArguments : (readArguments g c).Passes :=
  .bind (.expect _) fun _ => .bind (.listUntil (Passes.readItem hg).moves) fun _ => .pure _

theorem Parser.Passes.readValue : (readValue g c).Passes :=
  .after (.eat _) fun _ => .ite (hg.assignment _) (.bind (.readCallable hg) fun _ => .pure _)

theorem Parser.Moves.readNamedProperty : (readNamedProperty g c).Moves := by
  refine .bind (.sees _) fun _ => .bind (.sees _) fun _ => .ite (Passes.readValue hg).moves ?_
  exact .bind (.eat _) fun _ => .ite (.bind (hg.assignment _).moves fun _ => .pure _) (.pure _)

theorem Parser.Passes.readObjectMethod {isAsync isGenerator : Bool} :
    (readObjectMethod g c isAsync isGenerator).Passes :=
  .bind (.readKey hg) fun _ => .bind (Passes.readCallable hg).moves fun _ => .pure _

theorem Parser.Moves.readObjectAccessor {word : String} {accessor : Accessor} :
    (readObjectAccessor g c word accessor).Moves := by
  apply Moves.bind .modifier
  intro found
  split
  · exact .bind (Passes.readKey hg).moves fun _ =>
      .bind (Passes.readAccessor hg).moves fun _ => .pure _
  · exact .bind (.readNamedProperty hg) fun _ => .pure _
  · exact .pure _

theorem Parser.Moves.readProperty : (readProperty g c).Moves := by
  refine .bind (.eat _) fun _ => .ite (.bind (hg.assignment _).moves fun _ => .pure _) ?_
  refine .bind (.eat _) fun _ => .ite (Passes.readObjectMethod hg).moves ?_
  apply Moves.bind .modifier
  intro isAsync
  split
  · exact .bind (.eat _) fun _ => (Passes.readObjectMethod hg).moves
  · exact .readNamedProperty hg
  · apply Moves.bind (.readObjectAccessor hg)
    intro getter
    split
    · exact .pure _
    · apply Moves.bind (.readObjectAccessor hg)
      intro setter
      split
      · exact .pure _
      · apply Moves.bind .token
        intro t
        split
        · exact .bind Passes.advance.moves fun _ => .readNamedProperty hg
        · exact .bind (Passes.readKey hg).moves fun _ => (Passes.readValue hg).moves

theorem Parser.Moves.readItemArrow {items : List Expr} : (readItemArrow g c items).Moves := by
  refine .bind (.sees _) fun _ => .ite (.ite ?_ ?_) (.pure _)
  · exact .bind (.require _) fun _ => .bind (Passes.readArrowBody hg).moves fun _ => .pure _
  · exact .bind Passes.advance.moves fun _ => .pure _

theorem Parser.Moves.readParenItems : (readParenItems g c).Moves := by
  apply Moves.repeated
  intro items
  refine .bind (.eat _) fun _ => .ite (.pure _) (.bind (Passes.readItem hg).moves fun next => ?_)
  refine .bind (.readItemArrow hg) fun items => .bind (.eat _) fun _ => .ite (.pure _) ?_
  apply Moves.bind (Passes.expect _).moves
  intro _
  split <;> exact .pure _

theorem Parser.Moves.readParenthesized {isAsync mayArrow : Bool} :
    (readParenthesized g c isAsync mayArrow).Moves := by
  refine .bind (.readParenItems hg) fun items => .bind (.sees _) fun _ => .ite ?_ ?_
  · exact .bind .newline fun _ => .bind (.require _) fun _ =>
      .bind (Passes.readArrowBody hg).moves fun _ => .pure _
  · exact .bind (.require _) fun _ => .pure _

theorem Parser.Passes.readParens : (readParens g c).Passes := by
  refine .after .get fun _ => .after .position fun _ => .bind (.expect _) fun _ => ?_
  apply Moves.bind (.readParenthesized hg)
  intro found
  split
  · exact .pure _
  · apply Moves.bind (.require _)
    intro _
    split <;> exact .pure _

theorem Parser.Passes.readName : (readName g c).Passes := by
  refine .after .get fun _ => .after .position fun _ => .bind .reference fun _ => ?_
  refine .bind (.sees _) fun _ => .bind .newline fun _ => .ite ?_ (.pure _)
  exact .bind (.require _) fun _ => (Passes.readArrowBody hg).moves

theorem Parser.Passes.readAsync : (readAsync g c).Passes := by
  refine .after .get fun _ => .after .position fun _ => .after .peek fun following => ?_
  split
  · refine .ite ?_ (.ite (.bind .advance fun _ => .bind .peek fun later => ?_) (.readName hg))
    · exact .bind .advance fun _ => .bind (Passes.readFunction hg).moves fun _ => .pure _
    · split
      · exact .bind Passes.bindingName.moves fun _ => (Passes.readArrowBody hg).moves
      · exact .pure _
  · refine .ite (.bind .advance fun _ => .bind (Passes.expect _).moves fun _ => ?_) (.readName hg)
    apply Moves.bind (.readParenthesized hg)
    intro found
    split <;> exact .pure _
  · exact .readName hg

theorem Parser.Passes.readNew : (readNew g c).Passes := by
  refine .bind (.expectWord _) fun _ => .bind (.eat _) fun _ => .ite ?_ ?_
  · exact .bind (Passes.expectWord _).moves fun _ => .bind (.require _) fun _ => .pure _
  · refine .bind (hg.constructed c).moves fun _ => .bind (.sees _) fun _ => .ite ?_ (.pure _)
    exact .bind (Passes.readArguments hg).moves fun _ => .pure _

theorem Parser.Passes.readImport : (readImport g c).Passes := by
  have harguments : Moves (Script.readArguments g c >>= fun _ => pure Expr.value) :=
    .bind (Passes.readArguments hg).moves fun _ => .pure _
  refine .bind (.expectWord _) fun _ => .bind (.eat _) fun _ => .ite ?_ harguments
  refine .bind (.eatWord _) fun _ => .ite (.pure _) (.bind (.eatWord _) fun _ => ?_)
  exact .bind (.eatWord _) fun _ => .bind (.require _) fun _ => harguments

omit hg in
theorem Parser.Passes.readSuper {calls : Bool} : (readSuper c calls).Passes := by
  refine .bind (.expectWord _) fun _ => .bind .token fun t => ?_
  split
  · exact .bind (.require _) fun _ => .pure _
  · exact .bind (.require _) fun _ => .pure _
  · apply Moves.bind .peek
    intro following
    split
    · exact .bind (.require _) fun _ => .pure _
    · exact .bind .failure fun _ => .pure _
  · exact .bind .failure fun _ => .pure _

theorem Parser.Passes.readWordExpression {calls : Bool} {word : Text} :
    (readWordExpression g c calls word).Passes := by
  apply Passes.ite (.bind (.readFunction hg) fun _ => .pure _)
  apply Passes.ite (.bind (.readClass hg) fun _ => .pure _)
  apply Passes.ite (.readNew hg)
  apply Passes.ite (.readImport hg)
  apply Passes.ite .readSuper
  apply Passes.ite (.readAsync hg)
  exact .ite (.bind .advance fun _ => .pure _) (.readName hg)

theorem Parser.Passes.readPrimary {calls : Bool} : (readPrimary g c calls).Passes := by
  apply Passes.after .token
  intro t
  split
  · exact .bind .advance fun _ => .pure _
  · exact .bind .advance fun _ => .pure _
  · exact .bind (.readTemplate hg) fun _ => .pure _
  · exact .readPatternLiteral
  · exact .readPatternLiteral
  · exact .readParens hg
  · exact .bind .privateName fun _ => .pure _
  · exact .bind .advance fun _ => .bind (.readItems (Passes.readItem hg).moves) fun _ => .pure _
  · exact .bind .advance fun _ => .bind (.readItems (.readProperty hg)) fun _ => .pure _
  · exact .ite (.readName hg) (.readWordExpression hg)
  · exact .failure

/-! ### Operators -/

omit hg in
theorem Parser.Passes.readMemberName : readMemberName.Passes := by
  apply Passes.after .token
  intro t
  split
  · exact .advance
  · exact .bind .privateName fun _ => .pure _

theorem Parser.Passes.readIndex : (readIndex g c).Passes :=
  .bind (.expect _) fun _ => .bind (Passes.expression hg).moves fun _ => (Passes.expect _).moves

theorem Parser.Passes.readOptional : (readOptional g c).Passes := by
  apply Passes.after .token
  intro t
  split
  · exact .readArguments hg
  · exact .readIndex hg
  · exact .readMemberName

theorem Parser.Moves.accessStep {calls : Bool} {current : Expr × Bool} :
    (accessStep g c calls current).Moves := by
  obtain ⟨e, chained⟩ := current
  apply Moves.bind .token
  intro t
  split
  · exact .pure _
  · exact .bind Passes.advance.moves fun _ => .bind Passes.readMemberName.moves fun _ => .pure _
  · exact .bind (Passes.readIndex hg).moves fun _ => .pure _
  · apply Moves.bind .peek
    intro following
    split
    · exact .bind (.require _) fun _ => .bind Passes.advance.moves fun _ =>
        .bind Passes.advance.moves fun _ => .bind (Passes.readOptional hg).moves fun _ => .pure _
    · exact .pure _
  · exact .ite (.bind (Passes.readArguments hg).moves fun _ => .pure _) (.pure _)
  · exact .bind (.require _) fun _ => .bind (Passes.readTemplate hg).moves fun _ => .pure _
  · exact .pure _

theorem Parser.Passes.readLeftHandSide : (readLeftHandSide g c).Passes :=
  .bind (.readPrimary hg) fun _ => .repeated (fun _ => .accessStep hg) _

theorem Parser.Passes.readConstructed : (readConstructed g c).Passes :=
  .bind (.readPrimary hg) fun _ => .repeated (fun _ => .accessStep hg) _

theorem Parser.Passes.readPostfix : (readPostfix g c).Passes := by
  apply Passes.bind (.readLeftHandSide hg)
  intro e
  split
  · exact .pure _
  · refine .bind (.sees _) fun _ => .bind .newline fun _ => .ite ?_ (.pure _)
    exact .bind (.require _) fun _ => .bind Passes.advance.moves fun _ => .pure _

theorem Parser.Passes.readAwait : (readAwait g c).Passes :=
  .after (.require _) fun _ => .bind .advance fun _ => .bind .newline fun _ =>
    .bind (.require _) fun _ => .bind (hg.unary c).moves fun _ => .pure _

theorem Parser.Passes.readUnary : (readUnary g c).Passes := by
  have hprefixed : Passes (Parser.advance >>= fun _ => g.unary c >>= fun _ => pure Expr.prefixed) :=
    .bind .advance fun _ => .bind (hg.unary c).moves fun _ => .pure _
  apply Passes.after .token
  intro t
  split
  · exact hprefixed
  · exact hprefixed
  · exact .bind .advance fun _ => .bind (Passes.readLeftHandSide hg).moves fun _ =>
      .bind (.require _) fun _ => .pure _
  · apply Passes.ite hprefixed
    refine .ite (.bind .advance fun _ => .bind (hg.unary c).moves fun _ => ?_) ?_
    · exact .bind (.require _) fun _ => .pure _
    · exact .ite (.readAwait hg) (.readPostfix hg)
  · exact .readPostfix hg

theorem Parser.Passes.readBinary {level : Nat} : (readBinary g level c).Passes := by
  apply Passes.bind (.readUnary hg)
  intro first
  split
  · exact .pure _
  · apply Moves.repeated
    intro left
    apply Moves.bind .token
    intro t
    split
    · refine .ite (.pure _) (.bind (.require _) fun _ => .bind Passes.advance.moves fun _ => ?_)
      exact .bind (hg.binary _ c).moves fun _ => .bind (.require _) fun _ => .pure _
    · exact .pure _

theorem Parser.Passes.readConditional : (readConditional g c).Passes := by
  apply Passes.bind (.readBinary hg)
  intro e
  split
  · exact .pure _
  · refine .bind (.eat _) fun _ => .ite (.bind (hg.assignment _).moves fun _ => ?_) (.pure _)
    exact .bind (Passes.expect _).moves fun _ => .bind (hg.assignment c).moves fun _ => .pure _

theorem Parser.Passes.readYield : (readYield g c).Passes := by
  refine .bind .advance fun _ => .bind .newline fun _ => .bind .token fun _ => .ite (.pure _) ?_
  exact .bind (.eat _) fun _ => .bind (hg.assignment c).moves fun _ => .pure _

theorem Parser.Moves.readAssigned {e : Expr} : (readAssigned g c e).Moves := by
  refine .ite (.pure _) (.bind .token fun t => ?_)
  split
  · exact .bind (.require _) fun _ => .bind Passes.advance.moves fun _ =>
      .bind (hg.assignment c).moves fun _ => .pure _
  · exact .bind (.require _) fun _ => .bind Passes.advance.moves fun _ =>
      .bind (hg.assignment c).moves fun _ => .pure _
  · exact .bind (.require _) fun _ => .bind Passes.advance.moves fun _ =>
      .bind (hg.assignment c).moves fun _ => .pure _
  · exact .pure _

omit hg in
/-- To note where an arrow function may begin is to stay at a place. -/
theorem Parser.Moves.setArrowStart {start : Option Nat} :
    Moves (modify fun s => { s with arrowStart := start } : Parser Unit) := by
  rintro s _ _ ⟨⟩
  exact .inl rfl

theorem Parser.Passes.readAssignment : (readAssignment g c).Passes := by
  refine .after .position fun start => .after (.seesWord _) fun _ => .ite (.readYield hg) ?_
  exact .after .setArrowStart fun _ => .bind (.readConditional hg) fun _ => .readAssigned hg

end Rules

end Component.Script
