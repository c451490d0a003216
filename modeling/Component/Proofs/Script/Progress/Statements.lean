/-
How far the rules of statements and items read.

With them all rules are there, so that those of every depth go past the next token if those of
the depth below do.
-/
import Component.Proofs.Script.Progress.Expressions

namespace Component.Script

open Component.Script.Parser

section Rules

variable {g : Grammar} {c : Context} (hg : g.Passes)

include hg

/-! ### Statements -/

theorem Parser.Passes.readDeclarator : (readDeclarator g c).Passes := by
  refine .after .position fun _ => .bind (hg.pattern c) fun _ => .bind (.eat _) fun _ => .ite ?_ ?_
  · exact .bind .position fun _ => .bind (hg.assignment c).moves fun _ =>
      .bind .previous fun _ => .pure _
  · exact .bind .previous fun _ => .pure _

theorem Parser.Moves.readDeclarators : (readDeclarators g c).Moves := by
  apply Moves.repeated
  intro declarators
  apply Moves.bind (Passes.readDeclarator hg).moves
  intro _
  exact .bind (.eat _) fun _ => .ite (.pure _) (.pure _)

theorem Parser.Moves.readVariables {isConstant : Bool} : (readVariables g c isConstant).Moves :=
  .bind (.readDeclarators hg) fun _ => .bind (.require _) fun _ => .bind .semicolon fun _ => .pure _

theorem Parser.Passes.readBlock : (readBlock g c).Passes := by
  refine .bind (.expect _) fun _ => .repeated (fun hoisted => ?_) []
  exact .bind (.eat _) fun _ => .ite (.pure _) (.bind (hg.item c).moves fun _ => .pure _)

theorem Parser.Passes.readIf : (readIf g c).Passes := by
  refine .bind (.condition hg) fun _ => .bind (hg.statement c).moves fun _ => ?_
  exact .bind (.eatWord _) fun _ => .ite (.bind (hg.statement c).moves fun _ => .pure _) (.pure _)

theorem Parser.Passes.readWhile : (readWhile g c).Passes :=
  .bind (.condition hg) fun _ => (hg.statement _).moves

theorem Parser.Passes.readDo : (readDo g c).Passes :=
  .bind (hg.statement _) fun _ => .bind (Passes.expectWord _).moves fun _ =>
    .bind (Passes.condition hg).moves fun _ => .bind (.eat _) fun _ => .pure _

theorem Parser.Moves.readForRest : (readForRest g c).Moves := by
  have hexpression : (Parser.expression g c).Moves := (Passes.expression hg).moves
  apply Moves.bind (.eat _)
  intro _
  extract_lets body rest
  have hbody : ∀ u, (body u).Moves := fun _ =>
    .bind (Passes.expect _).moves fun _ => (hg.statement _).moves
  have hrest : ∀ u, (rest u).Moves := fun _ =>
    .bind (.sees _) fun _ => .ite (.bind hexpression fun _ => hbody ()) (hbody ())
  exact .ite (.bind hexpression fun _ => .bind (.eat _) fun _ => hrest ()) (hrest ())

theorem Parser.Passes.readForEach {isOf : Bool} : (readForEach g c isOf).Passes := by
  have hbody : Moves (Parser.expect .rightParen >>= fun _ => g.statement c.loop) :=
    .bind (Passes.expect _).moves fun _ => (hg.statement _).moves
  exact .bind .advance fun _ => .ite (.bind (hg.assignment c).moves fun _ => hbody)
    (.bind (Passes.expression hg).moves fun _ => hbody)

omit hg in
theorem Parser.Moves.seesForEach : seesForEach.Moves := by
  refine .bind (.seesWord _) fun _ => .ite (.pure _) ?_
  exact .bind (.seesWord _) fun _ => .ite (.pure _) (.pure _)

theorem Parser.Passes.readForDeclaration {isAwait isVar : Bool} :
    (readForDeclaration g c isAwait isVar).Passes := by
  refine .bind .advance fun _ => .bind (.readDeclarators hg) fun _ => .bind .seesForEach fun _ => ?_
  split
  · exact .bind (.require _) fun _ => .bind (Passes.readForEach hg).moves fun _ => .pure _
  · exact .bind (.require _) fun _ => .bind (Passes.expect _).moves fun _ =>
      .bind (.readForRest hg) fun _ => .pure _

theorem Parser.Passes.readForExpression {isAwait : Bool} :
    (readForExpression g c isAwait).Passes := by
  refine .after (.seesWord _) fun _ => .after .peek fun _ => .bind (.expression hg) fun _ => ?_
  apply Moves.bind .seesForEach
  intro found
  split
  · exact .bind (.require _) fun _ => (Passes.readForEach hg).moves
  · exact .bind (.require _) fun _ => .bind (Passes.expect _).moves fun _ => .readForRest hg

theorem Parser.Moves.readFor : (readFor g c).Moves := by
  refine .bind (.eatWord _) fun _ => .bind (Passes.expect _).moves fun _ => .bind .token fun t => ?_
  split
  · exact .bind (.require _) fun _ => .bind Passes.advance.moves fun _ => .readForRest hg
  · apply Moves.ite (Passes.readForDeclaration hg).moves
    exact .ite (Passes.readForDeclaration hg).moves (Passes.readForExpression hg).moves
  · exact (Passes.readForExpression hg).moves

omit hg in
theorem Parser.Moves.readJump {isBreak : Bool} : (readJump c isBreak).Moves := by
  have hend : Moves (Parser.semicolon >>= fun _ => Pure.pure ([] : List Text)) :=
    .bind .semicolon fun _ => .pure _
  refine .bind (.sees _) fun _ => .bind .canEnd fun _ => .ite (.bind (.require _) fun _ => hend) ?_
  exact .bind Passes.reference.moves fun _ => .bind (.require _) fun _ => hend

theorem Parser.Moves.readReturn : (readReturn g c).Moves := by
  have hend : Moves (Parser.semicolon >>= fun _ => Pure.pure ([] : List Text)) :=
    .bind .semicolon fun _ => .pure _
  refine .bind (.require _) fun _ => .bind (.sees _) fun _ => .bind .canEnd fun _ => .ite ?_ hend
  exact .bind (Passes.expression hg).moves fun _ => hend

theorem Parser.Moves.readThrow : (readThrow g c).Moves :=
  .bind .newline fun _ => .bind (.require _) fun _ => .bind (Passes.expression hg).moves fun _ =>
    .bind .semicolon fun _ => .pure _

theorem Parser.Passes.readTry : (readTry g c).Passes := by
  have hblock : (Script.readBlock g c).Moves := (Passes.readBlock hg).moves
  refine .bind (.readBlock hg) fun body => .bind (.eatWord _) fun hasHandler => ?_
  extract_lets rest
  have hrest : ∀ handler, (rest handler).Moves := by
    intro handler
    apply Moves.bind (.eatWord _)
    intro hasFinalizer
    extract_lets last
    have hlast : ∀ finalizer, (last finalizer).Moves := fun _ => .bind (.require _) fun _ => .pure _
    exact .ite (.bind hblock hlast) (.bind (.pure _) hlast)
  refine .ite (.bind (.eat _) fun _ => .ite ?_ (.bind hblock hrest)) (.bind (.pure _) hrest)
  exact .bind (hg.pattern _).moves fun _ => .bind (Passes.expect _).moves fun _ =>
    .bind hblock hrest

theorem Parser.Moves.switchStep {current : Bool × Bool × List Text} :
    (switchStep g c current).Moves := by
  obtain ⟨inBranch, hasDefault, hoisted⟩ := current
  refine .bind (.eat _) fun _ => .ite (.pure _) (.bind (.eatWord _) fun _ => .ite ?_ ?_)
  · exact .bind (Passes.expression hg).moves fun _ => .bind (Passes.expect _).moves fun _ => .pure _
  · refine .bind (.eatWord _) fun _ => .ite ?_ ?_
    · exact .bind (.require _) fun _ => .bind (Passes.expect _).moves fun _ => .pure _
    · exact .bind (.require _) fun _ => .bind (hg.item c).moves fun _ => .pure _

theorem Parser.Passes.readSwitch : (readSwitch g c).Passes :=
  .bind (.condition hg) fun _ => .bind (Passes.expect _).moves fun _ =>
    .repeated (fun _ => .switchStep hg) _

theorem Parser.Passes.readExpressionStatement : (readExpressionStatement g c).Passes :=
  .bind (.expression hg) fun _ => .bind .semicolon fun _ => .pure _

theorem Parser.Passes.readNameStatement {name : Text} {quoted : Bool} :
    (readNameStatement g c name quoted).Passes := by
  apply Passes.after .peek
  intro following
  split
  · exact .after (.require _) fun _ => .bind .advance fun _ =>
      .bind (Passes.expect _).moves fun _ => (hg.statement _).moves
  · exact .readExpressionStatement hg

theorem Parser.Passes.readImportStatement : (readImportStatement g c).Passes :=
  .bind (.expression hg) fun _ => .bind (.eat _) fun _ => .pure _

theorem Parser.Passes.readFunctionDeclaration {isAsync : Bool} :
    (readFunctionDeclaration g isAsync).Passes := by
  unfold Script.readFunctionDeclaration
  extract_lets rest
  have hrest : ∀ u, (rest u).Passes := by
    intro _
    apply Passes.bind (.readFunction hg)
    intro found
    split
    · exact .pure _
    · exact .failure
  exact .ite (.bind (.expectWord _) fun _ => (hrest ()).moves) (hrest ())

theorem Parser.Passes.readWordStatement {word : Text} : (readWordStatement g c word).Passes := by
  apply Passes.ite (.bind .advance fun _ => .bind (.readVariables hg) fun _ => .pure _)
  apply Passes.ite (.bind .advance fun _ => (Passes.readIf hg).moves)
  apply Passes.ite (.bind .advance fun _ => .readFor hg)
  apply Passes.ite (.bind .advance fun _ => (Passes.readWhile hg).moves)
  apply Passes.ite (.bind .advance fun _ => (Passes.readDo hg).moves)
  apply Passes.ite (.bind .advance fun _ => .readJump)
  apply Passes.ite (.bind .advance fun _ => .readJump)
  apply Passes.ite (.bind .advance fun _ => .readReturn hg)
  apply Passes.ite (.bind .advance fun _ => .readThrow hg)
  apply Passes.ite (.bind .advance fun _ => (Passes.readTry hg).moves)
  apply Passes.ite (.bind .advance fun _ => (Passes.readSwitch hg).moves)
  apply Passes.ite (.readImportStatement hg)
  apply Passes.ite (.bind .advance fun _ => .bind .semicolon fun _ => .pure _)
  apply Passes.ite .failure
  refine .after .seesAsyncFunction fun _ => .ite ?_ (.readNameStatement hg)
  exact .bind (.readFunctionDeclaration hg) fun _ => .pure _

theorem Parser.Passes.readStatement : (readStatement g c).Passes := by
  apply Passes.after .token
  intro t
  split
  · exact .readBlock hg
  · exact .bind .advance fun _ => .pure _
  · exact .ite (.readNameStatement hg) (.readWordStatement hg)
  · exact .readExpressionStatement hg

theorem Parser.Passes.readClassDeclaration : (readClassDeclaration g c).Passes := by
  apply Passes.bind (.readClass hg)
  intro found
  split
  · exact .pure _
  · exact .failure

theorem Parser.Passes.readItemOrStatement : (readItemOrStatement g c).Passes := by
  apply Passes.after .token
  intro t
  split
  · apply Passes.ite (.bind .advance fun _ => .bind (.readVariables hg) fun _ => .pure _)
    apply Passes.ite (.bind (.readFunctionDeclaration hg) fun _ => .pure _)
    exact .ite (.bind (.readClassDeclaration hg) fun _ => .pure _) (.readStatement hg)
  · exact .readStatement hg

/-! ### Items -/

theorem Parser.Moves.readAttributes : (readAttributes g c).Moves := by
  refine .bind (.seesWord _) fun _ => .bind (.seesWord _) fun _ => .ite ?_ (.pure _)
  refine .bind .newline fun _ => .ite (.bind Passes.advance.moves fun _ => ?_) (.pure _)
  exact .bind (Passes.expect _).moves fun _ =>
    .bind (.readItems (.readProperty hg)) fun _ => .pure _

theorem Parser.Passes.readSource : (readSource g c).Passes := by
  apply Passes.after .token
  intro t
  split
  · exact .bind .advance fun _ => .readAttributes hg
  · exact .bind .failure fun _ => .readAttributes hg

omit hg in
theorem Parser.Passes.readExternalName : readExternalName.Passes := by
  apply Passes.after .token
  intro t
  split
  · exact .bind .advance fun _ => .pure _
  · exact .bind .advance fun _ => .pure _
  · exact .failure

omit hg in
theorem Parser.Passes.readImportSpecifier : readImportSpecifier.Passes := by
  apply Passes.bind .readExternalName
  intro name
  split
  · exact .bind (.eatWord _) fun _ => .ite Passes.bindingName.moves (.pure _)
  · exact .bind (Passes.expectWord _).moves fun _ => Passes.bindingName.moves

omit hg in
theorem Parser.Moves.readImportNames : readImportNames.Moves := by
  refine .bind (.eat _) fun _ => .ite ?_ (.bind (.eat _) fun _ => .ite ?_ (.pure _))
  · exact .bind (Passes.expectWord _).moves fun _ => .bind Passes.bindingName.moves fun _ => .pure _
  · exact .listUntil Passes.readImportSpecifier.moves

omit hg in
theorem Parser.Moves.isPhase {word : Text} : (isPhase word).Moves := by
  refine .ite (.bind .token fun t => ?_) (.pure _)
  split
  · exact .pure _
  · exact .pure _
  · exact .bind .peek fun _ => .pure _

omit hg in
theorem Parser.Moves.readAfterDefault {name : Text} : (readAfterDefault name).Moves :=
  .bind (.eat _) fun _ => .ite (.bind .readImportNames fun _ => .pure _) (.pure _)

omit hg in
theorem Parser.Moves.readImportClause : readImportClause.Moves := by
  apply Moves.bind .token
  intro t
  split
  · refine .bind Passes.bindingName.moves fun _ => .bind .isPhase fun _ => .ite ?_ .readAfterDefault
    apply Moves.bind .token
    intro following
    split
    · exact .bind Passes.bindingName.moves fun _ => .readAfterDefault
    · exact .readImportNames
  · exact .readImportNames

theorem Parser.Moves.readImportDeclaration : (readImportDeclaration g c).Moves := by
  apply Moves.bind .token
  intro t
  split
  · exact .bind (Passes.readSource hg).moves fun _ => .bind (.eat _) fun _ => .pure _
  · exact .bind .readImportClause fun _ => .bind (Passes.expectWord _).moves fun _ =>
      .bind (Passes.readSource hg).moves fun _ => .bind .semicolon fun _ => .pure _

omit hg in
theorem Parser.Passes.readExportSpecifier : readExportSpecifier.Passes :=
  .bind .readExternalName fun _ => .bind (.eatWord _) fun _ =>
    .ite (.bind Passes.readExternalName.moves fun _ => .pure _) (.pure _)

theorem Parser.Passes.readDefaultExport : (readDefaultExport g c).Passes := by
  refine .after (.seesWord _) fun _ => .ite (.bind (.readFunction hg) fun _ => .pure _) ?_
  refine .after .seesAsyncFunction fun _ => .ite ?_ ?_
  · exact .bind .advance fun _ => .bind (Passes.readFunction hg).moves fun _ => .pure _
  · refine .after (.seesWord _) fun _ => .ite (.bind (.readClass hg) fun _ => .pure _) ?_
    exact .bind (hg.assignment c) fun _ => .semicolon

theorem Parser.Moves.readExportList : (readExportList g c).Moves := by
  refine .bind (.listUntil Passes.readExportSpecifier.moves) fun _ => .bind (.eatWord _) fun _ => ?_
  apply Moves.ite (.bind (Passes.readSource hg).moves fun _ => .semicolon)
  exact .bind (.require _) fun _ => .bind (.eat _) fun _ => .pure _

omit hg in
theorem Parser.Moves.seesImportDeclaration : seesImportDeclaration.Moves := by
  refine .bind (.seesWord _) fun _ => .ite (.bind .peek fun following => ?_) (.pure _)
  split
  · exact .pure _
  · exact .pure _
  · exact .pure _

theorem Parser.Passes.readExport : (readExport g c).Passes := by
  refine .eat (.bind (.eatWord _) fun named => ?_) ?_
  · extract_lets source
    have hsource : ∀ u, (source u).Moves := fun _ =>
      .bind (Passes.expectWord _).moves fun _ => .bind (Passes.readSource hg).moves fun _ =>
        .bind .semicolon fun _ => .pure _
    exact .ite (.bind Passes.readExternalName.moves fun _ => hsource ()) (hsource ())
  apply Passes.eat (.bind (.readExportList hg) fun _ => .pure _)
  apply Passes.eatWord (.bind (Passes.readDefaultExport hg).moves fun _ => .pure _)
  refine .after (.seesWord _) fun _ => .after (.seesWord _) fun _ => .ite ?_ ?_
  · exact .bind .advance fun _ => .bind (.readVariables hg) fun _ => .pure _
  apply Passes.eatWord (.bind (.readVariables hg) fun _ => .pure _)
  refine .after (.seesWord _) fun _ => .ite ?_ ?_
  · exact .bind (.readFunctionDeclaration hg) fun _ => .pure _
  refine .after .seesAsyncFunction fun _ => .ite ?_ ?_
  · exact .bind (.readFunctionDeclaration hg) fun _ => .pure _
  · exact .bind (.readClassDeclaration hg) fun _ => .pure _

theorem Parser.Passes.readTopLevel : (readTopLevel g c).Passes := by
  refine .after .seesImportDeclaration fun _ => .ite ?_ (.eatWord ?_ ?_)
  · exact .bind .advance fun _ => .bind (.readImportDeclaration hg) fun _ => .pure _
  · apply Moves.bind (Passes.readExport hg).moves
    intro exported
    split <;> exact .pure _
  refine .after (.seesWord _) fun _ => .after (.seesWord _) fun _ => .ite ?_ ?_
  · exact .bind .advance fun _ => .bind (.readVariables hg) fun _ => .pure _
  apply Passes.eatWord (.bind (.readVariables hg) fun _ => .pure _)
  refine .after (.seesWord _) fun _ => .ite ?_ ?_
  · exact .bind (.readFunctionDeclaration hg) fun _ => .pure _
  refine .after .seesAsyncFunction fun _ => .ite ?_ (.after (.seesWord _) fun _ => .ite ?_ ?_)
  · exact .bind (.readFunctionDeclaration hg) fun _ => .pure _
  · exact .bind (.readClassDeclaration hg) fun _ => .pure _
  · exact .bind (.readStatement hg) fun _ => .pure _

end Rules

/-- At every depth the rules to which rules refer go past the next token. -/
theorem Grammar.passes_atDepth (depth : Nat) : (Grammar.atDepth depth).Passes := by
  induction depth with
  | zero => exact ⟨fun _ => .failure, fun _ => .failure, fun _ _ => .failure, fun _ => .failure,
      fun _ => .failure, fun _ => .failure, fun _ => .failure, fun _ => .failure⟩
  | succ depth ih =>
    exact {
      assignment := fun _ => .readAssignment ih
      unary := fun _ => .readUnary ih
      binary := fun _ _ => .readBinary ih
      leftHandSide := fun _ => .readLeftHandSide ih
      constructed := fun _ => .readConstructed ih
      pattern := fun _ => .readPattern ih
      item := fun _ => .readItemOrStatement ih
      statement := fun _ => .readStatement ih }

end Component.Script
