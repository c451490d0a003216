/-
The statements of compiled code are read as statements of a script.
-/
import Component.Proofs.Code.Expressions

namespace Component.Script

open Component.Script.Parser

/-! ### Statements that begin with a name -/

/-- The words with which statements and declarations of their own kind begin. -/
def statementWords : List String :=
  ["var", "if", "for", "while", "do", "break", "continue", "return", "throw", "try", "switch",
    "import", "debugger", "function", "class", "let", "const", "export", "with"]

/-- A word that begins no declaration begins a statement. -/
theorem readItemOrStatement_eq {s : State} {name : Text} (g : Grammar) (c : Context)
    (hne : ∀ word ∈ ["let", "const", "function", "class"], name ≠ word.toList)
    (htoken : s.next.token = .word name false) :
    readItemOrStatement g c s = readStatement g c s := by
  simp only [List.forall_mem_cons, ne_eq, -String.reduceToList] at hne
  simp only [readItemOrStatement, bind_apply, token_apply, Option.bind_some, htoken, hne,
    decide_false, Bool.or_false, Bool.false_eq_true, if_false, -String.reduceToList]

theorem readStatement_eq {s : State} {name : Text} (g : Grammar) (c : Context)
    (htoken : s.next.token = .word name false) :
    readStatement g c s = readWordStatement g c name s := by
  simp only [readStatement, bind_apply, token_apply, Option.bind_some, htoken, Bool.false_eq_true,
    if_false]

theorem ne_statementWord {name : Text} (h : isVariable name = true) :
    ∀ word ∈ statementWords, name ≠ word.toList := by
  intro word hword
  apply ne_of_isVariable h
  revert word
  simp [statementWords, leadingWords]

theorem seesAsyncFunction_eq_false {s : State}
    (h : s.next.token = .word "async" false → s.following ≠ some (.word "function" false, false)) :
    seesAsyncFunction s = some (false, s) := by
  simp only [seesAsyncFunction, bind_apply, seesWord_apply, Option.bind_some, decide_eq_true_eq]
  split
  case isTrue hasync => simp [h hasync, -String.reduceToList]
  case isFalse => rfl

theorem readStatement_word {s : State} {name : Text} (g : Grammar) (c : Context)
    (hne : ∀ word ∈ statementWords, name ≠ word.toList)
    (htoken : s.next.token = .word name false)
    (hfollowing : name = "async" → s.following ≠ some (.word "function" false, false)) :
    readStatement g c s = readNameStatement g c name false s := by
  simp only [statementWords, List.forall_mem_cons, ne_eq, -String.reduceToList] at hne
  have hasync : seesAsyncFunction s = some (false, s) := by
    apply seesAsyncFunction_eq_false
    rw [htoken]
    intro heq
    exact hfollowing (Token.word.inj heq).1
  rw [readStatement_eq g c htoken]
  simp only [readWordStatement, beginsNoStatement, hne, beq_iff_eq, if_false, Bool.or_eq_true,
    or_false, bind_apply, hasync, Option.bind_some, Bool.false_eq_true, -String.reduceToList]

/-! ### What begins no statement -/

/-- A state at which no statement begins: at the end of a block or a script, before `else`,
or before a mark that no name follows. -/
inductive State.BeginsNothing (s : State) : Prop
  | brace (h : s.next.token = .symbol .rightBrace)
  | endOfInput (h : s.next.token = .endOfInput)
  | alternative (h : s.next.token = .word "else" false)
  | mark (h : s.next.token = .symbol .hash)
      (hnext : ∀ name quoted newline, s.following ≠ some (.word name quoted, newline))

section Failure

variable {s : State} (h : s.BeginsNothing) (g : Grammar) (c : Context)

theorem privateName_eq_none (htoken : s.next.token = .symbol .hash)
    (hnext : ∀ name quoted newline, s.following ≠ some (.word name quoted, newline)) :
    privateName s = none := by
  simp only [privateName, expect, eat, advance, bind_apply, sees_apply, get_apply, Option.bind_some,
    htoken, decide_true, if_true]
  unfold resume
  split
  case h_1 next hread =>
    simp only [State.following, hread, Option.map_some] at hnext
    simp only [Option.bind_some, pure_apply, require_apply, if_true, token_apply]
    cases hword : next.token with
    | word name quoted => exact absurd (by rw [hword]) (hnext name quoted next.newline)
    | number | string | backquote | symbol | endOfInput => rfl
  case h_2 => rfl

include h

theorem readPrimary_eq_none (calls : Bool) : readPrimary g c calls s = none := by
  simp only [readPrimary, bind_apply, token_apply, Option.bind_some]
  cases h with
  | brace htoken => rw [htoken]; rfl
  | endOfInput htoken => rw [htoken]; rfl
  | alternative htoken =>
    have hreserved := isReservedWord_leadingWord "else" (by simp [leadingWords])
    have hword : readWordExpression g c calls "else" = readName g c := by simp [readWordExpression]
    simp only [htoken, Bool.false_eq_true, if_false, hword, -String.reduceToList]
    simp [readName, reference, htoken, hreserved, -String.reduceToList]
  | mark htoken hnext =>
    simp only [htoken, bind_apply, privateName_eq_none htoken hnext, Option.bind_none]

theorem readUnary_eq_none : readUnary g c s = none := by
  have hpostfix : readPostfix g c s = none := by
    simp only [readPostfix, readLeftHandSide, bind_apply, readPrimary_eq_none h, Option.bind_none]
  simp only [readUnary, bind_apply, token_apply, Option.bind_some]
  cases h with
  | brace htoken => rwa [htoken]
  | endOfInput htoken => rwa [htoken]
  | alternative htoken =>
    rw [htoken]
    simpa using hpostfix
  | mark htoken => rwa [htoken]

theorem readAssignment_eq_none (hyield : c.mayYield = false) : readAssignment g c s = none := by
  have hadjusted : State.BeginsNothing { s with arrowStart := some s.next.here.offset } := by
    cases h with
    | brace htoken => exact .brace htoken
    | endOfInput htoken => exact .endOfInput htoken
    | alternative htoken => exact .alternative htoken
    | mark htoken hnext => exact .mark htoken hnext
  simp [readAssignment, readConditional, readBinary, hyield, readUnary_eq_none hadjusted]

theorem readExpressionStatement_eq_none (hyield : c.mayYield = false) (depth : Nat) :
    readExpressionStatement (.atDepth depth) c s = none := by
  have hassignment : (Grammar.atDepth depth).assignment c.inside s = none := by
    cases depth with
    | zero => rfl
    | succ depth => exact readAssignment_eq_none h (.atDepth depth) c.inside hyield
  simp [readExpressionStatement, expression, hassignment]

theorem readStatement_eq_none (hyield : c.mayYield = false) (depth : Nat) :
    readStatement (.atDepth depth) c s = none := by
  have hexpression := readExpressionStatement_eq_none h c hyield depth
  cases h with
  | brace htoken => simpa only [readStatement, bind_apply, token_apply, Option.bind_some, htoken]
  | endOfInput htoken =>
    simpa only [readStatement, bind_apply, token_apply, Option.bind_some, htoken]
  | alternative htoken =>
    have hreserved := isReservedWord_leadingWord "else" (by simp [leadingWords])
    rw [readStatement_word _ c (by simp [statementWords]) htoken (by simp)]
    simp only [readNameStatement, bind_apply, peek_apply, Option.bind_some]
    generalize s.following = following
    split
    · simp [hreserved, -String.reduceToList]
    · exact hexpression
  | mark htoken => simpa only [readStatement, bind_apply, token_apply, Option.bind_some, htoken]

theorem readItemOrStatement_eq_none (hyield : c.mayYield = false) (depth : Nat) :
    readItemOrStatement (.atDepth depth) c s = none := by
  have hstatement := readStatement_eq_none h c hyield depth
  cases h with
  | brace htoken =>
    simpa only [readItemOrStatement, bind_apply, token_apply, Option.bind_some, htoken]
  | endOfInput htoken =>
    simpa only [readItemOrStatement, bind_apply, token_apply, Option.bind_some, htoken]
  | alternative htoken => rwa [readItemOrStatement_eq _ c (by decide) htoken]
  | mark htoken =>
    simpa only [readItemOrStatement, bind_apply, token_apply, Option.bind_some, htoken]

end Failure

/-- A text from which a statement is read does not begin with a closing brace. -/
theorem begins_of_readItem {text rest : Text} {depth : Nat} {c : Context} {Fits : List Text → Prop}
    (h : (readItemOrStatement (.atDepth depth) c).Reads text Fits rest)
    (hyield : c.mayYield = false) :
    ∃ token newline after, Begins text token newline after ∧ token ≠ .symbol .rightBrace := by
  obtain ⟨token, newline, after, hbegins⟩ := Begins.exists_of_isSome h.1
  obtain ⟨s, s', hoisted, hs, hrun, -⟩ := h.exists_run
  refine ⟨token, newline, after, hbegins, ?_⟩
  rintro rfl
  rw [readItemOrStatement_eq_none (.brace (hbegins.token_eq hs)) c hyield depth] at hrun
  cases hrun

/-- A text that goes on after a statement: it begins with a token other than `else`. -/
def GoesOn (text : Text) : Prop :=
  ∃ token newline after, Begins text token newline after ∧ token ≠ .word "else" false

/-! ### Expressions as statements -/

theorem Parser.Reads.semicolon {α : Type} {k : Unit → Parser α} {Fits : α → Prop}
    {rest final : Text} (h : (k ()).Reads rest Fits final) :
    (Parser.semicolon >>= k).Reads (';' :: rest) Fits final := by
  refine .step (.semicolon rest) h fun s hs => ?_
  have htoken := (Begins.semicolon rest).token_eq hs
  cases hadvance : advance s <;> simp [Parser.semicolon, Parser.eat, htoken, hadvance]

theorem readItemOrStatement_expression {name text after later rest : Text} {symbol : Symbol}
    {newline newline' : Bool} {depth : Nat} {c : Context} (hname : isVariable name = true)
    (hbegins : Begins text (.word name false) newline after)
    (hafter : Begins after (.symbol symbol) newline' later) (hcolon : symbol ≠ .colon)
    (h : (readAssignment (.atDepth depth) c.inside).Reads text (fun _ => True) (';' :: rest))
    (hrest : (front rest).isSome) :
    (readItemOrStatement (.atDepth (depth + 1)) c).Reads text (fun _ => True) rest := by
  have hne := ne_statementWord hname
  refine Reads.of_eq (q := readExpressionStatement (.atDepth (depth + 1)) c) ?_ fun s hs => ?_
  · refine (expression_reads (g := .atDepth (depth + 1)) h (.semicolon rest) (by simp)).bind
      fun _ _ => ?_
    exact .semicolon (.pure hrest trivial)
  · have hfollowing := hbegins.following_eq hafter hs
    have hdeclaration : ∀ word ∈ ["let", "const", "function", "class"], name ≠ word.toList := by
      intro word hword
      apply hne
      revert word
      simp [statementWords]
    rw [readItemOrStatement_eq _ c hdeclaration (hbegins.token_eq hs),
      readStatement_word _ c hne (hbegins.token_eq hs) (by simp [hfollowing])]
    simp only [readNameStatement, bind_apply, peek_apply, Option.bind_some, hfollowing]
    cases symbol <;> first | exact absurd rfl hcolon | rfl

/-! ### Blocks -/

theorem readItemOrStatement_if {s : State} (h : s.next.token = .word "if" false) (g : Grammar)
    (c : Context) : readItemOrStatement g c s = (advance >>= fun _ => readIf g c) s := by
  rw [readItemOrStatement_eq g c (by decide) h, readStatement_eq g c h, readWordStatement,
    if_neg (by decide), if_pos rfl]

theorem condition_reads {test rest : Text} {depth : Nat} {c : Context}
    (h : (readAssignment (.atDepth depth) c.inside).Reads (test ++ ')' :: rest) (fun _ => True)
      (')' :: rest)) (hrest : (front rest).isSome) :
    (condition (.atDepth (depth + 1)) c).Reads (' ' :: '(' :: (test ++ ')' :: rest)) (fun _ => True)
      rest := by
  refine .expect (Begins.leftParen _).space ?_
  refine (expression_reads (g := .atDepth (depth + 1)) h (.rightParen rest) (by simp)).bind
    fun _ _ => ?_
  exact .expect_last (.rightParen rest) hrest

section Block

variable {text rest lead : Text} {depth : Nat} {g : Grammar} {c : Context} {hoisted : List Text}

theorem blockStep_item {Fits : List Text → Prop}
    (h : (readItemOrStatement (.atDepth depth) c).Reads text Fits rest)
    (hyield : c.mayYield = false) :
    (blockStep (.atDepth (depth + 1)) c hoisted).Reads text
      (fun r => ∃ b, r = .inl b ∧ ∃ names, Fits names ∧ b = hoisted ++ names) rest := by
  obtain ⟨token, newline, after, hbegins, htoken⟩ := begins_of_readItem h hyield
  exact .eat_other hbegins htoken (Reads.map (p := (Grammar.atDepth (depth + 1)).item c) h
    fun names hnames => ⟨_, rfl, names, hnames, rfl⟩)

theorem blockStep_end (hlead : isGap lead = true) (hrest : (front rest).isSome) :
    Loops (blockStep g c) hoisted (lead ++ '}' :: rest) (fun _ => True) rest := by
  obtain ⟨newline, hbegins⟩ := (Begins.rightBrace rest).gap hlead
  exact .done (.eat hbegins (.pure hrest ⟨_, rfl, trivial⟩))

theorem readStatement_block {Fits : List Text → Prop}
    (h : Loops (blockStep g c) [] text Fits rest) :
    (readStatement g c).Reads (' ' :: '{' :: text) Fits rest := by
  have hbrace := (Begins.leftBrace text).space
  refine Reads.of_eq (q := readBlock g c) (.expect hbrace h.repeated) fun s hs => ?_
  simp only [readStatement, bind_apply, token_apply, Option.bind_some, hbrace.token_eq hs]

/-- A conditional statement, if its test and its branch are read and no `else` follows. -/
theorem readItem_if {test branch : Text} (hlead : isGap lead = true)
    (htest : (readAssignment (.atDepth depth) c.inside).Reads (test ++ ')' :: branch)
      (fun _ => True) (')' :: branch))
    (hbranch : (readStatement (.atDepth depth) c).Reads branch (fun _ => True) rest)
    (hrest : GoesOn rest) :
    (readItemOrStatement (.atDepth (depth + 1)) c).Reads
      (lead ++ ("if".toList ++ ' ' :: '(' :: (test ++ ')' :: branch))) (fun _ => True) rest := by
  have hword : isWord "if" = true := by decide
  have hends : endsWord (' ' :: '(' :: (test ++ ')' :: branch)) = true := rfl
  obtain ⟨newline, hif⟩ := (Begins.word hword hends).gap hlead
  obtain ⟨token, newline', later, hbegins, helse⟩ := hrest
  refine .step hif (q := readIf (.atDepth (depth + 1)) c) ?_ fun s hs =>
    readItemOrStatement_if (hif.token_eq hs) _ c
  refine (condition_reads htest hbranch.1).bind fun _ _ => ?_
  refine Reads.bind (p := (Grammar.atDepth (depth + 1)).statement c) hbranch fun hoisted _ => ?_
  exact .eatWord_other hbegins helse (.pure hbegins.isSome trivial)

end Block

end Component.Script

namespace Component.Code

open Component.Script Component.Script.Parser

theorem isGap_indent (depth : Nat) : isGap (indent depth) = true := by
  induction depth with
  | zero => rfl
  | succ depth ih => exact ih

theorem isGap_line (depth : Nat) : isGap ('\n' :: indent depth) = true := isGap_indent depth

/-! ### Actions -/

/-- What a statement of a method does: it calls a method, or assigns to a variable or a
property. -/
inductive Expr.IsAction : Expr → Prop
  | call {e : Expr} {method : Text} {arguments : List Expr}
      (h : (Expr.call (.member e method) arguments).IsPath) :
      IsAction (.call (.member e method) arguments)
  | assign {target value : Expr} (htarget : target.IsPath)
      (hassignable : target.shape.isTarget = true) (hvalue : value.IsPath) :
      IsAction (.assign target value)

section Action

variable {lead rest : Text} {c : Context}

/-- An assignment as a statement, if its value is read. -/
theorem readItem_assign {depth : Nat} {target value : Expr} (htarget : target.IsPath)
    (hassignable : target.shape.isTarget = true) (hlead : isGap lead = true)
    (hyield : c.mayYield = false) (hrest : (front rest).isSome)
    (hvalue : (readAssignment (.atDepth (depth + 1)) c.inside).Reads
      (' ' :: (value.render ++ ';' :: rest)) (fun _ => True) (';' :: rest)) :
    (readItemOrStatement (.atDepth (depth + 3)) c).Reads
      (lead ++ ((Expr.assign target value).render ++ ';' :: rest)) (fun _ => True) rest := by
  have hassignment := readAssignment_assign_path (c := c.inside)
    htarget hassignable hlead hyield hvalue
  have hassign := (Begins.assign (value.render ++ ';' :: rest)).space
  obtain ⟨name, newline, after, hname, hbegins, hafter⟩ :=
    htarget.begins hlead (followsName_assign (value.render ++ ';' :: rest))
  have htext : lead ++ ((Expr.assign target value).render ++ ';' :: rest) =
      lead ++ (target.render ++ (' ' :: '=' :: ' ' :: (value.render ++ ';' :: rest))) := by
    simp [Expr.render]
  rw [htext] at hassignment ⊢
  obtain rfl | ⟨later, hdot⟩ := hafter
  · exact readItemOrStatement_expression hname hbegins hassign (by simp) hassignment hrest
  · exact readItemOrStatement_expression hname hbegins hdot (by simp) hassignment hrest

/-- An action as a statement. -/
theorem Expr.IsAction.readItem {e : Expr} (h : e.IsAction) (depth : Nat) (hlead : isGap lead = true)
    (hyield : c.mayYield = false) (hrest : (front rest).isSome) :
    (readItemOrStatement (.atDepth (depth + 3)) c).Reads (lead ++ (e.render ++ ';' :: rest))
      (fun _ => True) rest := by
  have hsemicolon := endsExpression_semicolon rest
  cases h with
  | call h =>
    have hassignment := h.readAssignment (depth + 1) (c := c.inside) hlead hyield hsemicolon
    obtain ⟨name, newline, after, hname, hbegins, hafter⟩ := h.begins hlead hsemicolon.followsName
    obtain rfl | ⟨later, hdot⟩ := hafter
    · exact readItemOrStatement_expression hname hbegins (.semicolon rest) (by simp)
        hassignment hrest
    · exact readItemOrStatement_expression hname hbegins hdot (by simp) hassignment hrest
  | assign htarget hassignable hvalue =>
    exact readItem_assign htarget hassignable hlead hyield hrest
      (hvalue.readAssignment depth isGap_space hyield hsemicolon)

end Action

/-! ### Blocks -/

section Block

variable {lead rest : Text} {depth level : Nat} {c : Context}

theorem Stmt.render_expr_append (level : Nat) (e : Expr) (rest : Text) :
    (Stmt.expr e).render level ++ rest = indent level ++ (e.render ++ ';' :: '\n' :: rest) := by
  simp [Stmt.render]

theorem Stmt.render_ifThen_append (level : Nat) (test : Expr) (body : List Stmt) (rest : Text) :
    (Stmt.ifThen test body).render level ++ rest =
      indent level ++ ("if".toList ++ ' ' :: '(' :: (test.render ++ ')' :: ' ' :: '{' :: '\n' ::
        (Stmt.renderAll (level + 1) body ++ (indent level ++ '}' :: '\n' :: rest)))) := by
  simp [Stmt.render]

/-- The actions of a block, up to its closing brace. -/
theorem blockStep_actions {body : List Stmt} (h : ∀ s ∈ body, ∃ e, s = .expr e ∧ e.IsAction)
    (hyield : c.mayYield = false) (hrest : (front rest).isSome) (closing : Nat)
    (hoisted : List Text) :
    Loops (blockStep (.atDepth (depth + 4)) c) hoisted
      ('\n' :: (Stmt.renderAll level body ++ (indent closing ++ '}' :: rest))) (fun _ => True)
      rest := by
  induction body generalizing hoisted with
  | nil => exact blockStep_end (isGap_line closing) hrest
  | cons s body ih =>
    obtain ⟨⟨e, rfl, haction⟩, hbody⟩ := List.forall_mem_cons.1 h
    have hmore := ih hbody
    have hnext := (hmore hoisted _ (Nat.lt_succ_self _)).1
    have hitem := haction.readItem depth (isGap_line level) hyield hnext
    rw [Stmt.renderAll, List.append_assoc, Stmt.render_expr_append]
    refine .more (blockStep_item hitem hyield) ?_ fun b _ => hmore b
    simp only [List.length_append, List.length_cons]
    omega

/-- A conditional statement, if its test and its block are read. -/
theorem readItem_ifThen {test : Expr} {body : List Stmt} (hlead : isGap lead = true)
    (htest : ∀ branch, (readAssignment (.atDepth depth) c.inside).Reads
      (test.render ++ ')' :: branch) (fun _ => True) (')' :: branch))
    (hblock : Loops (blockStep (.atDepth depth) c) []
      ('\n' :: (Stmt.renderAll (level + 1) body ++ (indent level ++ '}' :: '\n' :: rest)))
      (fun _ => True) ('\n' :: rest))
    (hrest : GoesOn ('\n' :: rest)) :
    (readItemOrStatement (.atDepth (depth + 1)) c).Reads
      (lead ++ ((Stmt.ifThen test body).render level ++ rest)) (fun _ => True) ('\n' :: rest) := by
  have hgap := isGap_append hlead (isGap_indent level)
  rw [Stmt.render_ifThen_append, ← List.append_assoc]
  exact readItem_if hgap (htest _) (readStatement_block hblock) hrest

end Block

/-! ### Statements of methods -/

/-- A statement of a method: an action, or actions on the condition that an object has a
key. -/
inductive Stmt.IsPlain : Stmt → Prop
  | action {e : Expr} (h : e.IsAction) : IsPlain (.expr e)
  | ifKey {key object : Text} {body : List Stmt} (hobject : isVariable object = true)
      (hbody : ∀ s ∈ body, ∃ e, s = .expr e ∧ e.IsAction) :
      IsPlain (.ifThen (.contains (.string key) (.name object)) body)

section Plain

variable {lead rest : Text} {c : Context}

/-- The test whether an object has a key, in parentheses. -/
theorem readAssignment_contains {object : Text} (hobject : isVariable object = true) (key : Text)
    (hyield : c.mayYield = false) (depth : Nat) (rest : Text) :
    (readAssignment (.atDepth (depth + 1)) c.inside).Reads
      ((Expr.contains (.string key) (.name object)).render ++ ')' :: rest) (fun _ => True)
      (')' :: rest) := by
  have hin : Begins (" in" ++ ' ' :: ((Expr.name object).render ++ ')' :: rest)) (.word "in" false)
      false (' ' :: ((Expr.name object).render ++ ')' :: rest)) :=
    Begins.space (Begins.word (by decide) rfl)
  have hoperator : operator? c.inside (.word "in" false) = some ⟨7, .plain⟩ := by
    simp [operator?, Context.inside]
  have hreads := readAssignment_comparison (c := c.inside) depth (.string key)
    (.name hobject) hyield (by simp) hin rfl hoperator (by decide)
  simpa [Expr.render] using hreads

theorem Stmt.IsPlain.readItem {s : Stmt} (h : s.IsPlain) (depth level : Nat)
    (hlead : isGap lead = true) (hyield : c.mayYield = false) (hrest : GoesOn ('\n' :: rest)) :
    (readItemOrStatement (.atDepth (depth + 5)) c).Reads (lead ++ (s.render level ++ rest))
      (fun _ => True) ('\n' :: rest) := by
  obtain ⟨token, newline, later, hbegins, -⟩ := id hrest
  cases h with
  | action h =>
    have hgap := isGap_append hlead (isGap_indent level)
    rw [Stmt.render_expr_append, ← List.append_assoc]
    exact h.readItem (depth + 2) hgap hyield hbegins.isSome
  | ifKey hobject hbody =>
    exact readItem_ifThen hlead (readAssignment_contains hobject _ hyield _)
      (blockStep_actions hbody hyield hbegins.isSome level []) hrest

end Plain

end Component.Code
