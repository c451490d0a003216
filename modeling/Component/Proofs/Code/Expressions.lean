/-
The expressions of compiled code are read as expressions of a script.
-/
import Component.Proofs.Script.Lexing

namespace Component.Script

open Component.Script.Parser

/-! ### Names -/

/-- The words that cannot name anything in a script, one by one. -/
def reservedWords : List String :=
  ["break", "case", "catch", "class", "const", "continue", "debugger", "default", "delete", "do",
    "else", "enum", "export", "extends", "false", "finally", "for", "function", "if",
    "import", "in", "instanceof", "new", "null", "return", "super", "switch", "this", "throw",
    "true", "try", "typeof", "var", "void", "while", "with", "await", "implements",
    "interface", "let", "package", "private", "protected", "public", "static", "yield"]

theorem keywords_append_strictWords :
    keywords ++ strictWords = reservedWords.map String.toList := by
  decide +kernel

theorem isReservedWord_iff (word : Text) :
    isReservedWord word = true ↔ ∃ reserved ∈ reservedWords, reserved.toList = word := by
  rw [isReservedWord, Bool.or_eq_true, List.contains_iff_mem, List.contains_iff_mem,
    ← List.mem_append, keywords_append_strictWords, List.mem_map]

/-- Whether a name can be read and assigned to. -/
def isVariable (name : Text) : Bool := isWord name && !isReservedWord name && !isFixedName name

/-- The words that the grammar of expressions and statements tells apart from names. -/
def leadingWords : List String :=
  ["function", "class", "new", "import", "super", "this", "null", "true", "false", "typeof", "void",
    "delete", "await", "var", "if", "for", "while", "do", "break", "continue", "return", "throw",
    "try", "switch", "debugger", "let", "const", "export", "with", "else"]

theorem isReservedWord_leadingWord (word : String) (h : word ∈ leadingWords) :
    isReservedWord word.toList = true := by
  have hsub : ∀ word ∈ leadingWords, word ∈ reservedWords := by decide
  exact (isReservedWord_iff _).2 ⟨word, hsub word h, rfl⟩

section Variable

variable {name : Text}

theorem isWord_of_isVariable (h : isVariable name = true) : isWord name = true := by
  simp only [isVariable, Bool.and_eq_true] at h
  exact h.1.1

theorem isReservedWord_of_isVariable (h : isVariable name = true) :
    isReservedWord name = false := by
  simp [isVariable] at h
  exact h.1.2

theorem isFixedName_of_isVariable (h : isVariable name = true) : isFixedName name = false := by
  simp [isVariable] at h
  exact h.2

theorem ne_of_isVariable (h : isVariable name = true) {word : String}
    (hword : word ∈ leadingWords) : name ≠ word.toList := by
  rintro rfl
  have hreserved := isReservedWord_leadingWord word hword
  simp [isReservedWord_of_isVariable h] at hreserved

theorem readWordExpression_variable (h : isVariable name = true) (g : Grammar) (c : Context)
    (calls : Bool) :
    readWordExpression g c calls name = if name = "async" then readAsync g c else readName g c := by
  have hne : ∀ word ∈ leadingWords, name ≠ word.toList := fun word hword => ne_of_isVariable h hword
  unfold readWordExpression
  iterate 5 rw [if_neg (ne_of_isVariable h (by simp [leadingWords]))]
  split
  · rfl
  · rw [if_neg]
    simp only [Bool.or_eq_true, decide_eq_true_eq, not_or]
    exact ⟨⟨⟨hne "this" (by simp [leadingWords]), hne "null" (by simp [leadingWords])⟩,
      hne "true" (by simp [leadingWords])⟩, hne "false" (by simp [leadingWords])⟩

end Variable

/-! ### Names and literals -/

theorem readAsync_before_symbol {s : State} {symbol : Symbol} {newline : Bool}
    (h : s.following = some (.symbol symbol, newline)) (hne : symbol ≠ .leftParen) (g : Grammar)
    (c : Context) : readAsync g c s = readName g c s := by
  simp only [readAsync, bind_apply, get_apply, position_apply, peek_apply, Option.bind_some, h]
  cases symbol <;> first | rfl | exact absurd rfl hne

/-- A text before which a name may stand: it begins with a mark, and with none that would
make the name a parameter or what is called. -/
def FollowsName (rest : Text) : Prop :=
  endsWord rest = true ∧ ∃ symbol newline later, Begins rest (.symbol symbol) newline later ∧
    symbol ≠ .arrow ∧ symbol ≠ .leftParen

section Primary

variable {text rest : Text} {newline : Bool}

theorem reference_reads {name : Text} (hname : isVariable name = true)
    (hbegins : Begins text (.word name false) newline rest) (hrest : (front rest).isSome)
    (c : Context) : (reference c).Reads text (· = name) rest := by
  have hreserved := isReservedWord_of_isVariable hname
  have hfixed := isFixedName_of_isVariable hname
  simp only [isFixedName, Bool.or_eq_false_iff, -String.reduceToList] at hfixed
  refine .step hbegins (.pure hrest rfl) fun s hs => ?_
  simp [reference, hbegins.token_eq hs, hreserved, bne, hfixed, -String.reduceToList]

theorem readPrimary_name {name : Text} (hname : isVariable name = true)
    (hbegins : Begins text (.word name false) newline rest) (hrest : FollowsName rest)
    (g : Grammar) (c : Context) (calls : Bool) :
    (readPrimary g c calls).Reads text (· = .name name) rest := by
  obtain ⟨-, symbol, newline', later, hnext, harrow, hparen⟩ := hrest
  -- Only `async` could begin something else than a name, and what follows it rules that out.
  have hprimary : ∀ s : State, s.ahead.rest = text → readPrimary g c calls s = readName g c s := by
    intro s hs
    have hasync := readAsync_before_symbol (hbegins.following_eq hnext hs) hparen g c
    simp only [readPrimary, bind_apply, token_apply, hbegins.token_eq hs, Option.bind_some,
      Bool.false_eq_true, if_false, readWordExpression_variable hname]
    split
    · exact hasync
    · rfl
  refine Reads.of_eq ?_ hprimary
  refine .look hbegins.isSome (fun s => ⟨s, rfl⟩) fun _ => ?_
  refine .look hbegins.isSome (fun s => ⟨_, rfl⟩) fun _ => ?_
  refine (reference_reads hname hbegins hnext.isSome c).bind ?_
  rintro _ rfl
  refine Reads.of_eq (.pure hnext.isSome rfl) fun s hs => ?_
  simp [hnext.token_eq hs, harrow]

theorem readPrimary_string {value : Text} {escaped : Bool}
    (hbegins : Begins text (.string value escaped) newline rest) (hrest : (front rest).isSome)
    (g : Grammar) (c : Context) (calls : Bool) :
    (readPrimary g c calls).Reads text (· = .value) rest := by
  refine .step hbegins (.pure hrest rfl) fun s hs => ?_
  simp only [readPrimary, bind_apply, token_apply, Option.bind_some, hbegins.token_eq hs]

end Primary

/-! ### Operands -/

/-- The marks that end an expression, or that an assignment follows. -/
def endsOperand (symbol : Symbol) : Bool :=
  symbol = .comma || symbol = .rightParen || symbol = .semicolon || symbol = .colon ||
    symbol = .assign

/-- A token that no property access and no call begins with. -/
def endsAccess : Token → Bool
  | .symbol symbol =>
      symbol ≠ .dot && symbol ≠ .leftBracket && symbol ≠ .question && symbol ≠ .leftParen &&
        symbol ≠ .step
  | .backquote => false
  | _ => true

/-- The shapes of expressions without operators. -/
def Expr.isOperand : Expr → Bool
  | .name _ | .member | .object _ | .value => true
  | _ => false

section Operand

variable {text rest later after : Text} {token : Token} {newline newline' : Bool} {e : Expr}
variable {Fits : Expr → Prop} {g : Grammar} {c : Context}

/-- Where no access follows, the loop over accesses ends. -/
theorem accessStep_done (he : e.isOperand = true) (hrest : Begins rest token newline later)
    (hends : endsAccess token = true) :
    Loops (accessStep g c true) (e, false) rest (· = e) rest := by
  refine .done (Reads.of_eq (.pure hrest.isSome ⟨e, rfl, rfl⟩) fun s hs => ?_)
  simp only [accessStep, bind_apply, token_apply, hrest.token_eq hs, Option.bind_some]
  cases token with
  | symbol symbol =>
      cases symbol <;> first | contradiction | (cases e <;> first | contradiction | rfl)
  | backquote => contradiction
  | word | number | string | endOfInput => cases e <;> first | contradiction | rfl

/-- A property is read after its dot. -/
theorem accessStep_member {property : Text} (he : e.isOperand = true)
    (hbegins : Begins text (.symbol .dot) newline after)
    (hproperty : Begins after (.word property false) newline' rest) (hrest : (front rest).isSome) :
    (accessStep g c true (e, false)).Reads text (fun r => ∃ b, r = .inl b ∧ b = (.member, false))
      rest := by
  refine .step hbegins (q := readMemberName >>= fun _ => pure (.inl (.member, false))) ?_ ?_
  · refine .step hproperty (.pure hrest ⟨_, rfl, rfl⟩) fun s hs => ?_
    simp [readMemberName, hproperty.token_eq hs]
  · intro s hs
    have htoken := hbegins.token_eq hs
    cases e <;> first | contradiction | simp [accessStep, htoken]

/-- A call is read from its opening parenthesis on. -/
theorem accessStep_call (he : e.isOperand = true)
    (hbegins : Begins text (.symbol .leftParen) newline after)
    (harguments : (readArguments g c).Reads text (fun _ => True) rest) :
    (accessStep g c true (e, false)).Reads text (fun r => ∃ b, r = .inl b ∧ b = (.value, false))
      rest := by
  refine Reads.of_eq (harguments.map (g := fun _ => .inl (.value, false)) fun _ _ => ⟨_, rfl, rfl⟩)
    fun s hs => ?_
  have htoken := hbegins.token_eq hs
  cases e <;> first | contradiction | simp [accessStep, htoken]

/-- An operand that no operator stands before. -/
theorem readPostfix_operand (h : (readLeftHandSide g c).Reads text Fits rest)
    (hoperand : ∀ e, Fits e → e.isOperand = true) (hrest : Begins rest token newline later)
    (hends : endsAccess token = true) : (readPostfix g c).Reads text Fits rest := by
  have hstep : token ≠ .symbol .step := by
    rintro rfl
    simp [endsAccess] at hends
  refine h.bind fun e he => .of_eq (.pure hrest.isSome he) fun s hs => ?_
  have hshape := hoperand e he
  cases e <;> first | contradiction | simp [hrest.token_eq hs, hstep]

theorem readUnary_name {name : Text} (hname : isVariable name = true)
    (hbegins : Begins text (.word name false) newline after)
    (h : (readPostfix g c).Reads text Fits rest) : (readUnary g c).Reads text Fits rest := by
  refine h.of_eq fun s hs => ?_
  have hne : ∀ word ∈ leadingWords, name ≠ word.toList := fun word hword =>
    ne_of_isVariable hname hword
  simp only [readUnary, bind_apply, token_apply, Option.bind_some, hbegins.token_eq hs]
  rw [if_neg, if_neg (hne "delete" (by simp [leadingWords])),
    if_neg (hne "await" (by simp [leadingWords]))]
  simp only [Bool.or_eq_true, decide_eq_true_eq, not_or]
  exact ⟨hne "typeof" (by simp [leadingWords]), hne "void" (by simp [leadingWords])⟩

theorem readUnary_string {value : Text} {escaped : Bool}
    (hbegins : Begins text (.string value escaped) newline after)
    (h : (readPostfix g c).Reads text Fits rest) : (readUnary g c).Reads text Fits rest := by
  refine h.of_eq fun s hs => ?_
  simp only [readUnary, bind_apply, token_apply, Option.bind_some, hbegins.token_eq hs]

theorem endsAccess_of_endsOperand {symbol : Symbol} (h : endsOperand symbol = true) :
    endsAccess (.symbol symbol) = true := by
  cases symbol <;> first | contradiction | rfl

theorem operator?_of_endsOperand {symbol : Symbol} (h : endsOperand symbol = true) (c : Context) :
    operator? c (.symbol symbol) = none := by
  cases symbol <;> first | contradiction | rfl

/-! ### Operators -/

theorem readBinary_operand (h : (readUnary g c).Reads text Fits rest)
    (hoperand : ∀ e, Fits e → e.isOperand = true) (hrest : Begins rest token newline later)
    (hnone : operator? c token = none) (level : Nat) :
    (readBinary g level c).Reads text Fits rest := by
  have hdone : ∀ s : State, s.ahead.rest = rest → operator? c s.next.token = none := by
    intro s hs
    rw [hrest.token_eq hs, hnone]
  refine h.bind fun e he => ?_
  have hshape := hoperand e he
  cases e <;> first | contradiction | skip
  all_goals
    refine Loops.repeated (.done (.of_eq (.pure hrest.isSome ⟨_, rfl, he⟩) fun s hs => ?_))
    simp only [bind_apply, token_apply, Option.bind_some, hdone s hs]

/-- Two operands of a comparison. -/
theorem readBinary_comparison {middle : Text} {token' : Token} {level : Nat}
    (h : (readUnary g c).Reads text Fits middle) (hoperand : ∀ e, Fits e → e.isOperand = true)
    (hmiddle : Begins middle token newline after)
    (hoperator : operator? c token = some ⟨level, .plain⟩) (hlevel : level ≠ 0)
    (hright : (g.binary level c).Reads after (fun _ => True) rest)
    (hrest : Begins rest token' newline' later) (hnone : operator? c token' = none)
    (hlength : rest.length < middle.length) :
    (readBinary g 0 c).Reads text (· = .operation) rest := by
  have hop : ∀ s : State, s.ahead.rest = middle →
      operator? c s.next.token = some ⟨level, .plain⟩ := by
    intro s hs
    rw [hmiddle.token_eq hs, hoperator]
  have hdone : ∀ s : State, s.ahead.rest = rest → operator? c s.next.token = none := by
    intro s hs
    rw [hrest.token_eq hs, hnone]
  refine h.bind fun e he => ?_
  have hshape := hoperand e he
  cases e <;> first | contradiction | skip
  all_goals
    refine Loops.repeated (.more ?_ hlength fun b (hb : b = .operation) => ?_)
    · refine .step hmiddle (hright.map (g := fun _ => .inl .operation) fun _ _ => ⟨_, rfl, rfl⟩)
        fun s hs => ?_
      simp [hop s hs, hlevel, Operator.acceptsLeft, Operator.accepts, Operator.rightLevel,
        Operator.shape]
    · refine .done (.of_eq (.pure hrest.isSome ⟨b, rfl, hb⟩) fun s hs => ?_)
      simp only [bind_apply, token_apply, Option.bind_some, hdone s hs]

theorem readConditional_of_readBinary (h : (readBinary g 0 c).Reads text Fits rest)
    (harrow : ∀ e, Fits e → e ≠ .arrow) (hrest : Begins rest token newline later)
    (hquestion : token ≠ .symbol .question) : (readConditional g c).Reads text Fits rest := by
  refine h.bind fun e he => .of_eq (.pure hrest.isSome he) fun s hs => ?_
  have hshape := harrow e he
  have heat : eat .question s = some (false, s) := eat_apply_of_ne (by rwa [hrest.token_eq hs])
  cases e <;> first | contradiction | (simp only [bind_apply, heat, Option.bind_some]; rfl)

/-- An operand as a whole expression, or as what is assigned to. -/
theorem readConditional_operand {symbol : Symbol} (h : (readUnary g c).Reads text Fits rest)
    (hoperand : ∀ e, Fits e → e.isOperand = true)
    (hrest : Begins rest (.symbol symbol) newline later) (hends : endsOperand symbol = true) :
    (readConditional g c).Reads text Fits rest := by
  have hbinary := readBinary_operand h hoperand hrest (operator?_of_endsOperand hends c) 0
  refine readConditional_of_readBinary hbinary ?_ hrest ?_
  · rintro _ he rfl
    exact absurd (hoperand _ he) (by decide)
  · rintro ⟨⟩
    contradiction

/-! ### Assignments -/

theorem readAssignment_bind {Wanted : Expr → Prop} {middle : Text} (hyield : c.mayYield = false)
    (h : (readConditional g c).Reads text Fits middle)
    (hassigned : ∀ e, Fits e → (readAssigned g c e).Reads middle Wanted rest) :
    (readAssignment g c).Reads text Wanted rest := by
  refine .look h.1 (fun s => ⟨_, rfl⟩) fun start => ?_
  refine .look h.1 (fun s => ⟨_, rfl⟩) fun yields => ?_
  rw [hyield, Bool.false_and, if_neg Bool.false_ne_true]
  exact .adjust (fun _ => rfl) (h.bind hassigned)

/-- An expression that nothing is assigned to. -/
theorem readAssignment_value {symbol : Symbol} (hyield : c.mayYield = false)
    (h : (readConditional g c).Reads text Fits rest)
    (hrest : Begins rest (.symbol symbol) newline later) (hends : endsOperand symbol = true)
    (hassign : symbol ≠ .assign) : (readAssignment g c).Reads text Fits rest := by
  refine readAssignment_bind hyield h fun e he => .of_eq (.pure hrest.isSome he) fun s hs => ?_
  cases hcomplete : e.isComplete with
  | true => simp only [readAssigned, hcomplete, if_true]
  | false =>
    simp only [readAssigned, hcomplete, Bool.false_eq_true, if_false, bind_apply, token_apply,
      hrest.token_eq hs, Option.bind_some]
    cases symbol <;> first | contradiction | rfl

/-- An assignment to an operand. -/
theorem readAssignment_assign {middle : Text} {Wanted : Expr → Prop} (hyield : c.mayYield = false)
    (h : (readConditional g c).Reads text Fits middle) (hoperand : ∀ e, Fits e → e.isOperand = true)
    (htarget : ∀ e, Fits e → e.isTarget = true)
    (hmiddle : Begins middle (.symbol .assign) newline after)
    (hvalue : (g.assignment c).Reads after Wanted rest) :
    (readAssignment g c).Reads text (fun _ => True) rest := by
  refine readAssignment_bind hyield h fun e he => ?_
  refine .step hmiddle (hvalue.map (g := fun _ => .assign e) fun _ _ => trivial) fun s hs => ?_
  have hcomplete : e.isComplete = false := by
    have hshape := hoperand e he
    cases e <;> first | contradiction | rfl
  simp [readAssigned, hcomplete, hmiddle.token_eq hs, htarget e he]

theorem expression_reads {symbol : Symbol} (h : (g.assignment c).Reads text Fits rest)
    (hrest : Begins rest (.symbol symbol) newline later) (hcomma : symbol ≠ .comma) :
    (expression g c).Reads text Fits rest := by
  refine h.bind fun e he => .of_eq (.pure hrest.isSome he) fun s hs => ?_
  simp [hrest.token_eq hs, hcomma]

end Operand

end Component.Script

namespace Component.Code

open Component.Script Component.Script.Parser

/-! ### Names and strings -/

/-- A name or a string. -/
inductive Expr.IsAtom : Expr → Prop
  | name {text : Text} (h : isVariable text = true) : IsAtom (.name text)
  | string (value : Text) : IsAtom (.string value)

/-- The shape of an expression without operators. -/
def Expr.shape : Expr → Script.Expr
  | .name text => .name text
  | .member .. => .member
  | _ => .value

theorem Expr.isOperand_shape (e : Expr) : e.shape.isOperand = true := by
  cases e <;> rfl

theorem Expr.isOperand_of_eq_shape (e : Expr) :
    ∀ shape, shape = e.shape → shape.isOperand = true := by
  rintro _ rfl
  exact e.isOperand_shape

theorem Expr.isTarget_shape_name {text : Text} (h : isVariable text = true) :
    (Expr.name text).shape.isTarget = true := by
  rw [Expr.shape, Script.Expr.isTarget, isFixedName_of_isVariable h, Bool.not_false]

/-- A text that ends an expression in front of it. -/
def EndsExpression (rest : Text) : Prop :=
  endsWord rest = true ∧ ∃ symbol newline later, Begins rest (.symbol symbol) newline later ∧
    endsOperand symbol = true ∧ symbol ≠ .assign

theorem endsExpression_comma (text : Text) : EndsExpression (',' :: text) :=
  ⟨rfl, _, _, _, .comma text, rfl, by decide⟩

theorem endsExpression_rightParen (text : Text) : EndsExpression (')' :: text) :=
  ⟨rfl, _, _, _, .rightParen text, rfl, by decide⟩

theorem endsExpression_semicolon (text : Text) : EndsExpression (';' :: text) :=
  ⟨rfl, _, _, _, .semicolon text, rfl, by decide⟩

theorem EndsExpression.followsName {rest : Text} (h : EndsExpression rest) : FollowsName rest := by
  obtain ⟨hword, symbol, newline, later, hbegins, hends, -⟩ := h
  refine ⟨hword, symbol, newline, later, hbegins, ?_, ?_⟩ <;> rintro rfl <;> contradiction

section Atom

variable {lead rest later : Text} {token : Token} {newline : Bool} {e : Expr}

/-- An atom before something that is no part of it. -/
theorem Expr.IsAtom.readUnary (h : e.IsAtom) (hlead : isGap lead = true)
    (hname : ∀ text, e = .name text → FollowsName rest) (hrest : Begins rest token newline later)
    (hends : endsAccess token = true) (g : Grammar) (c : Context) :
    (Script.readUnary g c).Reads (lead ++ (e.render ++ rest)) (· = e.shape) rest := by
  have hdone := accessStep_done (g := g) (c := c) e.isOperand_shape hrest hends
  cases h with
  | name hvariable =>
    have hfollows := hname _ rfl
    obtain ⟨newline', hbegins⟩ :=
      (Begins.word (isWord_of_isVariable hvariable) hfollows.1).gap hlead
    refine readUnary_name hvariable hbegins
      (readPostfix_operand ?_ (isOperand_of_eq_shape _) hrest hends)
    refine (readPrimary_name hvariable hbegins hfollows g c true).bind ?_
    rintro _ rfl
    exact hdone.repeated
  | string value =>
    obtain ⟨escaped, hquote⟩ := Begins.quote value rest
    obtain ⟨newline', hbegins⟩ := hquote.gap hlead
    refine readUnary_string hbegins (readPostfix_operand ?_ (isOperand_of_eq_shape _) hrest hends)
    refine (readPrimary_string hbegins hrest.isSome g c true).bind ?_
    rintro _ rfl
    exact hdone.repeated

/-- An atom as a whole expression. -/
theorem Expr.IsAtom.readAssignment (h : e.IsAtom) (hlead : isGap lead = true)
    (hrest : EndsExpression rest) (g : Grammar) {c : Context} (hyield : c.mayYield = false) :
    (Script.readAssignment g c).Reads (lead ++ (e.render ++ rest)) (fun _ => True) rest := by
  obtain ⟨-, symbol, newline, later, hbegins, hends, hassign⟩ := id hrest
  have hunary := h.readUnary hlead (fun _ _ => hrest.followsName) hbegins
    (endsAccess_of_endsOperand hends) g c
  have hconditional := readConditional_operand hunary e.isOperand_of_eq_shape hbegins hends
  exact (readAssignment_value hyield hconditional hbegins hends hassign).imp fun _ _ => trivial

/-- An atom begins with a token of its own. -/
theorem Expr.IsAtom.begins (h : e.IsAtom) (hlead : isGap lead = true)
    (hname : ∀ text, e = .name text → endsWord rest = true) :
    ∃ token newline, Begins (lead ++ (e.render ++ rest)) token newline rest ∧
      ∀ symbol, token ≠ .symbol symbol := by
  cases h with
  | name hvariable =>
    obtain ⟨newline, hbegins⟩ :=
      (Begins.word (isWord_of_isVariable hvariable) (hname _ rfl)).gap hlead
    exact ⟨_, newline, hbegins, by simp⟩
  | string value =>
    obtain ⟨escaped, hquote⟩ := Begins.quote value rest
    obtain ⟨newline, hbegins⟩ := hquote.gap hlead
    exact ⟨_, newline, hbegins, by simp⟩

/-! ### Accesses and calls -/

theorem readItem_atom (h : e.IsAtom) (hlead : isGap lead = true) (hrest : EndsExpression rest)
    (depth : Nat) {c : Context} (hyield : c.mayYield = false) :
    (readItem (.atDepth (depth + 1)) c).Reads (lead ++ (e.render ++ rest))
      (fun _ => True) rest := by
  obtain ⟨token, newline, hbegins, hsymbol⟩ := h.begins hlead fun _ _ => hrest.1
  exact .eat_other hbegins (hsymbol _) (h.readAssignment hlead hrest _ hyield)

theorem readArguments_atoms {arguments : List Expr} (h : ∀ e ∈ arguments, e.IsAtom)
    (hrest : (front rest).isSome) (depth : Nat) {c : Context} (hyield : c.mayYield = false) :
    (readArguments (.atDepth (depth + 1)) c).Reads
      ('(' :: (Text.join ", " (arguments.map Expr.render) ++ ')' :: rest))
      (fun _ => True) rest := by
  refine .expect (.leftParen _) (Reads.map (g := fun _ => ()) ?_ fun _ (_ : True) => trivial)
  cases arguments with
  | nil =>
    exact Loops.repeated (.done (.eat (.rightParen rest) (.pure hrest ⟨_, rfl, trivial⟩)))
  | cons first more =>
    refine Loops.repeated (.separated (fun _ => True) Expr.IsAtom isGap_space ?_ ?_ h
      trivial isGap_nil)
    · intro items lead e text _ he hlead htext
      obtain ⟨token, newline, hbegins, hsymbol⟩ :=
        he.begins hlead fun _ _ => (endsExpression_comma text).1
      refine .eat_other hbegins (hsymbol _) ?_
      refine (readItem_atom he hlead (endsExpression_comma text) depth hyield).bind fun item _ => ?_
      refine .eat_other (.comma text) (by simp) (.expect (.comma text) ?_)
      exact .pure htext ⟨_, rfl, trivial⟩
    · intro items lead e _ he hlead
      obtain ⟨token, newline, hbegins, hsymbol⟩ :=
        he.begins hlead fun _ _ => (endsExpression_rightParen rest).1
      refine .eat_other hbegins (hsymbol _) ?_
      refine (readItem_atom he hlead (endsExpression_rightParen rest) depth hyield).bind
        fun item _ => ?_
      exact .eat (.rightParen rest) (.pure hrest ⟨_, rfl, trivial⟩)

end Atom

/-- A name, and what is reached from it through properties and calls of methods. -/
inductive Expr.IsPath : Expr → Prop
  | name {text : Text} (h : isVariable text = true) : IsPath (.name text)
  | member {e : Expr} {property : Text} (h : IsPath e) (hword : isWord property = true) :
      IsPath (.member e property)
  | call {e : Expr} {method : Text} {arguments : List Expr} (h : IsPath (.member e method))
      (hatoms : ∀ argument ∈ arguments, argument.IsAtom) :
      IsPath (.call (.member e method) arguments)

/-- Whether a path ends before a text. -/
def Expr.EndsBefore : Expr → Text → Prop
  | .name _, rest => FollowsName rest
  | .member .., rest => endsWord rest = true
  | _, _ => True

theorem Expr.endsBefore_of_followsName {rest : Text} (h : FollowsName rest) (e : Expr) :
    e.EndsBefore rest := by
  cases e <;> first | exact h | exact h.1 | trivial

theorem followsName_dot {property : Text} (h : isWord property = true) (rest : Text) :
    FollowsName ('.' :: (property ++ rest)) :=
  ⟨rfl, _, _, _, .dot h rest, by decide, by decide⟩

theorem Expr.renderAll_eq_map (es : List Expr) : Expr.renderAll es = es.map Expr.render := by
  induction es with
  | nil => rfl
  | cons e es ih => simp [Expr.renderAll, ih]

section Path

variable {lead rest : Text} {e : Expr} {c : Context} (depth : Nat)

/-- A path is read if the loop over accesses goes on where the path ends. -/
theorem Expr.IsPath.readLeftHandSide (h : e.IsPath) (hlead : isGap lead = true)
    (hyield : c.mayYield = false) {final : Text} {Fits : Script.Expr → Prop}
    (hends : e.EndsBefore rest)
    (hloop : Loops (accessStep (.atDepth (depth + 1)) c true) (e.shape, false) rest Fits final) :
    (Script.readLeftHandSide (.atDepth (depth + 1)) c).Reads (lead ++ (e.render ++ rest)) Fits
      final := by
  induction h generalizing rest with
  | name hvariable =>
    obtain ⟨newline, hbegins⟩ := (Begins.word (isWord_of_isVariable hvariable) hends.1).gap hlead
    refine (readPrimary_name hvariable hbegins hends _ c true).bind ?_
    rintro _ rfl
    exact hloop.repeated
  | @member e property _ hword ih =>
    have hfollows := followsName_dot hword rest
    have hrest := (hloop _ (Nat.lt_succ_self _)).1
    have hstep := accessStep_member (g := .atDepth (depth + 1)) (c := c) e.isOperand_shape
      (.dot hword rest) (.word hword hends) hrest
    have htext : (Expr.member e property).render ++ rest =
        e.render ++ ('.' :: (property ++ rest)) := by
      simp [Expr.render]
    rw [htext]
    refine ih (endsBefore_of_followsName hfollows e) (.more hstep ?_ ?_)
    · simp only [List.length_cons, List.length_append]
      omega
    · rintro _ rfl
      exact hloop
  | @call e method arguments _ hatoms ih =>
    have hrest := (hloop _ (Nat.lt_succ_self _)).1
    have harguments := readArguments_atoms hatoms hrest depth hyield
    have hstep := accessStep_call (e := .member) rfl (.leftParen _) harguments
    have htext : (Expr.call (.member e method) arguments).render ++ rest =
        (Expr.member e method).render ++
          ('(' :: (Text.join ", " (arguments.map Expr.render) ++ ')' :: rest)) := by
      simp [Expr.render, Expr.renderAll_eq_map]
    rw [htext]
    refine ih rfl (.more hstep ?_ ?_)
    · simp only [List.length_cons, List.length_append]
      omega
    · rintro _ rfl
      exact hloop

/-- A path is a name, or begins with a name and a dot. -/
theorem Expr.IsPath.exists_name (h : e.IsPath) :
    ∃ name, isVariable name = true ∧ (e = .name name ∨
      ∃ property more, isWord property = true ∧ e.render = name ++ '.' :: (property ++ more)) := by
  induction h with
  | name hvariable => exact ⟨_, hvariable, .inl rfl⟩
  | @member e property _ hword ih =>
    obtain ⟨name, hname, rfl | ⟨first, more, hfirst, hrender⟩⟩ := ih
    · exact ⟨name, hname, .inr ⟨property, [], hword, by simp [Expr.render]⟩⟩
    · exact ⟨name, hname, .inr ⟨first, more ++ '.' :: property, hfirst,
        by simp [Expr.render, hrender]⟩⟩
  | @call e method arguments _ _ ih =>
    obtain ⟨name, hname, heq | ⟨first, more, hfirst, hrender⟩⟩ := ih
    · cases heq
    · refine ⟨name, hname, .inr ⟨first, more ++ '(' ::
        (Text.join ", " (Expr.renderAll arguments) ++ [')']), hfirst, ?_⟩⟩
      rw [Expr.render, hrender]
      simp

/-- The two tokens at the front of a path: its name, and what follows the name. -/
theorem Expr.IsPath.begins (h : e.IsPath) (hlead : isGap lead = true) (hrest : FollowsName rest) :
    ∃ name newline after, isVariable name = true ∧
      Begins (lead ++ (e.render ++ rest)) (.word name false) newline after ∧
      (after = rest ∨ ∃ later, Begins after (.symbol .dot) false later) := by
  obtain ⟨name, hname, rfl | ⟨property, more, hproperty, hrender⟩⟩ := h.exists_name
  · obtain ⟨newline, hbegins⟩ := (Begins.word (isWord_of_isVariable hname) hrest.1).gap hlead
    exact ⟨name, newline, rest, hname, hbegins, .inl rfl⟩
  · have hdot := followsName_dot hproperty (more ++ rest)
    obtain ⟨newline, hbegins⟩ := (Begins.word (isWord_of_isVariable hname) hdot.1).gap hlead
    refine ⟨name, newline, _, hname, ?_, .inr ⟨_, .dot hproperty (more ++ rest)⟩⟩
    simpa [hrender] using hbegins

/-- A path as what is assigned to, or as a whole expression. -/
theorem Expr.IsPath.readConditional (h : e.IsPath) (hlead : isGap lead = true)
    (hyield : c.mayYield = false) (hfollows : FollowsName rest) {symbol : Symbol} {newline : Bool}
    {later : Text} (hrest : Begins rest (.symbol symbol) newline later)
    (hends : endsOperand symbol = true) :
    (Script.readConditional (.atDepth (depth + 1)) c).Reads (lead ++ (e.render ++ rest))
      (· = e.shape) rest := by
  have haccess := endsAccess_of_endsOperand hends
  have hside := h.readLeftHandSide depth hlead hyield (endsBefore_of_followsName hfollows e)
    (accessStep_done e.isOperand_shape hrest haccess)
  obtain ⟨name, newline', after, hname, hbegins, -⟩ := h.begins hlead hfollows
  have hunary := readUnary_name hname hbegins
    (readPostfix_operand hside e.isOperand_of_eq_shape hrest haccess)
  exact readConditional_operand hunary e.isOperand_of_eq_shape hrest hends

theorem Expr.IsPath.readAssignment (h : e.IsPath) (hlead : isGap lead = true)
    (hyield : c.mayYield = false) (hrest : EndsExpression rest) :
    (Script.readAssignment (.atDepth (depth + 1)) c).Reads (lead ++ (e.render ++ rest))
      (fun _ => True) rest := by
  obtain ⟨-, symbol, newline, later, hbegins, hends, hassign⟩ := id hrest
  have hconditional := h.readConditional depth hlead hyield hrest.followsName hbegins hends
  exact (readAssignment_value hyield hconditional hbegins hends hassign).imp fun _ _ => trivial

theorem followsName_assign (text : Text) : FollowsName (' ' :: '=' :: ' ' :: text) :=
  ⟨rfl, _, _, _, (Begins.assign text).space, by decide, by decide⟩

/-- An assignment whose value is read. -/
theorem readAssignment_assign_path {depth : Nat} {target value : Expr} (htarget : target.IsPath)
    (hassignable : target.shape.isTarget = true) (hlead : isGap lead = true)
    (hyield : c.mayYield = false)
    (hvalue : (Script.readAssignment (.atDepth depth) c).Reads (' ' :: (value.render ++ rest))
      (fun _ => True) rest) :
    (Script.readAssignment (.atDepth (depth + 1)) c).Reads
      (lead ++ ((Expr.assign target value).render ++ rest)) (fun _ => True) rest := by
  have hassign := (Begins.assign (value.render ++ rest)).space
  have hconditional := htarget.readConditional depth hlead hyield
    (followsName_assign (value.render ++ rest)) hassign rfl
  have htext : (Expr.assign target value).render ++ rest =
      target.render ++ (' ' :: '=' :: ' ' :: (value.render ++ rest)) := by
    simp [Expr.render]
  rw [htext]
  exact readAssignment_assign hyield hconditional target.isOperand_of_eq_shape
    (fun _ heq => heq ▸ hassignable) hassign hvalue

end Path

/-! ### Comparisons -/

section Comparison

variable {lead rest later : Text} {left right : Expr} {token : Token} {newline : Bool} {c : Context}

/-- Two atoms that an operator compares, as a condition in parentheses. -/
theorem readAssignment_comparison (depth : Nat) {level : Nat} {operator : Text}
    (hleft : left.IsAtom) (hright : right.IsAtom) (hyield : c.mayYield = false)
    (hname : ∀ text, left = .name text →
      FollowsName (operator ++ ' ' :: (right.render ++ ')' :: rest)))
    (hbegins : Begins (operator ++ ' ' :: (right.render ++ ')' :: rest)) token newline
      (' ' :: (right.render ++ ')' :: rest)))
    (hends : endsAccess token = true) (hoperator : operator? c token = some ⟨level, .plain⟩)
    (hlevel : level ≠ 0) :
    (Script.readAssignment (.atDepth (depth + 1)) c).Reads
      (left.render ++ (operator ++ ' ' :: (right.render ++ ')' :: rest))) (fun _ => True)
      (')' :: rest) := by
  have hclose := endsExpression_rightParen rest
  have hparen := Begins.rightParen rest
  have hoperand := hleft.readUnary isGap_nil hname hbegins hends (.atDepth (depth + 1)) c
  have hsecond := hright.readUnary isGap_space (fun _ _ => hclose.followsName) hparen rfl
    (.atDepth depth) c
  have hbinary := readBinary_operand hsecond right.isOperand_of_eq_shape hparen rfl level
  have hcomparison := readBinary_comparison (g := .atDepth (depth + 1))
    hoperand left.isOperand_of_eq_shape
    hbegins hoperator hlevel (hbinary.imp fun _ _ => trivial) hparen rfl (by simp; omega)
  have hconditional := readConditional_of_readBinary hcomparison (by simp) hparen (by simp)
  exact (readAssignment_value hyield hconditional hparen rfl (by simp)).imp fun _ _ => trivial

end Comparison

end Component.Code
