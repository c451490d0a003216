/-
The methods of compiled code, and the object that holds them, are read as parts of
a script.
-/
import Component.Lifecycle
import Component.Proofs.Code.Statements

namespace Component.Script

open Component.Script.Parser

/-! ### Bodies of functions -/

theorem directive_apply (s : State) : ∃ found, directive s = some (found, s) := by
  simp only [directive, bind_apply, token_apply, peek_apply, Option.bind_some]
  generalize s.next.token = token
  generalize s.following = following
  split
  · split <;> exact ⟨_, rfl⟩
  · exact ⟨_, rfl⟩

/-- The rest of the body of a function is read up to its closing brace, wherever it stands
after blanks and line ends.  The parameters of the function are simple, so that a
directive changes nothing. -/
def ReadsBody (depth : Nat) (c : Context) (text final : Text) : Prop :=
  ∀ lead prologue, isGap lead = true →
    Loops (bodyStep (.atDepth (depth + 1)) c true) prologue (lead ++ text) (fun _ => True) final

section Body

variable {text rest final lead : Text} {depth : Nat} {c : Context}

theorem bodyStep_item (h : (readItemOrStatement (.atDepth depth) c).Reads text (fun _ => True) rest)
    (hyield : c.mayYield = false) (prologue : Bool) :
    (bodyStep (.atDepth (depth + 1)) c true prologue).Reads text (fun r => ∃ b, r = .inl b ∧ True)
      rest := by
  obtain ⟨token, newline, after, hbegins, hbrace⟩ := begins_of_readItem h hyield
  have hitem : ∀ found : Option (Text × Bool),
      (require true >>= fun _ => (Grammar.atDepth (depth + 1)).item c >>= fun _ =>
        pure (.inl found.isSome)).Reads text
          (fun r => ∃ b : Bool, r = (.inl b : Bool ⊕ Unit) ∧ True) rest :=
    fun found => .look hbegins.isSome (fun s => ⟨(), rfl⟩) fun _ =>
      Reads.map (p := (Grammar.atDepth (depth + 1)).item c) h fun _ _ => ⟨_, rfl, trivial⟩
  refine .eat_other hbegins hbrace ?_
  cases prologue with
  | true => exact .look hbegins.isSome directive_apply hitem
  | false => exact hitem none

theorem bodyStep_else {s : State} (h : s.next.token = .word "else" false)
    (hyield : c.mayYield = false) : bodyStep (.atDepth (depth + 1)) c true false s = none := by
  have hitem : (Grammar.atDepth (depth + 1)).item c s = none :=
    readItemOrStatement_eq_none (.alternative h) c hyield depth
  have heat : eat .rightBrace s = some (false, s) := eat_apply_of_ne (by simp [h])
  simp only [bodyStep, bind_apply, heat, Option.bind_some, Bool.false_eq_true, if_false, pure_apply,
    Bool.true_or, require_apply, if_true, hitem, Option.bind_none]

namespace ReadsBody

theorem isSome (h : ReadsBody depth c text final) : (front text).isSome :=
  (h [] true isGap_nil _ (Nat.lt_succ_self _)).1

theorem gap (hlead : isGap lead = true) (h : ReadsBody depth c text final) :
    ReadsBody depth c (lead ++ text) final := by
  intro before prologue hbefore
  rw [← List.append_assoc]
  exact h _ prologue (isGap_append hbefore hlead)

theorem line (h : ReadsBody depth c text final) : ReadsBody depth c ('\n' :: text) final :=
  h.gap isGap_newline

theorem brace (hrest : (front rest).isSome) : ReadsBody depth c ('}' :: rest) rest := by
  intro lead prologue hlead
  obtain ⟨newline, hbegins⟩ := (Begins.rightBrace rest).gap hlead
  exact .done (.eat hbegins (.pure hrest ⟨_, rfl, trivial⟩))

theorem item (hyield : c.mayYield = false)
    (h : ∀ lead, isGap lead = true →
      (readItemOrStatement (.atDepth depth) c).Reads (lead ++ text) (fun _ => True) rest)
    (hlength : rest.length < text.length) (hrest : ReadsBody depth c rest final) :
    ReadsBody depth c text final := by
  intro lead prologue hlead
  refine .more (bodyStep_item (h lead hlead) hyield prologue) ?_ fun b _ => hrest [] b isGap_nil
  rw [List.length_append]
  omega

/-- No body begins with `else`. -/
theorem goesOn (h : ReadsBody depth c text final) (hyield : c.mayYield = false) : GoesOn text := by
  obtain ⟨token, newline, after, hbegins⟩ := Begins.exists_of_isSome h.isSome
  obtain ⟨s, s', _, hs, hrun, -⟩ := (h [] false isGap_nil _ (Nat.lt_succ_self _)).exists_run
  refine ⟨token, newline, after, hbegins, ?_⟩
  rintro rfl
  rw [iterate, bind_apply, bodyStep_else (hbegins.token_eq hs) hyield] at hrun
  cases hrun

end ReadsBody

end Body

/-! ### Names that are bound -/

section Pattern

variable {written name lead rest : Text} {g : Grammar} {c : Context}

/-- A way to write a name that can be bound: as a word that is not reserved, or as one that is
quoted. -/
def Spells (written name : Text) : Prop :=
  ∃ quoted, (∀ rest, endsWord rest = true →
    Begins (written ++ rest) (.word name quoted) false rest) ∧
    ((quoted || !isReservedWord name) && !isFixedName name) = true

theorem Spells.of_isVariable (h : isVariable name = true) : Spells name name :=
  ⟨false, fun _ => .word (isWord_of_isVariable h), by
    rw [isReservedWord_of_isVariable h, isFixedName_of_isVariable h]
    rfl⟩

theorem Spells.begins (h : Spells written name) (hlead : isGap lead = true)
    (hword : endsWord rest = true) :
    ∃ quoted newline, Begins (lead ++ (written ++ rest)) (.word name quoted) newline rest ∧
      ((quoted || !isReservedWord name) && !isFixedName name) = true := by
  obtain ⟨quoted, hbegins, hbindable⟩ := h
  obtain ⟨newline, hbegins⟩ := (hbegins rest hword).gap hlead
  exact ⟨quoted, newline, hbegins, hbindable⟩

theorem bindingName_reads (hname : Spells written name) (hlead : isGap lead = true)
    (hword : endsWord rest = true) (hrest : (front rest).isSome) :
    bindingName.Reads (lead ++ (written ++ rest)) (· = name) rest := by
  obtain ⟨quoted, newline, hbegins, hbindable⟩ := hname.begins hlead hword
  refine .step hbegins (.pure hrest rfl) fun s hs => ?_
  simp only [bindingName, bind_apply, token_apply, hbegins.token_eq hs, Option.bind_some,
    require_apply, hbindable, if_true]

theorem readPattern_name (hname : Spells written name) (hlead : isGap lead = true)
    (hword : endsWord rest = true) (hrest : (front rest).isSome) :
    (readPattern g c).Reads (lead ++ (written ++ rest)) (· = .name name) rest := by
  obtain ⟨quoted, newline, hbegins, -⟩ := hname.begins hlead hword
  refine .eat_other hbegins (by simp) (.eat_other hbegins (by simp) ?_)
  exact (bindingName_reads hname hlead hword hrest).map fun _ heq => heq ▸ rfl

theorem readElement_name {depth : Nat} {token : Token} {newline : Bool} {later : Text}
    (hname : isVariable name = true) (hlead : isGap lead = true) (hword : endsWord rest = true)
    (hrest : Begins rest token newline later) (hassign : token ≠ .symbol .assign) :
    (readElement (.atDepth (depth + 1)) c).Reads (lead ++ (name ++ rest))
      (· = .name name) rest := by
  have hpattern := readPattern_name (g := .atDepth depth) (c := c) (.of_isVariable hname)
    hlead hword hrest.isSome
  refine Reads.bind (p := (Grammar.atDepth (depth + 1)).pattern c) hpattern ?_
  rintro _ rfl
  exact .eat_other hrest hassign (.pure hrest.isSome rfl)

/-- The parameters of a function that are plain names. -/
theorem readParameters_names {depth : Nat} {names : List Text}
    (h : ∀ name ∈ names, isVariable name = true) (hrest : (front rest).isSome) :
    (readParameters (.atDepth (depth + 1)) c).Reads
      ('(' :: (Text.join ", " names ++ ')' :: rest)) (fun ps => ps.all Pattern.isName = true)
      rest := by
  refine .expect (.leftParen _) (Loops.repeated ?_)
  cases names with
  | nil => exact .done (.eat (.rightParen rest) (.pure hrest ⟨_, rfl, rfl⟩))
  | cons first more =>
    refine .names (fun ps => ps.all Pattern.isName = true) (isVariable · = true)
      ?_ ?_ h rfl isGap_nil
    · intro parameters lead name text hkept hname hlead htext
      have hcomma := Begins.comma text
      have hends : endsWord (',' :: text) = true := rfl
      obtain ⟨newline, hbegins⟩ := (Begins.word (isWord_of_isVariable hname) hends).gap hlead
      refine .eat_other hbegins (by simp) (.eat_other hbegins (by simp) ?_)
      refine (readElement_name hname hlead rfl hcomma (by simp)).bind ?_
      rintro _ rfl
      refine .eat_other hcomma (by simp) (.expect hcomma (.pure htext ⟨_, rfl, ?_⟩))
      simpa [Pattern.isName] using hkept
    · intro parameters lead name hkept hname hlead
      have hparen := Begins.rightParen rest
      have hends : endsWord (')' :: rest) = true := rfl
      obtain ⟨newline, hbegins⟩ := (Begins.word (isWord_of_isVariable hname) hends).gap hlead
      refine .eat_other hbegins (by simp) (.eat_other hbegins (by simp) ?_)
      refine (readElement_name hname hlead rfl hparen (by simp)).bind ?_
      rintro _ rfl
      refine .eat hparen (.pure hrest ⟨_, rfl, ?_⟩)
      simpa [Pattern.isName] using hkept

/-- The parameters of a function and its body. -/
theorem readCallable_names {depth : Nat} {names : List Text} {body : Text}
    (h : ∀ name ∈ names, isVariable name = true) (hbody : ReadsBody depth c body rest) :
    (readCallable (.atDepth (depth + 1)) c).Reads
      ('(' :: (Text.join ", " names ++ ')' :: ' ' :: '{' :: body)) (fun _ => True) rest := by
  have hbrace := (Begins.leftBrace body).space
  have hblock : (readFunctionBody (.atDepth (depth + 1)) c true).Reads (' ' :: '{' :: body)
      (fun _ => True) rest :=
    .expect hbrace (Loops.repeated (hbody [] true isGap_nil))
  refine (readParameters_names h hbrace.isSome).bind fun parameters hsimple => ?_
  rw [hsimple]
  exact hblock.map fun _ _ => trivial

end Pattern

/-! ### Properties of object literals -/

/-- A word other than a modifier is the key of a property. -/
theorem readProperty_word {s : State} {name : Text} (g : Grammar) (c : Context)
    (hne : ∀ word ∈ ["async", "get", "set"], name ≠ word.toList)
    (htoken : s.next.token = .word name false) :
    readProperty g c s = (advance >>= fun _ => readNamedProperty g c) s := by
  simp only [List.forall_mem_cons, ne_eq, -String.reduceToList] at hne
  have hellipsis : eat .ellipsis s = some (false, s) := eat_apply_of_ne (by simp [htoken])
  have hstar : eat .star s = some (false, s) := eat_apply_of_ne (by simp [htoken])
  simp only [readProperty, readObjectAccessor, modifier, bind_apply, hellipsis, hstar, token_apply,
    Option.bind_some, Bool.false_eq_true, if_false, htoken, hne, pure_apply, -String.reduceToList]

/-- An object literal as the value that a function returns. -/
theorem readReturn_object {text rest : Text} {depth : Nat} {c : Context}
    (h : (readItems .rightBrace false (readProperty (.atDepth depth) c.inside)).Reads text
      (fun _ => True) (';' :: rest)) (hrest : (front rest).isSome) (hreturn : c.mayReturn = true)
    (hyield : c.mayYield = false) :
    (readReturn (.atDepth (depth + 1)) c).Reads (' ' :: '{' :: text) (fun _ => True) rest := by
  have hbrace := (Begins.leftBrace text).space
  have hsemicolon := Begins.semicolon rest
  have hside : (readLeftHandSide (.atDepth depth) c.inside).Reads (' ' :: '{' :: text)
      (fun e => ∃ items, e = .object items) (';' :: rest) := by
    have hprimary : (readPrimary (.atDepth depth) c.inside true).Reads (' ' :: '{' :: text)
        (fun e => ∃ items, e = .object items) (';' :: rest) := by
      refine .step hbrace (h.map (g := Expr.object) fun items _ => ⟨items, rfl⟩) fun s hs => ?_
      simp only [readPrimary, bind_apply, token_apply, Option.bind_some, hbrace.token_eq hs]
    refine hprimary.bind ?_
    rintro _ ⟨items, rfl⟩
    exact ((accessStep_done rfl hsemicolon rfl).repeated).imp fun _ heq => ⟨items, heq⟩
  have hoperand : ∀ e, (∃ items, e = Expr.object items) → e.isOperand = true := by
    rintro _ ⟨items, rfl⟩
    rfl
  have hunary : (readUnary (.atDepth depth) c.inside).Reads (' ' :: '{' :: text)
      (fun e => ∃ items, e = .object items) (';' :: rest) := by
    refine (readPostfix_operand hside hoperand hsemicolon rfl).of_eq fun s hs => ?_
    simp only [readUnary, bind_apply, token_apply, Option.bind_some, hbrace.token_eq hs]
  have hconditional := readConditional_operand hunary hoperand hsemicolon rfl
  have hassignment := readAssignment_value (c := c.inside) hyield hconditional hsemicolon rfl
    (by simp)
  have hexpression := expression_reads (g := .atDepth (depth + 1)) hassignment hsemicolon (by simp)
  refine Reads.of_eq (hexpression.bind (f := fun _ => Parser.semicolon >>= fun _ => pure [])
    fun _ _ => .semicolon (.pure hrest trivial)) fun s hs => ?_
  simp only [readReturn, canEnd, bind_apply, require_apply, hreturn, if_true, Option.bind_some,
    sees_apply, newline_apply, token_apply, pure_apply, hbrace.token_eq hs, hbrace.newline_eq hs]
  rfl

/-- A statement that returns something. -/
theorem readItem_return {lead text rest : Text} {g : Grammar} {c : Context}
    (hlead : isGap lead = true)
    (hends : endsWord text = true) (h : (readReturn g c).Reads text (fun _ => True) rest) :
    (readItemOrStatement g c).Reads (lead ++ ("return".toList ++ text)) (fun _ => True) rest := by
  have hword : isWord "return" = true := by decide
  obtain ⟨newline, hbegins⟩ := (Begins.word hword hends).gap hlead
  refine .step hbegins h fun s hs => ?_
  rw [readItemOrStatement_eq g c (by decide) (hbegins.token_eq hs),
    readStatement_eq g c (hbegins.token_eq hs), readWordStatement]
  iterate 7 rw [if_neg (by decide)]
  rw [if_pos rfl]

/-! ### Declarations -/

/-- A declaration of variables. -/
theorem readItem_let {lead text rest : Text} {g : Grammar} {c : Context} (hlead : isGap lead = true)
    (hends : endsWord text = true) (h : (readVariables g c false).Reads text (fun _ => True) rest) :
    (readItemOrStatement g c).Reads (lead ++ ("let".toList ++ text)) (fun _ => True) rest := by
  have hword : isWord "let" = true := by decide
  obtain ⟨newline, hbegins⟩ := (Begins.word hword hends).gap hlead
  refine .step hbegins (h.map (g := fun _ => []) fun _ _ => trivial) fun s hs => ?_
  simp only [readItemOrStatement, bind_apply, token_apply, Option.bind_some, hbegins.token_eq hs]
  rfl

section Declaration

variable {lead rest : Text} {depth : Nat} {c : Context}

/-- One variable without a value. -/
theorem readDeclarator_bare {written name later : Text} {token : Token} {newline : Bool}
    (hname : Spells written name) (hlead : isGap lead = true) (hword : endsWord rest = true)
    (hrest : Begins rest token newline later) (hassign : token ≠ .symbol .assign) :
    (readDeclarator (.atDepth (depth + 1)) c).Reads (lead ++ (written ++ rest))
      (fun d => d.pattern = .name name ∧ d.initializer = none) rest := by
  have hpattern := readPattern_name (g := .atDepth depth) (c := c) hname hlead hword hrest.isSome
  refine .look hpattern.1 (fun s => ⟨_, rfl⟩) fun start => ?_
  refine Reads.bind (p := (Grammar.atDepth (depth + 1)).pattern c) hpattern ?_
  rintro _ rfl
  refine .eat_other hrest hassign (.look hrest.isSome (fun s => ⟨_, rfl⟩) fun stop => ?_)
  exact .pure hrest.isSome ⟨rfl, rfl⟩

theorem readDeclarator_name {name later : Text} {token : Token} {newline : Bool}
    (hname : isVariable name = true) (hlead : isGap lead = true) (hword : endsWord rest = true)
    (hrest : Begins rest token newline later) (hassign : token ≠ .symbol .assign) :
    (readDeclarator (.atDepth (depth + 1)) c).Reads (lead ++ (name ++ rest))
      (fun d => d.isComplete false = true) rest := by
  refine (readDeclarator_bare (.of_isVariable hname) hlead hword hrest hassign).imp fun d hd => ?_
  simp [Declarator.isComplete, hd, Pattern.isName]

/-- A declaration is read if the loop over its variables is. -/
theorem readVariables_of_loop {g : Grammar} {text : Text}
    (h : Loops (declaratorStep g c) [] text (fun ds => ds.all (·.isComplete false) = true)
      (';' :: rest)) (hrest : (front rest).isSome) :
    (readVariables g c false).Reads text (fun _ => True) rest := by
  refine Reads.bind (p := readDeclarators g c) h.repeated fun declarators hcomplete => ?_
  rw [hcomplete]
  exact .look (Begins.semicolon rest).isSome (fun s => ⟨(), rfl⟩) fun _ =>
    .semicolon (.pure hrest trivial)

/-- Variables without values, up to the semicolon. -/
theorem readVariables_names (depth : Nat) {first : Text} {more : List Text}
    (h : ∀ name ∈ first :: more, isVariable name = true) (hrest : (front rest).isSome) :
    (readVariables (.atDepth (depth + 1)) c false).Reads
      (' ' :: (Text.join ", " (first :: more) ++ ';' :: rest)) (fun _ => True) rest := by
  have hsemicolon := Begins.semicolon rest
  refine readVariables_of_loop (.names (fun ds => ds.all (·.isComplete false) = true)
    (isVariable · = true) ?_ ?_ h rfl isGap_space) hrest
  · intro declarators lead name text hkept hname hlead htext
    refine (readDeclarator_name hname hlead rfl (.comma text) (by simp)).bind fun d hd => ?_
    refine .eat (.comma text) (.pure htext ⟨_, rfl, ?_⟩)
    simp only [List.all_append, hkept, List.all_cons, hd, List.all_nil, Bool.and_self]
  · intro declarators lead name hkept hname hlead
    refine (readDeclarator_name hname hlead rfl hsemicolon (by simp)).bind fun d hd => ?_
    refine .eat_other hsemicolon (by simp) (.pure hsemicolon.isSome ⟨_, rfl, ?_⟩)
    simp only [List.all_append, hkept, List.all_cons, hd, List.all_nil, Bool.and_self]

/-- A property of an object pattern that is only a name, which may be any word. -/
theorem readPropertyPattern_word {g : Grammar} {name later : Text} {token : Token} {newline : Bool}
    (hname : isWord name = true) (hlead : isGap lead = true) (hword : endsWord rest = true)
    (hrest : Begins rest token newline later) (hcolon : token ≠ .symbol .colon)
    (hassign : token ≠ .symbol .assign) :
    (readPropertyPattern g c).Reads (lead ++ (name ++ rest)) (fun _ => True) rest := by
  obtain ⟨newline', hbegins⟩ := (Begins.word hname hword).gap hlead
  have hkey : (do
      if ← eat .colon then readElement g c
      else readDefault g c (.name name) : Parser Pattern).Reads rest (fun _ => True) rest := by
    refine .eat_other hrest hcolon (.eat_other hrest hassign ?_)
    exact .pure hrest.isSome trivial
  refine .step hbegins hkey fun s hs => ?_
  cases hadvance : advance s <;>
    simp [readPropertyPattern, readKey, hbegins.token_eq hs, hadvance]

/-- An object pattern after its opening brace, if its properties are only words. -/
theorem readObjectPattern_words {g : Grammar} {first : Text} {more : List Text}
    (h : ∀ name ∈ first :: more, isWord name = true) (hrest : (front rest).isSome) :
    (readObjectPattern g c).Reads (' ' :: (Text.join ", " (first :: more) ++ ' ' :: '}' :: rest))
      (fun _ => True) rest := by
  have hbrace := (Begins.rightBrace rest).space
  refine Loops.repeated (.names (fun _ => True) (isWord · = true) ?_ ?_ h trivial isGap_space)
  · intro properties lead name text _ hname hlead htext
    have hcomma := Begins.comma text
    have hends : endsWord (',' :: text) = true := rfl
    obtain ⟨newline, hbegins⟩ := (Begins.word hname hends).gap hlead
    refine .eat_other hbegins (by simp) (.eat_other hbegins (by simp) ?_)
    refine (readPropertyPattern_word hname hlead rfl hcomma (by simp) (by simp)).bind fun _ _ => ?_
    exact .eat_other hcomma (by simp) (.expect hcomma (.pure htext ⟨_, rfl, trivial⟩))
  · intro properties lead name _ hname hlead
    have hends : endsWord (' ' :: '}' :: rest) = true := rfl
    obtain ⟨newline, hbegins⟩ := (Begins.word hname hends).gap hlead
    refine .eat_other hbegins (by simp) (.eat_other hbegins (by simp) ?_)
    refine (readPropertyPattern_word hname hlead rfl hbrace (by simp) (by simp)).bind fun _ _ => ?_
    exact .eat hbrace (.pure hrest ⟨_, rfl, trivial⟩)

/-- Variables taken from an object, up to the semicolon. -/
theorem readVariables_pattern (depth : Nat) {first value : Text} {more : List Text}
    (h : ∀ name ∈ first :: more, isWord name = true) (hvalue : isVariable value = true)
    (hyield : c.mayYield = false) (hrest : (front rest).isSome) :
    (readVariables (.atDepth (depth + 1)) c false).Reads
      (' ' :: '{' :: ' ' :: (Text.join ", " (first :: more) ++ ' ' :: '}' ::
        (' ' :: '=' :: ' ' :: (value ++ ';' :: rest)))) (fun _ => True) rest := by
  have hsemicolon := Begins.semicolon rest
  have hassign := (Begins.assign (value ++ ';' :: rest)).space
  have hbrace := (Begins.leftBrace (' ' :: (Text.join ", " (first :: more) ++ ' ' :: '}' ::
    (' ' :: '=' :: ' ' :: (value ++ ';' :: rest))))).space
  have hobject : (readAssignment (.atDepth depth) c).Reads (' ' :: (value ++ ';' :: rest))
      (fun _ => True) (';' :: rest) :=
    (Code.Expr.IsAtom.name hvalue).readAssignment isGap_space
      (Code.endsExpression_semicolon rest) _ hyield
  have hpattern : (readPattern (.atDepth depth) c).Reads
      (' ' :: '{' :: ' ' :: (Text.join ", " (first :: more) ++ ' ' :: '}' ::
        (' ' :: '=' :: ' ' :: (value ++ ';' :: rest)))) (fun _ => True)
      (' ' :: '=' :: ' ' :: (value ++ ';' :: rest)) :=
    .eat_other hbrace (by simp) (.eat hbrace
      ((readObjectPattern_words h hassign.isSome).map fun _ _ => trivial))
  have hdeclarator : (readDeclarator (.atDepth (depth + 1)) c).Reads
      (' ' :: '{' :: ' ' :: (Text.join ", " (first :: more) ++ ' ' :: '}' ::
        (' ' :: '=' :: ' ' :: (value ++ ';' :: rest))))
      (fun d => d.isComplete false = true) (';' :: rest) := by
    refine .look hbrace.isSome (fun s => ⟨_, rfl⟩) fun start => ?_
    refine Reads.bind (p := (Grammar.atDepth (depth + 1)).pattern c) hpattern fun pattern _ => ?_
    refine .eat hassign (.look hobject.1 (fun s => ⟨_, rfl⟩) fun first => ?_)
    refine Reads.bind (p := (Grammar.atDepth (depth + 1)).assignment c) hobject fun _ _ => ?_
    refine .look hsemicolon.isSome (fun s => ⟨_, rfl⟩) fun stop => ?_
    exact .pure hsemicolon.isSome rfl
  refine readVariables_of_loop (.done (hdeclarator.bind fun d hd => ?_)) hrest
  refine .eat_other hsemicolon (by simp) (.pure hsemicolon.isSome ⟨_, rfl, ?_⟩)
  simpa using hd

end Declaration

end Component.Script

namespace Component.Code

open Component.Script Component.Script.Parser

section Method

variable {lead rest final : Text} {depth closing : Nat} {c : Context}

/-- The statements of a method. -/
theorem readsBody_statements {body : List Stmt} (h : ∀ s ∈ body, s.IsPlain) (level : Nat)
    (hyield : c.mayYield = false) (hrest : ReadsBody (depth + 5) c rest final) :
    ReadsBody (depth + 5) c (Stmt.renderAll level body ++ rest) final := by
  induction body with
  | nil => exact hrest
  | cons s body ih =>
    obtain ⟨hs, hbody⟩ := List.forall_mem_cons.1 h
    have hmore := (ih hbody).line
    have hpos : 1 < (s.render level).length := by cases s <;> simp [Stmt.render] <;> omega
    rw [Stmt.renderAll, List.append_assoc]
    refine .item hyield (fun lead hlead =>
      hs.readItem depth level hlead hyield (hmore.goesOn hyield)) ?_
      hmore
    simp only [List.length_cons, List.length_append]
    omega

/-- A method whose parts are read. -/
structure Method.IsPlain (m : Method) : Prop where
  name : isWord m.name = true
  key : ∀ word ∈ ["async", "get", "set"], m.name ≠ word.toList
  parameters : ∀ parameter ∈ m.parameters, isVariable parameter = true
  body : ∀ s ∈ m.body, s.IsPlain

/-- The text of a method after the opening brace of its body. -/
def Method.block (level : Nat) (m : Method) : Text :=
  if m.body.isEmpty then ['}']
  else '\n' :: (Stmt.renderAll (level + 1) m.body ++ (indent level ++ ['}']))

theorem Method.render_eq (level : Nat) (m : Method) :
    m.render level = indent level ++ (m.name ++ '(' :: (Text.join ", " m.parameters ++
      ')' :: ' ' :: '{' :: m.block level)) := by
  unfold Method.render Method.block
  split <;> simp

theorem Method.IsPlain.readsBody {m : Method} (h : m.IsPlain) (depth level : Nat)
    (hyield : c.mayYield = false) (hrest : (front rest).isSome) :
    ReadsBody (depth + 5) c (m.block level ++ rest) rest := by
  have hbrace : ReadsBody (depth + 5) c ('}' :: rest) rest := .brace hrest
  unfold Method.block
  split
  · exact hbrace
  · have hbody := readsBody_statements h.body (level + 1) hyield (hbrace.gap (isGap_indent level))
    simpa using hbody.line

theorem Method.IsPlain.begins {m : Method} (h : m.IsPlain) (hlead : isGap lead = true)
    (level : Nat) (rest : Text) :
    ∃ newline, Begins (lead ++ (m.render level ++ rest)) (.word m.name false) newline ('(' ::
      (Text.join ", " m.parameters ++ ')' :: ' ' :: '{' :: (m.block level ++ rest))) := by
  have hends : endsWord ('(' :: (Text.join ", " m.parameters ++ ')' :: ' ' :: '{' ::
    (m.block level ++ rest))) = true := rfl
  obtain ⟨newline, hbegins⟩ :=
    (Begins.word h.name hends).gap (isGap_append hlead (isGap_indent level))
  exact ⟨newline, by simpa [Method.render_eq] using hbegins⟩

/-- A method as a property of an object literal. -/
theorem Method.IsPlain.readProperty {m : Method} (h : m.IsPlain) (depth level : Nat)
    (hlead : isGap lead = true) (hrest : (front rest).isSome) (c : Context) :
    (Script.readProperty (.atDepth (depth + 6)) c).Reads (lead ++ (m.render level ++ rest))
      (· = .value) rest := by
  have hbody := h.readsBody depth level (c := .method false false) rfl hrest
  have hcallable := readCallable_names h.parameters hbody
  have hparen := Begins.leftParen (Text.join ", " m.parameters ++ ')' :: ' ' :: '{' ::
    (m.block level ++ rest))
  obtain ⟨newline, hbegins⟩ := h.begins hlead level rest
  refine .step hbegins (q := readNamedProperty (.atDepth (depth + 6)) c) ?_ fun s hs =>
    readProperty_word _ c h.key (hbegins.token_eq hs)
  refine Reads.of_eq (q := readValue (.atDepth (depth + 6)) c) ?_ fun s hs => ?_
  · exact .eat_other hparen (by simp) (hcallable.map fun _ _ => rfl)
  · simp [readNamedProperty, hparen.token_eq hs]

/-! ### The object that holds the methods -/

/-- The methods of an object literal, up to its closing brace. -/
theorem readItems_methods {first : Method} {more : List Method}
    (h : ∀ m ∈ first :: more, m.IsPlain) (level : Nat) (hrest : (front rest).isSome) (c : Context) :
    (readItems .rightBrace false (Script.readProperty (.atDepth (depth + 6)) c)).Reads
      ('\n' :: (Text.join ",\n\n" ((first :: more).map (Method.render level)) ++
        ('\n' :: indent closing ++ '}' :: rest))) (fun _ => True) rest := by
  have hgap : isGap ['\n', '\n'] = true := rfl
  refine Loops.repeated (.separated (fun _ => True) Method.IsPlain hgap ?_ ?_ h trivial
    isGap_newline)
  · intro items lead m text _ hm hlead htext
    have hcomma := Begins.comma text
    obtain ⟨newline, hbegins⟩ := hm.begins hlead level (',' :: text)
    refine .eat_other hbegins (by simp) (.look hbegins.isSome (fun s => ⟨_, rfl⟩) fun _ => ?_)
    refine (hm.readProperty depth level hlead hcomma.isSome c).bind ?_
    rintro _ rfl
    exact .eat_other hcomma (by simp) (.expect hcomma (.pure htext ⟨_, rfl, trivial⟩))
  · intro items lead m _ hm hlead
    obtain ⟨newline', hbrace⟩ := (Begins.rightBrace rest).gap (isGap_line closing)
    obtain ⟨newline, hbegins⟩ := hm.begins hlead level ('\n' :: indent closing ++ '}' :: rest)
    refine .eat_other hbegins (by simp) (.look hbegins.isSome (fun s => ⟨_, rfl⟩) fun _ => ?_)
    refine (hm.readProperty depth level hlead hbrace.isSome c).bind ?_
    rintro _ rfl
    exact .eat hbrace (.pure hrest ⟨_, rfl, trivial⟩)

end Method

end Component.Code
