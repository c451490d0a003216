/-
Variables declared with `var` below other statements, and how a script with such
statements is read.

`Nest` is the syntax of the statements below which a declaration may stand, written out
by `Nest.render`.  `Nest.names` follows the binding rule of the language: each `var` at
whatever depth binds its name in the function or module around.  Reading the text of a
nest gives those names and no others.
-/
import Component.Proofs.Code.Factory

namespace Component.Script

open Component.Script.Parser

/-- A statement that declares a variable, or has such statements below it.  Tests and values
are variables. -/
inductive Nest where
  /-- `var name;` -/
  | declare (name : Text)
  | block (body : List Nest)
  | choice (test : Text) (yes no : Nest)
  | whileLoop (test : Text) (body : Nest)
  | doLoop (body : Nest) (test : Text)
  /-- `for (var name;;) body` -/
  | countLoop (name : Text) (body : Nest)
  /-- `for (var name of values) body`, or the same with `in`. -/
  | eachLoop (isOf : Bool) (name values : Text) (body : Nest)
  /-- A `switch` with one case and a default. -/
  | select (test value : Text) (branch otherwise : List Nest)
  /-- A `try` with a handler and a finalizer. -/
  | attempt (body handler finalizer : List Nest)
  | labelled (label : Text) (body : Nest)

namespace Nest

/-- The word between the variable of a loop and what it goes over. -/
def each (isOf : Bool) : String := if isOf then "of" else "in"

mutual

/-- The text of a statement.  A blank stands before it. -/
def render : Nest → Text
  | .declare name => ' ' :: ("var".toList ++ ' ' :: (name ++ [';']))
  | .block body => ' ' :: '{' :: (renderAll body ++ [' ', '}'])
  | .choice test yes no =>
      ' ' :: ("if".toList ++ ' ' :: '(' :: (test ++ ')' :: (yes.render ++
        ' ' :: ("else".toList ++ no.render))))
  | .whileLoop test body => ' ' :: ("while".toList ++ ' ' :: '(' :: (test ++ ')' :: body.render))
  | .doLoop body test =>
      ' ' :: ("do".toList ++ (body.render ++
        ' ' :: ("while".toList ++ ' ' :: '(' :: (test ++ [')', ';']))))
  | .countLoop name body =>
      ' ' :: ("for".toList ++ ' ' :: '(' :: ("var".toList ++ ' ' :: (name ++
        ';' :: ';' :: ')' :: body.render)))
  | .eachLoop isOf name values body =>
      ' ' :: ("for".toList ++ ' ' :: '(' :: ("var".toList ++ ' ' :: (name ++
        ' ' :: ((each isOf).toList ++ ' ' :: (values ++ ')' :: body.render)))))
  | .select test value branch otherwise =>
      ' ' :: ("switch".toList ++ ' ' :: '(' :: (test ++ ')' :: ' ' :: '{' ::
        ' ' :: ("case".toList ++ ' ' :: (value ++ ':' :: (renderAll branch ++
          ' ' :: ("default".toList ++ ':' :: (renderAll otherwise ++ [' ', '}'])))))))
  | .attempt body handler finalizer =>
      ' ' :: ("try".toList ++ ' ' :: '{' :: (renderAll body ++
        ' ' :: '}' :: ' ' :: ("catch".toList ++ ' ' :: '{' :: (renderAll handler ++
          ' ' :: '}' :: ' ' :: ("finally".toList ++ ' ' :: '{' :: (renderAll finalizer ++
            [' ', '}']))))))
  | .labelled label body => ' ' :: (label ++ ':' :: body.render)

def renderAll : List Nest → Text
  | [] => []
  | n :: more => n.render ++ renderAll more

end

mutual

/-- The names that a statement binds in the function or module around it. -/
def names : Nest → List Text
  | .declare name => [name]
  | .block body => namesOfAll body
  | .choice _ yes no => yes.names ++ no.names
  | .whileLoop _ body => body.names
  | .doLoop body _ => body.names
  | .countLoop name body => name :: body.names
  | .eachLoop _ name _ body => name :: body.names
  | .select _ _ branch otherwise => namesOfAll branch ++ namesOfAll otherwise
  | .attempt body handler finalizer =>
      namesOfAll body ++ namesOfAll handler ++ namesOfAll finalizer
  | .labelled _ body => body.names

def namesOfAll : List Nest → List Text
  | [] => []
  | n :: more => n.names ++ namesOfAll more

end

mutual

/-- Whether a statement can stand below these labels: what it declares and what it mentions
are variables, and no label stands below itself. -/
def fits (labels : List Text) : Nest → Bool
  | .declare name => isVariable name
  | .block body => fitsAll labels body
  | .choice test yes no => isVariable test && yes.fits labels && no.fits labels
  | .whileLoop test body => isVariable test && body.fits labels
  | .doLoop body test => isVariable test && body.fits labels
  | .countLoop name body => isVariable name && body.fits labels
  | .eachLoop _ name values body => isVariable name && isVariable values && body.fits labels
  | .select test value branch otherwise =>
      isVariable test && isVariable value && fitsAll labels branch && fitsAll labels otherwise
  | .attempt body handler finalizer =>
      fitsAll labels body && fitsAll labels handler && fitsAll labels finalizer
  | .labelled label body =>
      isVariable label && !labels.contains label && body.fits (label :: labels)

def fitsAll (labels : List Text) : List Nest → Bool
  | [] => true
  | n :: more => n.fits labels && fitsAll labels more

end

theorem fitsAll_iff {labels : List Text} {body : List Nest} :
    fitsAll labels body = true ↔ ∀ n ∈ body, n.fits labels = true := by
  induction body with
  | nil => simp [fitsAll]
  | cons n more ih => simp [fitsAll, ih]

/-- The token with which a statement begins. -/
def opening : Nest → Token
  | .declare _ => .word "var" false
  | .block _ => .symbol .leftBrace
  | .choice .. => .word "if" false
  | .whileLoop .. => .word "while" false
  | .doLoop .. => .word "do" false
  | .countLoop .. | .eachLoop .. => .word "for" false
  | .select .. => .word "switch" false
  | .attempt .. => .word "try" false
  | .labelled label _ => .word label false

theorem exists_render (n : Nest) : ∃ text, n.render = ' ' :: text := by
  cases n <;> exact ⟨_, by rw [render]⟩

theorem endsWord_render (n : Nest) (rest : Text) : endsWord (n.render ++ rest) = true := by
  obtain ⟨text, htext⟩ := n.exists_render
  rw [htext]
  rfl

theorem begins_opening {n : Nest} {labels : List Text} (h : n.fits labels = true) (rest : Text) :
    ∃ after, Begins (n.render ++ rest) n.opening false after := by
  cases n with
  | block body => exact ⟨_, (Begins.leftBrace _).space⟩
  | labelled label body =>
    simp only [fits, Bool.and_eq_true] at h
    rw [render, opening, List.cons_append, List.append_assoc]
    exact ⟨_, (Begins.word (isWord_of_isVariable h.1.1) rfl).space⟩
  | doLoop body test =>
    rw [render, opening, List.cons_append, List.append_assoc, List.append_assoc]
    exact ⟨_, (Begins.word (by decide) (body.endsWord_render _)).space⟩
  | _ =>
    rw [render, opening, List.cons_append, List.append_assoc]
    exact ⟨_, (Begins.word (by decide) rfl).space⟩

/-- Words with which no statement below another begins, since they begin something else. -/
def otherWords : List String :=
  ["let", "const", "function", "class", "import", "export", "case", "default"]

theorem opening_ne {n : Nest} {labels : List Text} (h : n.fits labels = true) :
    ∀ word ∈ otherWords, n.opening ≠ .word word.toList false := by
  cases n with
  | labelled label body =>
    simp only [fits, Bool.and_eq_true] at h
    intro word hword heq
    have hreserved := isReservedWord_of_isVariable h.1.1
    have hsub : ∀ word ∈ otherWords, word ∈ reservedWords := by decide
    rw [(Token.word.inj heq).1, (isReservedWord_iff _).2 ⟨word, hsub word hword, rfl⟩] at hreserved
    cases hreserved
  | block body => simp [opening]
  | _ =>
    rw [opening]
    decide

end Nest

/-! ### One statement of each form -/

theorem Begins.colon (text : Text) : Begins (':' :: text) (.symbol .colon) false text :=
  .of_readToken rfl rfl

theorem Begins.keyword (word : String) (text : Text) (hword : isWord word.toList = true)
    (hends : endsWord text = true) :
    Begins (' ' :: (word.toList ++ text)) (.word word.toList false) false text :=
  (Begins.word hword hends).space

section Form

variable {text rest : Text} {depth : Nat} {g : Grammar} {c : Context} {names : List Text}

/-- A variable as a whole expression. -/
theorem readAssignment_variable {name lead : Text} (hname : isVariable name = true)
    (hlead : isGap lead = true) (hrest : Code.EndsExpression rest) (hyield : c.mayYield = false) :
    (readAssignment g c).Reads (lead ++ (name ++ rest)) (fun _ => True) rest := by
  have hatom := (Code.Expr.IsAtom.name hname).readAssignment hlead hrest g hyield
  simpa [Code.Expr.render] using hatom

theorem condition_variable {test : Text} (htest : isVariable test = true)
    (hyield : c.mayYield = false) (hrest : (front rest).isSome) :
    (condition (.atDepth (depth + 1)) c).Reads (' ' :: '(' :: (test ++ ')' :: rest)) (fun _ => True)
      rest :=
  condition_reads (readAssignment_variable htest isGap_nil
    (Code.endsExpression_rightParen rest) hyield) hrest

/-- A statement that a word of the language begins. -/
theorem readStatement_keyword {word : String} {q : Parser (List Text)} {Fits : List Text → Prop}
    (hword : isWord word.toList = true) (hends : endsWord text = true)
    (heq : readWordStatement g c word.toList = (advance >>= fun _ => q))
    (h : q.Reads text Fits rest) :
    (readStatement g c).Reads (' ' :: (word.toList ++ text)) Fits rest := by
  have hbegins := Begins.keyword word text hword hends
  refine .step hbegins h fun s hs => ?_
  rw [readStatement_eq g c (hbegins.token_eq hs), heq]

/-- One variable without a value, as all that is declared. -/
theorem readDeclarators_one {written name later : Text} {token : Token} {newline : Bool}
    (hname : Spells written name) (hword : endsWord rest = true)
    (hrest : Begins rest token newline later) (hassign : token ≠ .symbol .assign)
    (hcomma : token ≠ .symbol .comma) :
    (readDeclarators (.atDepth (depth + 1)) c).Reads (' ' :: (written ++ rest))
      (fun ds => ∃ d, ds = [d] ∧ d.pattern = .name name ∧ d.initializer = none) rest := by
  refine Loops.repeated (.done ?_)
  refine (readDeclarator_bare hname isGap_space hword hrest hassign).bind fun d hd => ?_
  exact .eat_other hrest hcomma (.pure hrest.isSome ⟨_, rfl, d, rfl, hd⟩)

theorem readVariables_one {written name : Text} (hname : Spells written name)
    (hrest : (front rest).isSome) :
    (readVariables (.atDepth (depth + 1)) c false).Reads (' ' :: (written ++ ';' :: rest))
      (fun ds => ∃ d, ds = [d] ∧ d.pattern = .name name ∧ d.initializer = none) rest := by
  have hsemicolon := Begins.semicolon rest
  refine (readDeclarators_one hname rfl hsemicolon (by simp) (by simp)).bind ?_
  rintro _ ⟨d, rfl, hpattern, hinitializer⟩
  have hcomplete : [d].all (·.isComplete false) = true := by
    simp [Declarator.isComplete, hpattern, Pattern.isName]
  rw [hcomplete]
  refine .look hsemicolon.isSome (fun s => ⟨(), rfl⟩) fun _ => ?_
  exact .semicolon (.pure hrest ⟨d, rfl, hpattern, hinitializer⟩)

theorem Declarator.allNames_one {d : Declarator} {name : Text} (h : d.pattern = .name name) :
    Declarator.allNames [d] = [name] := by
  simp [Declarator.allNames, h, Pattern.names]

theorem readStatement_var {name : Text} (hname : isVariable name = true)
    (hrest : (front rest).isSome) :
    (readStatement (.atDepth (depth + 1)) c).Reads
      (' ' :: ("var".toList ++ ' ' :: (name ++ ';' :: rest))) (· = [name]) rest := by
  refine readStatement_keyword (by decide) rfl rfl ?_
  refine (readVariables_one (.of_isVariable hname) hrest).map ?_
  rintro _ ⟨d, rfl, hpattern, -⟩
  exact Declarator.allNames_one hpattern

theorem readStatement_ifElse {test yes no : Text} {others : List Text}
    (htest : isVariable test = true) (hyield : c.mayYield = false) (hends : endsWord no = true)
    (hyes : (readStatement (.atDepth depth) c).Reads (yes ++ ' ' :: ("else".toList ++ no))
      (· = names) (' ' :: ("else".toList ++ no)))
    (hno : (readStatement (.atDepth depth) c).Reads no (· = others) rest) :
    (readStatement (.atDepth (depth + 1)) c).Reads
      (' ' :: ("if".toList ++ ' ' :: '(' :: (test ++ ')' :: (yes ++ ' ' :: ("else".toList ++ no)))))
      (· = names ++ others) rest := by
  have helse := Begins.keyword "else" no (by decide) hends
  refine readStatement_keyword (by decide) rfl rfl ?_
  refine (condition_variable htest hyield hyes.1).bind fun _ _ => ?_
  refine Reads.bind (p := (Grammar.atDepth (depth + 1)).statement c) hyes ?_
  rintro _ rfl
  refine .eatWord helse (Reads.map (p := (Grammar.atDepth (depth + 1)).statement c) hno ?_)
  rintro _ rfl
  rfl

theorem readStatement_while {test body : Text} (htest : isVariable test = true)
    (hyield : c.mayYield = false)
    (hbody : (readStatement (.atDepth depth) c.loop).Reads body (· = names) rest) :
    (readStatement (.atDepth (depth + 1)) c).Reads
      (' ' :: ("while".toList ++ ' ' :: '(' :: (test ++ ')' :: body))) (· = names) rest := by
  refine readStatement_keyword (by decide) rfl rfl ?_
  exact (condition_variable htest hyield hbody.1).bind fun _ _ => hbody

theorem readStatement_do {test body : Text} (htest : isVariable test = true)
    (hyield : c.mayYield = false) (hends : endsWord body = true)
    (hbody : (readStatement (.atDepth depth) c.loop).Reads body (· = names)
      (' ' :: ("while".toList ++ ' ' :: '(' :: (test ++ ')' :: ';' :: rest))))
    (hrest : (front rest).isSome) :
    (readStatement (.atDepth (depth + 1)) c).Reads (' ' :: ("do".toList ++ body)) (· = names)
      rest := by
  have hwhile := Begins.keyword "while" (' ' :: '(' :: (test ++ ')' :: ';' :: rest)) (by decide) rfl
  have hsemicolon := Begins.semicolon rest
  refine readStatement_keyword (by decide) hends rfl ?_
  refine Reads.bind (p := (Grammar.atDepth (depth + 1)).statement c.loop) hbody ?_
  rintro _ rfl
  refine .expectWord hwhile ((condition_variable htest hyield hsemicolon.isSome).bind fun _ _ => ?_)
  exact .eat hsemicolon (.pure hrest rfl)

/-- A loop whose head begins with `var`. -/
theorem readStatement_forVar {Fits : List Text → Prop} (hends : endsWord text = true)
    (h : (readForDeclaration g c.inside false true).Reads ("var".toList ++ text) Fits rest) :
    (readStatement g c).Reads (' ' :: ("for".toList ++ ' ' :: '(' :: ("var".toList ++ text))) Fits
      rest := by
  have hparen := (Begins.leftParen ("var".toList ++ text)).space
  have hvar : Begins ("var".toList ++ text) (.word "var" false) false text :=
    Begins.word (by decide) hends
  refine readStatement_keyword (by decide) rfl rfl (.eatWord_other hparen (by simp) ?_)
  refine .expect hparen (.test (b := .word "var" false) (fun s hs => ?_) h)
  rw [token_apply, hvar.token_eq hs]

theorem readStatement_forCount {name body : Text} (hname : isVariable name = true)
    (hbody : (readStatement (.atDepth depth) c.inside.loop).Reads body (· = names) rest) :
    (readStatement (.atDepth (depth + 1)) c).Reads
      (' ' :: ("for".toList ++ ' ' :: '(' :: ("var".toList ++ ' ' :: (name ++
        ';' :: ';' :: ')' :: body)))) (· = name :: names) rest := by
  have hvar : Begins ("var".toList ++ ' ' :: (name ++ ';' :: ';' :: ')' :: body))
      (.word "var" false) false (' ' :: (name ++ ';' :: ';' :: ')' :: body)) :=
    Begins.word (by decide) rfl
  have hfirst := Begins.semicolon (';' :: ')' :: body)
  have hparen := Begins.rightParen body
  refine readStatement_forVar rfl (.past hvar ?_)
  refine (readDeclarators_one (.of_isVariable hname) rfl hfirst (by simp) (by simp)).bind ?_
  rintro _ ⟨d, rfl, hpattern, hinitializer⟩
  refine .test (b := none) (fun s hs => by simp [seesForEach, hfirst.token_eq hs]) ?_
  have hcomplete : (!false && [d].all (·.isComplete false)) = true := by
    simp [Declarator.isComplete, hpattern, Pattern.isName]
  simp only [hcomplete, Declarator.allNames_one hpattern]
  refine .look hfirst.isSome (fun s => ⟨(), rfl⟩) fun _ => .expect hfirst ?_
  have hloop : (readForRest (.atDepth (depth + 1)) c.inside).Reads (';' :: ')' :: body) (· = names)
      rest := by
    refine .eat (.semicolon (')' :: body))
      (.test (b := true) (fun s hs => ?_) (.expect hparen hbody))
    rw [sees_apply, hparen.token_eq hs]
    rfl
  exact hloop.map fun _ heq => congrArg (name :: ·) heq

theorem isWord_each (isOf : Bool) : isWord (Nest.each isOf) = true := by
  cases isOf <;> decide

theorem readForEach_variable {isOf : Bool} {values body : Text} (hvalues : isVariable values = true)
    (hyield : c.mayYield = false)
    (hbody : (readStatement (.atDepth depth) c.loop).Reads body (· = names) rest) :
    (readForEach (.atDepth (depth + 1)) c isOf).Reads
      (' ' :: ((Nest.each isOf).toList ++ ' ' :: (values ++ ')' :: body))) (· = names) rest := by
  have hparen := Begins.rightParen body
  have hvalue : (readAssignment (.atDepth depth) c).Reads (' ' :: (values ++ ')' :: body))
      (fun _ => True) (')' :: body) :=
    readAssignment_variable hvalues isGap_space (Code.endsExpression_rightParen body) hyield
  refine .past (Begins.keyword (Nest.each isOf) _ (isWord_each isOf) rfl) ?_
  cases isOf with
  | true =>
    refine Reads.bind (p := (Grammar.atDepth (depth + 1)).assignment c) hvalue fun _ _ => ?_
    exact .expect hparen hbody
  | false =>
    refine (expression_reads (g := .atDepth (depth + 1)) hvalue hparen (by simp)).bind fun _ _ => ?_
    exact .expect hparen hbody

theorem readStatement_forEach {isOf : Bool} {name values body : Text}
    (hname : isVariable name = true)
    (hvalues : isVariable values = true) (hyield : c.mayYield = false)
    (hbody : (readStatement (.atDepth depth) c.inside.loop).Reads body (· = names) rest) :
    (readStatement (.atDepth (depth + 1)) c).Reads
      (' ' :: ("for".toList ++ ' ' :: '(' :: ("var".toList ++ ' ' :: (name ++
        ' ' :: ((Nest.each isOf).toList ++ ' ' :: (values ++ ')' :: body))))))
      (· = name :: names) rest := by
  have hvar : Begins ("var".toList ++ ' ' :: (name ++
      ' ' :: ((Nest.each isOf).toList ++ ' ' :: (values ++ ')' :: body)))) (.word "var" false)
      false (' ' :: (name ++ ' ' :: ((Nest.each isOf).toList ++ ' ' :: (values ++ ')' :: body)))) :=
    Begins.word (by decide) rfl
  have heach := Begins.keyword (Nest.each isOf) (' ' :: (values ++ ')' :: body))
    (isWord_each isOf) rfl
  refine readStatement_forVar rfl (.past hvar ?_)
  refine (readDeclarators_one (.of_isVariable hname) rfl heach (by simp) (by simp)).bind ?_
  rintro _ ⟨d, rfl, hpattern, hinitializer⟩
  have hsees : ∀ s : State, s.ahead.rest =
      ' ' :: ((Nest.each isOf).toList ++ ' ' :: (values ++ ')' :: body)) →
      seesForEach s = some (some isOf, s) := by
    intro s hs
    cases isOf <;> simp [seesForEach, heach.token_eq hs, Nest.each]
  refine .test hsees ?_
  have hnone : (d.initializer.isNone && (isOf || !false)) = true := by simp [hinitializer]
  simp only [hnone, Declarator.allNames_one hpattern]
  refine .look heach.isSome (fun s => ⟨(), rfl⟩) fun _ => ?_
  have hloop : (readForEach (.atDepth (depth + 1)) c.inside isOf).Reads _ (· = names) rest :=
    readForEach_variable hvalues hyield hbody
  exact hloop.map fun _ heq => congrArg (name :: ·) heq

/-! ### Statements in braces -/

/-- Statements that are read one by one are read by a loop over them, which holds the names found
so far as `hold` says. -/
theorem Nest.loops_items {α β : Type} {step : α → Parser (α ⊕ β)} (hold : List Text → α)
    {Fits : β → Prop} {final : Text} {body : List Nest}
    (hstep : ∀ n ∈ body, ∀ hoisted rest, (front rest).isSome →
      (step (hold hoisted)).Reads (n.render ++ rest)
        (fun r => ∃ b, r = .inl b ∧ b = hold (hoisted ++ n.names)) rest)
    (hoisted : List Text)
    (hend : Loops step (hold (hoisted ++ namesOfAll body)) rest Fits final) :
    Loops step (hold hoisted) (renderAll body ++ rest) Fits final := by
  induction body generalizing hoisted with
  | nil => simpa [namesOfAll, renderAll] using hend
  | cons n more ih =>
    rw [List.forall_mem_cons] at hstep
    rw [namesOfAll, ← List.append_assoc] at hend
    have hmore := ih hstep.2 (hoisted ++ n.names) hend
    obtain ⟨text, htext⟩ := n.exists_render
    rw [renderAll, List.append_assoc]
    refine .more (hstep.1 hoisted _ (hmore _ (Nat.lt_succ_self _)).1) ?_ ?_
    · simp only [htext, List.length_append, List.length_cons]
      omega
    · rintro _ rfl
      exact hmore

/-- Each of several statements is read, as a declaration or a statement, wherever something
follows it. -/
def Nest.AllRead (body : List Nest) (depth : Nat) (c : Context) : Prop :=
  ∀ n ∈ body, ∀ rest, (front rest).isSome →
    (readItemOrStatement (.atDepth depth) c).Reads (n.render ++ rest) (· = n.names) rest

theorem Nest.AllRead.block {body : List Nest} (h : AllRead body depth c)
    (hyield : c.mayYield = false) (hrest : (front rest).isSome) :
    Loops (blockStep (.atDepth (depth + 1)) c) [] (renderAll body ++ ' ' :: '}' :: rest)
      (· = namesOfAll body) rest := by
  refine Nest.loops_items id ?_ [] ?_
  · intro n hn hoisted rest hrest
    refine (blockStep_item (h n hn rest hrest) hyield).imp ?_
    rintro _ ⟨b, rfl, _, rfl, rfl⟩
    exact ⟨_, rfl, rfl⟩
  · exact .done (.eat (Begins.rightBrace rest).space (.pure hrest ⟨_, rfl, rfl⟩))

section Switch

variable {labels hoisted : List Text} {inBranch hasDefault : Bool}

theorem switchStep_case {value : Text} (hvalue : isVariable value = true)
    (hyield : c.mayYield = false) (hrest : (front rest).isSome) :
    (switchStep (.atDepth (depth + 1)) c (inBranch, hasDefault, hoisted)).Reads
      (' ' :: ("case".toList ++ ' ' :: (value ++ ':' :: rest)))
      (fun r => ∃ b, r = .inl b ∧ b = (true, hasDefault, hoisted)) rest := by
  have hcase := Begins.keyword "case" (' ' :: (value ++ ':' :: rest)) (by decide) rfl
  have hcolon := Begins.colon rest
  have hends : Code.EndsExpression (':' :: rest) := ⟨rfl, _, _, _, hcolon, rfl, by decide⟩
  have hexpression : (readAssignment (.atDepth depth) c.inside).Reads
      (' ' :: (value ++ ':' :: rest)) (fun _ => True) (':' :: rest) :=
    readAssignment_variable hvalue isGap_space hends hyield
  refine .eat_other hcase (by simp) (.eatWord hcase ?_)
  refine (expression_reads (g := .atDepth (depth + 1)) hexpression hcolon (by simp)).bind
    fun _ _ => ?_
  exact .expect hcolon (.pure hrest ⟨_, rfl, rfl⟩)

theorem switchStep_default (hrest : (front rest).isSome) :
    (switchStep g c (inBranch, false, hoisted)).Reads (' ' :: ("default".toList ++ ':' :: rest))
      (fun r => ∃ b, r = .inl b ∧ b = (true, true, hoisted)) rest := by
  have hdefault := Begins.keyword "default" (':' :: rest) (by decide) rfl
  refine .eat_other hdefault (by simp) (.eatWord_other hdefault (by simp) (.eatWord hdefault ?_))
  refine .look (Begins.colon rest).isSome (fun s => ⟨(), rfl⟩) fun _ => ?_
  exact .expect (.colon rest) (.pure hrest ⟨_, rfl, rfl⟩)

theorem switchStep_item {n : Nest} (hfits : n.fits labels = true)
    (h : (readItemOrStatement (.atDepth depth) c).Reads (n.render ++ rest) (· = n.names) rest)
    (hyield : c.mayYield = false) :
    (switchStep (.atDepth (depth + 1)) c (true, hasDefault, hoisted)).Reads (n.render ++ rest)
      (fun r => ∃ b, r = .inl b ∧ b = (true, hasDefault, hoisted ++ n.names)) rest := by
  obtain ⟨after, hopening⟩ := n.begins_opening hfits rest
  have hne := n.opening_ne hfits
  obtain ⟨token, newline, later, hbegins, hbrace⟩ := begins_of_readItem h hyield
  refine .eat_other hbegins hbrace ?_
  refine .eatWord_other hopening (hne "case" (by decide)) ?_
  refine .eatWord_other hopening (hne "default" (by decide)) ?_
  refine .look hopening.isSome (fun s => ⟨(), rfl⟩) fun _ => ?_
  refine Reads.map (p := (Grammar.atDepth (depth + 1)).item c) h ?_
  rintro _ rfl
  exact ⟨_, rfl, rfl⟩

theorem Nest.AllRead.branch {body : List Nest} {Fits : List Text → Prop} {final : Text}
    (h : AllRead body depth c) (hfits : fitsAll labels body = true) (hyield : c.mayYield = false)
    (hend : Loops (switchStep (.atDepth (depth + 1)) c)
      (true, hasDefault, hoisted ++ namesOfAll body) rest Fits final) :
    Loops (switchStep (.atDepth (depth + 1)) c) (true, hasDefault, hoisted) (renderAll body ++ rest)
      Fits final := by
  refine Nest.loops_items (fun hoisted => (true, hasDefault, hoisted)) ?_ hoisted hend
  intro n hn hoisted rest hrest
  exact switchStep_item (fitsAll_iff.1 hfits n hn) (h n hn rest hrest) hyield

theorem Nest.AllRead.switch {test value : Text} {branch otherwise : List Nest}
    (hbranch : AllRead branch depth { c with mayBreak := true })
    (hotherwise : AllRead otherwise depth { c with mayBreak := true })
    (hfits : fitsAll labels branch = true) (hfits' : fitsAll labels otherwise = true)
    (htest : isVariable test = true) (hvalue : isVariable value = true)
    (hyield : c.mayYield = false) (hrest : (front rest).isSome) :
    (readStatement (.atDepth (depth + 1)) c).Reads
      (' ' :: ("switch".toList ++ ' ' :: '(' :: (test ++ ')' :: ' ' :: '{' ::
        ' ' :: ("case".toList ++ ' ' :: (value ++ ':' :: (renderAll branch ++
          ' ' :: ("default".toList ++ ':' :: (renderAll otherwise ++ ' ' :: '}' :: rest))))))))
      (· = namesOfAll branch ++ namesOfAll otherwise) rest := by
  have hend : Loops (switchStep (.atDepth (depth + 1)) { c with mayBreak := true })
      (true, true, namesOfAll branch) (renderAll otherwise ++ ' ' :: '}' :: rest)
      (· = namesOfAll branch ++ namesOfAll otherwise) rest := by
    refine hotherwise.branch hfits' hyield ?_
    exact .done (.eat (Begins.rightBrace rest).space (.pure hrest ⟨_, rfl, rfl⟩))
  have hdefault : Loops (switchStep (.atDepth (depth + 1)) { c with mayBreak := true })
      (true, false, namesOfAll branch)
      (' ' :: ("default".toList ++ ':' :: (renderAll otherwise ++ ' ' :: '}' :: rest)))
      (· = namesOfAll branch ++ namesOfAll otherwise) rest := by
    refine .more (switchStep_default (hend _ (Nat.lt_succ_self _)).1) (by simp; omega) ?_
    rintro _ rfl
    exact hend
  have hcase : Loops (switchStep (.atDepth (depth + 1)) { c with mayBreak := true })
      (true, false, []) _ (· = namesOfAll branch ++ namesOfAll otherwise) rest :=
    hbranch.branch hfits hyield hdefault
  refine readStatement_keyword (by decide) rfl rfl ?_
  have hbrace := (Begins.leftBrace (' ' ::
    ("case".toList ++ ' ' :: (value ++ ':' :: (renderAll branch ++
    ' ' :: ("default".toList ++ ':' :: (renderAll otherwise ++ ' ' :: '}' :: rest))))))).space
  refine (condition_variable htest hyield hbrace.isSome).bind fun _ _ => .expect hbrace ?_
  refine Loops.repeated (.more (switchStep_case hvalue hyield (hcase _ (Nat.lt_succ_self _)).1)
    (by simp; omega) ?_)
  rintro _ rfl
  exact hcase

end Switch

theorem readStatement_try {body handler finalizer : Text} {first second third : List Text}
    (hbody : Loops (blockStep g c) [] body (· = first)
      (' ' :: ("catch".toList ++ ' ' :: '{' :: handler)))
    (hhandler : Loops (blockStep g c) [] handler (· = second)
      (' ' :: ("finally".toList ++ ' ' :: '{' :: finalizer)))
    (hfinalizer : Loops (blockStep g c) [] finalizer (· = third) rest) :
    (readStatement g c).Reads (' ' :: ("try".toList ++ ' ' :: '{' :: body))
      (· = first ++ second ++ third) rest := by
  have hcatch := Begins.keyword "catch" (' ' :: '{' :: handler) (by decide) rfl
  have hfinally := Begins.keyword "finally" (' ' :: '{' :: finalizer) (by decide) rfl
  have hblock : ∀ {text rest : Text} {names : List Text}, Loops (blockStep g c) [] text
      (· = names) rest → (readBlock g c).Reads (' ' :: '{' :: text) (· = names) rest :=
    fun h => .expect (Begins.leftBrace _).space h.repeated
  refine readStatement_keyword (by decide) rfl rfl ?_
  refine (hblock hbody).bind ?_
  rintro _ rfl
  refine .eatWord hcatch ?_
  refine .eat_other (Begins.leftBrace handler).space (by simp) ((hblock hhandler).bind ?_)
  rintro _ rfl
  refine .eatWord hfinally ((hblock hfinalizer).bind ?_)
  rintro _ rfl
  have hrest := (hblock hfinalizer).isSome_rest
  exact .look hrest (fun s => ⟨(), rfl⟩) fun _ => .pure hrest rfl

/-! ### Labels -/

theorem readStatement_labelled {label body : Text} (hlabel : isVariable label = true)
    (hnew : label ∉ c.labels)
    (hbody : (readStatement (.atDepth depth)
      { c with labels := label :: c.labels, mayBreak := true }).Reads body (· = names) rest) :
    (readStatement (.atDepth (depth + 1)) c).Reads (' ' :: (label ++ ':' :: body)) (· = names)
      rest := by
  have hends : endsWord (':' :: body) = true := rfl
  have hword := (Begins.word (isWord_of_isVariable hlabel) hends).space
  have hcolon := Begins.colon body
  refine .step hword (q := do
    expect .colon
    (Grammar.atDepth (depth + 1)).statement
      { c with labels := label :: c.labels, mayBreak := true })
    (.expect hcolon hbody) fun s hs => ?_
  have hfollowing := hword.following_eq hcolon hs
  rw [readStatement_word _ c (ne_statementWord hlabel) (hword.token_eq hs) (by simp [hfollowing])]
  simp [readNameStatement, hfollowing, isReservedWord_of_isVariable hlabel, hnew]

end Form

/-! ### Nests -/

/-- A token that begins no declaration begins a statement. -/
theorem readItemOrStatement_of_ne {s : State} (g : Grammar) (c : Context)
    (hne : ∀ word ∈ ["let", "const", "function", "class"], s.next.token ≠ .word word.toList false) :
    readItemOrStatement g c s = readStatement g c s := by
  cases htoken : s.next.token with
  | word name quoted =>
    cases quoted with
    | false =>
      refine readItemOrStatement_eq g c (fun word hword heq => ?_) htoken
      exact hne word hword (htoken.trans (congrArg (Token.word · false) heq))
    | true => simp only [readItemOrStatement, bind_apply, token_apply, Option.bind_some, htoken]
  | _ => simp only [readItemOrStatement, bind_apply, token_apply, Option.bind_some, htoken]

namespace Nest

theorem readItem {n : Nest} {labels : List Text} {rest : Text} {g : Grammar} {c : Context}
    (hfits : n.fits labels = true)
    (h : (readStatement g c).Reads (n.render ++ rest) (· = n.names) rest) :
    (readItemOrStatement g c).Reads (n.render ++ rest) (· = n.names) rest := by
  obtain ⟨after, hbegins⟩ := n.begins_opening hfits rest
  refine h.of_eq fun s hs => readItemOrStatement_of_ne g c ?_
  rw [hbegins.token_eq hs]
  intro word hword
  have hsub : ∀ word ∈ ["let", "const", "function", "class"], word ∈ otherWords := by decide
  exact n.opening_ne hfits word (hsub word hword)

mutual

/-- A statement is read where it stands, and gives the names that it binds. -/
theorem reads (n : Nest) (depth : Nat) {c : Context} {rest : Text} (hyield : c.mayYield = false)
    (hfits : n.fits c.labels = true) (hdepth : n.render.length ≤ depth)
    (hrest : (front rest).isSome) :
    (readStatement (.atDepth depth) c).Reads (n.render ++ rest) (· = n.names) rest := by
  obtain ⟨text, htext⟩ := n.exists_render
  obtain ⟨depth, rfl⟩ : ∃ less, depth = less + 1 := by
    refine ⟨depth - 1, ?_⟩
    rw [htext, List.length_cons] at hdepth
    omega
  -- Each form takes at least two characters besides the statements below it, so that
  -- the depth that is left is enough for these.
  cases n with
  | declare name => simpa [render, names] using readStatement_var hfits hrest
  | block body =>
    simp only [render, List.length_cons, List.length_append] at hdepth
    have hbody := readsAll body depth hyield hfits (by omega)
    simpa [render, names] using readStatement_block (hbody.block hyield hrest)
  | choice test yes no =>
    simp only [render, List.length_cons, List.length_append] at hdepth
    simp only [fits, Bool.and_eq_true] at hfits
    have hends := no.endsWord_render rest
    have helse := Begins.keyword "else" (no.render ++ rest) (by decide) hends
    have hyes := reads yes depth hyield hfits.1.2 (by omega) helse.isSome
    have hno := reads no depth hyield hfits.2 (by omega) hrest
    simpa [render, names] using readStatement_ifElse hfits.1.1 hyield hends hyes hno
  | whileLoop test body =>
    simp only [render, List.length_cons, List.length_append] at hdepth
    simp only [fits, Bool.and_eq_true] at hfits
    have hbody := reads body depth (c := c.loop) hyield hfits.2 (by omega) hrest
    simpa [render, names] using readStatement_while hfits.1 hyield hbody
  | doLoop body test =>
    simp only [render, List.length_cons, List.length_append] at hdepth
    simp only [fits, Bool.and_eq_true] at hfits
    have hwhile := Begins.keyword "while" (' ' :: '(' :: (test ++ ')' :: ';' :: rest))
      (by decide) rfl
    have hbody := reads body depth (c := c.loop) hyield hfits.2 (by omega) hwhile.isSome
    simpa [render, names] using
      readStatement_do hfits.1 hyield (body.endsWord_render _) hbody hrest
  | countLoop name body =>
    simp only [render, List.length_cons, List.length_append] at hdepth
    simp only [fits, Bool.and_eq_true] at hfits
    have hbody := reads body depth (c := c.inside.loop) hyield hfits.2 (by omega) hrest
    simpa [render, names] using readStatement_forCount hfits.1 hbody
  | eachLoop isOf name values body =>
    simp only [render, List.length_cons, List.length_append] at hdepth
    simp only [fits, Bool.and_eq_true] at hfits
    have hbody := reads body depth (c := c.inside.loop) hyield hfits.2 (by omega) hrest
    simpa [render, names] using readStatement_forEach hfits.1.1 hfits.1.2 hyield hbody
  | select test value branch otherwise =>
    simp only [render, List.length_cons, List.length_append] at hdepth
    simp only [fits, Bool.and_eq_true] at hfits
    have hbranch := readsAll branch depth (c := { c with mayBreak := true })
      hyield hfits.1.2 (by omega)
    have hotherwise := readsAll otherwise depth (c := { c with mayBreak := true }) hyield hfits.2
      (by omega)
    have hswitch := hbranch.switch hotherwise hfits.1.2 hfits.2 hfits.1.1.1 hfits.1.1.2 hyield hrest
    simpa [render, names] using hswitch
  | attempt body handler finalizer =>
    simp only [render, List.length_cons, List.length_append] at hdepth
    simp only [fits, Bool.and_eq_true] at hfits
    have hfinalizer := (readsAll finalizer depth hyield hfits.2 (by omega)).block hyield hrest
    have hfinally := Begins.keyword "finally"
      (' ' :: '{' :: (renderAll finalizer ++ ' ' :: '}' :: rest)) (by decide) rfl
    have hhandler := (readsAll handler depth hyield hfits.1.2 (by omega)).block hyield
      hfinally.isSome
    have hcatch := Begins.keyword "catch" (' ' :: '{' :: (renderAll handler ++ ' ' :: '}' ::
      ' ' :: ("finally".toList ++ ' ' :: '{' :: (renderAll finalizer ++ ' ' :: '}' :: rest))))
      (by decide) rfl
    have hbody := (readsAll body depth hyield hfits.1.1 (by omega)).block hyield hcatch.isSome
    simpa [render, names] using readStatement_try hbody hhandler hfinalizer
  | labelled label body =>
    simp only [render, List.length_cons, List.length_append] at hdepth
    simp only [fits, Bool.and_eq_true] at hfits
    have hnew : label ∉ c.labels := by simpa using hfits.1.2
    have hbody := reads body depth (c := { c with labels := label :: c.labels, mayBreak := true })
      hyield hfits.2 (by omega) hrest
    simpa [render, names] using readStatement_labelled hfits.1.1 hnew hbody

/-- Each of several statements is read where it stands. -/
theorem readsAll (body : List Nest) (depth : Nat) {c : Context} (hyield : c.mayYield = false)
    (hfits : fitsAll c.labels body = true) (hdepth : (renderAll body).length ≤ depth) :
    AllRead body depth c := by
  cases body with
  | nil =>
    intro n hn
    cases hn
  | cons n more =>
    simp only [fitsAll, Bool.and_eq_true] at hfits
    simp only [renderAll, List.length_append] at hdepth
    have hmore := readsAll more depth hyield hfits.2 (by omega)
    refine List.forall_mem_cons.2 ⟨fun rest hrest => readItem hfits.1 ?_, hmore⟩
    exact reads n depth hyield hfits.1 (by omega) hrest

end

/-! ### Scripts -/

/-- Whether a statement is more than a declaration, which the top level of a script tells apart
from other statements. -/
def isNested : Nest → Bool
  | .declare _ => false
  | _ => true

/-- A statement that begins with `async` has it as a label. -/
theorem following_async {n : Nest} {labels : List Text} {rest : Text} {s : State}
    (hfits : n.fits labels = true) (hasync : n.opening = .word "async" false)
    (hs : s.ahead.rest = n.render ++ rest) : s.following = some (.symbol .colon, false) := by
  cases n with
  | labelled label body =>
    simp only [fits, Bool.and_eq_true] at hfits
    have hends : endsWord (':' :: (body.render ++ rest)) = true := rfl
    have hword := (Begins.word (isWord_of_isVariable hfits.1.1) hends).space
    apply hword.following_eq (.colon _)
    rw [hs, render, List.cons_append, List.append_assoc, List.cons_append]
  | block body => cases hasync
  | _ => exact absurd hasync (by rw [opening]; decide)

theorem opening_ne_var {n : Nest} {labels : List Text} (hfits : n.fits labels = true)
    (hnested : n.isNested = true) : n.opening ≠ .word "var" false := by
  cases n with
  | declare name => cases hnested
  | labelled label body =>
    simp only [fits, Bool.and_eq_true] at hfits
    intro heq
    exact ne_of_isVariable hfits.1.1 (by simp [leadingWords]) (Token.word.inj heq).1
  | block body => simp [opening]
  | _ => rw [opening]; decide

end Nest

theorem Nest.readTopLevel {n : Nest} (depth : Nat) {rest : Text} (hfits : n.fits [] = true)
    (hnested : n.isNested = true) (hdepth : n.render.length ≤ depth) (hrest : (front rest).isSome) :
    (Script.readTopLevel (.atDepth depth) .module).Reads (n.render ++ rest)
      (fun item => ∀ span, item span = .statement span n.names) rest := by
  have hstatement := n.reads depth (c := .module) rfl hfits hdepth hrest
  obtain ⟨after, hbegins⟩ := n.begins_opening hfits rest
  refine (hstatement.map (g := fun hoisted span => Item.statement span hoisted) ?_).of_eq
    fun s hs => ?_
  · rintro _ rfl span
    rfl
  · apply readTopLevel_statement
    · intro word hword
      rw [hbegins.token_eq hs]
      have hcases : ∀ word ∈ ["import", "export", "var", "let", "const", "function", "class"],
          word = "var" ∨ word ∈ otherWords := by decide
      rcases hcases word hword with rfl | hother
      · exact opening_ne_var hfits hnested
      · exact opening_ne hfits word hother
    · intro hasync
      rw [hbegins.token_eq hs] at hasync
      simp [following_async hfits hasync hs]

/-- A script that exports a variable and goes on with a text. -/
def exporting (name text : Text) : Text :=
  "export".toList ++ ' ' :: ("let".toList ++ ' ' :: (name ++ ';' :: text))

theorem length_lt_exporting (name text : Text) : text.length < (exporting name text).length := by
  unfold exporting
  simp only [List.length_append, List.length_cons]
  omega

theorem start_exporting (name text : Text) :
    Input.start (exporting name text) = ⟨exporting name text, 0⟩ := by
  apply Input.start_eq
  intro more heq
  cases heq

theorem readTopLevel_exporting (depth : Nat) (c : Context) {written name rest : Text}
    (hname : Spells written name) (hrest : (front rest).isSome) :
    (readTopLevel (.atDepth (depth + 1)) c).Reads (exporting written rest)
      (fun item => ∃ d, (d.pattern = .name name ∧ d.initializer = none) ∧
        ∀ span, item span = .exportedVariables span [d])
      rest := by
  have hlet := Begins.keyword "let" (' ' :: (written ++ ';' :: rest)) (by decide) rfl
  have hexport : Begins (exporting written rest) (.word "export" false) false
      (' ' :: ("let".toList ++ ' ' :: (written ++ ';' :: rest))) :=
    Begins.word (by decide) rfl
  have hvariables : (readExport (.atDepth (depth + 1)) c).Reads
      (' ' :: ("let".toList ++ ' ' :: (written ++ ';' :: rest)))
      (fun exported => ∃ d, (d.pattern = .name name ∧ d.initializer = none) ∧
        exported = .variables [d]) rest := by
    refine .eat_other hlet (by simp) (.eat_other hlet (by simp) (.eatWord_other hlet (by simp) ?_))
    refine .test (b := false) (fun s hs => by simp [hlet.token_eq hs]) ?_
    refine .test (b := true) (fun s hs => by simp [hlet.token_eq hs]) (.past hlet ?_)
    refine (readVariables_one hname hrest).map ?_
    rintro _ ⟨d, rfl, hd⟩
    exact ⟨d, hd, rfl⟩
  refine .test (b := false) (fun s hs => ?_) (.eatWord hexport (hvariables.bind ?_))
  · simp [seesImportDeclaration, hexport.token_eq hs]
  · rintro _ ⟨d, hd, rfl⟩
    exact .pure hrest ⟨d, hd, fun span => rfl⟩

/-- A script that exports a variable and goes on with a statement is read with all the names that
the statement binds. -/
theorem Nest.parse_exporting {property : Text} {n : Nest} (hproperty : isVariable property = true)
    (hfits : n.fits [] = true) (hnested : n.isNested = true) :
    ∃ d span place, d.pattern = .name property ∧ parse (exporting property n.render) =
      some [.exportedVariables span [d], .statement place n.names] := by
  have hlength := length_lt_exporting property n.render
  obtain ⟨text, htext⟩ := n.exists_render
  have hstatement := readTopLevel (2 * (exporting property n.render).length + 4) hfits hnested
    (by omega) Begins.nil.isSome
  rw [List.append_nil] at hstatement
  have hexport := readTopLevel_exporting (2 * (exporting property n.render).length + 3) .module
    (.of_isVariable hproperty) hstatement.1
  have hmodule : (readModule (.atDepth (2 * (exporting property n.render).length + 4))).Reads
      (exporting property n.render)
      (fun items => ∃ d span place, d.pattern = .name property ∧
        items = [.exportedVariables span [d], .statement place n.names]) [] := by
    refine Loops.repeated (.more (moduleStep_item hexport []) hlength ?_)
    rintro _ ⟨_, span, ⟨d, ⟨hpattern, -⟩, hitem⟩, rfl⟩
    refine .more (moduleStep_item hstatement _) (by simp [htext]) ?_
    rintro _ ⟨_, place, hother, rfl⟩
    refine moduleStep_end .nil ⟨d, span, place, hpattern, ?_⟩
    rw [hitem, hother]
    rfl
  obtain ⟨_, hparse, d, span, place, hpattern, rfl⟩ :=
    parse_of_reads (start_exporting property n.render) hmodule
  exact ⟨d, span, place, hpattern, hparse⟩

end Component.Script
