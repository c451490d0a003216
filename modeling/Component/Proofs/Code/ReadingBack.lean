/-
Statements read back from their text.

The printer separates arguments and lines by plain marks and adds no parentheses.  What the
methods of a component are made of can still be told apart: names end before every mark, and in a
string literal no mark can pass for its end.  The reader here takes a text as the printer writes
it, and gives the statements.
-/
import Component.Proofs.Validity

namespace Component.Code

open Script (isWord endsWord isIdentifier)

/-! ### The reader -/

def readName (t : Text) : Option (Text × Text) :=
  let word := t.takeWhile Identifier.isPart
  if isWord word then some (word, t.dropWhile Identifier.isPart) else none

def readLeaf (t : Text) : Option (Expr × Text) :=
  match t with
  | '"' :: rest =>
      (Script.readString '"' (rest.length + 1) rest).map fun (value, _, rest) =>
        (.string value, rest)
  | _ => (readName t).map fun (name, rest) => (.name name, rest)

/-- Reads arguments, of which there is one at least, up to the closing parenthesis. -/
def readLeaves : Nat → Text → Option (List Expr × Text)
  | 0, _ => none
  | steps + 1, t =>
      match readLeaf t with
      | some (e, ')' :: rest) => some ([e], rest)
      | some (e, ',' :: ' ' :: rest) =>
          (readLeaves steps rest).map fun (more, rest) => (e :: more, rest)
      | _ => none

/-- Reads the arguments of a call after the opening parenthesis. -/
def readArguments (t : Text) : Option (List Expr × Text) :=
  match t with
  | ')' :: rest => some ([], rest)
  | _ => readLeaves (t.length + 1) t

/-- Goes on with an expression by members and calls, as long as there are any. -/
def readAccesses : Nat → Expr → Text → Option (Expr × Text)
  | 0, _, _ => none
  | steps + 1, e, t =>
      match t with
      | '.' :: rest => do
          let (property, rest) ← readName rest
          readAccesses steps (.member e property) rest
      | '(' :: rest => do
          let (arguments, rest) ← readArguments rest
          readAccesses steps (.call e arguments) rest
      | _ => some (e, t)

def readChain (t : Text) : Option (Expr × Text) := do
  let (leaf, rest) ← readLeaf t
  readAccesses (t.length + 1) leaf rest

def operators : List (Text × (Expr → Expr → Expr)) :=
  [([' ', '=', ' '], .assign), ([' ', 'i', 'n', ' '], .contains),
    ([' ', '=', '=', '=', ' '], .same)]

def readOperator (t : Text) : Option ((Expr → Expr → Expr) × Text) :=
  operators.findSome? fun (mark, make) => (t.dropPrefix? mark).map fun rest => (make, rest)

/-- Reads an expression with one operator or none. -/
def readExpr (t : Text) : Option (Expr × Text) := do
  let (left, rest) ← readChain t
  match readOperator rest with
  | some (make, rest) => do
      let (right, rest) ← readChain rest
      some (make left right, rest)
  | none => some (left, rest)

/-- Reads an expression and the end of its line. -/
def readLine (t : Text) : Option (Stmt × Text) := do
  let (e, rest) ← readExpr t
  let rest ← rest.dropPrefix? [';', '\n']
  some (.expr e, rest)

mutual

def readStmt : Nat → Nat → Text → Option (Stmt × Text)
  | 0, _, _ => none
  | steps + 1, depth, t => do
      let t ← t.dropPrefix? (indent depth)
      match readLine t with
      | some r => some r
      | none => do
          let rest ← t.dropPrefix? ['i', 'f', ' ', '(']
          let (test, rest) ← readExpr rest
          let rest ← rest.dropPrefix? [')', ' ', '{', '\n']
          let (body, rest) ← readStmts steps (depth + 1) rest
          let rest ← rest.dropPrefix? (indent depth ++ ['}', '\n'])
          some (.ifThen test body, rest)

/-- Reads statements as long as lines are indented. -/
def readStmts : Nat → Nat → Text → Option (List Stmt × Text)
  | 0, _, _ => none
  | steps + 1, depth, t =>
      if (indent depth).isPrefixOf t then do
        let (s, rest) ← readStmt steps depth t
        let (more, rest) ← readStmts steps depth rest
        some (s :: more, rest)
      else some ([], t)

end

def readText (t : Text) : Option Stmt :=
  match readStmt (t.length + 2) 0 (t ++ ['\n']) with
  | some (s, []) => some s
  | _ => none

/-- Reads the statements of a method after the opening brace. -/
def readBlock (level : Nat) (t : Text) : Option (List Stmt × Text) :=
  match t with
  | '}' :: rest => some ([], rest)
  | '\n' :: rest => do
      let (body, rest) ← readStmts (rest.length + 1) (level + 1) rest
      let rest ← rest.dropPrefix? (indent level ++ ['}'])
      some (body, rest)
  | _ => none

/-! ### What is read back -/

/-- A name or a string literal. -/
inductive Expr.IsLeaf : Expr → Prop
  | name {text : Text} (h : isWord text = true) : IsLeaf (.name text)
  | string (value : Text) : IsLeaf (.string value)

/-- Members and calls of a name or a string literal, with such arguments. -/
inductive Expr.IsChain : Expr → Prop
  | leaf {e : Expr} (h : e.IsLeaf) : IsChain e
  | member {object : Expr} {property : Text} (h : object.IsChain)
      (hproperty : isWord property = true) : IsChain (.member object property)
  | call {callee : Expr} {arguments : List Expr} (h : callee.IsChain)
      (harguments : ∀ e ∈ arguments, e.IsLeaf) : IsChain (.call callee arguments)

/-- An expression with one operator or none. -/
inductive Expr.IsLegible : Expr → Prop
  | chain {e : Expr} (h : e.IsChain) : IsLegible e
  | assign {target value : Expr} (h : target.IsChain) (hvalue : value.IsChain) :
      IsLegible (.assign target value)
  | contains {key object : Expr} (h : key.IsChain) (hobject : object.IsChain) :
      IsLegible (.contains key object)
  | same {left right : Expr} (h : left.IsChain) (hright : right.IsChain) :
      IsLegible (.same left right)

/-- A statement of such expressions. -/
inductive Stmt.IsLegible : Stmt → Prop
  | expr {e : Expr} (h : e.IsLegible) : IsLegible (.expr e)
  | ifThen {test : Expr} {body : List Stmt} (htest : test.IsLegible)
      (hbody : ∀ s ∈ body, Stmt.IsLegible s) : IsLegible (.ifThen test body)

section Expressions

variable {e : Expr} {name rest : Text}

theorem readName_append (h : isWord name = true) (hrest : endsWord rest = true) :
    readName (name ++ rest) = some (name, rest) := by
  have hparts : ∀ c ∈ name, Identifier.isPart c = true := by
    cases name with
    | nil => simp
    | cons c name =>
      simp only [isWord, Bool.and_eq_true] at h
      exact List.forall_mem_cons.2 ⟨Script.isPart_of_isStart h.1, List.all_eq_true.1 h.2⟩
  have hstop : rest.takeWhile Identifier.isPart = [] ∧ rest.dropWhile Identifier.isPart = rest := by
    cases rest with
    | nil => exact ⟨rfl, rfl⟩
    | cons c rest =>
      simp only [endsWord, Bool.and_eq_true, Bool.not_eq_true'] at hrest
      simp [hrest.1]
  rw [readName, List.takeWhile_append_of_pos hparts, List.dropWhile_append_of_pos hparts, hstop.1,
    hstop.2, List.append_nil]
  exact if_pos h

theorem Expr.IsLeaf.read (h : e.IsLeaf) (hrest : endsWord rest = true) :
    readLeaf (e.render ++ rest) = some (e, rest) := by
  cases h with
  | name h =>
    rename_i text
    have hunquoted : ∀ more, text ++ rest = '"' :: more → False := by
      intro more heq
      cases text with
      | nil => cases h
      | cons c text =>
        obtain ⟨rfl, -⟩ := List.cons.inj heq
        cases h
    rw [Expr.render, readLeaf, readName_append h hrest, Option.map_some]
    exact hunquoted
  | string value =>
    have hlength := Script.length_le_length_flatMap_escape value
    obtain ⟨escaped, hread⟩ := Script.readString_quote value rest
      ((value.flatMap escape ++ '"' :: rest).length + 1) (by
        simp only [List.length_append, List.length_cons]
        omega)
    rw [Expr.render, quote, List.cons_append, List.append_assoc, List.singleton_append, readLeaf,
      hread, Option.map_some]

theorem Expr.IsLeaf.exists_cons (h : e.IsLeaf) : ∃ c more, e.render = c :: more ∧ c ≠ ')' := by
  cases h with
  | name h =>
    rename_i text
    cases text with
    | nil => cases h
    | cons c text =>
      refine ⟨c, text, rfl, ?_⟩
      rintro rfl
      cases h
  | string value => exact ⟨'"', _, rfl, by decide⟩

theorem readLeaves_join {first : Expr} {more : List Expr} (h : ∀ e ∈ first :: more, e.IsLeaf)
    {steps : Nat} (hsteps : more.length < steps) (rest : Text) :
    readLeaves steps (Text.join [',', ' '] ((first :: more).map Expr.render) ++ ')' :: rest) =
      some (first :: more, rest) := by
  induction more generalizing first steps with
  | nil =>
    obtain ⟨steps, rfl⟩ := Nat.exists_eq_add_of_lt hsteps
    have hfirst : readLeaf (first.render ++ ')' :: rest) = some (first, ')' :: rest) :=
      (h first List.mem_cons_self).read rfl
    simp only [List.map_cons, List.map_nil, Text.join, readLeaves, hfirst]
  | cons second more ih =>
    obtain ⟨steps, rfl⟩ := Nat.exists_eq_add_of_lt hsteps
    obtain ⟨hfirst, hmore⟩ := List.forall_mem_cons.1 h
    have hlater := ih hmore (show more.length < more.length + 1 + steps by omega)
    have htext : Text.join [',', ' '] ((first :: second :: more).map Expr.render) ++ ')' :: rest =
        first.render ++ ',' :: ' ' ::
          (Text.join [',', ' '] ((second :: more).map Expr.render) ++ ')' :: rest) := by
      simp [Text.join]
    rw [htext]
    generalize Text.join [',', ' '] ((second :: more).map Expr.render) ++ ')' :: rest = later
      at hlater ⊢
    have hleaf : readLeaf (first.render ++ ',' :: ' ' :: later) =
        some (first, ',' :: ' ' :: later) := hfirst.read rfl
    simp only [List.length_cons, readLeaves, hleaf, hlater, Option.map_some]

theorem length_le_join (texts : List Text) :
    texts.length ≤ (Text.join [',', ' '] texts).length + 1 := by
  induction texts with
  | nil => exact Nat.zero_le _
  | cons first more ih =>
    cases more with
    | nil => exact Nat.le_add_left _ _
    | cons second more =>
      simp only [Text.join, List.length_append, List.length_cons] at ih ⊢
      omega

theorem readArguments_join {arguments : List Expr} (h : ∀ e ∈ arguments, e.IsLeaf) (rest : Text) :
    readArguments (Text.join [',', ' '] (arguments.map Expr.render) ++ ')' :: rest) =
      some (arguments, rest) := by
  cases arguments with
  | nil => rfl
  | cons first more =>
    obtain ⟨c, text, hfirst, hc⟩ := (h first List.mem_cons_self).exists_cons
    obtain ⟨later, hjoin⟩ : ∃ later,
        Text.join [',', ' '] ((first :: more).map Expr.render) = c :: later := by
      cases more <;> simp [Text.join, hfirst]
    have hlength : more.length <
        (Text.join [',', ' '] ((first :: more).map Expr.render) ++ ')' :: rest).length + 1 := by
      have hjoined := length_le_join ((first :: more).map Expr.render)
      simp only [List.length_map, List.length_cons] at hjoined
      rw [List.length_append]
      omega
    have hleaves := readLeaves_join h hlength rest
    rw [hjoin, List.cons_append] at hleaves ⊢
    rw [readArguments, hleaves]
    rintro _ heq
    exact hc (List.cons.inj heq).1

/-- The number of members and calls that an expression ends with. -/
def Expr.accesses : Expr → Nat
  | .member object _ => object.accesses + 1
  | .call callee _ => callee.accesses + 1
  | _ => 0

theorem Expr.IsChain.accesses_le (h : e.IsChain) : e.accesses ≤ e.render.length := by
  induction h with
  | leaf h => cases h <;> exact Nat.zero_le _
  | member _ _ ih =>
    simp only [Expr.accesses, Expr.render, List.length_append, List.length_cons]
    omega
  | call _ _ ih =>
    simp only [Expr.accesses, Expr.render, List.length_append, List.length_cons]
    omega

/-- Reading the front of an expression and going on comes to the expression itself. -/
theorem Expr.IsChain.readAccesses (h : e.IsChain) (steps : Nat) (rest : Text)
    (hrest : endsWord rest = true) :
    ((readLeaf (e.render ++ rest)).bind fun r => Code.readAccesses (steps + e.accesses) r.1 r.2) =
      Code.readAccesses steps e rest := by
  -- The reader goes from the front of an expression on, the induction from its last access
  -- inward: the steps left over pay for the accesses that are still to come.
  induction h generalizing steps rest with
  | @leaf e h =>
    have haccesses : e.accesses = 0 := by cases h <;> rfl
    rw [h.read hrest, Option.bind_some, haccesses, Nat.add_zero]
  | @member object property _ hproperty ih =>
    have hobject := ih (steps + 1) ('.' :: (property ++ rest)) rfl
    have htext : (Expr.member object property).render ++ rest =
        object.render ++ '.' :: (property ++ rest) := by
      simp [Expr.render]
    rw [htext, Expr.accesses, Nat.add_comm object.accesses, ← Nat.add_assoc, hobject]
    simp only [Code.readAccesses, readName_append hproperty hrest, bind, Option.bind_some]
  | @call callee arguments _ harguments ih =>
    let text := Text.join [',', ' '] (arguments.map Expr.render) ++ ')' :: rest
    have hcallee := ih (steps + 1) ('(' :: text) rfl
    have htext : (Expr.call callee arguments).render ++ rest = callee.render ++ '(' :: text := by
      simp [Expr.render, Expr.renderAll_eq_map, text]
    rw [htext, Expr.accesses, Nat.add_comm callee.accesses, ← Nat.add_assoc, hcallee]
    simp only [Code.readAccesses, text, readArguments_join harguments, bind, Option.bind_some]

/-- Whether an expression without operators ends before a text. -/
def endsChain : Text → Bool
  | [] => true
  | c :: rest => endsWord (c :: rest) && c != '.' && c != '('

theorem Expr.IsChain.read (h : e.IsChain) (hrest : endsChain rest = true) :
    readChain (e.render ++ rest) = some (e, rest) := by
  have hword : endsWord rest = true := by
    cases rest with
    | nil => rfl
    | cons c rest =>
      simp only [endsChain, Bool.and_eq_true] at hrest
      exact hrest.1.1
  have hdone : ∀ steps, Code.readAccesses (steps + 1) e rest = some (e, rest) := by
    intro steps
    cases rest with
    | nil => rfl
    | cons c rest =>
      simp only [endsChain, Bool.and_eq_true, bne_iff_ne] at hrest
      simp [Code.readAccesses, hrest.1.2, hrest.2]
  have hlength := h.accesses_le
  obtain ⟨steps, hsteps⟩ : ∃ steps, (e.render ++ rest).length + 1 = steps + 1 + e.accesses :=
    ⟨(e.render ++ rest).length - e.accesses, by rw [List.length_append]; omega⟩
  have hread := h.readAccesses (steps + 1) rest hword
  rw [hdone, ← hsteps] at hread
  exact hread

theorem readOperator_mark {mark : Text} {make : Expr → Expr → Expr} (h : (mark, make) ∈ operators)
    (text : Text) :
    endsChain (mark ++ text) = true ∧ readOperator (mark ++ text) = some (make, text) := by
  simp only [operators, List.mem_cons, Prod.mk.injEq, List.not_mem_nil, or_false] at h
  obtain ⟨rfl, rfl⟩ | ⟨rfl, rfl⟩ | ⟨rfl, rfl⟩ := h <;>
    exact ⟨rfl, by simp [readOperator, operators, List.dropPrefix?]⟩

theorem readOperator_cons {c : Char} (h : c ≠ ' ') (text : Text) :
    readOperator (c :: text) = none := by
  simp [readOperator, operators, List.dropPrefix?, h]

theorem readExpr_operator {left right : Expr} {mark : Text} {make : Expr → Expr → Expr}
    (h : (mark, make) ∈ operators) (hleft : left.IsChain) (hright : right.IsChain)
    (hrest : endsChain rest = true) :
    readExpr (left.render ++ (mark ++ (right.render ++ rest))) = some (make left right, rest) := by
  obtain ⟨hends, hoperator⟩ := readOperator_mark h (right.render ++ rest)
  simp only [readExpr, hleft.read hends, hoperator, hright.read hrest, bind, Option.bind_some]

/-- An expression, before a mark that ends it. -/
theorem Expr.IsLegible.read {c : Char} (h : e.IsLegible) (hc : c ∈ [';', ')']) (rest : Text) :
    readExpr (e.render ++ c :: rest) = some (e, c :: rest) := by
  have hends : endsChain (c :: rest) = true ∧ c ≠ ' ' := by
    obtain rfl | hc := List.mem_cons.1 hc
    · exact ⟨rfl, by decide⟩
    · rw [List.mem_singleton.1 hc]
      exact ⟨rfl, by decide⟩
  cases h with
  | chain h =>
    simp only [readExpr, h.read hends.1, readOperator_cons hends.2, bind, Option.bind_some]
  | assign h hvalue =>
    have hmark : ([' ', '=', ' '], Expr.assign) ∈ operators := by simp [operators]
    simpa [Expr.render] using readExpr_operator hmark h hvalue hends.1
  | contains h hobject =>
    have hmark : ([' ', 'i', 'n', ' '], Expr.contains) ∈ operators := by simp [operators]
    simpa [Expr.render] using readExpr_operator hmark h hobject hends.1
  | same h hright =>
    have hmark : ([' ', '=', '=', '=', ' '], Expr.same) ∈ operators := by simp [operators]
    simpa [Expr.render] using readExpr_operator hmark h hright hends.1

end Expressions

section Statements

variable {rest : Text}

theorem dropPrefix?_append (front rest : Text) : (front ++ rest).dropPrefix? front = some rest :=
  List.dropPrefix?_append_of_beq rest (BEq.refl front)

theorem readLine_append {e : Expr} (h : e.IsLegible) :
    readLine (e.render ++ ';' :: '\n' :: rest) = some (.expr e, rest) := by
  have hend : (';' :: '\n' :: rest).dropPrefix? [';', '\n'] = some rest :=
    dropPrefix?_append [';', '\n'] rest
  simp only [readLine, h.read (c := ';') (by simp), hend, bind, Option.bind_some]

/-- The head of a conditional statement is no line of an expression. -/
theorem readLine_if (text : Text) : readLine ('i' :: 'f' :: ' ' :: '(' :: text) = none := by
  have hname : (Expr.name ['i', 'f']).IsChain := .leaf (.name (by decide))
  have hread : readChain ('i' :: 'f' :: ' ' :: '(' :: text) =
      some (.name ['i', 'f'], ' ' :: '(' :: text) :=
    hname.read (show endsChain (' ' :: '(' :: text) = true from rfl)
  have hoperator : readOperator (' ' :: '(' :: text) = none := rfl
  have hend : (' ' :: '(' :: text).dropPrefix? [';', '\n'] = none := rfl
  simp only [readLine, readExpr, hread, hoperator, hend, bind, Option.bind_some, Option.bind_none]

theorem indent_succ (depth : Nat) : indent (depth + 1) = ' ' :: ' ' :: indent depth := by
  simp [indent, List.replicate_succ]

/-- A line that closes a block is indented less than the lines of the block. -/
theorem isPrefixOf_indent (depth : Nat) (rest : Text) :
    (indent (depth + 1)).isPrefixOf (indent depth ++ '}' :: rest) = false := by
  induction depth with
  | zero => rfl
  | succ depth ih =>
    rw [indent_succ (depth + 1), indent_succ depth, List.cons_append, List.cons_append,
      List.isPrefixOf_cons_cons, List.isPrefixOf_cons_cons, ← indent_succ depth, ih, Bool.and_false,
      Bool.and_false]

theorem Stmt.exists_render (s : Stmt) (depth : Nat) :
    ∃ line, s.render depth = indent depth ++ line ∧ 1 < line.length := by
  cases s with
  | expr e => exact ⟨e.render ++ [';', '\n'], by simp [Stmt.render], by simp⟩
  | ifThen test body =>
    have hrender := Stmt.render_ifThen_append depth test body []
    rw [List.append_nil] at hrender
    exact ⟨_, hrender, by simp⟩

/-- Lines of statements that are read each, before a line that is indented less. -/
theorem readStmts_renderAll {body : List Stmt}
    (h : ∀ s ∈ body, ∀ depth steps rest, (s.render depth).length ≤ steps →
      readStmt steps depth (s.render depth ++ rest) = some (s, rest))
    {depth steps : Nat} (hsteps : (Stmt.renderAll depth body).length < steps)
    (hrest : (indent depth).isPrefixOf rest = false) :
    readStmts steps depth (Stmt.renderAll depth body ++ rest) = some (body, rest) := by
  induction body generalizing steps with
  | nil =>
    obtain ⟨steps, rfl⟩ := Nat.exists_eq_add_of_lt hsteps
    simp [Stmt.renderAll, readStmts, hrest]
  | cons s body ih =>
    obtain ⟨hs, hbody⟩ := List.forall_mem_cons.1 h
    obtain ⟨line, hline, hlong⟩ := s.exists_render depth
    cases steps with
    | zero => cases hsteps
    | succ steps =>
      rw [Stmt.renderAll, List.length_append] at hsteps
      -- A statement takes one step, and two characters at least.
      have hlength : 1 < (s.render depth).length := by
        rw [hline, List.length_append]
        omega
      have hmore := ih hbody (show (Stmt.renderAll depth body).length < steps by omega)
      have hfirst := hs depth steps (Stmt.renderAll depth body ++ rest) (by omega)
      have hindent : (indent depth).isPrefixOf
          (s.render depth ++ (Stmt.renderAll depth body ++ rest)) = true := by
        rw [hline, List.append_assoc]
        exact List.isPrefixOf_iff_prefix.2 (List.prefix_append _ _)
      rw [Stmt.renderAll, List.append_assoc, readStmts, if_pos hindent, hfirst]
      simp only [bind, Option.bind_some, hmore]

theorem Stmt.IsLegible.read {s : Stmt} (h : s.IsLegible) (depth steps : Nat) (rest : Text)
    (hsteps : (s.render depth).length ≤ steps) :
    readStmt steps depth (s.render depth ++ rest) = some (s, rest) := by
  induction h generalizing depth steps rest with
  | @expr e h =>
    cases steps with
    | zero => simp [Stmt.render] at hsteps
    | succ steps =>
      rw [Stmt.render_expr_append, readStmt, dropPrefix?_append]
      simp only [bind, Option.bind_some, readLine_append h]
  | @ifThen test body htest _ ih =>
    cases steps with
    | zero => simp [Stmt.render] at hsteps
    | succ steps =>
      let closing := indent depth ++ '}' :: '\n' :: rest
      let inner := Stmt.renderAll (depth + 1) body ++ closing
      have htext : (Stmt.ifThen test body).render depth ++ rest =
          indent depth ++ ('i' :: 'f' :: ' ' :: '(' ::
            (test.render ++ ')' :: ' ' :: '{' :: '\n' :: inner)) :=
        Stmt.render_ifThen_append depth test body rest
      have hbody : readStmts steps (depth + 1) inner = some (body, closing) := by
        refine readStmts_renderAll ih ?_ (isPrefixOf_indent depth _)
        simp only [Stmt.render, List.length_append, List.length_cons] at hsteps
        omega
      have hhead : ∀ text : Text, ('i' :: 'f' :: ' ' :: '(' :: text).dropPrefix?
          ['i', 'f', ' ', '('] = some text := dropPrefix?_append ['i', 'f', ' ', '(']
      have hopen : ∀ text : Text, (')' :: ' ' :: '{' :: '\n' :: text).dropPrefix?
          [')', ' ', '{', '\n'] = some text := dropPrefix?_append [')', ' ', '{', '\n']
      have hclose : closing.dropPrefix? (indent depth ++ ['}', '\n']) = some rest := by
        have hclosing : closing = (indent depth ++ ['}', '\n']) ++ rest := by simp [closing]
        rw [hclosing, dropPrefix?_append]
      -- The head would be the name `if`, but no line end follows it.
      rw [htext, readStmt, dropPrefix?_append]
      simp only [bind, Option.bind_some, readLine_if, hhead, htest.read (c := ')') (by simp), hopen,
        hbody, hclose]

/-- A statement ends with a mark and a line end. -/
theorem Stmt.exists_render_end (s : Stmt) (depth : Nat) :
    ∃ front c, s.render depth = front ++ [c, '\n'] ∧ c ∈ [';', '}'] := by
  cases s with
  | expr e => exact ⟨indent depth ++ e.render, ';', rfl, by simp⟩
  | ifThen test body => exact ⟨_, '}', rfl, by simp⟩

theorem Stmt.text_append (s : Stmt) : s.text ++ ['\n'] = s.render 0 := by
  obtain ⟨front, c, hrender, hc⟩ := s.exists_render_end 0
  have hblank : isBlank c = false := by
    obtain rfl | hc := List.mem_cons.1 hc
    · decide
    · rw [List.mem_singleton.1 hc]
      decide
  have hline : isBlank '\n' = true := by decide
  rw [Stmt.text, hrender, Text.trimEnd]
  simp [hblank, hline]

/-- A statement is read back from its text. -/
theorem Stmt.IsLegible.readText {s : Stmt} (h : s.IsLegible) : readText s.text = some s := by
  have hlength : (s.render 0).length ≤ s.text.length + 2 := by
    rw [← s.text_append, List.length_append, List.length_singleton]
    omega
  have hread := h.read 0 (s.text.length + 2) [] hlength
  rw [List.append_nil] at hread
  rw [Code.readText, s.text_append, hread]

/-- The statements of a method are read back from its block, whatever comes after it. -/
theorem Method.readBlock {m : Method} (h : ∀ s ∈ m.body, s.IsLegible) (level : Nat) (rest : Text) :
    readBlock level (m.block level ++ rest) = some (m.body, rest) := by
  unfold Method.block
  split
  case isTrue hempty =>
    rw [List.isEmpty_iff.1 hempty]
    rfl
  case isFalse =>
    have htext : '\n' :: (Stmt.renderAll (level + 1) m.body ++ (indent level ++ ['}'])) ++ rest =
        '\n' :: (Stmt.renderAll (level + 1) m.body ++ (indent level ++ '}' :: rest)) := by
      simp
    have hbody := readStmts_renderAll (fun s hs => (h s hs).read)
      (show (Stmt.renderAll (level + 1) m.body).length <
        (Stmt.renderAll (level + 1) m.body ++ (indent level ++ '}' :: rest)).length + 1 by
          rw [List.length_append]
          omega)
      (isPrefixOf_indent level rest)
    have hclose : (indent level ++ '}' :: rest).dropPrefix? (indent level ++ ['}']) =
        some rest := by
      have happend := dropPrefix?_append (indent level ++ ['}']) rest
      rwa [List.append_assoc] at happend
    rw [htext, Code.readBlock]
    simp only [bind, Option.bind_some, hbody, hclose]

end Statements

/-! ### Methods in a module -/

theorem occurs_in_join {part : Text} {parts : List Text} (h : part ∈ parts) (separator : Text) :
    part <:+: Text.join separator parts := by
  induction parts using Text.join.induct with
  | case1 => cases h
  | case2 t =>
    obtain rfl := List.mem_singleton.1 h
    exact List.infix_refl _
  | case3 t more hmore ih =>
    have hjoin : Text.join separator (t :: more) = t ++ separator ++ Text.join separator more := by
      rw [Text.join]
      exact hmore
    rw [hjoin]
    obtain rfl | h := List.mem_cons.1 h
    · exact ((List.prefix_append part separator).trans (List.prefix_append _ _)).isInfix
    · exact (ih h).trans (List.suffix_append _ _).isInfix

/-- The text of a method up to the opening brace of its body. -/
def Method.head (level : Nat) (m : Method) : Text :=
  indent level ++ (m.name ++ '(' :: (Text.join ", " m.parameters ++ [')', ' ', '{']))

theorem Method.head_append_block (level : Nat) (m : Method) :
    m.head level ++ m.block level = m.render level := by
  rw [m.render_eq, Method.head]
  simp

/-- A module prints each of its methods. -/
theorem Module.exists_method {module : Module} {m : Method} (h : m ∈ module.methods) :
    ∃ before after, module.render = before ++ (m.head 2 ++ (m.block 2 ++ after)) := by
  have hmethods : m.render 2 <:+: renderMethods module.methods := by
    unfold renderMethods
    rw [if_neg (by simpa using List.ne_nil_of_mem h)]
    refine (occurs_in_join (List.mem_map_of_mem h) ",\n\n").trans ?_
    refine List.IsInfix.trans ?_ (List.prefix_append _ _).isInfix
    refine List.IsInfix.trans ?_ (List.prefix_append _ _).isInfix
    exact List.infix_append _ _ _
  have hfactory : m.render 2 <:+: module.factory := by
    have hpart : renderMethods module.methods ∈ module.parts := by simp [Module.parts]
    unfold Module.factory
    exact (hmethods.trans (occurs_in_join hpart _)).trans (List.infix_append _ _ _)
  have hmodule : m.render 2 <:+: module.render := hfactory.trans (List.suffix_append _ _).isInfix
  obtain ⟨before, after, hrender⟩ := hmodule
  refine ⟨before, after, ?_⟩
  rw [← hrender, ← m.head_append_block, List.append_assoc, List.append_assoc]

end Component.Code

namespace Component

open Code
open Script (isWord isIdentifier)

namespace Lifecycle

/-- The statements that components are made of, but for those that add listeners.  What a component
shows is named by identifiers. -/
def IsEmitted (s : Stmt) : Prop :=
  ∃ t : Table, (∀ b ∈ t.bindings, isIdentifier b.2 = true) ∧
    (s ∈ create { t with listeners := [] } ∨ s ∈ mount t ∨ s ∈ update t ∨ s ∈ detach t)

theorem invoke_isLegible {name : Text} (hname : isWord name = true) (method : String)
    (hmethod : isWord method.toList = true) {arguments : List Expr}
    (h : ∀ argument ∈ arguments, argument.IsLeaf) :
    (invoke (.name name) method arguments).IsLegible :=
  .expr (.chain (.call (.member (.leaf (.name hname)) hmethod) h))

theorem make_isLegible (n : Node) (method : String) (hmethod : isWord method.toList = true)
    {argument : Expr} (h : argument.IsLeaf) :
    (make (.name n.variable) method argument).IsLegible := by
  have hvariable := Script.isWord_of_isVariable n.isVariable_variable
  refine .expr (.assign (.leaf (.name hvariable))
    (.call (.member (.leaf (.name (by decide))) hmethod) ?_))
  exact List.forall_mem_singleton.2 h

theorem Acts.isLegible {t : Table} {s : Stmt} (h : Acts t s)
    (hbindings : ∀ b ∈ t.bindings, isWord b.2 = true) : s.IsLegible := by
  have hvariable := fun n : Node => Script.isWord_of_isVariable n.isVariable_variable
  cases h with
  | makeElement n tagName => exact make_isLegible n "createElement" (by decide) (.string tagName)
  | setAttribute n name value =>
    refine invoke_isLegible (hvariable n) "setAttribute" (by decide) ?_
    simp [Expr.IsLeaf.string]
  | makeText n text => exact make_isLegible n "createTextNode" (by decide) (.string text)
  | makeBinding n hb =>
    exact make_isLegible n "createTextNode" (by decide) (.name (hbindings _ hb))
  | append parent child =>
    refine invoke_isLegible (hvariable parent) "appendChild" (by decide) ?_
    exact List.forall_mem_singleton.2 (.name (hvariable child))
  | appendRoot child =>
    refine invoke_isLegible (by decide) "appendChild" (by decide) ?_
    exact List.forall_mem_singleton.2 (.name (hvariable child))
  | @refresh n b hb =>
    have hproperty := hbindings _ hb
    have hchanges : changes.IsChain := .leaf (.name (by decide))
    refine .ifThen (.contains (.leaf (.string b.2)) hchanges) fun s hs => ?_
    obtain rfl | hs := List.mem_cons.1 hs
    · exact .expr (.assign (.leaf (.name hproperty)) (.member hchanges hproperty))
    · rw [List.mem_singleton.1 hs]
      exact .expr (.assign (.member (.leaf (.name (hvariable n))) (by decide))
        (.leaf (.name hproperty)))
  | remove n =>
    refine invoke_isLegible (by decide) "removeChild" (by decide) ?_
    exact List.forall_mem_singleton.2 (.name (hvariable n))

theorem IsEmitted.isLegible {s : Stmt} (h : IsEmitted s) : s.IsLegible := by
  obtain ⟨t, hidentifiers, hs⟩ := h
  have hbindings : ∀ b ∈ t.bindings, isWord b.2 = true := fun b hb =>
    ((Script.isIdentifier_iff b.2).1 (hidentifiers b hb)).1
  obtain hs | hs | hs | hs := hs
  · exact (create_acts rfl s hs).isLegible hbindings
  · exact (mount_acts t s hs).isLegible hbindings
  · exact (update_acts t s hs).isLegible hbindings
  · exact (detach_acts t s hs).isLegible hbindings

/-- The text of a statement tells which it is.  Statements of components, but for those that add
listeners, are read back from their texts, so two of them with the same text are the same,
whatever components they come from.  The statements of a method are read back from the block that
is printed for it in a module, and no other statements have that block. -/
theorem printed_statements_read_back :
    (∀ s, IsEmitted s → readText s.text = some s) ∧
    (∀ s s', IsEmitted s → IsEmitted s' → s.text = s'.text → s = s') ∧
    (∀ (module : Module) (m : Method), m ∈ module.methods → (∀ s ∈ m.body, IsEmitted s) →
      ∃ before after, module.render = before ++ (m.head 2 ++ (m.block 2 ++ after)) ∧
        readBlock 2 (m.block 2 ++ after) = some (m.body, after)) ∧
    ∀ (m m' : Method) (level : Nat), (∀ s ∈ m.body, IsEmitted s) → (∀ s ∈ m'.body, IsEmitted s) →
      m.block level = m'.block level → m.body = m'.body := by
  have hread : ∀ s, IsEmitted s → readText s.text = some s := fun s hs => hs.isLegible.readText
  have hblock : ∀ (m : Method), (∀ s ∈ m.body, IsEmitted s) → ∀ level rest,
      readBlock level (m.block level ++ rest) = some (m.body, rest) :=
    fun m hm => Method.readBlock fun s hs => (hm s hs).isLegible
  refine ⟨hread, ?_, ?_, ?_⟩
  · intro s s' hs hs' htext
    have hsame := hread s hs
    rw [htext, hread s' hs'] at hsame
    exact (Option.some.inj hsame).symm
  · intro module m hmem hm
    obtain ⟨before, after, hrender⟩ := Module.exists_method hmem
    exact ⟨before, after, hrender, hblock m hm 2 after⟩
  · intro m m' level hm hm' htext
    have hsame := hblock m hm level []
    rw [htext, hblock m' hm' level []] at hsame
    exact (Prod.mk.inj (Option.some.inj hsame)).1.symm

namespace ReadingWitness

/-- A text that holds the marks of the code around it. -/
def note : Node := ⟨0, none, .staticText "\", b1);\n    \x7d\n", ⟨0, 15⟩⟩

/-- A text that shows a property. -/
def shown : Node := ⟨1, none, .binding "package", ⟨15, 24⟩⟩

def table : Table := ⟨[note, shown], []⟩

def method : Method := ⟨"create", [], create table⟩

theorem emitted : ∀ s ∈ method.body, IsEmitted s := by
  have hidentifier : isIdentifier "package" = true := by decide +kernel
  refine fun s hs => ⟨table, ?_, .inl hs⟩
  exact List.forall_mem_singleton.2 hidentifier

end ReadingWitness

open ReadingWitness in
theorem marks_in_text_read_back :
    (make (.name "t0") "createTextNode" (.string "\", b1);\n    \x7d\n")).text =
      "t0 = document.createTextNode(\"\\\", b1);\\n    \x7d\\n\");".toList ∧
    readText "t0 = document.createTextNode(\"\\\", b1);\\n    \x7d\\n\");" =
      some (make (.name "t0") "createTextNode" (.string "\", b1);\n    \x7d\n")) ∧
    ∃ module before after, emit [] table [] = .ok module ∧
      module.render = before ++ (method.head 2 ++ (method.block 2 ++ after)) ∧
      readBlock 2 (method.block 2 ++ after) = some (create table, after) := by
  obtain ⟨htext, -, hmethod, -⟩ := printed_statements_read_back
  have hprinted : (make (.name "t0") "createTextNode" (.string "\", b1);\n    \x7d\n")).text =
      "t0 = document.createTextNode(\"\\\", b1);\\n    \x7d\\n\");".toList := by decide +kernel
  obtain ⟨before, after, hrender, hblock⟩ :=
    hmethod (assemble [] table []) method List.mem_cons_self emitted
  refine ⟨hprinted, ?_, _, before, after, emit_eq_ok_iff.2 ⟨rfl, rfl⟩, hrender, hblock⟩
  rw [← hprinted]
  exact htext _ (emitted _ List.mem_cons_self)

end Lifecycle

end Component
