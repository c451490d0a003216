/-
The code of a component is read as a script with one default export, if the text
that it copies from the source is read where it stands.
-/
import Component.Proofs.Code.Methods

namespace Component.Script

open Component.Script.Parser

/-- A piece of a script that `rule` reads where it stands: before `rest`, and after any
blanks and line ends, by rules that go as deep as for a script of its length. -/
structure Stands {α : Type} (rule : Grammar → Parser α) (piece rest : Text) : Prop where
  nonempty : piece ≠ []
  reads : ∀ depth lead, 2 * piece.length + 4 ≤ depth → isGap lead = true →
    (rule (.atDepth depth)).Reads (lead ++ (piece ++ rest)) (fun _ => True) rest

/-! ### Functions -/

/-- A function with a name. -/
theorem readFunction_named {lead name tail rest : Text} {g : Grammar} (hlead : isGap lead = true)
    (hname : isVariable name = true)
    (hcallable : (readCallable g (.function false false)).Reads ('(' :: tail)
      (fun _ => True) rest) :
    (readFunction g false).Reads (lead ++ ("function".toList ++ ' ' :: (name ++ '(' :: tail)))
      (fun _ => True) rest := by
  have hends : endsWord ('(' :: tail) = true := rfl
  have hword := (Begins.word (isWord_of_isVariable hname) hends).space
  have hbinding := bindingName_reads (.of_isVariable hname) isGap_space hends hcallable.1
  have hoptional : (optionalName .leftParen).Reads (' ' :: (name ++ '(' :: tail)) (fun _ => True)
      ('(' :: tail) := by
    refine Reads.of_eq (hbinding.map (g := some) fun _ _ => trivial) fun s hs => ?_
    simp [optionalName, hword.token_eq hs]
  have hfunction : isWord "function" = true := by decide
  have hspace : endsWord (' ' :: (name ++ '(' :: tail)) = true := rfl
  obtain ⟨newline, hbegins⟩ := (Begins.word hfunction hspace).gap hlead
  refine .expectWord hbegins (.eat_other hword (by simp) (hoptional.bind fun _ _ => ?_))
  exact hcallable.map fun _ _ => trivial

/-! ### Items of a module -/

section Module

variable {lead text rest : Text} {g : Grammar} {c : Context}

theorem readDefaultExport_function {tail : Text}
    (h : (readFunction g false).Reads (' ' :: ("function".toList ++ ' ' :: tail)) (fun _ => True)
      rest) :
    (readDefaultExport g c).Reads (' ' :: ("function".toList ++ ' ' :: tail))
      (fun _ => True) rest := by
  have hbegins : Begins (' ' :: ("function".toList ++ ' ' :: tail)) (.word "function" false) false
      (' ' :: tail) :=
    Begins.space (Begins.word (by decide) rfl)
  refine .test (b := true) (fun s hs => ?_) (h.map fun _ _ => trivial)
  simp [hbegins.token_eq hs]

theorem readExport_default (h : (readDefaultExport g c).Reads text (fun _ => True) rest)
    (hends : endsWord text = true) :
    (readExport g c).Reads (' ' :: ("default".toList ++ text)) (· = .other .defaultValue) rest := by
  have hbegins : Begins (' ' :: ("default".toList ++ text)) (.word "default" false) false text :=
    Begins.space (Begins.word (by decide) hends)
  refine .eat_other hbegins (by simp) (.eat_other hbegins (by simp) (.eatWord hbegins ?_))
  exact h.map (g := fun _ => Exported.other .defaultValue) fun _ _ => rfl

theorem readTopLevel_export {form : ExportForm} (hlead : isGap lead = true)
    (h : (readExport g c).Reads text (· = .other form) rest) (hends : endsWord text = true) :
    (readTopLevel g c).Reads (lead ++ ("export".toList ++ text))
      (fun item => ∀ span, item span = .otherExport span form) rest := by
  have hword : isWord "export" = true := by decide
  obtain ⟨newline, hbegins⟩ := (Begins.word hword hends).gap hlead
  refine .test (b := false) (fun s hs => ?_) (.eatWord hbegins (h.bind ?_))
  · simp [seesImportDeclaration, hbegins.token_eq hs]
  · rintro _ rfl
    exact .pure h.isSome_rest fun span => rfl

theorem readTopLevel_let (hlead : isGap lead = true) (hends : endsWord text = true)
    (h : (readVariables g c false).Reads text (fun _ => True) rest) :
    (readTopLevel g c).Reads (lead ++ ("let".toList ++ text)) (fun _ => True) rest := by
  have hword : isWord "let" = true := by decide
  obtain ⟨newline, hlet⟩ := (Begins.word hword hends).gap hlead
  refine .test (b := false) (fun s hs => by simp [seesImportDeclaration, hlet.token_eq hs]) ?_
  refine .eatWord_other hlet (by simp) ?_
  refine .test (b := false) (fun s hs => by simp [hlet.token_eq hs]) ?_
  refine .test (b := true) (fun s hs => by simp [hlet.token_eq hs]) (.past hlet ?_)
  exact h.map fun _ _ => trivial

/-- A token that begins no item of another kind begins a statement at the top level. -/
theorem readTopLevel_statement {s : State} (g : Grammar) (c : Context)
    (hne : ∀ word ∈ ["import", "export", "var", "let", "const", "function", "class"],
      s.next.token ≠ .word word.toList false)
    (hasync : s.next.token = .word "async" false →
      s.following ≠ some (.word "function" false, false)) :
    readTopLevel g c s =
      (readStatement g c >>= fun hoisted => pure fun span => Item.statement span hoisted) s := by
  simp only [List.forall_mem_cons, ne_eq, -String.reduceToList] at hne
  simp only [readTopLevel, seesImportDeclaration, eatWord, bind_apply, seesWord_apply,
    pure_apply, hne, seesAsyncFunction_eq_false hasync, decide_false, Bool.or_false,
    Bool.false_eq_true, if_false, Option.bind_some, -String.reduceToList]

theorem readTopLevel_eq_none {s : State} (h : s.BeginsNothing) (hyield : c.mayYield = false)
    (depth : Nat) : readTopLevel (.atDepth depth) c s = none := by
  have hstatement := readStatement_eq_none h c hyield depth
  have hword : ∀ word ∈ ["import", "export", "var", "let", "const", "function", "async", "class"],
      s.next.token ≠ .word word.toList false := by
    cases h with
    | brace htoken => simp [htoken]
    | endOfInput htoken => simp [htoken]
    | alternative htoken => simp [htoken]
    | mark htoken => simp [htoken]
  simp only [List.forall_mem_cons, ne_eq, -String.reduceToList] at hword
  simp [readTopLevel, seesImportDeclaration, seesAsyncFunction, eatWord, hword, hstatement,
    -String.reduceToList]

section Loop

variable {depth : Nat} {items : List Item} {Fits : (Span → Item) → Prop}

/-- An item is read if the rules can read one there. -/
theorem moduleStep_item (h : (readTopLevel (.atDepth depth) .module).Reads text Fits rest)
    (items : List Item) :
    (moduleStep (.atDepth depth) items).Reads text
      (fun r => ∃ b, r = .inl b ∧ ∃ item span, Fits item ∧ b = items ++ [item span]) rest := by
  obtain ⟨token, newline, after, hbegins⟩ := Begins.exists_of_isSome h.1
  have htoken : token ≠ .endOfInput := by
    rintro rfl
    obtain ⟨s, s', item, hs, hrun, -⟩ := h.exists_run
    rw [readTopLevel_eq_none (.endOfInput (hbegins.token_eq hs)) rfl] at hrun
    cases hrun
  refine .test (b := token) (fun s hs => by simp [hbegins.token_eq hs]) ?_
  rw [if_neg htoken]
  refine .look hbegins.isSome (fun s => ⟨_, rfl⟩) fun start => ?_
  refine h.bind fun item hitem => .look h.isSome_rest (fun s => ⟨_, rfl⟩) fun stop => ?_
  exact .pure h.isSome_rest ⟨_, rfl, item, ⟨start, stop⟩, hitem, rfl⟩

theorem moduleStep_end {newline : Bool} {Wanted : List Item → Prop}
    (h : Begins text .endOfInput newline rest) (hitems : Wanted items) :
    Loops (moduleStep g) items text Wanted text := by
  refine .done (.test (b := .endOfInput) (fun s hs => by simp [h.token_eq hs]) ?_)
  rw [if_pos rfl]
  exact .pure h.isSome ⟨_, rfl, hitems⟩

/-- Imports, each on a line, before a text from which the rest of a module is read. -/
theorem moduleStep_imports {imports : List Text} {Wanted : List Item → Prop} {final : Text}
    (hstand : ∀ before source after, imports = before ++ source :: after →
      2 * source.length + 4 ≤ depth ∧ Stands (readTopLevel · .module) source
        ('\n' :: (after.flatMap (· ++ ['\n']) ++ text)))
    (htext : ∀ lead items, isGap lead = true →
      Loops (moduleStep (.atDepth depth)) items (lead ++ text) Wanted final)
    (hlead : isGap lead = true) (items : List Item) :
    Loops (moduleStep (.atDepth depth)) items
      (lead ++ (imports.flatMap (· ++ ['\n']) ++ text)) Wanted final := by
  induction imports generalizing lead items with
  | nil => exact htext lead items hlead
  | cons source imports ih =>
    obtain ⟨hdepth, hsource⟩ := hstand [] source imports rfl
    have hmore : ∀ items, Loops (moduleStep (.atDepth depth)) items
        ('\n' :: (imports.flatMap (· ++ ['\n']) ++ text)) Wanted final := by
      refine ih (fun before other after heq => ?_) isGap_newline
      exact hstand (source :: before) other after (by rw [heq, List.cons_append])
    have hpos := List.length_pos_iff.2 hsource.nonempty
    have hitem := moduleStep_item (hsource.reads depth lead hdepth hlead) items
    rw [List.flatMap_cons, List.append_assoc, List.append_assoc]
    refine .more hitem ?_ fun b _ => hmore b
    simp only [List.length_append, List.length_cons]
    omega

end Loop

end Module

/-! ### Scripts -/

theorem following_of_bang {s : State} {text : Text} (h : s.next.after.rest = '!' :: text)
    (name : Text) (quoted newline : Bool) : s.following ≠ some (.word name quoted, newline) := by
  have hgap : skipGap .plain false s.next.after.offset ('!' :: text) =
      some (false, ⟨'!' :: text, s.next.after.offset⟩) := rfl
  have htoken : readToken ('!' :: text) =
      (mark? ('!' :: text)).map fun m => (.symbol m.1, ('!' :: text).drop m.2) := rfl
  rw [State.following, readLexeme, h, hgap]
  simp only [Option.bind_eq_bind, Option.bind_some, htoken]
  cases mark? ('!' :: text) <;> simp

/-- A piece that stands at the top level does not begin with the mark of an interpreter
line. -/
theorem Stands.ne_hash {piece rest : Text} (h : Stands (readTopLevel · .module) piece rest)
    (more : Text) : piece ≠ '#' :: '!' :: more := by
  rintro rfl
  have hhash : Begins ('#' :: '!' :: (more ++ rest)) (.symbol .hash) false
      ('!' :: (more ++ rest)) :=
    .of_readToken rfl rfl
  obtain ⟨s, s', item, hs, hrun, -⟩ := (h.reads _ [] (Nat.le_refl _) isGap_nil).exists_run
  have hnothing : s.BeginsNothing :=
    .mark (hhash.token_eq hs) (following_of_bang (hhash.next hs).2.2)
  rw [readTopLevel_eq_none hnothing rfl] at hrun
  cases hrun

theorem Input.start_eq {script : Text} (h : ∀ more, script ≠ '#' :: '!' :: more) :
    Input.start script = ⟨script, 0⟩ := by
  unfold Input.start
  split
  · exact absurd rfl (h _)
  · rfl

theorem parse_of_reads {script rest : Text} {Fits : List Item → Prop}
    (hstart : Input.start script = ⟨script, 0⟩)
    (h : (readModule (.atDepth (2 * script.length + 4))).Reads script Fits rest) :
    ∃ items, parse script = some items ∧ Fits items := by
  unfold parse
  split
  case h_1 next hnext =>
    obtain ⟨items, s', hrun, hfits, -⟩ :=
      h.2 ⟨.start script, next, hnext, none⟩ (congrArg Input.rest hstart)
    exact ⟨items, by rw [hrun, Option.map_some], hfits⟩
  case h_2 hnone =>
    obtain ⟨next, hnext⟩ := exists_lexed (i := ⟨script, 0⟩) h.1
    rw [hstart, hnext] at hnone
    cases hnone

end Component.Script

namespace Component.Code

open Component.Script Component.Script.Parser

/-! ### The statements of the factory -/

/-- A statement of the factory: one of the script, or one that gives a property its default
value. -/
inductive BodyItem.IsPlain : BodyItem → Prop
  | verbatim (source : Text) : IsPlain (.verbatim source)
  | default {p : Property} (h : isVariable p.name = true) (value : Text) :
      IsPlain (.stmt (Lifecycle.applyDefault p value))

theorem applyDefault_inj {p q : Property} {value other : Text}
    (h : Lifecycle.applyDefault p value = Lifecycle.applyDefault q other) :
    p.name = q.name ∧ value = other := by
  simpa [Lifecycle.applyDefault] using h

/-- A variable stands as a value up to a semicolon. -/
theorem stands_name {name : Text} {c : Context} (hname : isVariable name = true)
    (hyield : c.mayYield = false) (rest : Text) :
    Stands (readAssignment · c) name (';' :: rest) := by
  have hne : name ≠ [] := by
    rintro rfl
    cases hname
  refine ⟨hne, fun depth lead _ hlead => ?_⟩
  exact Expr.IsAtom.readAssignment (.name hname) hlead (endsExpression_semicolon _) _ hyield

/-- The names that the compiled code uses for its own. -/
def generatedNames : List String :=
  ["component", "target", "props", "changes", "document", "undefined"]

theorem isVariable_generatedName (name : String) (h : name ∈ generatedNames) :
    isVariable name.toList = true := by
  have hword : ∀ name ∈ generatedNames, isWord name.toList = true := by decide +kernel
  have hfixed : ∀ name ∈ generatedNames, isFixedName name.toList = false := by decide +kernel
  have hreserved : ∀ name ∈ generatedNames,
      ¬ ∃ reserved ∈ reservedWords, reserved.toList = name.toList := by decide +kernel
  have hfree := Bool.eq_false_iff.2 ((isReservedWord_iff name.toList).not.2 (hreserved name h))
  rw [isVariable, hword name h, hfixed name h, hfree]
  rfl

section Default

variable {lead rest : Text} {c : Context}

/-- The test whether a variable is undefined, in parentheses. -/
theorem readAssignment_same {left right : Text} (hleft : isVariable left = true)
    (hright : isVariable right = true) (hyield : c.mayYield = false) (depth : Nat) (rest : Text) :
    (readAssignment (.atDepth (depth + 1)) c.inside).Reads
      ((Expr.same (.name left) (.name right)).render ++ ')' :: rest) (fun _ => True)
      (')' :: rest) := by
  have hsame : Begins (" ===" ++ ' ' :: ((Expr.name right).render ++ ')' :: rest))
      (.symbol (.binary 6)) false (' ' :: ((Expr.name right).render ++ ')' :: rest)) :=
    (Begins.same _).space
  have hfollows : FollowsName (" ===" ++ ' ' :: ((Expr.name right).render ++ ')' :: rest)) :=
    ⟨rfl, _, _, _, hsame, by decide, by decide⟩
  have hreads := readAssignment_comparison (c := c.inside) depth (.name hleft) (.name hright) hyield
    (fun _ _ => hfollows) hsame rfl rfl (by decide)
  simpa [Expr.render] using hreads

/-- The statement that gives a property its default value. -/
theorem readItem_default {p : Property} {value : Text} {depth : Nat}
    (hname : isVariable p.name = true)
    (hvalue : (readAssignment (.atDepth (depth + 1)) c.inside).Reads
      (' ' :: (value ++ ';' :: '\n' :: (indent 1 ++ '}' :: '\n' :: rest))) (fun _ => True)
      (';' :: '\n' :: (indent 1 ++ '}' :: '\n' :: rest)))
    (hlead : isGap lead = true) (hyield : c.mayYield = false) (hrest : GoesOn ('\n' :: rest)) :
    (readItemOrStatement (.atDepth (depth + 5)) c).Reads
      (lead ++ ((Lifecycle.applyDefault p value).render 1 ++ rest)) (fun _ => True)
      ('\n' :: rest) := by
  obtain ⟨token, newline, later, hbegins, -⟩ := id hrest
  have hend : ∀ hoisted, Loops (blockStep (.atDepth (depth + 4)) c) hoisted
      ('\n' :: indent 1 ++ '}' :: '\n' :: rest) (fun _ => True) ('\n' :: rest) :=
    fun hoisted => blockStep_end (isGap_line 1) hbegins.isSome
  have hnext := (hend [] _ (Nat.lt_succ_self _)).1
  have hassign : (readItemOrStatement (.atDepth (depth + 3)) c).Reads ('\n' :: indent 2 ++
      ((Expr.assign (.name p.name) (.raw value)).render ++ ';' :: '\n' ::
        (indent 1 ++ '}' :: '\n' :: rest)))
      (fun _ => True) ('\n' :: (indent 1 ++ '}' :: '\n' :: rest)) :=
    readItem_assign (.name hname) (Expr.isTarget_shape_name hname) (isGap_line 2) hyield hnext
      hvalue
  have hundefined := isVariable_generatedName "undefined" (by simp [generatedNames])
  refine readItem_ifThen hlead (readAssignment_same hname hundefined hyield _) ?_ hrest
  rw [Stmt.renderAll, Stmt.renderAll, List.append_nil, Stmt.render_expr_append]
  refine .more (blockStep_item hassign hyield) ?_ fun b _ => hend b
  simp only [List.length_append, List.length_cons]
  omega

end Default

/-- The text that follows the statements of the factory. -/
def Module.ending (m : Module) : Text :=
  '\n' :: (Text.join ['\n'] (m.localPart ++ [renderMethods m.methods]) ++ "\x7d\n")

/-- What a module copies from the source is read where it stands: imports at the top level,
statements in the body of a function that is not asynchronous, and default values as the
values of assignments there. -/
structure Module.CopiesStand (m : Module) : Prop where
  imports : ∀ before source after, m.imports = before ++ source :: after →
    Stands (readTopLevel · .module) source
      ('\n' :: (after.flatMap (· ++ ['\n']) ++ '\n' :: m.factory))
  statements : ∀ before source after, m.body = before ++ .verbatim source :: after →
    Stands (readItemOrStatement · (.function false false)) source
      ('\n' :: (after.flatMap BodyItem.render ++ m.ending))
  defaults : ∀ before p value after,
    m.body = before ++ .stmt (Lifecycle.applyDefault p value) :: after →
      Stands (readAssignment · (.function false false)) value
        (';' :: '\n' :: (indent 1 ++ '}' :: '\n' :: (after.flatMap BodyItem.render ++ m.ending)))

section Body

variable {m : Module} {final tail : Text} {depth : Nat}

theorem length_le_length_applyDefault (p : Property) (value : Text) :
    value.length + 3 ≤ ((Lifecycle.applyDefault p value).render 1).length := by
  simp only [Lifecycle.applyDefault, Stmt.render, Stmt.renderAll, Expr.render, List.length_append,
    List.length_cons]
  omega

/-- The statements of the factory, by induction on those that are left. -/
theorem readsBody_items (hstand : m.CopiesStand) (hplain : ∀ item ∈ m.body, item.IsPlain)
    (hdepth : ∀ item ∈ m.body, 2 * item.render.length ≤ depth)
    (hend : ReadsBody (depth + 7) (.function false false) m.ending final)
    {before items : List BodyItem} (hbody : m.body = before ++ items) :
    ReadsBody (depth + 7) (.function false false) (items.flatMap BodyItem.render ++ m.ending)
      final := by
  induction items generalizing before with
  | nil => exact hend
  | cons item items ih =>
    have hmem : item ∈ m.body := by simp [hbody]
    have hmore := (ih (show m.body = (before ++ [item]) ++ items by simp [hbody])).line
    have hlength := hdepth item hmem
    rw [List.flatMap_cons, List.append_assoc]
    cases hplain item hmem with
    | verbatim source =>
      have hsource := hstand.statements before source items hbody
      have htext : ∀ text, (BodyItem.verbatim source).render ++ text =
          indent 1 ++ (source ++ '\n' :: text) := fun text => by simp [BodyItem.render]
      rw [BodyItem.render, List.length_append, List.length_append] at hlength
      rw [htext]
      refine .item rfl (fun lead hlead => ?_) ?_ hmore
      · rw [← List.append_assoc]
        exact hsource.reads _ _ (by omega) (isGap_append hlead (isGap_indent 1))
      · have hpos := List.length_pos_iff.2 hsource.nonempty
        simp only [List.length_append, List.length_cons]
        omega
    | @default p hname value =>
      have hvalue := hstand.defaults before p value items hbody
      have hshort := length_le_length_applyDefault p value
      have hreads := hvalue.reads (depth + 3) [' '] (by
        rw [BodyItem.render] at hlength
        omega) isGap_space
      refine .item rfl (fun lead hlead => ?_) ?_ hmore
      · exact readItem_default hname hreads hlead rfl (hmore.goesOn rfl)
      · simp only [BodyItem.render, List.length_append, List.length_cons]
        omega

/-! ### The parts of the factory -/

/-- A part of the factory, if there is one, and an empty line before the parts that
follow. -/
theorem readsBody_part {c : Context} {part more : List Text} (hmore : more ≠ [])
    (hpart : part = [] ∨ ∃ text, part = [text] ∧
      ReadsBody depth c (text ++ '\n' :: (Text.join ['\n'] more ++ tail)) final)
    (hrest : ReadsBody depth c (Text.join ['\n'] more ++ tail) final) :
    ReadsBody depth c (Text.join ['\n'] (part ++ more) ++ tail) final := by
  obtain rfl | ⟨text, rfl, htext⟩ := hpart
  · exact hrest
  · obtain ⟨next, more, rfl⟩ := List.exists_cons_of_ne_nil hmore
    simpa [Text.join] using htext

/-- The statement that returns the methods. -/
theorem readsBody_methods {c : Context} {methods : List Method} (hne : methods ≠ [])
    (h : ∀ m ∈ methods, m.IsPlain) (hreturn : c.mayReturn = true) (hyield : c.mayYield = false)
    (hrest : ReadsBody (depth + 7) c tail final) :
    ReadsBody (depth + 7) c (renderMethods methods ++ tail) final := by
  obtain ⟨first, more, rfl⟩ := List.exists_cons_of_ne_nil hne
  have hobject : (readItems .rightBrace false
      (Script.readProperty (.atDepth (depth + 6)) c.inside)).Reads
      ('\n' :: (Text.join ",\n\n" ((first :: more).map (Method.render 2)) ++
        ('\n' :: indent 1 ++ '}' :: ';' :: '\n' :: tail))) (fun _ => True) (';' :: '\n' :: tail) :=
    readItems_methods h 2 (Begins.semicolon _).isSome c.inside
  have hitem := readReturn_object hobject hrest.line.isSome hreturn hyield
  have htext : renderMethods (first :: more) ++ tail = indent 1 ++ ("return".toList ++ ' ' :: '{' ::
      ('\n' :: (Text.join ",\n\n" ((first :: more).map (Method.render 2)) ++
        ('\n' :: indent 1 ++ '}' :: ';' :: '\n' :: tail)))) := by
    simp [renderMethods]
  rw [htext]
  refine .gap (isGap_indent 1) (.item hyield (fun lead hlead => readItem_return hlead rfl hitem) ?_
    hrest.line)
  simp only [List.length_append, List.length_cons]
  omega

/-- The declaration of the variables of the nodes. -/
theorem readsBody_locals {c : Context} {names : List Text} (hne : names ≠ [])
    (h : ∀ name ∈ names, isVariable name = true) (hyield : c.mayYield = false)
    (hrest : ReadsBody (depth + 1) c tail final) :
    ReadsBody (depth + 1) c (indent 1 ++ "let " ++ Text.join ", " names ++ ";\n" ++ tail)
      final := by
  obtain ⟨first, more, rfl⟩ := List.exists_cons_of_ne_nil hne
  have hvariables := readVariables_names (c := c) depth h hrest.line.isSome
  have htext : indent 1 ++ "let " ++ Text.join ", " (first :: more) ++ ";\n" ++ tail =
      indent 1 ++ ("let".toList ++ ' ' ::
        (Text.join ", " (first :: more) ++ ';' :: '\n' :: tail)) := by
    simp
  rw [htext]
  refine .gap (isGap_indent 1) (.item hyield
    (fun lead hlead => readItem_let hlead rfl hvariables) ?_ hrest.line)
  simp only [List.length_append, List.length_cons]
  omega

/-- The declaration of the properties. -/
theorem readsBody_properties {c : Context} {names : List Text} (hne : names ≠ [])
    (h : ∀ name ∈ names, isWord name = true) (hyield : c.mayYield = false)
    (hrest : ReadsBody (depth + 1) c tail final) :
    ReadsBody (depth + 1) c
      (indent 1 ++ "let \x7b " ++ Text.join ", " names ++ " \x7d = props;\n" ++ tail) final := by
  obtain ⟨first, more, rfl⟩ := List.exists_cons_of_ne_nil hne
  have hprops := isVariable_generatedName "props" (by simp [generatedNames])
  have hvariables := readVariables_pattern (c := c) depth h hprops hyield hrest.line.isSome
  have htext :
      indent 1 ++ "let \x7b " ++ Text.join ", " (first :: more) ++ " \x7d = props;\n" ++ tail =
        indent 1 ++ ("let".toList ++ ' ' :: '{' :: ' ' ::
          (Text.join ", " (first :: more) ++ ' ' :: '}' ::
            (' ' :: '=' :: ' ' :: ("props".toList ++ ';' :: '\n' :: tail)))) := by
    simp
  rw [htext]
  refine .gap (isGap_indent 1) (.item hyield
    (fun lead hlead => readItem_let hlead rfl hvariables) ?_ hrest.line)
  simp only [List.length_append, List.length_cons]
  omega

end Body

/-! ### The code of a component -/

/-- A module whose own parts are read. -/
structure Module.IsPlain (m : Module) : Prop where
  properties : ∀ name ∈ m.properties, isWord name = true
  body : ∀ item ∈ m.body, item.IsPlain
  locals : ∀ name ∈ m.locals, isVariable name = true
  methods : ∀ method ∈ m.methods, method.IsPlain
  someMethod : m.methods ≠ []

section Module

variable {m : Module} {depth : Nat}

theorem Module.IsPlain.readsBody_ending (hplain : m.IsPlain) (depth : Nat) :
    ReadsBody (depth + 7) (.function false false)
      (Text.join ['\n'] (m.localPart ++ [renderMethods m.methods]) ++ "\x7d\n") ['\n'] := by
  have hbrace : ReadsBody (depth + 7) (.function false false) "\x7d\n" ['\n'] := .brace rfl
  have hmethods := readsBody_methods hplain.someMethod hplain.methods rfl rfl hbrace
  refine readsBody_part (by simp) ?_ hmethods
  unfold Module.localPart
  split
  case isTrue => exact .inl rfl
  case isFalse hlocals =>
    exact .inr ⟨_, rfl, readsBody_locals (by simpa using hlocals) hplain.locals rfl hmethods.line⟩

theorem Module.IsPlain.readsBody_parts (hplain : m.IsPlain) (hstand : m.CopiesStand)
    (hdepth : ∀ item ∈ m.body, 2 * item.render.length ≤ depth) :
    ReadsBody (depth + 7) (.function false false) (Text.join ['\n'] m.parts ++ "\x7d\n")
      ['\n'] := by
  have hending := hplain.readsBody_ending depth
  have hbody : ReadsBody (depth + 7) (.function false false)
      (Text.join ['\n'] (m.bodyPart ++ (m.localPart ++ [renderMethods m.methods])) ++ "\x7d\n")
      ['\n'] := by
    refine readsBody_part (by simp) ?_ hending
    unfold Module.bodyPart
    split
    case isTrue => exact .inl rfl
    case isFalse =>
      exact .inr ⟨_, rfl, readsBody_items hstand hplain.body hdepth hending.line
        (List.nil_append _).symm⟩
  refine readsBody_part (by simp) ?_ hbody
  unfold Module.propertyPart
  split
  case isTrue => exact .inl rfl
  case isFalse hproperties =>
    exact .inr ⟨_, rfl, readsBody_properties (by simpa using hproperties)
      hplain.properties rfl hbody.line⟩

theorem Module.factory_eq (m : Module) :
    m.factory = "export".toList ++ ' ' :: ("default".toList ++ ' ' :: ("function".toList ++ ' ' ::
      ("component".toList ++ '(' :: (Text.join ", " ["target".toList, "props".toList] ++
        ')' :: ' ' :: '{' :: '\n' :: (Text.join ['\n'] m.parts ++ "\x7d\n"))))) := by
  unfold Module.factory
  generalize Text.join ['\n'] m.parts = parts
  simp only [String.reduceToList, List.cons_append, List.nil_append, Text.join]

/-- The factory as the default export of a module. -/
theorem Module.IsPlain.readTopLevel_factory (hplain : m.IsPlain) (hstand : m.CopiesStand)
    (hdepth : ∀ item ∈ m.body, 2 * item.render.length ≤ depth) {lead : Text}
    (hlead : isGap lead = true) :
    (readTopLevel (.atDepth (depth + 8)) .module).Reads (lead ++ m.factory)
      (fun item => ∀ span, item span = .otherExport span .defaultValue) ['\n'] := by
  have hcomponent := isVariable_generatedName "component" (by simp [generatedNames])
  have htarget := isVariable_generatedName "target" (by simp [generatedNames])
  have hprops := isVariable_generatedName "props" (by simp [generatedNames])
  have hparameters : ∀ name ∈ ["target".toList, "props".toList], isVariable name = true := by
    simp [htarget, hprops, -String.reduceToList]
  have hcallable := readCallable_names hparameters (hplain.readsBody_parts hstand hdepth).line
  have hfunction := readFunction_named isGap_space hcomponent hcallable
  have hexport := readExport_default (c := .module) (readDefaultExport_function hfunction) rfl
  rw [Module.factory_eq]
  exact readTopLevel_export hlead hexport rfl

/-! #### Lengths -/

theorem length_le_length_flatMap {α : Type} {f : α → Text} {a : α} {as : List α} (h : a ∈ as) :
    (f a).length ≤ (as.flatMap f).length :=
  (List.sublist_flatten_of_mem (List.mem_map_of_mem h)).length_le

theorem length_le_length_join {part : Text} {parts : List Text} (h : part ∈ parts)
    (separator : Text) : part.length ≤ (Text.join separator parts).length := by
  induction parts using Text.join.induct with
  | case1 => cases h
  | case2 t =>
    obtain rfl := List.mem_singleton.1 h
    exact Nat.le_refl _
  | case3 t more hmore ih =>
    rw [Text.join, List.length_append, List.length_append]
    · obtain rfl | h := List.mem_cons.1 h
      · omega
      · have := ih h
        omega
    · exact hmore

theorem Module.length_factory (m : Module) :
    (Text.join ['\n'] m.parts).length + 53 = m.factory.length := by
  unfold Module.factory
  generalize Text.join ['\n'] m.parts = parts
  simp

theorem Module.length_render (m : Module) : m.header.length + m.factory.length = m.render.length :=
  List.length_append.symm

theorem Module.length_item {item : BodyItem} (h : item ∈ m.body) :
    item.render.length + 53 ≤ m.render.length := by
  have hne : m.body.isEmpty = false := List.isEmpty_eq_false_iff.2 (List.ne_nil_of_mem h)
  have hpart : m.body.flatMap BodyItem.render ∈ m.parts := by
    rw [Module.parts, Module.bodyPart, hne]
    simp
  have hitem : item.render.length ≤ (m.body.flatMap BodyItem.render).length :=
    length_le_length_flatMap h
  have hparts := length_le_length_join hpart ['\n']
  have hfactory := m.length_factory
  have hrender := m.length_render
  omega

theorem Module.length_import {source : Text} (h : source ∈ m.imports) :
    source.length ≤ m.render.length := by
  have hne : m.imports.isEmpty = false := List.isEmpty_eq_false_iff.2 (List.ne_nil_of_mem h)
  have hsource : (source ++ ['\n']).length ≤ (m.imports.flatMap (· ++ ['\n'])).length :=
    length_le_length_flatMap (f := (· ++ ['\n'])) h
  have hheader : m.header = m.imports.flatMap (· ++ ['\n']) ++ ['\n'] := by
    rw [Module.header, hne]
    rfl
  have hrender := m.length_render
  rw [hheader, List.length_append] at hrender
  rw [List.length_append] at hsource
  omega

/-- The code of a component has no interpreter line. -/
theorem Module.CopiesStand.start_render (hstand : m.CopiesStand) :
    Input.start m.render = ⟨m.render, 0⟩ := by
  refine Input.start_eq fun more heq => ?_
  unfold Module.render Module.header at heq
  split at heq
  case isTrue =>
    rw [List.nil_append, Module.factory_eq] at heq
    cases heq
  case isFalse himports =>
    obtain ⟨source, sources, hsources⟩ :=
      List.exists_cons_of_ne_nil (mt List.isEmpty_iff.2 himports)
    have hsource := hstand.imports [] source sources hsources
    rw [hsources, List.flatMap_cons] at heq
    match source, hsource with
    | [], hsource => exact hsource.nonempty rfl
    | [c], _ => simp at heq
    | c :: d :: source, hsource =>
      simp only [List.cons_append, List.cons.injEq] at heq
      exact hsource.ne_hash source (by rw [heq.1, heq.2.1])

/-- The code of a component is a script with one default export, its factory. -/
theorem Module.IsPlain.parse_render (hplain : m.IsPlain) (hstand : m.CopiesStand) :
    ∃ items span, Script.parse m.render = some (items ++ [.otherExport span .defaultValue]) := by
  have hlength := m.length_render
  have hfactoryLength := m.length_factory
  obtain ⟨depth, hdepth⟩ : ∃ depth, 2 * m.render.length + 4 = depth + 8 :=
    ⟨2 * m.render.length - 4, by omega⟩
  have hitems : ∀ item ∈ m.body, 2 * item.render.length ≤ depth := by
    intro item hitem
    have := Module.length_item hitem
    omega
  have hfactory : ∀ lead items, isGap lead = true →
      Loops (moduleStep (.atDepth (depth + 8))) items (lead ++ m.factory)
        (fun all => ∃ before span, all = before ++ [.otherExport span .defaultValue]) ['\n'] := by
    intro lead items hlead
    refine .more (moduleStep_item (hplain.readTopLevel_factory hstand hitems hlead) items) ?_ ?_
    · rw [List.length_append, List.length_singleton]
      omega
    · rintro _ ⟨item, span, hitem, rfl⟩
      exact moduleStep_end Begins.nil.line ⟨items, span, by rw [hitem]⟩
  have hmodule : Loops (moduleStep (.atDepth (depth + 8))) [] m.render
      (fun all => ∃ before span, all = before ++ [.otherExport span .defaultValue]) ['\n'] := by
    unfold Module.render Module.header
    split
    case isTrue => exact hfactory [] [] isGap_nil
    case isFalse =>
      rw [List.append_assoc]
      refine moduleStep_imports (fun before source after heq => ⟨?_, ?_⟩)
        (fun lead items hlead => ?_) isGap_nil []
      · have := m.length_import (show source ∈ m.imports by simp [heq])
        omega
      · exact hstand.imports before source after heq
      · rw [← List.append_assoc]
        exact hfactory _ items (isGap_append hlead isGap_newline)
  obtain ⟨items, hparse, before, span, rfl⟩ :=
    parse_of_reads hstand.start_render (by rw [hdepth]; exact hmodule.repeated)
  exact ⟨before, span, hparse⟩

end Module

end Component.Code
