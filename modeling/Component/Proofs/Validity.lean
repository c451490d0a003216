/-
The code that a component compiles to is a script itself, wherever the text that it
copies from the source can stand.
-/
import Component.Proofs.Code.Factory
import Component.Proofs.Hygiene
import Component.Proofs.Relocation
import Component.Proofs.Script.Names

namespace Component

open Code
open Script hiding Expr

/-! ### Names of variables -/

theorem isPart_of_isDigit {c : Char} (h : c.isDigit = true) : Identifier.isPart c = true := by
  have hascii : c.toNat < 128 := by
    simp only [Char.isDigit, Bool.and_eq_true, decide_eq_true_eq, UInt32.le_iff_toNat_le] at h
    have : c.toNat ≤ 57 := h.2
    omega
  simp [Identifier.isPart, hascii, Char.isAlphanum, h]

/-- A word with a digit in it is neither reserved nor fixed. -/
theorem isVariable_of_isDigit {word : Text} {c : Char} (hword : isWord word = true) (hc : c ∈ word)
    (h : c.isDigit = true) : isVariable word = true := by
  have hletters : ∀ other ∈ "eval" :: "arguments" :: reservedWords,
      ∀ c ∈ other.toList, c.isDigit = false := by
    have hall : ("eval" :: "arguments" :: reservedWords).all
        (fun other => other.toList.all fun c => !c.isDigit) = true := by decide +kernel
    simpa only [List.all_eq_true, Bool.not_eq_true'] using hall
  have hne : ∀ other ∈ "eval" :: "arguments" :: reservedWords, word ≠ other.toList := by
    rintro other hother rfl
    rw [hletters other hother c hc] at h
    cases h
  have hreserved : isReservedWord word = false := by
    refine Bool.eq_false_iff.2 fun hreserved => ?_
    obtain ⟨reserved, hmem, heq⟩ := (isReservedWord_iff word).1 hreserved
    exact hne reserved (by simp [hmem]) heq.symm
  have hfixed : isFixedName word = false := by
    rw [isFixedName, beq_false_of_ne (hne "eval" (by simp)),
      beq_false_of_ne (hne "arguments" (by simp))]
    rfl
  rw [isVariable, hword, hreserved, hfixed]
  rfl

/-- The variable of a node can be read and assigned to. -/
theorem Node.isVariable_variable (n : Node) : isVariable n.variable = true := by
  have hdigits : ∀ c ∈ Nat.toDigits 10 n.index, c.isDigit = true := fun c hc =>
    Nat.isDigit_of_mem_toDigits (by omega) (by omega) hc
  have hletter : Identifier.isStart n.kind.letter = true := by
    cases n.kind <;> simp only [NodeKind.letter] <;> decide
  have hparts : (Nat.toDigits 10 n.index).all Identifier.isPart = true :=
    List.all_eq_true.2 fun c hc => isPart_of_isDigit (hdigits c hc)
  have hword : isWord n.variable = true := by
    rw [Node.variable, isWord, hletter, hparts, Bool.true_and]
  have hne : Nat.toDigits 10 n.index ≠ [] := Nat.toDigits_ne_nil
  obtain ⟨digit, more, hspelled⟩ := List.exists_cons_of_ne_nil hne
  refine isVariable_of_isDigit hword (c := digit) ?_ (hdigits digit ?_)
  · simp [Node.variable, hspelled]
  · simp [hspelled]

/-! ### Methods -/

namespace Lifecycle

theorem invoke_isPlain {name : Text} (hname : isVariable name = true) (method : String)
    (hmethod : isWord method.toList = true) {arguments : List Expr}
    (h : ∀ argument ∈ arguments, argument.IsAtom) :
    (invoke (.name name) method arguments).IsPlain :=
  .action (.call (.call (.member (.name hname) hmethod) h))

theorem make_isPlain (n : Node) (method : String) (hmethod : isWord method.toList = true)
    {argument : Expr} (h : argument.IsAtom) :
    (make (.name n.variable) method argument).IsPlain := by
  have hdocument := isVariable_generatedName "document" (by simp [generatedNames])
  have hvariable := n.isVariable_variable
  refine .action (.assign (.name hvariable) (Expr.isTarget_shape_name hvariable)
    (.call (.member (.name hdocument) hmethod) ?_))
  simpa using h

theorem append_isPlain {name : Text} (hname : isVariable name = true) (child : Node) :
    (append (.name name) (.name child.variable)).IsPlain := by
  refine invoke_isPlain hname "appendChild" (by decide) ?_
  exact List.forall_mem_singleton.2 (.name child.isVariable_variable)

theorem refresh_isPlain {property : Text} (hproperty : isVariable property = true) (n : Node) :
    (refresh (.name n.variable) property).IsPlain := by
  have hchanges := isVariable_generatedName "changes" (by simp [generatedNames])
  refine .ifKey hchanges fun s hs => ?_
  obtain rfl | hs := List.mem_cons.1 hs
  · exact ⟨_, rfl, .assign (.name hproperty) (Expr.isTarget_shape_name hproperty)
      (.member (.name hchanges) (isWord_of_isVariable hproperty))⟩
  · rw [List.mem_singleton.1 hs]
    exact ⟨_, rfl, .assign (.member (.name n.isVariable_variable) (by decide)) rfl
      (.name hproperty)⟩

/-- The statements that the methods of a component without listeners are made of. -/
inductive Acts (t : Table) : Stmt → Prop
  | makeElement (n : Node) (tagName : Text) :
      Acts t (make (.name n.variable) "createElement" (.string tagName))
  | setAttribute (n : Node) (name value : Text) :
      Acts t (invoke (.name n.variable) "setAttribute" [.string name, .string value])
  | makeText (n : Node) (text : Text) :
      Acts t (make (.name n.variable) "createTextNode" (.string text))
  | makeBinding (n : Node) {b : Node × Text} (h : b ∈ t.bindings) :
      Acts t (make (.name n.variable) "createTextNode" (.name b.2))
  | append (parent child : Node) :
      Acts t (append (.name parent.variable) (.name child.variable))
  | appendRoot (child : Node) : Acts t (append target (.name child.variable))
  | refresh (n : Node) {b : Node × Text} (h : b ∈ t.bindings) :
      Acts t (refresh (.name n.variable) b.2)
  | remove (n : Node) : Acts t (invoke target "removeChild" [.name n.variable])

theorem createNode_acts {t : Table} {n : Node} (hn : n ∈ t.nodes) :
    ∀ s ∈ createNode t n, Acts t s := by
  intro s hs
  unfold createNode at hs
  split at hs
  case h_1 tagName attributes _ =>
    obtain rfl | hs := List.mem_cons.1 hs
    · exact .makeElement _ tagName
    · obtain ⟨⟨name, value⟩, -, rfl⟩ := List.mem_map.1 hs
      exact .setAttribute _ name value
  case h_2 text _ =>
    rw [List.mem_singleton.1 hs]
    exact .makeText _ text
  case h_3 property hkind =>
    rw [List.mem_singleton.1 hs]
    have hb : (n, property) ∈ t.bindings := List.mem_filterMap.2 ⟨n, hn, by simp [hkind]⟩
    exact .makeBinding _ hb

theorem attach_acts (t : Table) (depth : Nat) (n : Node) : ∀ s ∈ attach t depth n, Acts t s := by
  induction depth generalizing n with
  | zero => simp [attach]
  | succ depth ih =>
    intro s hs
    obtain ⟨child, -, hs⟩ := List.mem_flatMap.1 hs
    obtain hs | hs := List.mem_append.1 hs
    · exact ih child s hs
    · rw [List.mem_singleton.1 hs]
      exact .append _ _

theorem create_acts {t : Table} (h : t.listeners = []) : ∀ s ∈ create t, Acts t s := by
  intro s hs
  rw [create, h, List.flatMap_nil, List.append_nil] at hs
  obtain ⟨n, hn, hs⟩ := List.mem_flatMap.1 hs
  exact createNode_acts hn s hs

theorem mount_acts (t : Table) : ∀ s ∈ mount t, Acts t s := by
  intro s hs
  obtain hs | hs := List.mem_append.1 hs
  · obtain ⟨n, -, hs⟩ := List.mem_flatMap.1 hs
    exact attach_acts t _ n s hs
  · obtain ⟨n, -, rfl⟩ := List.mem_map.1 hs
    exact .appendRoot _

theorem update_acts (t : Table) : ∀ s ∈ update t, Acts t s := by
  intro s hs
  obtain ⟨b, hb, rfl⟩ := List.mem_map.1 hs
  exact .refresh _ hb

theorem detach_acts (t : Table) : ∀ s ∈ detach t, Acts t s := by
  intro s hs
  obtain ⟨n, -, rfl⟩ := List.mem_map.1 hs
  exact .remove _

theorem Acts.isPlain {t : Table} {s : Stmt} (h : Acts t s)
    (hbindings : ∀ b ∈ t.bindings, isVariable b.2 = true) : s.IsPlain := by
  have htarget := isVariable_generatedName "target" (by simp [generatedNames])
  cases h with
  | makeElement n tagName => exact make_isPlain n "createElement" (by decide) (.string tagName)
  | setAttribute n name value =>
    refine invoke_isPlain n.isVariable_variable "setAttribute" (by decide) ?_
    simp [Expr.IsAtom.string]
  | makeText n text => exact make_isPlain n "createTextNode" (by decide) (.string text)
  | makeBinding n hb => exact make_isPlain n "createTextNode" (by decide) (.name (hbindings _ hb))
  | append parent child => exact append_isPlain parent.isVariable_variable child
  | appendRoot child => exact append_isPlain htarget child
  | refresh n hb => exact refresh_isPlain (hbindings _ hb) n
  | remove n =>
    refine invoke_isPlain htarget "removeChild" (by decide) ?_
    exact List.forall_mem_singleton.2 (.name n.isVariable_variable)

/-- The methods of a component without listeners, if all that it shows can be read. -/
theorem methods_isPlain {t : Table} (hlisteners : t.listeners = [])
    (hbindings : ∀ b ∈ t.bindings, isVariable b.2 = true) : ∀ m ∈ methods t, m.IsPlain := by
  have hchanges := isVariable_generatedName "changes" (by simp [generatedNames])
  have hnames : ∀ name ∈ ["create", "mount", "update", "detach"], isWord name.toList = true ∧
      ∀ word ∈ ["async", "get", "set"], name.toList ≠ word.toList := by decide
  obtain ⟨hcreate, hcreateKey⟩ := hnames "create" (by simp)
  obtain ⟨hmount, hmountKey⟩ := hnames "mount" (by simp)
  obtain ⟨hupdate, hupdateKey⟩ := hnames "update" (by simp)
  obtain ⟨hdetach, hdetachKey⟩ := hnames "detach" (by simp)
  intro m hm
  simp only [methods, List.mem_cons, List.not_mem_nil, or_false, -String.reduceToList] at hm
  obtain rfl | rfl | rfl | rfl := hm
  · exact ⟨hcreate, hcreateKey, by simp, fun s hs =>
      (create_acts hlisteners s hs).isPlain hbindings⟩
  · exact ⟨hmount, hmountKey, by simp, fun s hs => (mount_acts t s hs).isPlain hbindings⟩
  · exact ⟨hupdate, hupdateKey, by simpa using hchanges,
      fun s hs => (update_acts t s hs).isPlain hbindings⟩
  · exact ⟨hdetach, hdetachKey, by simp, fun s hs => (detach_acts t s hs).isPlain hbindings⟩

/-- The code of a component without listeners, if all its properties and all that it shows
can be read. -/
theorem assemble_isPlain {properties : List Property} {t : Table} (statements : List Statement)
    (hproperties : ∀ p ∈ properties, isVariable p.name = true) (hlisteners : t.listeners = [])
    (hbindings : ∀ b ∈ t.bindings, isVariable b.2 = true) :
    (assemble properties t statements).IsPlain where
  properties name hname := by
    obtain ⟨p, hp, rfl⟩ := List.mem_map.1 hname
    exact isWord_of_isVariable (hproperties p hp)
  body item hitem := by
    obtain ⟨⟨start, item⟩, hmem, rfl⟩ := List.mem_map.1 hitem
    rw [orderByStart_eq_insertionSort, (List.perm_insertionSort _ _).mem_iff] at hmem
    obtain hmem | hmem := List.mem_append.1 hmem
    · obtain ⟨s, -, heq⟩ := List.mem_map.1 hmem
      obtain rfl := (Prod.mk.inj heq).2
      exact .verbatim s.source
    · obtain ⟨p, hp, hdefault⟩ := List.mem_filterMap.1 hmem
      obtain ⟨value, -, heq⟩ := Option.map_eq_some_iff.1 hdefault
      obtain rfl := (Prod.mk.inj heq).2
      exact .default (hproperties p hp) value
  locals name hname := by
    obtain ⟨n, -, rfl⟩ := List.mem_map.1 hname
    exact n.isVariable_variable
  methods := methods_isPlain hlisteners hbindings
  someMethod := List.cons_ne_nil _ _

end Lifecycle

/-! ### Compilation -/

/-- Where unresolved bindings are refused, every binding names a property. -/
theorem isProperty_of_resolve {properties : List Property} {table : Table}
    {statements : List Statement} {warnings : List Warning}
    (h : resolve .error properties table statements = .ok warnings) :
    ∀ b ∈ table.bindings, isProperty properties b.2 = true := by
  intro b hb
  by_contra hunknown
  exact (passed_of_resolve h b hb (Bool.eq_false_iff.2 hunknown)).1 rfl

/-- The code of a component without listeners is a script that exports its factory and
nothing else, if what it copies from the source can stand where it is put and no property
has a name that is a reserved word. -/
theorem code_reads_if_copies_stand (source : Text) (out : Output)
    (h : compile .error source = .ok out) (hlisteners : out.table.listeners = [])
    (hwords : ∀ p ∈ out.properties, isReservedWord p.name = false)
    (hstand : out.module.CopiesStand) :
    ∃ items span, Script.read out.code = .ok (items ++ [.otherExport span .defaultValue]) := by
  obtain ⟨script, fragment, hstages⟩ := compiles_of_compile h
  rw [hstages.properties_eq] at hwords
  have hproperties : ∀ p ∈ script.properties, isVariable p.name = true := by
    intro p hp
    have hbindable := ScriptBlock.isBindable_property hstages.parts p hp
    rw [isBindable] at hbindable
    rw [isVariable, hwords p hp, Bool.not_false, Bool.and_true, hbindable]
  have hbindings : ∀ b ∈ out.table.bindings, isVariable b.2 = true := by
    intro b hb
    obtain ⟨p, hp, hname⟩ := List.any_eq_true.1 (isProperty_of_resolve hstages.resolved b hb)
    rw [← eq_of_beq hname]
    exact hproperties p hp
  have hplain : out.module.IsPlain := by
    rw [hstages.module_eq]
    exact Lifecycle.assemble_isPlain script.statements hproperties hlisteners hbindings
  obtain ⟨items, span, hparse⟩ := hplain.parse_render hstand
  refine ⟨items, span, ?_⟩
  rw [hstages.code_eq, Script.read, hparse]

-- The condition on names is one: a name whose first character is escaped may spell a
-- reserved word, which the code then has to read as a variable.
example : ((ScriptBlock.parts ⟨"export let \\u0076ar", ⟨8, 27⟩⟩).toOption.any fun parts =>
    parts.properties.any fun p => isReservedWord p.name) = true := by decide +kernel

/-! ### Two components -/

namespace ValidityWitness

/-- A component whose property takes its default value from a variable of the script. -/
def source : Text :=
  "<script>let n0;export let count = n0;</script><p>\x7bcount\x7d</p>"

def parts : ScriptParts where
  properties := [⟨"count", some "n0", ⟨26, 36⟩⟩]
  statements := [⟨"let n0;", .factoryBody, ["n0"], ⟨8, 15⟩⟩]

def table : Table where
  nodes := [⟨0, none, .element "p" [], ⟨46, 60⟩⟩, ⟨1, some 0, .binding "count", ⟨49, 56⟩⟩]
  listeners := []

/-- A component whose script waits for a value. -/
def waiting : Text := "<script>await 0</script>"

-- Evaluated together, so that the words of the language are spelled out once.
theorem stages_and_waiting_code :
    ((Markup.parse {} source).errors = [] ∧
      ((Fragment.split (Markup.parse {} source).nodes).toOption.any fun fragment =>
        fragment.script.parts.toOption = some parts &&
          (Table.ofMarkup fragment.markup).toOption = some table) = true ∧
      (resolve .error parts.properties table parts.statements).toOption = some [] ∧
      ∀ p ∈ parts.properties, isReservedWord p.name = false) ∧
    ((compile .error waiting).toOption.any fun out =>
      out.table.listeners = [] && (Script.parse out.code).isNone) = true := by
  decide +kernel

def module : Code.Module := Lifecycle.assemble parts.properties table parts.statements

theorem compiled :
    compile .error source = .ok ⟨module.render, module, parts.properties, table, []⟩ := by
  obtain ⟨hmarkup, hsplit, hresolved, -⟩ := stages_and_waiting_code.1
  obtain ⟨fragment, hfragment, hstages⟩ := exists_ok_of_any _ _ hsplit
  obtain ⟨hparts, htable⟩ := Bool.and_eq_true_iff.1 hstages
  exact compileWith_eq_ok hmarkup hfragment (eq_ok_of_toOption (of_decide_eq_true hparts))
    (eq_ok_of_toOption (of_decide_eq_true htable)) (eq_ok_of_toOption hresolved) rfl

theorem body_eq : module.body = [.verbatim "let n0;",
    .stmt (Lifecycle.applyDefault ⟨"count", some "n0", ⟨26, 36⟩⟩ "n0")] := by
  rfl

theorem n0_isVariable : isVariable "n0" = true :=
  isVariable_of_isDigit (c := '0') (by decide) (by decide) rfl

/-- The declaration of the variable stands before any text that goes on with a token. -/
theorem declaration_stands {rest : Text} (hrest : (front rest).isSome) :
    Stands (readItemOrStatement · (.function false false)) "let n0;" rest := by
  refine ⟨by simp, fun depth lead hdepth hlead => ?_⟩
  obtain ⟨depth, rfl⟩ := Nat.exists_eq_add_of_lt (show 0 < depth by omega)
  have hname : ∀ name ∈ ["n0".toList], isVariable name = true :=
    List.forall_mem_singleton.2 n0_isVariable
  have htext : "let n0;".toList ++ rest =
      "let".toList ++ ' ' :: (Text.join ", " ["n0".toList] ++ ';' :: rest) := rfl
  rw [Nat.zero_add, htext]
  exact readItem_let hlead rfl (readVariables_names depth hname hrest)

theorem copiesStand : module.CopiesStand where
  imports before source after heq := by
    simp [module, Lifecycle.assemble, parts] at heq
  statements before source after heq := by
    rw [body_eq] at heq
    match before, heq with
    | [], heq =>
      obtain ⟨hsource, rfl⟩ := List.cons.inj heq
      obtain rfl := BodyItem.verbatim.inj hsource
      exact declaration_stands (by decide +kernel)
    | [_], heq => cases (List.cons.inj (List.cons.inj heq).2).1
    | _ :: _ :: before, heq => simp at heq
  defaults before p value after heq := by
    rw [body_eq] at heq
    match before, heq with
    | [], heq => cases (List.cons.inj heq).1
    | [_], heq =>
      have hdefault := BodyItem.stmt.inj (List.cons.inj (List.cons.inj heq).2).1
      obtain ⟨-, rfl⟩ := applyDefault_inj hdefault
      exact stands_name n0_isVariable rfl _
    | _ :: _ :: before, heq => simp at heq

end ValidityWitness

open ValidityWitness in
theorem default_from_variable_reads :
    compile .error source = .ok ⟨module.render, module, parts.properties, table, []⟩ ∧
      module.CopiesStand ∧
      ∃ items span,
        Script.read module.render = .ok (items ++ [.otherExport span .defaultValue]) := by
  obtain ⟨-, -, -, hwords⟩ := stages_and_waiting_code.1
  obtain ⟨items, span, hread⟩ :=
    code_reads_if_copies_stand source _ compiled rfl hwords copiesStand
  exact ⟨compiled, copiesStand, items, span, hread⟩

open ValidityWitness in
/-- A script that waits at top level is one, but not inside the factory, which is not
asynchronous. -/
theorem awaiting_component_unreadable :
    ∃ out, compile .error waiting = .ok out ∧ out.table.listeners = [] ∧
      ∃ e, Script.read out.code = .error e := by
  obtain ⟨out, hout, hchecked⟩ := exists_ok_of_any _ _ stages_and_waiting_code.2
  obtain ⟨hlisteners, hnone⟩ := Bool.and_eq_true_iff.1 hchecked
  refine ⟨out, hout, of_decide_eq_true hlisteners, ?_⟩
  rw [Script.read, Option.isNone_iff_eq_none.1 hnone]
  exact ⟨_, rfl⟩

end Component
