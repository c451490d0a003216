/-
The names that the methods of a compiled module mention, and where each is declared: by
the module for its own use, as a property, or nowhere when a policy lets that pass.
-/
import Component.Proofs.Hygiene
import Component.Proofs.Page.Numbering
import Component.Proofs.Page.Updating

namespace Component

namespace Code

mutual

/-- The names that stand in an expression, those inside copied text left out. -/
@[simp] def Expr.mentioned : Expr → List Text
  | .name text => [text]
  | .string _ | .raw _ => []
  | .member object _ => object.mentioned
  | .call callee arguments => callee.mentioned ++ Expr.mentionedAll arguments
  | .assign target value => target.mentioned ++ value.mentioned
  | .contains key object => key.mentioned ++ object.mentioned
  | .same left right => left.mentioned ++ right.mentioned

@[simp] def Expr.mentionedAll : List Expr → List Text
  | [] => []
  | e :: more => e.mentioned ++ Expr.mentionedAll more

end

mutual

@[simp] def Stmt.mentioned : Stmt → List Text
  | .expr e => e.mentioned
  | .ifThen test body => test.mentioned ++ Stmt.mentionedAll body

@[simp] def Stmt.mentionedAll : List Stmt → List Text
  | [] => []
  | s :: more => s.mentioned ++ Stmt.mentionedAll more

end

theorem Stmt.mem_mentionedAll {body : List Stmt} {name : Text} :
    name ∈ Stmt.mentionedAll body ↔ ∃ s ∈ body, name ∈ s.mentioned := by
  induction body with
  | nil => simp
  | cons s more ih => simp [ih]

end Code

namespace Lifecycle

open Code

theorem mentioned_invoke (object : Expr) (method : String) (arguments : List Expr) :
    (invoke object method arguments).mentioned =
      object.mentioned ++ Expr.mentionedAll arguments := by
  simp [invoke]

theorem mem_mentioned_make {node argument : Expr} {method : String} {x : Text} :
    x ∈ (make node method argument).mentioned ↔
      x = "document".toList ∨ x ∈ node.mentioned ∨ x ∈ argument.mentioned := by
  simp [make, or_left_comm]

theorem mem_mentioned_append {parent child : Expr} {x : Text} :
    x ∈ (append parent child).mentioned ↔ x ∈ parent.mentioned ∨ x ∈ child.mentioned := by
  simp [append, mentioned_invoke]

/-- The variable at the index of a node is one of the table in any case. -/
theorem mem_variables_of_nodeName {t : Table} {n : Node} (hn : n ∈ t.nodes) {x : Text}
    (hx : x ∈ (nodeName t n).mentioned) : x ∈ t.nodes.map Node.variable := by
  rw [List.mem_singleton.mp hx, List.getD_eq_getElem?_getD]
  cases hfound : t.nodes[n.index]? with
  | none => exact List.mem_map_of_mem hn
  | some other => exact List.mem_map_of_mem (List.mem_of_getElem? hfound)

theorem mem_mentioned_target {x : Text} : x ∈ target.mentioned ↔ x = "target".toList := by
  simp [target]

theorem mem_mentioned_createNode {t : Table} {n : Node} {s : Stmt} {x : Text}
    (hs : s ∈ createNode t n) (hx : x ∈ s.mentioned) :
    x = "document".toList ∨ x ∈ (nodeName t n).mentioned ∨ n.kind = .binding x := by
  unfold createNode at hs
  split at hs
  case h_1 tagName attributes _ =>
    rcases List.mem_cons.mp hs with rfl | hattribute
    · exact (mem_mentioned_make.mp hx).imp_right fun h => h.imp_right (absurd · List.not_mem_nil)
    · obtain ⟨⟨name, value⟩, _, rfl⟩ := List.mem_map.mp hattribute
      have hvariable : x ∈ (nodeName t n).mentioned := by
        simpa [mentioned_invoke] using hx
      exact .inr (.inl hvariable)
  case h_2 text _ =>
    rw [List.mem_singleton.mp hs, mem_mentioned_make] at hx
    exact hx.imp_right fun h => h.imp_right (absurd · List.not_mem_nil)
  case h_3 name hkind =>
    rw [List.mem_singleton.mp hs, mem_mentioned_make] at hx
    rcases hx with hdocument | hvariable | hname
    · exact .inl hdocument
    · exact .inr (.inl hvariable)
    · rw [List.mem_singleton.mp hname]
      exact .inr (.inr hkind)

theorem mem_mentioned_create {t : Table} {x : Text} (hx : x ∈ Stmt.mentionedAll (create t)) :
    x = "document".toList ∨ x ∈ t.nodes.map Node.variable ∨ ∃ b ∈ t.bindings, b.2 = x := by
  obtain ⟨s, hs, hx⟩ := Stmt.mem_mentionedAll.mp hx
  rcases List.mem_append.mp hs with hnode | hlistener
  · obtain ⟨n, hn, hs⟩ := List.mem_flatMap.mp hnode
    rcases mem_mentioned_createNode hs hx with hdocument | hvariable | hkind
    · exact .inl hdocument
    · exact .inr (.inl (mem_variables_of_nodeName hn hvariable))
    · exact .inr (.inr ⟨(n, x), Table.mem_bindings hn hkind, rfl⟩)
  · obtain ⟨l, _, hs⟩ := List.mem_flatMap.mp hlistener
    unfold addListener at hs
    split at hs
    case h_1 n hn =>
      rw [List.mem_singleton.mp hs] at hx
      have hvariable : x = n.variable := by
        simpa [mentioned_invoke] using hx
      exact .inr (.inl (hvariable ▸ List.mem_map_of_mem (List.mem_of_getElem? hn)))
    case h_2 => simp at hs

theorem mem_mentioned_attach {t : Table} {depth : Nat} {n : Node} {s : Stmt} {x : Text}
    (hn : n ∈ t.nodes) (hs : s ∈ attach t depth n) (hx : x ∈ s.mentioned) :
    x ∈ t.nodes.map Node.variable := by
  induction depth generalizing n with
  | zero => simp [attach] at hs
  | succ depth ih =>
      obtain ⟨child, hchild, hs⟩ := List.mem_flatMap.mp hs
      have hmem : child ∈ t.nodes := List.mem_of_mem_filter hchild
      rcases List.mem_append.mp hs with hinner | hlast
      · exact ih hmem hinner
      · rw [List.mem_singleton.mp hlast, mem_mentioned_append] at hx
        exact hx.elim (mem_variables_of_nodeName hn) (mem_variables_of_nodeName hmem)

theorem mem_mentioned_mount {t : Table} {x : Text} (hx : x ∈ Stmt.mentionedAll (mount t)) :
    x = "target".toList ∨ x ∈ t.nodes.map Node.variable := by
  obtain ⟨s, hs, hx⟩ := Stmt.mem_mentionedAll.mp hx
  rcases List.mem_append.mp hs with hinner | houter
  · obtain ⟨root, hroot, hs⟩ := List.mem_flatMap.mp hinner
    exact .inr (mem_mentioned_attach (List.mem_of_mem_filter hroot) hs hx)
  · obtain ⟨root, hroot, rfl⟩ := List.mem_map.mp houter
    rcases mem_mentioned_append.mp hx with htarget | hvariable
    · exact .inl (mem_mentioned_target.mp htarget)
    · exact .inr (mem_variables_of_nodeName (List.mem_of_mem_filter hroot) hvariable)

theorem mem_mentioned_refresh {node : Expr} {property x : Text} :
    x ∈ (refresh node property).mentioned ↔
      x = "changes".toList ∨ x ∈ node.mentioned ∨ x = property := by
  simp only [refresh, Stmt.mentioned, Stmt.mentionedAll, Expr.mentioned, changes,
    List.mem_append, List.mem_singleton, List.not_mem_nil]
  tauto

theorem mem_mentioned_update {t : Table} {x : Text} (hx : x ∈ Stmt.mentionedAll (update t)) :
    x = "changes".toList ∨ x ∈ t.nodes.map Node.variable ∨ ∃ b ∈ t.bindings, b.2 = x := by
  obtain ⟨s, hs, hx⟩ := Stmt.mem_mentionedAll.mp hx
  obtain ⟨b, hb, rfl⟩ := List.mem_map.mp hs
  have hnode : b.1 ∈ t.nodes := (Table.kind_of_mem_bindings hb).1
  rcases mem_mentioned_refresh.mp hx with hchanges | hvariable | rfl
  · exact .inl hchanges
  · exact .inr (.inl (mem_variables_of_nodeName hnode hvariable))
  · exact .inr (.inr ⟨b, hb, rfl⟩)

theorem mem_mentioned_detach {t : Table} {x : Text} (hx : x ∈ Stmt.mentionedAll (detach t)) :
    x = "target".toList ∨ x ∈ t.nodes.map Node.variable := by
  obtain ⟨s, hs, hx⟩ := Stmt.mem_mentionedAll.mp hx
  obtain ⟨root, hroot, rfl⟩ := List.mem_map.mp hs
  have hplace : x = "target".toList ∨ x ∈ (nodeName t root).mentioned := by
    simpa [mentioned_invoke, mem_mentioned_target] using hx
  exact hplace.imp_right (mem_variables_of_nodeName (List.mem_of_mem_filter hroot))

/-- Beside names of the module itself, a method mentions only names that bindings show. -/
theorem mem_mentioned_methods {t : Table} {m : Method} {x : Text} (hm : m ∈ methods t)
    (hx : x ∈ Stmt.mentionedAll m.body) :
    x = "document".toList ∨ x = "target".toList ∨ (x = "changes".toList ∧ m.name = "update") ∨
      x ∈ t.nodes.map Node.variable ∨ ∃ b ∈ t.bindings, b.2 = x := by
  simp only [methods, List.mem_cons, List.not_mem_nil, or_false] at hm
  rcases hm with rfl | rfl | rfl | rfl
  · rcases mem_mentioned_create hx with hdocument | hnamed
    · exact .inl hdocument
    · exact .inr (.inr (.inr hnamed))
  · rcases mem_mentioned_mount hx with htarget | hvariable
    · exact .inr (.inl htarget)
    · exact .inr (.inr (.inr (.inl hvariable)))
  · rcases mem_mentioned_update hx with hchanges | hnamed
    · exact .inr (.inr (.inl ⟨hchanges, rfl⟩))
    · exact .inr (.inr (.inr hnamed))
  · rcases mem_mentioned_detach hx with htarget | hvariable
    · exact .inr (.inl htarget)
    · exact .inr (.inr (.inr (.inl hvariable)))

end Lifecycle

theorem mem_names_iff_isProperty {properties : List Property} {name : Text} :
    name ∈ properties.map (·.name) ↔ isProperty properties name = true := by
  simp [isProperty]

section Script

variable {read : Text → Except Script.SyntaxError (List Script.Item)} {block : ScriptBlock}
  {parts : ScriptParts}

theorem ScriptBlock.properties_nodup (h : block.partsWith read = .ok parts) :
    (parts.properties.map (·.name)).Nodup := by
  refine ScriptBlock.keeps_of_parts
    (fun parts : ScriptParts => (parts.properties.map Property.name).Nodup) (by simp) ?_ ?_ h
  case refine_2 =>
    intro old span placement declared next hold hadd
    obtain ⟨_, -, rfl⟩ := ScriptParts.addStatement_eq_ok hadd
    exact hold
  intro old declarator next hold hadd
  obtain ⟨name, _, _, _, hnew, _, rfl⟩ := ScriptParts.addProperty_eq_ok hadd
  have hfresh : name ∉ old.properties.map (·.name) := by
    rw [mem_names_iff_isProperty, isProperty, hnew]
    exact Bool.false_ne_true
  rw [List.map_append]
  exact hold.append (List.nodup_singleton name) (by simpa using hfresh)

theorem ScriptBlock.clash_eq_none (h : block.partsWith read = .ok parts) :
    parts.clash = none := by
  unfold ScriptBlock.partsWith at h
  split at h
  case isTrue => exact Except.ok.inj h ▸ rfl
  case isFalse =>
    split at h
    case h_1 => cases h
    case h_2 =>
      obtain ⟨sorted, _, h⟩ := exists_ok_of_bind h
      split at h
      case h_1 => cases h
      case h_2 hclash => exact Except.ok.inj h ▸ hclash

/-- The names that the statements of a script declare are neither reserved nor those of
properties. -/
theorem ScriptBlock.declared_apart (h : block.partsWith read = .ok parts) {s : Statement}
    (hs : s ∈ parts.statements) {name : Text} (hname : name ∈ s.declared) :
    isReservedName name = false ∧ isProperty parts.properties name = false := by
  have hstatement := List.findSome?_eq_none_iff.mp (ScriptBlock.clash_eq_none h) s hs
  have hfault : parts.nameFault name = none :=
    List.findSome?_eq_none_iff.mp (Option.map_eq_none_iff.mp hstatement) name hname
  unfold ScriptParts.nameFault at hfault
  split_ifs at hfault with hreserved hproperty
  exact ⟨Bool.eq_false_iff.mpr hreserved, Bool.eq_false_iff.mpr hproperty⟩

end Script

open Code in
/-- The four methods of a compiled component mention the document, the mount point, the
changes that `update` is given, variables of nodes, properties, and names of bindings that
are no properties.  The last do not occur when unresolved bindings are refused, and have
warnings when warnings are asked for.  No two of the variables of nodes, the properties and
the names that the script declares for itself are the same. -/
theorem methods_well_scoped (read : Text → Except Script.SyntaxError (List Script.Item))
    (policy : Policy) (source : Text) (out : Output)
    (h : compileWith read policy source = .ok out) :
    out.module.methods.map (·.name) =
      ["create".toList, "mount".toList, "update".toList, "detach".toList] ∧
    (∀ m ∈ out.module.methods, ∀ x ∈ Stmt.mentionedAll m.body,
      x = "document".toList ∨ x = "target".toList ∨ (x = "changes".toList ∧ m.name = "update") ∨
      x ∈ out.module.locals ∨ x ∈ out.module.properties ∨
      ∃ b ∈ out.table.bindings, b.2 = x ∧ isProperty out.properties x = false ∧ policy ≠ .error ∧
        (policy = .warn → ⟨.unresolvedBinding x, b.1.span⟩ ∈ out.warnings)) ∧
    out.module.locals.Nodup ∧ out.module.properties.Nodup ∧
    out.module.locals.Disjoint out.module.properties ∧
    ∃ fragment script, Fragment.split (Markup.parse {} source).nodes = .ok fragment ∧
      fragment.script.partsWith read = .ok script ∧
      ∀ s ∈ script.statements, s.declared.Disjoint out.module.locals ∧
        s.declared.Disjoint out.module.properties := by
  obtain ⟨script, fragment, hstages⟩ := compiles_of_compile h
  have hlocals : out.module.locals = out.table.nodes.map Node.variable := by
    rw [hstages.module_eq, Lifecycle.assemble]
  have hproperties : out.module.properties = script.properties.map (·.name) := by
    rw [hstages.module_eq, Lifecycle.assemble]
  have hmethods : out.module.methods = Lifecycle.methods out.table := by
    rw [hstages.module_eq, Lifecycle.assemble]
  have hreserved : ∀ x ∈ out.module.locals, isReservedName x = true := by
    rw [hlocals]
    rintro x hx
    obtain ⟨n, _, rfl⟩ := List.mem_map.mp hx
    exact n.isReservedName_variable
  refine ⟨by rw [hmethods]; rfl, ?_, ?_, ?_, ?_, fragment, script, hstages.split, hstages.parts, ?_⟩
  · intro m hm x hx
    rw [hmethods] at hm
    rcases Lifecycle.mem_mentioned_methods hm hx with
      hdocument | htarget | hchanges | hvariable | ⟨b, hb, rfl⟩
    · exact .inl hdocument
    · exact .inr (.inl htarget)
    · exact .inr (.inr (.inl hchanges))
    · exact .inr (.inr (.inr (.inl (hlocals ▸ hvariable))))
    · cases hknown : isProperty script.properties b.2 with
      | true =>
          refine .inr (.inr (.inr (.inr (.inl ?_))))
          rw [hproperties]
          exact mem_names_iff_isProperty.mpr hknown
      | false =>
          obtain ⟨hpolicy, hwarned⟩ := passed_of_resolve hstages.resolved b hb hknown
          rw [hstages.properties_eq]
          exact .inr (.inr (.inr (.inr (.inr ⟨b, hb, rfl, hknown, hpolicy, hwarned⟩))))
  · rw [hlocals]
    exact (Table.lists_of_ofMarkup hstages.table).numbered.variables_nodup
  · rw [hproperties]
    exact ScriptBlock.properties_nodup hstages.parts
  · intro x hlocal hproperty
    rw [hproperties] at hproperty
    obtain ⟨p, hp, rfl⟩ := List.mem_map.mp hproperty
    have hfree := ScriptBlock.isReservedName_property hstages.parts p hp
    rw [hreserved p.name hlocal] at hfree
    cases hfree
  · intro s hs
    refine ⟨fun x hx hlocal => ?_, fun x hx hproperty => ?_⟩
    · have hfree := (ScriptBlock.declared_apart hstages.parts hs hx).1
      rw [hreserved x hlocal] at hfree
      cases hfree
    · have hfree := (ScriptBlock.declared_apart hstages.parts hs hx).2
      rw [hproperties, mem_names_iff_isProperty, hfree] at hproperty
      cases hproperty

namespace ScopingWitness

/-- A component with a property, a variable of its own, and a binding that names the
variable. -/
def source : Text :=
  "<script>let n;export let a;</script><p on:click=\x7bn\x7d>\x7ba\x7d\x7bn\x7d</p>"

theorem compiled :
    ((compile .warn source).toOption.any fun out =>
      out.module.locals = ["e0".toList, "b1".toList, "b2".toList] &&
        out.module.properties = ["a".toList]) = true := by
  decide +kernel

end ScopingWitness

open ScopingWitness Code in
theorem shown_variable_is_warned_of :
    ∃ out, compile .warn source = .ok out ∧
      out.module.locals.Disjoint out.module.properties ∧
      ∀ m ∈ out.module.methods, "n".toList ∈ Stmt.mentionedAll m.body →
        ∃ b ∈ out.table.bindings, b.2 = "n".toList ∧
          ⟨.unresolvedBinding "n", b.1.span⟩ ∈ out.warnings := by
  obtain ⟨out, hout, hnames⟩ := exists_ok_of_any _ _ compiled
  obtain ⟨hlocals, hproperties⟩ := Bool.and_eq_true_iff.mp hnames
  obtain ⟨-, hscoped, -, -, hdisjoint, -⟩ := methods_well_scoped Script.read .warn source out hout
  refine ⟨out, hout, hdisjoint, fun m hm hmentioned => ?_⟩
  have hplace := hscoped m hm _ hmentioned
  rw [of_decide_eq_true hlocals, of_decide_eq_true hproperties] at hplace
  rcases hplace with hplace | hplace | ⟨hplace, -⟩ | hplace | hplace | ⟨b, hb, hname, -, -, hwarned⟩
  · exact absurd hplace (by decide)
  · exact absurd hplace (by decide)
  · exact absurd hplace (by decide)
  · exact absurd hplace (by decide)
  · exact absurd hplace (by decide)
  · exact ⟨b, hb, hname, hwarned rfl⟩

end Component
