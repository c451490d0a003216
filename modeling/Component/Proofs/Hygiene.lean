/-
The names that a compiled module uses for its own.  No property has such a name, so a
binding gets hold of one only when it names no property and the policy lets that pass.
-/
import Component.Proofs.Compiling
import Component.Proofs.Page.Mounting

namespace Component

/-- The variable of a node is reserved, whatever its number. -/
theorem Node.isReservedName_variable (n : Node) : isReservedName n.variable = true := by
  have hdigits : ∀ c ∈ Nat.toDigits 10 n.index, c.isDigit = true := fun c hc =>
    Nat.isDigit_of_mem_toDigits (by omega) (by omega) hc
  have hletter : n.kind.letter = 'e' ∨ n.kind.letter = 't' ∨ n.kind.letter = 'b' := by
    cases n.kind <;> simp [NodeKind.letter]
  cases hspelled : Nat.toDigits 10 n.index with
  | nil => exact absurd hspelled Nat.toDigits_ne_nil
  | cons digit more =>
      rw [hspelled] at hdigits
      have hall : (digit :: more).all Char.isDigit = true := List.all_eq_true.mpr hdigits
      rw [Node.variable, hspelled, isReservedName, Bool.or_eq_true]
      right
      simp only [hall, Bool.and_true]
      rcases hletter with hletter | hletter | hletter <;> rw [hletter] <;> rfl

/-- No property of a script has a reserved name. -/
theorem ScriptBlock.isReservedName_property
    {read : Text → Except Script.SyntaxError (List Script.Item)} {block : ScriptBlock}
    {parts : ScriptParts} (h : block.partsWith read = .ok parts) :
    ∀ p ∈ parts.properties, isReservedName p.name = false := by
  refine ScriptBlock.keeps_of_parts
    (fun parts => ∀ p ∈ parts.properties, isReservedName p.name = false) (by simp) ?_ ?_ h
  · intro old declarator next hold hadd p hp
    obtain ⟨name, _, _, hreserved, _, _, rfl⟩ := ScriptParts.addProperty_eq_ok hadd
    rcases List.mem_append.mp hp with hmem | hnew
    · exact hold p hmem
    · rw [List.mem_singleton.mp hnew]
      exact hreserved
  · intro old span placement declared next hold hadd
    obtain ⟨_, _, rfl⟩ := ScriptParts.addStatement_eq_ok hadd
    exact hold

/-- What a policy lets pass: a binding that names no property is refused or, if
warnings are asked for, has one. -/
theorem passed_of_resolveBindings {policy : Policy} {properties : List Property}
    {bindings : List (Node × Text)} {warnings : List Warning}
    (h : resolveBindings policy properties bindings = .ok warnings) :
    ∀ b ∈ bindings, isProperty properties b.2 = false → policy ≠ .error ∧
      (policy = .warn → ⟨.unresolvedBinding b.2, b.1.span⟩ ∈ warnings) := by
  induction bindings generalizing warnings with
  | nil => simp
  | cons first more ih =>
      obtain ⟨node, name⟩ := first
      intro b hb hunknown
      unfold resolveBindings at h
      split at h
      case isTrue hknown =>
        rcases List.mem_cons.mp hb with rfl | hmore
        · rw [hknown] at hunknown
          contradiction
        · exact ih h b hmore hunknown
      case isFalse =>
        split at h
        case isTrue => cases h
        case isFalse =>
          cases policy with
          | error => cases h
          | allow =>
              simp
          | warn =>
              cases hrest : resolveBindings .warn properties more with
              | error e => rw [hrest] at h; cases h
              | ok rest =>
                  rw [hrest] at h
                  obtain rfl := Except.ok.inj h
                  refine ⟨by simp, fun _ => ?_⟩
                  rcases List.mem_cons.mp hb with rfl | hmore
                  · exact List.mem_cons_self
                  · exact List.mem_cons_of_mem _ ((ih hrest b hmore hunknown).2 rfl)

theorem passed_of_resolve {policy : Policy} {properties : List Property} {table : Table}
    {statements : List Statement} {warnings : List Warning}
    (h : resolve policy properties table statements = .ok warnings) :
    ∀ b ∈ table.bindings, isProperty properties b.2 = false → policy ≠ .error ∧
      (policy = .warn → ⟨.unresolvedBinding b.2, b.1.span⟩ ∈ warnings) := by
  obtain ⟨found, hfound, h⟩ := exists_ok_of_bind h
  intro b hb hunknown
  obtain ⟨hpolicy, hwarned⟩ := passed_of_resolveBindings hfound b hb hunknown
  refine ⟨hpolicy, fun hwarn => ?_⟩
  rw [if_neg (by simp [hwarn])] at h
  obtain rfl := Except.ok.inj h
  exact List.mem_append_left _ (hwarned hwarn)

namespace Code

/-- The name that an expression consists of, if it is one. -/
def Expr.plainName : Expr → List Text
  | .name text => [text]
  | _ => []

mutual

def Expr.assigned : Expr → List Text
  | .name _ | .string _ | .raw _ => []
  | .member object _ => object.assigned
  | .call callee arguments => callee.assigned ++ Expr.assignedAll arguments
  | .assign target value => target.plainName ++ target.assigned ++ value.assigned
  | .contains key object => key.assigned ++ object.assigned
  | .same left right => left.assigned ++ right.assigned

def Expr.assignedAll : List Expr → List Text
  | [] => []
  | e :: more => e.assigned ++ Expr.assignedAll more

end

mutual

def Stmt.assigned : Stmt → List Text
  | .expr e => e.assigned
  | .ifThen test body => test.assigned ++ Stmt.assignedAll body

def Stmt.assignedAll : List Stmt → List Text
  | [] => []
  | s :: more => s.assigned ++ Stmt.assignedAll more

end

theorem Stmt.mem_assignedAll {body : List Stmt} {name : Text} :
    name ∈ Stmt.assignedAll body ↔ ∃ s ∈ body, name ∈ s.assigned := by
  induction body with
  | nil => simp [Stmt.assignedAll]
  | cons s more ih => simp [Stmt.assignedAll, ih]

end Code

namespace Page

open Code

theorem invoke_scope {p p' : Page} {object value : Value} {method : Page.Method}
    {arguments : List Value} (h : p.invoke object method arguments = some (value, p')) :
    p'.scope = p.scope := by
  unfold invoke at h
  split at h
  all_goals grind [make]

theorem setProperty_scope {p p' : Page} {key : Text} {value object : Value}
    (h : p.setProperty key value object = some p') : p'.scope = p.scope := by
  unfold setProperty at h
  split at h
  all_goals grind

mutual

/-- An expression changes no variable but those that it assigns. -/
theorem eval_scope (e : Expr) {p p' : Page} {value : Value} {x : Text}
    (h : eval e p = some (value, p')) (hx : x ∉ e.assigned) : p'.scope x = p.scope x := by
  match e with
  | .name name =>
      simp only [eval, Option.map_eq_some_iff] at h
      obtain ⟨_, _, hend⟩ := h
      rw [(Prod.mk.inj hend).2]
  | .string _ | .raw _ => rw [(Prod.mk.inj (Option.some.inj h)).2]
  | .member object key =>
      simp only [eval, bind, Option.bind_eq_some_iff] at h
      obtain ⟨⟨found, next⟩, hobject, _, _, hend⟩ := h
      obtain ⟨rfl, rfl⟩ := Prod.mk.inj (Option.some.inj hend)
      exact eval_scope object hobject hx
  | .call (.member object method) arguments =>
      simp only [Expr.assigned, List.mem_append, not_or] at hx
      simp only [eval, bind, Option.bind_eq_some_iff] at h
      obtain ⟨⟨_, first⟩, hobject, ⟨_, second⟩, harguments, _, _, hinvoke⟩ := h
      rw [invoke_scope hinvoke, evalAll_scope arguments harguments hx.2,
        eval_scope object hobject hx.1]
  | .assign (.name name) value =>
      simp only [Expr.assigned, Expr.plainName, List.mem_append, not_or] at hx
      simp only [eval, bind, Option.bind_eq_some_iff] at h
      obtain ⟨⟨_, next⟩, hvalue, hend⟩ := h
      obtain ⟨rfl, rfl⟩ := Prod.mk.inj (Option.some.inj hend)
      have hne : ¬ x = name := by simpa using hx.1.1
      rw [← eval_scope value hvalue hx.2, assign]
      exact if_neg hne
  | .assign (.member object key) value =>
      simp only [Expr.assigned, List.mem_append, not_or] at hx
      simp only [eval, bind, Option.bind_eq_some_iff] at h
      obtain ⟨⟨_, first⟩, hobject, ⟨_, second⟩, hvalue, last, hset, hend⟩ := h
      obtain ⟨rfl, rfl⟩ := Prod.mk.inj (Option.some.inj hend)
      rw [setProperty_scope hset, eval_scope value hvalue hx.2, eval_scope object hobject hx.1.2]
  | .contains key object =>
      simp only [Expr.assigned, List.mem_append, not_or] at hx
      simp only [eval, bind, Option.bind_eq_some_iff] at h
      obtain ⟨⟨_, first⟩, hkey, ⟨_, second⟩, hobject, hend⟩ := h
      split at hend
      case h_1 =>
        obtain ⟨rfl, rfl⟩ := Prod.mk.inj (Option.some.inj hend)
        rw [eval_scope object hobject hx.2, eval_scope key hkey hx.1]
      case h_2 => cases hend
  | .same left right =>
      simp only [Expr.assigned, List.mem_append, not_or] at hx
      simp only [eval, bind, Option.bind_eq_some_iff] at h
      obtain ⟨⟨_, first⟩, hleft, ⟨_, second⟩, hright, hend⟩ := h
      obtain ⟨rfl, rfl⟩ := Prod.mk.inj (Option.some.inj hend)
      rw [eval_scope right hright hx.2, eval_scope left hleft hx.1]
  -- nothing else is called or assigned
  | .call (.name _) _ | .call (.string _) _ | .call (.raw _) _ | .call (.call _ _) _
  | .call (.assign _ _) _ | .call (.contains _ _) _ | .call (.same _ _) _
  | .assign (.string _) _ | .assign (.raw _) _ | .assign (.call _ _) _
  | .assign (.assign _ _) _ | .assign (.contains _ _) _ | .assign (.same _ _) _ =>
      simp [eval] at h

theorem evalAll_scope (es : List Expr) {p p' : Page} {values : List Value} {x : Text}
    (h : evalAll es p = some (values, p')) (hx : x ∉ Expr.assignedAll es) :
    p'.scope x = p.scope x := by
  match es with
  | [] => rw [(Prod.mk.inj (Option.some.inj h)).2]
  | e :: more =>
      simp only [Expr.assignedAll, List.mem_append, not_or] at hx
      simp only [evalAll, bind, Option.bind_eq_some_iff] at h
      obtain ⟨⟨_, first⟩, hfirst, ⟨_, second⟩, hmore, hend⟩ := h
      obtain ⟨rfl, rfl⟩ := Prod.mk.inj (Option.some.inj hend)
      rw [evalAll_scope more hmore hx.2, eval_scope e hfirst hx.1]

end

mutual

/-- A statement changes no variable but those that it assigns. -/
theorem exec_scope (s : Stmt) {p p' : Page} {x : Text} (h : exec s p = some p')
    (hx : x ∉ s.assigned) : p'.scope x = p.scope x := by
  match s with
  | .expr e =>
      simp only [exec, Option.map_eq_some_iff] at h
      obtain ⟨⟨_, next⟩, heval, rfl⟩ := h
      exact eval_scope e heval hx
  | .ifThen test body =>
      simp only [Stmt.assigned, List.mem_append, not_or] at hx
      simp only [exec, bind, Option.bind_eq_some_iff] at h
      obtain ⟨⟨_, next⟩, htest, h⟩ := h
      split at h
      case h_1 => rw [execAll_scope body h hx.2, eval_scope test htest hx.1]
      case h_2 => rw [← Option.some.inj h, eval_scope test htest hx.1]
      case h_3 => cases h

theorem execAll_scope (body : List Stmt) {p p' : Page} {x : Text} (h : execAll body p = some p')
    (hx : x ∉ Stmt.assignedAll body) : p'.scope x = p.scope x := by
  match body with
  | [] => rw [Option.some.inj h]
  | s :: more =>
      simp only [Stmt.assignedAll, List.mem_append, not_or] at hx
      simp only [execAll, Option.bind_eq_some_iff] at h
      obtain ⟨next, hfirst, hmore⟩ := h
      rw [execAll_scope more hmore hx.2, exec_scope s hfirst hx.1]

end

end Page

namespace Lifecycle

open Code

theorem nodeName_eq_variable {t : Table} {n : Node} (hn : n ∈ t.nodes) :
    ∃ m ∈ t.nodes, nodeName t n = .name m.variable := by
  unfold nodeName
  rw [List.getD_eq_getElem?_getD]
  cases hfound : t.nodes[n.index]? with
  | none => exact ⟨n, hn, rfl⟩
  | some m => exact ⟨m, List.mem_of_getElem? hfound, rfl⟩

theorem assigned_refresh (node name : Text) : (refresh (.name node) name).assigned = [name] := by
  simp [refresh, Stmt.assigned, Stmt.assignedAll, Expr.assigned, Expr.plainName, changes]

theorem mem_assigned_update {t : Table} {x : Text}
    (hx : x ∈ Stmt.assignedAll (update t)) : ∃ b ∈ t.bindings, b.2 = x := by
  obtain ⟨s, hs, hassigned⟩ := Stmt.mem_assignedAll.mp hx
  obtain ⟨⟨n, name⟩, hb, rfl⟩ := List.mem_map.mp hs
  simp only [nodeName, assigned_refresh, List.mem_singleton] at hassigned
  exact ⟨_, hb, hassigned.symm⟩

theorem assigned_make (node : Text) (method : String) (argument : Expr)
    (hargument : argument.assigned = []) :
    (make (.name node) method argument).assigned = [node] := by
  simp [make, Stmt.assigned, Expr.assigned, Expr.assignedAll, Expr.plainName, hargument]

theorem mem_assigned_createNode {t : Table} {n m : Node} {s : Stmt} {x : Text}
    (hname : nodeName t n = .name m.variable) (hs : s ∈ createNode t n)
    (hx : x ∈ s.assigned) : x = m.variable := by
  unfold createNode at hs
  rw [hname] at hs
  split at hs
  case h_1 tagName attributes _ =>
    rcases List.mem_cons.mp hs with rfl | hattribute
    · simpa [assigned_make _ _ (.string tagName) rfl] using hx
    · obtain ⟨⟨name, value⟩, _, rfl⟩ := List.mem_map.mp hattribute
      simp [invoke, Stmt.assigned, Expr.assigned, Expr.assignedAll] at hx
  case h_2 text _ =>
    rw [List.mem_singleton.mp hs, assigned_make _ _ (.string text) rfl] at hx
    exact List.mem_singleton.mp hx
  case h_3 name _ =>
    rw [List.mem_singleton.mp hs, assigned_make _ _ (.name name) rfl] at hx
    exact List.mem_singleton.mp hx

theorem mem_assigned_create {t : Table} {x : Text}
    (hx : x ∈ Stmt.assignedAll (create t)) : x ∈ t.nodes.map Node.variable := by
  obtain ⟨s, hs, hassigned⟩ := Stmt.mem_assignedAll.mp hx
  rcases List.mem_append.mp hs with hnode | hlistener
  · obtain ⟨n, hn, hs⟩ := List.mem_flatMap.mp hnode
    obtain ⟨m, hm, hname⟩ := nodeName_eq_variable hn
    rw [mem_assigned_createNode hname hs hassigned]
    exact List.mem_map_of_mem hm
  · obtain ⟨l, _, hs⟩ := List.mem_flatMap.mp hlistener
    unfold addListener at hs
    split at hs
    case h_1 =>
      rw [List.mem_singleton.mp hs] at hassigned
      simp [invoke, Stmt.assigned, Expr.assigned, Expr.assignedAll] at hassigned
    case h_2 => simp at hs

end Lifecycle

open Page in
/-- A compiled component can only lose a variable that the module uses itself to a
binding of that name.  Such a binding names no property; it does not pass when
unresolved bindings are refused, and has a warning when warnings are asked for. -/
theorem reserved_names_captured_only_unresolved (policy : Policy) (source : Text) (out : Output)
    (h : compile policy source = .ok out) :
    (∀ n ∈ out.table.nodes, isReservedName n.variable = true) ∧
    (∀ b ∈ out.table.bindings, isReservedName b.2 = true →
      isProperty out.properties b.2 = false ∧ policy ≠ .error ∧
        (policy = .warn → ⟨.unresolvedBinding b.2, b.1.span⟩ ∈ out.warnings)) ∧
    (∀ p created : Page, run out.module "create" p = some created →
      ∀ x, x ∉ out.module.locals → created.scope x = p.scope x) ∧
    (∀ p updated : Page, run out.module "update" p = some updated →
      ∀ x, isReservedName x = true → updated.scope x ≠ p.scope x →
        policy ≠ .error ∧ ∃ b ∈ out.table.bindings, b.2 = x) := by
  obtain ⟨script, fragment, hstages⟩ := compiles_of_compile h
  have hproperties := ScriptBlock.isReservedName_property hstages.parts
  have hcaptured : ∀ b ∈ out.table.bindings, isReservedName b.2 = true →
      isProperty out.properties b.2 = false ∧ policy ≠ .error ∧
        (policy = .warn → ⟨.unresolvedBinding b.2, b.1.span⟩ ∈ out.warnings) := by
    intro b hb hreserved
    have hunknown : isProperty script.properties b.2 = false := by
      apply List.any_eq_false.mpr
      intro property hproperty hname
      have hfree := hproperties property hproperty
      rw [eq_of_beq hname, hreserved] at hfree
      exact Bool.false_ne_true hfree.symm
    exact ⟨hstages.properties_eq ▸ hunknown, passed_of_resolve hstages.resolved b hb hunknown⟩
  refine ⟨fun n _ => n.isReservedName_variable, hcaptured, ?_, ?_⟩
  · intro p created hrun x hx
    rw [hstages.module_eq] at hrun hx
    exact execAll_scope (Lifecycle.create out.table) hrun
      fun hassigned => hx (Lifecycle.mem_assigned_create hassigned)
  · intro p updated hrun x hreserved hchanged
    rw [hstages.module_eq] at hrun
    have hassigned : x ∈ Code.Stmt.assignedAll (Lifecycle.update out.table) := by
      by_contra hfree
      exact hchanged (execAll_scope (Lifecycle.update out.table) hrun hfree)
    obtain ⟨b, hb, rfl⟩ := Lifecycle.mem_assigned_update hassigned
    exact ⟨(hcaptured b hb hreserved).2.1, b, hb, rfl⟩

namespace HygieneWitness

/-- A paragraph that shows the mount point. -/
def source : Text := "<p>\x7btarget\x7d</p>"

/-- The page of that component, told of a new value under the name of the mount point. -/
def page : Page where
  dom := ⟨[.element "body" [] [] [1], .element "p" [] [] [2], .text (.node 0)], by decide⟩
  scope name :=
    if name = "changes" then some .changes
    else if name = "target" then some (.node 0)
    else if name = "b1" then some (.node 2)
    else none
  changes name := if name = "target" then some (.text "5") else none

/-- What the component compiles to where unresolved bindings pass. -/
theorem compiled :
    ((compile .warn source).toOption.any fun out =>
      out.table.bindings.any (isReservedName ·.2)) = true ∧
    ((compile .allow source).toOption.any fun out =>
      out.table.bindings.any (·.2 = "target") &&
        (Page.run out.module "update" page).any (·.scope "target" = some (.text "5"))) = true := by
  decide +kernel

end HygieneWitness

open Page HygieneWitness in
theorem shown_mount_point_is_warned_of :
    ∃ out, compile .warn source = .ok out ∧
      ∃ b ∈ out.table.bindings, isReservedName b.2 = true ∧
        isProperty out.properties b.2 = false ∧
          ⟨.unresolvedBinding b.2, b.1.span⟩ ∈ out.warnings := by
  obtain ⟨out, hout, hshown⟩ := exists_ok_of_any _ _ compiled.1
  obtain ⟨b, hb, hreserved⟩ := List.any_eq_true.mp hshown
  obtain ⟨_, hcaptured, _, _⟩ := reserved_names_captured_only_unresolved .warn source out hout
  obtain ⟨hunknown, _, hwarned⟩ := hcaptured b hb hreserved
  exact ⟨out, hout, b, hb, hreserved, hunknown, hwarned rfl⟩

open Page HygieneWitness in
/-- Where unresolved bindings pass, `update` can give the mount point another value. -/
theorem mount_point_lost_when_allowed :
    ∃ out, compile .allow source = .ok out ∧ (∃ b ∈ out.table.bindings, b.2 = "target") ∧
      ∃ updated, run out.module "update" page = some updated ∧
        page.scope "target" = some (.node 0) ∧ updated.scope "target" = some (.text "5") := by
  obtain ⟨out, hout, hlost⟩ := exists_ok_of_any _ _ compiled.2
  obtain ⟨hshown, hlost⟩ := Bool.and_eq_true_iff.mp hlost
  obtain ⟨b, hb, hname⟩ := List.any_eq_true.mp hshown
  obtain ⟨updated, hrun, hvalue⟩ := (Option.any_eq_true _ _).mp hlost
  exact ⟨out, hout, ⟨b, hb, of_decide_eq_true hname⟩, updated, hrun, rfl, of_decide_eq_true hvalue⟩

end Component
