/-
What the statements of `create` and `mount` do to a page: they add nodes, give
these listeners, and link them.
-/
import Component.Proofs.Page.Attachment
import Component.Proofs.Page.Machine
import Mathlib.Data.List.Basic

namespace Component

/-- The number of a node can be read off its variable. -/
theorem Node.index_eq_of_variable_eq {first second : Node}
    (h : first.variable = second.variable) : first.index = second.index := by
  have hdigits : Nat.toDigits 10 first.index = Nat.toDigits 10 second.index :=
    (List.cons.inj h).2
  rw [← Nat.ofDigitChars_ten_toDigits (n := first.index), hdigits,
    Nat.ofDigitChars_ten_toDigits]

/-- A letter and digits spell no word of the compiled module. -/
theorem Node.variable_ne {word : Text} (n : Node)
    (hword : ∃ first second more, word = first :: second :: more ∧ second.isDigit = false) :
    n.variable ≠ word := by
  rintro rfl
  obtain ⟨first, second, more, heq, hdigit⟩ := hword
  have hdigits : Nat.toDigits 10 n.index = second :: more := (List.cons.inj heq).2
  have hmem : second ∈ Nat.toDigits 10 n.index := by rw [hdigits]; exact List.mem_cons_self
  rw [Nat.isDigit_of_mem_toDigits (by omega) (by omega) hmem] at hdigit
  contradiction

theorem Node.variable_ne_document (n : Node) : n.variable ≠ ("document" : Text) :=
  n.variable_ne ⟨'d', 'o', _, rfl, rfl⟩

theorem Node.variable_ne_target (n : Node) : n.variable ≠ ("target" : Text) :=
  n.variable_ne ⟨'t', 'a', _, rfl, rfl⟩

namespace Table

/-- Nodes are numbered by their places, and their parents are nodes of the table. -/
structure Numbered (t : Table) : Prop where
  index_eq : ∀ (i : Nat) (n : Node), t.nodes[i]? = some n → n.index = i
  parent_lt : ∀ n ∈ t.nodes, ∀ p, n.parent = some p → p < t.nodes.length

theorem numbered_iff {t : Table} :
    t.Numbered ↔ t.nodes.map Node.index = List.range t.nodes.length ∧
      ∀ n ∈ t.nodes, n.parent.all (· < t.nodes.length) = true := by
  constructor
  · rintro ⟨hindex, hparent⟩
    refine ⟨List.ext_getElem (by simp) fun i hi _ => ?_, fun n hn => ?_⟩
    · rw [List.length_map] at hi
      simpa using hindex i _ (List.getElem?_eq_getElem hi)
    · exact (Option.all_eq_true _ _).2 fun p hp => decide_eq_true (hparent n hn p hp)
  · rintro ⟨hindex, hparent⟩
    refine ⟨fun i n hn => ?_, fun n hn p hp => ?_⟩
    · obtain ⟨hi, rfl⟩ := List.getElem?_eq_some_iff.1 hn
      have hsame := List.getElem_of_eq hindex (by simpa using hi)
      simpa using hsame
    · exact of_decide_eq_true ((Option.all_eq_true _ _).1 (hparent n hn) p hp)

instance (t : Table) : Decidable t.Numbered := decidable_of_iff _ numbered_iff.symm

theorem Numbered.get?_of_mem {t : Table} {n : Node} (h : t.Numbered) (hn : n ∈ t.nodes) :
    t.nodes[n.index]? = some n := by
  obtain ⟨i, hi⟩ := List.mem_iff_getElem?.1 hn
  rw [h.index_eq i n hi]
  exact hi

/-- The variable at the index of a node is that of the node. -/
theorem Numbered.nodeName_eq {t : Table} {n : Node} (h : t.Numbered) (hn : n ∈ t.nodes) :
    Lifecycle.nodeName t n = .name n.variable := by
  rw [Lifecycle.nodeName, List.getD_eq_getElem?_getD, h.get?_of_mem hn, Option.getD_some]

end Table

namespace Page

open Code

theorem exec_invoke {p : Page} {object : Expr} {method : String} {arguments : List Expr}
    {receiver : Value} {values : List Value} {called : Method}
    (hmethod : Method.named.lookup method.toList = some called)
    (hobject : eval object p = some (receiver, p))
    (harguments : evalAll arguments p = some (values, p)) :
    exec (Lifecycle.invoke object method arguments) p =
      (p.invoke receiver called values).map (·.2) := by
  simp only [Lifecycle.invoke, exec, eval, hobject, harguments, hmethod, bind, Option.bind]

theorem exec_make {p : Page} {name : Text} {method : String} {argument : Expr} {value : Value}
    {called : Method} (hmethod : Method.named.lookup method.toList = some called)
    (hdocument : p.scope "document" = some .document)
    (hargument : eval argument p = some (value, p)) :
    exec (Lifecycle.make (.name name) method argument) p =
      (p.invoke .document called [value]).map fun made => made.2.assign name made.1 := by
  simp only [Lifecycle.make, exec, eval, evalAll, hdocument, hargument, hmethod, bind,
    Option.bind, Option.map]
  cases p.invoke .document called [value] <;> rfl

theorem eval_name {p : Page} {name : Text} {value : Value}
    (hname : p.scope name = some value) : eval (.name name) p = some (value, p) := by
  simp [eval, hname]

/-- A page follows another by a change of its nodes alone. -/
structure Changed (p : Page) (change : Nat → DomNode → DomNode) (p' : Page) : Prop where
  scope_eq : p'.scope = p.scope
  changes_eq : p'.changes = p.changes
  get?_eq : ∀ place : Nat, p'.dom.nodes[place]? = p.dom.nodes[place]?.map (change place)

theorem Changed.refl (p : Page) : p.Changed (fun _ node => node) p :=
  ⟨rfl, rfl, by simp⟩

theorem Changed.trans {p p' p'' : Page} {first second : Nat → DomNode → DomNode}
    (hfirst : p.Changed first p') (hsecond : p'.Changed second p'') :
    p.Changed (fun place node => second place (first place node)) p'' where
  scope_eq := hsecond.scope_eq.trans hfirst.scope_eq
  changes_eq := hsecond.changes_eq.trans hfirst.changes_eq
  get?_eq place := by
    rw [hsecond.get?_eq, hfirst.get?_eq, Option.map_map]
    rfl

theorem Changed.size_eq {p p' : Page} {change : Nat → DomNode → DomNode}
    (h : p.Changed change p') : p'.dom.size = p.dom.size := by
  apply Nat.le_antisymm
  · apply List.getElem?_eq_none_iff.mp
    have hnone : p.dom.nodes[p.dom.size]? = none :=
      List.getElem?_eq_none_iff.mpr (Nat.le_refl _)
    rw [h.get?_eq, hnone]
    rfl
  · apply List.getElem?_eq_none_iff.mp
    have hnone : p'.dom.nodes[p'.dom.nodes.length]? = none :=
      List.getElem?_eq_none_iff.mpr (Nat.le_refl _)
    rw [h.get?_eq] at hnone
    exact Option.map_eq_none_iff.mp hnone

/-- Statements that each make a change make all the changes in turn, when each
keeps what the later ones need. -/
theorem execAll_changed {α : Type} (statement : α → Stmt)
    (change : α → Nat → DomNode → DomNode) (Ready : List α → Page → Prop)
    (hstep : ∀ item more p, Ready (item :: more) p →
      ∃ p', exec (statement item) p = some p' ∧ p.Changed (change item) p' ∧ Ready more p')
    (items : List α) (p : Page) (hready : Ready items p) :
    ∃ p', execAll (items.map statement) p = some p' ∧
      p.Changed (fun place node => items.foldl (fun node item => change item place node) node)
        p' := by
  induction items generalizing p with
  | nil => exact ⟨p, rfl, Changed.refl p⟩
  | cons item more ih =>
      obtain ⟨next, hexec, hchanged, hnext⟩ := hstep item more p hready
      obtain ⟨last, hrest, hlast⟩ := ih next hnext
      refine ⟨last, ?_, hchanged.trans hlast⟩
      simp only [List.map_cons, execAll, hexec, Option.bind_some, hrest]

theorem Changed.hasElement_eq {p p' : Page} {change : Nat → DomNode → DomNode}
    (h : p.Changed change p')
    (hkeeps : ∀ place node, (change place node).isElement = node.isElement) (id : Nat) :
    p'.hasElement id = p.hasElement id := by
  simp only [hasElement, h.get?_eq]
  cases p.dom.nodes[id]? with
  | none => rfl
  | some node => simp [hkeeps]

theorem isElement_only (id : Nat) {change : DomNode → DomNode}
    (hkeeps : ∀ node, (change node).isElement = node.isElement) (place : Nat)
    (node : DomNode) : (Dom.only id change place node).isElement = node.isElement := by
  by_cases hplace : place = id
  · simp [Dom.only, hplace, hkeeps]
  · simp [Dom.only, hplace]

theorem exec_setAttribute (p : Page) {receiver name value : Text} {id : Nat}
    (hreceiver : p.scope receiver = some (.node id)) (helement : p.hasElement id = true) :
    ∃ p', exec (Lifecycle.invoke (.name receiver) "setAttribute"
        [.string name, .string value]) p = some p' ∧
      p.Changed (Dom.only id (·.putAttribute name value)) p' := by
  have hmethod : Method.named.lookup ("setAttribute" : String).toList = some .setAttribute := rfl
  refine ⟨{ p with dom := p.dom.alter id (·.putAttribute name value) (by simp) }, ?_,
    ⟨rfl, rfl, p.dom.get?_alter id _ (DomNode.children_putAttribute name value)⟩⟩
  rw [exec_invoke hmethod (eval_name hreceiver) rfl]
  simp [invoke, helement]

theorem exec_addEventListener (p : Page) {receiver event handler : Text} {id : Nat}
    (hreceiver : p.scope receiver = some (.node id)) (helement : p.hasElement id = true) :
    ∃ p', exec (Lifecycle.invoke (.name receiver) "addEventListener"
        [.string event, .raw handler]) p = some p' ∧
      p.Changed (Dom.only id (·.listen [(event, .code handler)])) p' := by
  have hmethod : Method.named.lookup ("addEventListener" : String).toList =
    some .addEventListener := rfl
  refine ⟨{ p with dom := p.dom.alter id (·.listen [(event, .code handler)]) (by simp) }, ?_,
    ⟨rfl, rfl, p.dom.get?_alter id _ (DomNode.children_listen [(event, .code handler)])⟩⟩
  rw [exec_invoke hmethod (eval_name hreceiver) rfl]
  simp [invoke, helement]

theorem exec_appendChild (p : Page) {receiver argument : Text} {id child : Nat}
    (hreceiver : p.scope receiver = some (.node id)) (helement : p.hasElement id = true)
    (hargument : p.scope argument = some (.node child)) (hchild : child < p.dom.size)
    (hdetached : ∀ node ∈ p.dom.nodes, child ∉ node.children) :
    ∃ p', exec (Lifecycle.invoke (.name receiver) "appendChild" [.name argument]) p = some p' ∧
      p.Changed (Dom.only id (·.adopt [child])) p' := by
  have hmethod : Method.named.lookup ("appendChild" : String).toList = some .appendChild := rfl
  have hvalues : evalAll [.name argument] p = some ([.node child], p) := by
    simp [evalAll, eval_name hargument]
  refine ⟨{ p with dom := p.dom.append id child hchild }, ?_,
    ⟨rfl, rfl, p.dom.get?_append_of_detached id child hchild hdetached⟩⟩
  rw [exec_invoke hmethod (eval_name hreceiver) hvalues]
  simp [invoke, helement, hchild]

/-- The node that `create` makes for a node of the table, before it has listeners. -/
def born (values : Text → Value) : NodeKind → DomNode
  | .element tagName attributes => .element tagName attributes [] []
  | .staticText text => .text (.text text)
  | .binding property => .text (values property)

theorem putAttributes_eq (tagName : Text) (known attributes : List (Text × Text))
    (hdistinct : ((known ++ attributes).map Prod.fst).Nodup) :
    attributes.foldl (fun node a => node.putAttribute a.1 a.2)
        (DomNode.element tagName known [] []) =
      .element tagName (known ++ attributes) [] [] := by
  induction attributes generalizing known with
  | nil => simp
  | cons a more ih =>
      have hnew : a.1 ∉ known.map Prod.fst := by
        intro hmem
        rw [List.map_append] at hdistinct
        exact (List.nodup_append.mp hdistinct).2.2 a.1 hmem a.1 (by simp) rfl
      have hnext : ((known ++ [a] ++ more).map Prod.fst).Nodup := by simpa using hdistinct
      rw [List.foldl_cons, DomNode.putAttribute, setAttribute_of_not_mem a.2 hnew,
        ih (known ++ [a]) hnext]
      simp

theorem foldl_only {α : Type} (id : Nat) (change : α → DomNode → DomNode) (items : List α)
    (place : Nat) (node : DomNode) :
    items.foldl (fun node item => Dom.only id (change item) place node) node =
      Dom.only id (fun node => items.foldl (fun node item => change item node) node)
        place node := by
  by_cases hplace : place = id
  · simp [Dom.only, hplace]
  · simp [Dom.only, hplace, List.foldl_fixed]

theorem getElem?_concat_only (old : List DomNode) (node : DomNode)
    (change : DomNode → DomNode) (place : Nat) :
    (old ++ [node])[place]?.map (Dom.only old.length change place) =
      (old ++ [change node])[place]? := by
  rcases Nat.lt_trichotomy place old.length with hbefore | rfl | hafter
  · have hne : ¬ place = old.length := by omega
    rw [List.getElem?_append_left hbefore, List.getElem?_append_left hbefore]
    cases old[place]? with
    | none => rfl
    | some other => simp [Dom.only, hne]
  · simp [Dom.only]
  · rw [List.getElem?_eq_none_iff.mpr (by simp; omega),
      List.getElem?_eq_none_iff.mpr (by simp; omega)]
    rfl

/-- Additions at several places come to one addition at each place. -/
theorem foldl_only_under {α : Type} (put : List α → DomNode → DomNode)
    (hnil : ∀ node, put [] node = node)
    (happend : ∀ first second node, put second (put first node) = put (first ++ second) node)
    (entries : List (Nat × α)) (place : Nat) (node : DomNode) :
    entries.foldl (fun node entry => Dom.only entry.1 (put [entry.2]) place node) node =
      put (under place entries) node := by
  induction entries generalizing node with
  | nil => exact (hnil node).symm
  | cons entry more ih =>
      rw [List.foldl_cons, ih]
      by_cases hplace : entry.1 = place
      · simp [Dom.only, hplace, under, happend]
      · have hother : ¬ place = entry.1 := fun h => hplace h.symm
        simp [Dom.only, hplace, hother, under]

/-- The attributes of a node go to its element in order. -/
theorem execAll_setAttributes {p : Page} {name : Text} {id : Nat}
    (attributes : List (Text × Text)) (hvariable : p.scope name = some (.node id))
    (helement : p.hasElement id = true) :
    ∃ p', execAll (attributes.map fun a => Lifecycle.invoke (.name name) "setAttribute"
        [.string a.1, .string a.2]) p = some p' ∧
      p.Changed (Dom.only id fun node =>
        attributes.foldl (fun node a => node.putAttribute a.1 a.2) node) p' := by
  obtain ⟨p', hexec, hchanged⟩ := execAll_changed
    (fun a : Text × Text => Lifecycle.invoke (.name name) "setAttribute"
      [.string a.1, .string a.2])
    (fun a => Dom.only id (·.putAttribute a.1 a.2))
    (fun _ q => q.scope name = some (.node id) ∧ q.hasElement id = true)
    (by
      rintro a more q ⟨hvariable, hhas⟩
      obtain ⟨next, hnext, hchanged⟩ := exec_setAttribute q hvariable hhas
      refine ⟨next, hnext, hchanged, ?_, ?_⟩
      · rw [hchanged.scope_eq]
        exact hvariable
      · rw [hchanged.hasElement_eq (isElement_only id (by intro node; cases node <;> rfl))]
        exact hhas)
    attributes p ⟨hvariable, helement⟩
  refine ⟨p', hexec, ?_⟩
  convert hchanged using 3 with place node
  exact (foldl_only id _ attributes place node).symm

/-- The statements for one node of the table add one node to the page and keep it
in the variable of the node. -/
theorem execAll_createNode (p : Page) (t : Table) (n : Node) (values : Text → Value)
    (hname : Lifecycle.nodeName t n = .name n.variable)
    (hdocument : p.scope "document" = some .document)
    (hvalue : ∀ name, n.kind = .binding name → p.scope name = some (values name))
    (hdistinct : ∀ tagName attributes, n.kind = .element tagName attributes →
      (attributes.map Prod.fst).Nodup) :
    ∃ p', execAll (Lifecycle.createNode t n) p = some p' ∧
      p'.dom.nodes = p.dom.nodes ++ [born values n.kind] ∧
      p'.scope = (p.assign n.variable (.node p.dom.size)).scope := by
  have htext : Method.named.lookup ("createTextNode" : String).toList =
    some .createTextNode := rfl
  have helement : Method.named.lookup ("createElement" : String).toList =
    some .createElement := rfl
  cases hkind : n.kind with
  | staticText text =>
      refine ⟨(p.make (.text (.text text)) rfl).2.assign n.variable (.node p.dom.size), ?_,
        rfl, rfl⟩
      simp only [Lifecycle.createNode, hkind, hname, execAll,
        exec_make htext hdocument (show eval (.string text) p = some (.text text, p) from rfl)]
      rfl
  | binding property =>
      refine ⟨(p.make (.text (values property)) rfl).2.assign n.variable (.node p.dom.size), ?_,
        rfl, rfl⟩
      simp only [Lifecycle.createNode, hkind, hname, execAll,
        exec_make htext hdocument (eval_name (hvalue property hkind))]
      rfl
  | element tagName attributes =>
      set id := p.dom.size with hid
      set made := (p.make (.element tagName [] [] []) rfl).2.assign n.variable (.node id)
        with hmade
      have hnodes : made.dom.nodes = p.dom.nodes ++ [.element tagName [] [] []] := rfl
      have hvariable : made.scope n.variable = some (.node id) := by simp [hmade, assign]
      have hhas : made.hasElement id = true := by
        simp [hasElement, hnodes, hid, Dom.size, DomNode.isElement]
      obtain ⟨last, hexec, hchanged⟩ := execAll_setAttributes attributes hvariable hhas
      have hput := putAttributes_eq tagName [] attributes
        (by simpa using hdistinct tagName attributes hkind)
      refine ⟨last, ?_, ?_, ?_⟩
      · simp only [Lifecycle.createNode, hkind, hname, execAll,
          exec_make helement hdocument
            (show eval (.string tagName) p = some (.text tagName, p) from rfl)]
        exact hexec
      · apply List.ext_getElem?
        intro place
        rw [hchanged.get?_eq, hnodes, born, hid, Dom.size, getElem?_concat_only, hput]
        rfl
      · rw [hchanged.scope_eq]
        rfl

/-- The statements for several nodes add these in order. -/
theorem execAll_createNodes (t : Table) (nodes : List Node) (values : Text → Value) (p : Page)
    (hname : ∀ n ∈ nodes, Lifecycle.nodeName t n = .name n.variable)
    (hdocument : p.scope "document" = some .document)
    (hlocals : (nodes.map Node.variable).Nodup)
    (hvalue : ∀ n ∈ nodes, ∀ name, n.kind = .binding name →
      p.scope name = some (values name) ∧ name ∉ nodes.map Node.variable)
    (hdistinct : ∀ n ∈ nodes, ∀ tagName attributes, n.kind = .element tagName attributes →
      (attributes.map Prod.fst).Nodup) :
    ∃ p', execAll (nodes.flatMap (Lifecycle.createNode t)) p = some p' ∧
      p'.dom.nodes = p.dom.nodes ++ nodes.map (fun n => born values n.kind) ∧
      (∀ name, name ∉ nodes.map Node.variable → p'.scope name = p.scope name) ∧
      ∀ i n, nodes[i]? = some n → p'.scope n.variable = some (.node (p.dom.size + i)) := by
  induction nodes generalizing p with
  | nil => exact ⟨p, rfl, by simp, by simp, by simp⟩
  | cons n more ih =>
      obtain ⟨next, hexec, hnodes, hvariables⟩ := execAll_createNode p t n values
        (hname n List.mem_cons_self) hdocument
        (fun name hname => (hvalue n List.mem_cons_self name hname).1)
        (hdistinct n List.mem_cons_self)
      have hkeeps : ∀ name, name ≠ n.variable → next.scope name = p.scope name := by
        intro name hname
        simp [hvariables, assign, hname]
      simp only [List.map_cons, List.nodup_cons] at hlocals
      obtain ⟨last, hrest, hlast, hothers, hplaces⟩ := ih next
        (fun other hother => hname other (List.mem_cons_of_mem n hother))
        (by
          rw [hkeeps _ (Ne.symm n.variable_ne_document)]
          exact hdocument)
        hlocals.2
        (by
          intro other hother name hname
          obtain ⟨hknown, hfree⟩ := hvalue other (List.mem_cons_of_mem n hother) name hname
          simp only [List.map_cons, List.mem_cons, not_or] at hfree
          exact ⟨(hkeeps name hfree.1).trans hknown, hfree.2⟩)
        (fun other hother => hdistinct other (List.mem_cons_of_mem n hother))
      refine ⟨last, ?_, ?_, ?_, ?_⟩
      · rw [List.flatMap_cons, execAll_append, hexec]
        exact hrest
      · rw [hlast, hnodes, List.append_assoc]
        rfl
      · intro name hname
        simp only [List.map_cons, List.mem_cons, not_or] at hname
        rw [hothers name hname.2, hkeeps name hname.1]
      · intro i found hfound
        cases i with
        | zero =>
            obtain rfl : n = found := by simpa using hfound
            rw [hothers n.variable hlocals.1, hvariables]
            simp [assign]
        | succ i =>
            have hsize : next.dom.size = p.dom.size + 1 := by simp [Dom.size, hnodes]
            rw [hplaces i found (by simpa using hfound), hsize, Nat.add_assoc, Nat.add_comm 1 i]

/-- The name of the variable of the node at an index. -/
def nameAt (t : Table) (index : Nat) : Text := (t.nodes[index]?.map Node.variable).getD []

theorem nameAt_eq {t : Table} {index : Nat} {n : Node} (h : t.nodes[index]? = some n) :
    nameAt t index = n.variable := by
  simp [nameAt, h]

/-- The listeners of the table go to their elements in order. -/
theorem execAll_addListeners (t : Table) (base : Nat) (p : Page)
    (hlisteners : ∀ l ∈ t.listeners, l.node < t.nodes.length ∧
      p.hasElement (base + l.node) = true)
    (hvariables : ∀ i n, t.nodes[i]? = some n →
      p.scope n.variable = some (.node (base + i))) :
    ∃ p', execAll (t.listeners.flatMap (Lifecycle.addListener t)) p = some p' ∧
      p.Changed (fun place node => node.listen (under place (t.handlers.map fun handler =>
        (base + handler.1, (handler.2.1, .code handler.2.2))))) p' := by
  have hstatements : t.listeners.flatMap (Lifecycle.addListener t) =
      t.listeners.map fun l => Lifecycle.invoke (.name (nameAt t l.node)) "addEventListener"
        [.string l.event, .raw l.handler] := by
    rw [List.map_eq_flatMap]
    apply List.flatMap_congr
    intro l hl
    obtain ⟨n, hn⟩ : ∃ n, t.nodes[l.node]? = some n :=
      ⟨_, List.getElem?_eq_getElem (hlisteners l hl).1⟩
    simp [Lifecycle.addListener, hn, nameAt_eq hn]
  obtain ⟨last, hexec, hchanged⟩ := execAll_changed
    (fun l : Listener => Lifecycle.invoke (.name (nameAt t l.node)) "addEventListener"
      [.string l.event, .raw l.handler])
    (fun l => Dom.only (base + l.node) (·.listen [(l.event, .code l.handler)]))
    (fun more q => q.scope = p.scope ∧ (∀ l ∈ more, l ∈ t.listeners) ∧
      ∀ id, q.hasElement id = p.hasElement id)
    (by
      rintro l more q ⟨hvars, hmore, hhas⟩
      obtain ⟨hrange, helement⟩ := hlisteners l (hmore l List.mem_cons_self)
      obtain ⟨n, hn⟩ : ∃ n, t.nodes[l.node]? = some n := ⟨_, List.getElem?_eq_getElem hrange⟩
      have hreceiver : q.scope (nameAt t l.node) = some (.node (base + l.node)) := by
        rw [hvars, nameAt_eq hn]
        exact hvariables l.node n hn
      obtain ⟨next, hnext, hchanged⟩ := exec_addEventListener q hreceiver
        ((hhas (base + l.node)).trans helement)
      refine ⟨next, hnext, hchanged, hchanged.scope_eq.trans hvars,
        fun other hother => hmore other (List.mem_cons_of_mem l hother), fun id => ?_⟩
      rw [hchanged.hasElement_eq (isElement_only _ (DomNode.isElement_listen _))]
      exact hhas id)
    t.listeners p ⟨rfl, fun _ h => h, fun _ => rfl⟩
  refine ⟨last, by rw [hstatements]; exact hexec, ?_⟩
  convert hchanged using 3 with place node
  rw [← foldl_only_under DomNode.listen DomNode.listen_nil
    (fun first second node => DomNode.listen_listen first second node)]
  simp [Table.handlers, List.foldl_map]

/-- A link to be made: the variables and the places of a parent and of a child. -/
structure Link where
  parentName : Text
  parent : Nat
  childName : Text
  child : Nat

/-- The statement that makes a link. -/
def Link.statement (link : Link) : Stmt :=
  Lifecycle.invoke (.name link.parentName) "appendChild" [.name link.childName]

/-- A page on which some links can be made: their variables hold the nodes, and no
node to be linked is inside another or occurs twice. -/
structure Ready (links : List Link) (p : Page) : Prop where
  parents : ∀ link ∈ links, p.scope link.parentName = some (.node link.parent) ∧
    p.hasElement link.parent = true
  children : ∀ link ∈ links, p.scope link.childName = some (.node link.child) ∧
    link.child < p.dom.size
  nodup : (links.map Link.child).Nodup
  detached : ∀ link ∈ links, ∀ node ∈ p.dom.nodes, link.child ∉ node.children

theorem Ready.step {link : Link} {more : List Link} {p p' : Page}
    (hready : Ready (link :: more) p)
    (hchanged : p.Changed (Dom.only link.parent (·.adopt [link.child])) p') :
    Ready more p' where
  parents other hother := by
    rw [hchanged.scope_eq,
      hchanged.hasElement_eq (isElement_only _ (DomNode.isElement_adopt _))]
    exact hready.parents other (List.mem_cons_of_mem link hother)
  children other hother := by
    rw [hchanged.scope_eq, hchanged.size_eq]
    exact hready.children other (List.mem_cons_of_mem link hother)
  nodup := (List.nodup_cons.mp hready.nodup).2
  detached other hother node hnode hmem := by
    obtain ⟨place, hplace⟩ := List.mem_iff_getElem?.mp hnode
    rw [hchanged.get?_eq] at hplace
    obtain ⟨old, hold, rfl⟩ := Option.map_eq_some_iff.mp hplace
    have hfree := hready.detached other (List.mem_cons_of_mem link hother) old
      (List.mem_of_getElem? hold)
    by_cases hparent : place = link.parent
    · simp only [Dom.only, hparent, ↓reduceIte] at hmem
      rcases DomNode.mem_children_adopt hmem with hthere | hnew
      · exact hfree hthere
      · have hne := (List.nodup_cons.mp hready.nodup).1
        rw [← List.mem_singleton.mp hnew] at hne
        exact hne (List.mem_map_of_mem hother)
    · simp only [Dom.only, hparent, ↓reduceIte] at hmem
      exact hfree hmem

/-- Making links gives every node its new children in order. -/
theorem execAll_links (links : List Link) (p : Page) (hready : Ready links p) :
    ∃ p', execAll (links.map Link.statement) p = some p' ∧
      p.Changed (fun place node => node.adopt (under place (links.map fun link =>
        (link.parent, link.child)))) p' := by
  obtain ⟨last, hexec, hchanged⟩ := execAll_changed Link.statement
    (fun link => Dom.only link.parent (·.adopt [link.child])) Ready
    (by
      intro link more q hq
      obtain ⟨hreceiver, helement⟩ := hq.parents link List.mem_cons_self
      obtain ⟨hargument, hchild⟩ := hq.children link List.mem_cons_self
      obtain ⟨next, hnext, hchanged⟩ := exec_appendChild q hreceiver helement hargument hchild
        (hq.detached link List.mem_cons_self)
      exact ⟨next, hnext, hchanged, hq.step hchanged⟩)
    links p hready
  refine ⟨last, hexec, ?_⟩
  convert hchanged using 3 with place node
  rw [← foldl_only_under DomNode.adopt DomNode.adopt_nil
    (fun first second node => DomNode.adopt_adopt first second node)]
  simp [List.foldl_map]

end Page

end Component
