/-
What `update` does to a page: every binding whose property has changed shows the new
value, every other node and variable stays as it was, and a second run with the same
changes has nothing left to do.  This takes a table whose nodes stand at their indices:
the code refers to a node by the variable that stands at its index.
-/
import Component.Proofs.Page.MountOrder

namespace Component

theorem Table.kind_of_mem_bindings {t : Table} {b : Node × Text}
    (hb : b ∈ t.bindings) : b.1 ∈ t.nodes ∧ b.1.kind = .binding b.2 := by
  simp only [Table.bindings, List.mem_filterMap] at hb
  obtain ⟨n, hn, hfound⟩ := hb
  split at hfound
  case h_1 name hkind =>
    obtain rfl : (n, name) = b := by simpa using hfound
    exact ⟨hn, hkind⟩
  case h_2 => simp at hfound

namespace Page

open Code

theorem Dom.eq_of_nodes_eq {dom dom' : Dom} (h : dom.nodes = dom'.nodes) : dom = dom' := by
  cases dom
  cases dom'
  simpa using h

/-- The page after the binding at a place has been brought up to date. -/
def refreshed (p : Page) (id : Nat) (name : Text) : Page :=
  match p.changes name with
  | some value =>
      { p.assign name value with
        dom := p.dom.alter id (·.showData value) (DomNode.children_showData value) }
  | none => p

/-- The page after several bindings have been brought up to date. -/
def refreshedAll (place : Node → Nat) (bindings : List (Node × Text)) (p : Page) : Page :=
  bindings.foldl (fun p b => p.refreshed (place b.1) b.2) p

@[simp] theorem refreshed_changes (p : Page) (id : Nat) (name : Text) :
    (p.refreshed id name).changes = p.changes := by
  unfold refreshed
  split <;> rfl

theorem refreshed_scope (p : Page) (id : Nat) (name other : Text) :
    (p.refreshed id name).scope other =
      if other = name then (p.changes other).or (p.scope other) else p.scope other := by
  unfold refreshed
  split
  case h_1 value hvalue =>
    by_cases hname : other = name
    · simp [assign, hname, hvalue]
    · simp [assign, hname]
  case h_2 hnone =>
    by_cases hname : other = name
    · simp [hname, hnone]
    · simp [hname]

theorem refreshed_get? (p : Page) (id : Nat) (name : Text) (place : Nat) :
    (p.refreshed id name).dom.nodes[place]? = p.dom.nodes[place]?.map
      (Dom.only id (fun node => (p.changes name).elim node node.showData) place) := by
  unfold refreshed
  split
  case h_1 value hvalue =>
    rw [hvalue]
    exact Dom.get?_alter _ _ _ (DomNode.children_showData value) _
  case h_2 hnone =>
    have hsame : Dom.only id (fun node => (p.changes name).elim node node.showData) place =
        fun node => node := by
      funext node
      simp [Dom.only, hnone]
    rw [hsame]
    simp

@[simp] theorem refreshedAll_changes (place : Node → Nat) (bindings : List (Node × Text))
    (p : Page) : (p.refreshedAll place bindings).changes = p.changes := by
  induction bindings generalizing p with
  | nil => rfl
  | cons b more ih => exact (ih _).trans (refreshed_changes _ _ _)

theorem refreshedAll_scope (place : Node → Nat) (bindings : List (Node × Text)) (p : Page)
    (name : Text) : (p.refreshedAll place bindings).scope name =
      if name ∈ bindings.map Prod.snd then (p.changes name).or (p.scope name)
      else p.scope name := by
  induction bindings generalizing p with
  | nil => rfl
  | cons b more ih =>
      rw [refreshedAll, List.foldl_cons]
      refine (ih _).trans ?_
      rw [refreshed_changes, refreshed_scope]
      by_cases hfirst : name = b.2
      · have hmem : name ∈ (b :: more).map Prod.snd := by simp [hfirst]
        rw [if_pos hmem, if_pos hfirst]
        cases p.changes name <;> simp
      · rw [if_neg hfirst, List.map_cons]
        simp only [List.mem_cons, hfirst, false_or]

/-- A node that shows no changed property is left alone. -/
theorem refreshedAll_get?_of_ne (place : Node → Nat) (bindings : List (Node × Text)) (p : Page)
    (id : Nat) (hother : ∀ b ∈ bindings, (p.changes b.2).isSome = true → place b.1 ≠ id) :
    (p.refreshedAll place bindings).dom.nodes[id]? = p.dom.nodes[id]? := by
  induction bindings generalizing p with
  | nil => rfl
  | cons b more ih =>
      have hrest : ∀ b' ∈ more, ((p.refreshed (place b.1) b.2).changes b'.2).isSome = true →
          place b'.1 ≠ id := by
        intro b' hb' hchanged
        rw [refreshed_changes] at hchanged
        exact hother b' (List.mem_cons_of_mem b hb') hchanged
      have hfirst : Dom.only (place b.1) (fun node => (p.changes b.2).elim node node.showData) id =
          fun node => node := by
        funext node
        by_cases hplace : id = place b.1
        · cases hchange : p.changes b.2 with
          | none => simp [Dom.only]
          | some value =>
              exact absurd hplace.symm (hother b List.mem_cons_self (by simp [hchange]))
        · simp [Dom.only, hplace]
      rw [refreshedAll, List.foldl_cons]
      refine (ih _ hrest).trans ?_
      rw [refreshed_get?, hfirst]
      simp

/-- A text shows the new value of its property once one of its bindings has been
brought up to date, and from then on. -/
theorem refreshedAll_get?_of_eq (place : Node → Nat) (bindings : List (Node × Text)) (p : Page)
    (id : Nat) (value data : Value) (htext : p.dom.nodes[id]? = some (.text data))
    (hsame : ∀ b ∈ bindings, place b.1 = id → p.changes b.2 = some value)
    (hshown : data = value ∨ ∃ b ∈ bindings, place b.1 = id) :
    (p.refreshedAll place bindings).dom.nodes[id]? = some (.text value) := by
  induction bindings generalizing p data with
  | nil =>
      obtain rfl : data = value := by simpa using hshown
      exact htext
  | cons b more ih =>
      have hrest : ∀ b' ∈ more, place b'.1 = id →
          (p.refreshed (place b.1) b.2).changes b'.2 = some value := by
        intro b' hb' hplace
        rw [refreshed_changes]
        exact hsame b' (List.mem_cons_of_mem b hb') hplace
      rw [refreshedAll, List.foldl_cons]
      by_cases hplace : place b.1 = id
      · refine ih _ value ?_ hrest (Or.inl rfl)
        rw [refreshed_get?, htext, hsame b List.mem_cons_self hplace]
        simp [Dom.only, hplace, DomNode.showData]
      · have hne : ¬ id = place b.1 := fun heq => hplace heq.symm
        refine ih _ data ?_ hrest (hshown.imp_right ?_)
        · rw [refreshed_get?, htext]
          simp [Dom.only, hne]
        · rintro ⟨b', hb', hplace'⟩
          rcases List.mem_cons.mp hb' with rfl | hmore
          · exact absurd hplace' hplace
          · exact ⟨b', hmore, hplace'⟩

/-- Nothing happens to a binding that is up to date. -/
theorem refreshed_eq_self {p : Page} {id : Nat} {name : Text}
    (hcurrent : ∀ value, p.changes name = some value →
      p.scope name = some value ∧ p.dom.nodes[id]? = some (.text value)) :
    p.refreshed id name = p := by
  have hscope : (p.refreshed id name).scope = p.scope := by
    funext other
    rw [refreshed_scope]
    by_cases hname : other = name
    · cases hchange : p.changes name with
      | none => simp [hname, hchange]
      | some value => simp [hname, hchange, (hcurrent value hchange).1]
    · simp [hname]
  have hdom : (p.refreshed id name).dom = p.dom := by
    apply Dom.eq_of_nodes_eq
    apply List.ext_getElem?
    intro place
    rw [refreshed_get?]
    cases hchange : p.changes name with
    | none =>
        cases p.dom.nodes[place]? <;> simp [Dom.only]
    | some value =>
        by_cases hplace : place = id
        · simp [hplace, (hcurrent value hchange).2, Dom.only, DomNode.showData]
        · cases p.dom.nodes[place]? <;> simp [Dom.only, hplace]
  calc p.refreshed id name
      = ⟨(p.refreshed id name).dom, (p.refreshed id name).scope,
          (p.refreshed id name).changes⟩ := rfl
    _ = p := by rw [hscope, hdom, refreshed_changes]

theorem refreshedAll_eq_self {place : Node → Nat} {bindings : List (Node × Text)} {p : Page}
    (hcurrent : ∀ b ∈ bindings, ∀ value, p.changes b.2 = some value →
      p.scope b.2 = some value ∧ p.dom.nodes[place b.1]? = some (.text value)) :
    p.refreshedAll place bindings = p := by
  induction bindings with
  | nil => rfl
  | cons b more ih =>
      rw [refreshedAll, List.foldl_cons, refreshed_eq_self (hcurrent b List.mem_cons_self)]
      exact ih fun b' hb' => hcurrent b' (List.mem_cons_of_mem b hb')

/-- The statement for a binding brings it up to date. -/
theorem exec_refresh {p : Page} {node name : Text} {id : Nat}
    (hchanges : p.scope "changes" = some .changes)
    (hvariable : p.scope node = some (.node id)) (hname : name ≠ node) :
    exec (Lifecycle.refresh (.name node) name) p = some (p.refreshed id name) := by
  have hargument : eval Lifecycle.changes p = some (.changes, p) := eval_name hchanges
  cases hchange : p.changes name with
  | none =>
      simp [Lifecycle.refresh, exec, eval, hargument, hchange, refreshed]
  | some value =>
      have hnode : (p.assign name value).scope node = some (.node id) := by
        simp [assign, hvariable, Ne.symm hname]
      have hvalue : (p.assign name value).scope name = some value := by simp [assign]
      simp only [Lifecycle.refresh, exec, execAll, eval, hargument, hchange, property, refreshed,
        hnode, hvalue, setProperty, bind, Option.bind, Option.map, Option.isSome_some,
        Option.getD_some, ↓reduceIte]
      rfl

/-- The body of `update` brings all bindings up to date, one after another, as long as
no property is named like a variable that it needs. -/
theorem execAll_refresh (place : Node → Nat) (bindings : List (Node × Text)) (p : Page)
    (locals : List Text) (hchanges : p.scope "changes" = some .changes)
    (hvariables : ∀ b ∈ bindings, b.1.variable ∈ locals ∧
      p.scope b.1.variable = some (.node (place b.1)))
    (hfree : ∀ b ∈ bindings, b.2 ≠ ("changes" : Text) ∧ b.2 ∉ locals) :
    execAll (bindings.map fun b => Lifecycle.refresh (.name b.1.variable) b.2) p =
      some (p.refreshedAll place bindings) := by
  induction bindings generalizing p with
  | nil => rfl
  | cons b more ih =>
      obtain ⟨hlocal, hheld⟩ := hvariables b List.mem_cons_self
      obtain ⟨hnotChanges, hnotLocal⟩ := hfree b List.mem_cons_self
      have hname : ∀ name ∈ locals, ¬ name = b.2 := by
        rintro name hmem rfl
        exact hnotLocal hmem
      have hexec := exec_refresh hchanges hheld (Ne.symm (hname _ hlocal))
      rw [List.map_cons, execAll, hexec, Option.bind_some]
      apply ih
      · rw [refreshed_scope, if_neg (Ne.symm hnotChanges), hchanges]
      · intro b' hb'
        obtain ⟨hlocal', hheld'⟩ := hvariables b' (List.mem_cons_of_mem b hb')
        rw [refreshed_scope, if_neg (hname _ hlocal')]
        exact ⟨hlocal', hheld'⟩
      · intro b' hb'
        exact hfree b' (List.mem_cons_of_mem b hb')

/-- The variable of every node of a table holds a node of its own, and the variables of
bindings hold texts. -/
structure HoldsNodes (p : Page) (t : Table) (place : Node → Nat) : Prop where
  scope_eq : ∀ n ∈ t.nodes, p.scope n.variable = some (.node (place n))
  distinct : ∀ n ∈ t.nodes, ∀ m ∈ t.nodes, place n = place m → n = m
  texts : ∀ b ∈ t.bindings, ∃ data, p.dom.nodes[place b.1]? = some (.text data)

theorem run_update {t : Table} (ht : t.Numbered) (properties : List Property)
    (statements : List Statement) (p : Page) :
    run (Lifecycle.assemble properties t statements) "update" p =
      execAll (t.bindings.map fun b => Lifecycle.refresh (.name b.1.variable) b.2) p := by
  have hupdate : Lifecycle.update t =
      t.bindings.map fun b => Lifecycle.refresh (.name b.1.variable) b.2 := by
    apply List.map_congr_left
    intro b hb
    rw [← ht.nodeName_eq (Table.kind_of_mem_bindings hb).1]
  rw [← hupdate]
  rfl

section

variable {p : Page} {t : Table} {place : Node → Nat}

/-- What `update` comes to on a page whose variables hold the nodes of the table. -/
theorem HoldsNodes.run_update_eq (hholds : p.HoldsNodes t place) (ht : t.Numbered)
    (hfree : ∀ b ∈ t.bindings, b.2 ≠ ("changes" : Text) ∧ b.2 ∉ t.nodes.map Node.variable)
    (hchanges : p.scope "changes" = some .changes) (properties : List Property)
    (statements : List Statement) :
    run (Lifecycle.assemble properties t statements) "update" p =
      some (p.refreshedAll place t.bindings) := by
  rw [run_update ht]
  refine execAll_refresh place t.bindings p (t.nodes.map Node.variable) hchanges ?_ hfree
  intro b hb
  obtain ⟨hmem, _⟩ := Table.kind_of_mem_bindings hb
  exact ⟨List.mem_map_of_mem hmem, hholds.scope_eq b.1 hmem⟩

/-- Bindings at the same place are the same binding. -/
theorem HoldsNodes.name_eq (hholds : p.HoldsNodes t place) {b b' : Node × Text}
    (hb : b ∈ t.bindings) (hb' : b' ∈ t.bindings) (hplace : place b.1 = place b'.1) :
    b.2 = b'.2 := by
  obtain ⟨hmem, hkind⟩ := Table.kind_of_mem_bindings hb
  obtain ⟨hmem', hkind'⟩ := Table.kind_of_mem_bindings hb'
  rw [hholds.distinct b.1 hmem b'.1 hmem' hplace, hkind'] at hkind
  exact (NodeKind.binding.inj hkind).symm

theorem HoldsNodes.shows_change (hholds : p.HoldsNodes t place) {b : Node × Text}
    (hb : b ∈ t.bindings) {value : Value} (hchange : p.changes b.2 = some value) :
    (p.refreshedAll place t.bindings).dom.nodes[place b.1]? = some (.text value) := by
  obtain ⟨data, htext⟩ := hholds.texts b hb
  refine refreshedAll_get?_of_eq place t.bindings p _ value data htext ?_ (Or.inr ⟨b, hb, rfl⟩)
  intro b' hb' hplace
  rw [hholds.name_eq hb' hb hplace]
  exact hchange

theorem scope_refreshedAll_of_change {b : Node × Text} (hb : b ∈ t.bindings) {value : Value}
    (hchange : p.changes b.2 = some value) :
    (p.refreshedAll place t.bindings).scope b.2 = some value := by
  rw [refreshedAll_scope, if_pos (List.mem_map_of_mem hb), hchange]
  rfl

/-- The variables still hold their nodes after an update. -/
theorem HoldsNodes.refreshedAll (hholds : p.HoldsNodes t place)
    (hfree : ∀ b ∈ t.bindings, b.2 ≠ ("changes" : Text) ∧ b.2 ∉ t.nodes.map Node.variable) :
    (p.refreshedAll place t.bindings).HoldsNodes t place where
  scope_eq n hn := by
    have hname : n.variable ∉ t.bindings.map Prod.snd := by
      rintro hmem
      obtain ⟨b, hb, hname⟩ := List.mem_map.mp hmem
      exact (hfree b hb).2 (hname ▸ List.mem_map_of_mem hn)
    rw [refreshedAll_scope, if_neg hname]
    exact hholds.scope_eq n hn
  distinct := hholds.distinct
  texts b hb := by
    cases hchange : p.changes b.2 with
    | some value => exact ⟨value, hholds.shows_change hb hchange⟩
    | none =>
        rw [refreshedAll_get?_of_ne]
        · exact hholds.texts b hb
        · intro b' hb' hchanged hplace
          rw [hholds.name_eq hb' hb hplace, hchange] at hchanged
          contradiction

/-- A table whose nodes stand at their indices has code.  Running its `update` gives every
binding whose property has changed its new value, and the variable of the property as well.
All other nodes and variables stay as they were, and running it again with the same changes
leaves the whole page as it is. -/
theorem update_selective_and_complete (t : Table) (properties : List Property)
    (statements : List Statement) (p : Page) (place : Node → Nat) (ht : t.Numbered)
    (hlisteners : ∀ l ∈ t.listeners, l.node < t.nodes.length)
    (hfree : ∀ b ∈ t.bindings, b.2 ≠ ("changes" : Text) ∧ b.2 ∉ t.nodes.map Node.variable)
    (hchanges : p.scope "changes" = some .changes) (hholds : p.HoldsNodes t place) :
    ∃ module updated, Lifecycle.emit properties t statements = .ok module ∧
      run module "update" p = some updated ∧
      (∀ b ∈ t.bindings, ∀ value, p.changes b.2 = some value →
        updated.dom.nodes[place b.1]? = some (.text value) ∧
          updated.scope b.2 = some value) ∧
      (∀ id, (∀ b ∈ t.bindings, (p.changes b.2).isSome = true → place b.1 ≠ id) →
        updated.dom.nodes[id]? = p.dom.nodes[id]?) ∧
      (∀ name, (∀ b ∈ t.bindings, (p.changes b.2).isSome = true → b.2 ≠ name) →
        updated.scope name = p.scope name) ∧
      updated.changes = p.changes ∧ run module "update" updated = some updated := by
  have hcurrent : ∀ b ∈ t.bindings, ∀ value, p.changes b.2 = some value →
      (p.refreshedAll place t.bindings).dom.nodes[place b.1]? = some (.text value) ∧
        (p.refreshedAll place t.bindings).scope b.2 = some value :=
    fun b hb value hchange =>
      ⟨hholds.shows_change hb hchange, scope_refreshedAll_of_change hb hchange⟩
  have hscope : ∀ name, (∀ b ∈ t.bindings, (p.changes b.2).isSome = true → b.2 ≠ name) →
      (p.refreshedAll place t.bindings).scope name = p.scope name := by
    intro name hother
    rw [refreshedAll_scope]
    split
    case isTrue hmem =>
      obtain ⟨b, hb, rfl⟩ := List.mem_map.mp hmem
      have hnone : p.changes b.2 = none := by
        by_contra hsome
        exact hother b hb (Option.isSome_iff_ne_none.mpr hsome) rfl
      rw [hnone, Option.none_or]
    case isFalse => rfl
  have hemit : Lifecycle.emit properties t statements = .ok _ :=
    Lifecycle.emit_eq_ok_iff.2 ⟨Lifecycle.isIndexed_of_numbered ht hlisteners, rfl⟩
  refine ⟨_, p.refreshedAll place t.bindings, hemit, hholds.run_update_eq ht hfree hchanges _ _,
    hcurrent, fun id => refreshedAll_get?_of_ne place t.bindings p id, hscope,
    refreshedAll_changes _ _ _, ?_⟩
  have hchanges' : (p.refreshedAll place t.bindings).scope "changes" = some .changes := by
    rw [hscope "changes" fun b hb _ => (hfree b hb).1]
    exact hchanges
  rw [(hholds.refreshedAll hfree).run_update_eq ht hfree hchanges']
  congr 1
  apply refreshedAll_eq_self
  intro b hb value hchange
  rw [refreshedAll_changes] at hchange
  exact (hcurrent b hb value hchange).symm

end

namespace UpdatingWitness

/-- A paragraph that shows one property twice and another once. -/
def table : Table :=
  ⟨[⟨0, none, .element "p" [], ⟨0, 16⟩⟩, ⟨1, some 0, .binding "n", ⟨3, 6⟩⟩,
      ⟨2, some 0, .binding "m", ⟨6, 9⟩⟩, ⟨3, some 0, .binding "n", ⟨9, 12⟩⟩], []⟩

/-- The page of a component that is told of a new value for one property and for a name
that it does not show. -/
def page : Page where
  dom := ⟨[.element "p" [] [] [1, 2, 3], .text (.text "1"), .text (.text "2"),
    .text (.text "1")], by decide⟩
  scope name :=
    if name = "changes" then some .changes
    else if name = "n" then some (.text "1")
    else if name = "m" then some (.text "2")
    else (table.nodes.find? (·.variable = name)).map fun n => .node n.index
  changes name := if name = "n" ∨ name = "other" then some (.text "5") else none

theorem page_holdsNodes : page.HoldsNodes table Node.index where
  scope_eq := by decide
  distinct := by decide
  texts := by
    simp only [Table.bindings, table, page, List.filterMap_cons, List.filterMap_nil,
      List.forall_mem_cons]
    exact ⟨⟨_, rfl⟩, ⟨_, rfl⟩, ⟨_, rfl⟩, by simp⟩

/-- Two bindings that stand at each other's indices. -/
def swapped : Table :=
  ⟨[⟨1, none, .binding "n", ⟨0, 3⟩⟩, ⟨0, none, .binding "m", ⟨3, 6⟩⟩], []⟩

/-- A binding inside a node that is missing. -/
def dangling : Table := ⟨[⟨0, some 1, .binding "m", ⟨0, 3⟩⟩], []⟩

/-- A page whose first text shows one property and whose second text shows another; the
first property has a new value. -/
def texts : Page where
  dom := ⟨[.text (.text "1"), .text (.text "2")], by decide⟩
  scope name :=
    if name = "changes" then some .changes
    else if name = "b1" then some (.node 0)
    else if name = "b0" then some (.node 1)
    else none
  changes name := if name = "n" then some (.text "5") else none

def placed (n : Node) : Nat := 1 - n.index

theorem texts_holdsNodes_swapped : texts.HoldsNodes swapped placed where
  scope_eq := by decide
  distinct := by decide
  texts := by
    simp only [Table.bindings, swapped, texts, List.filterMap_cons, List.filterMap_nil,
      List.forall_mem_cons]
    exact ⟨⟨_, rfl⟩, ⟨_, rfl⟩, by simp⟩

theorem texts_holdsNodes_dangling : texts.HoldsNodes dangling placed where
  scope_eq := by decide
  distinct := by decide
  texts := by
    simp only [Table.bindings, dangling, texts, List.filterMap_cons, List.filterMap_nil,
      List.forall_mem_cons]
    exact ⟨⟨_, rfl⟩, by simp⟩

end UpdatingWitness

open UpdatingWitness in
theorem update_shows_new_value_twice :
    ∃ module updated, Lifecycle.emit [] table [] = .ok module ∧
      run module "update" page = some updated ∧
      (∀ b ∈ table.bindings, ∀ value, page.changes b.2 = some value →
        updated.dom.nodes[b.1.index]? = some (.text value) ∧
          updated.scope b.2 = some value) ∧
      (∀ id, (∀ b ∈ table.bindings, (page.changes b.2).isSome = true → b.1.index ≠ id) →
        updated.dom.nodes[id]? = page.dom.nodes[id]?) ∧
      (∀ name, (∀ b ∈ table.bindings, (page.changes b.2).isSome = true → b.2 ≠ name) →
        updated.scope name = page.scope name) ∧
      updated.changes = page.changes ∧ run module "update" updated = some updated :=
  update_selective_and_complete table [] [] page Node.index (by decide) (by decide) (by decide)
    rfl page_holdsNodes

open UpdatingWitness in
/-- A table need not have code, and if its nodes do not stand at their indices, `update`
gives the new value of a property to a node that shows another. -/
theorem misplaced_nodes_lose_update :
    ((∀ b ∈ dangling.bindings, b.2 ≠ ("changes" : Text) ∧
        b.2 ∉ dangling.nodes.map Node.variable) ∧
      texts.HoldsNodes dangling placed ∧ Lifecycle.emit [] dangling [] = .error .crashed) ∧
    (∀ b ∈ swapped.bindings, b.2 ≠ ("changes" : Text) ∧
        b.2 ∉ swapped.nodes.map Node.variable) ∧
      texts.scope "changes" = some .changes ∧ texts.HoldsNodes swapped placed ∧
      ∃ b ∈ swapped.bindings, texts.changes b.2 = some (.text "5") ∧
        ∃ module updated, Lifecycle.emit [] swapped [] = .ok module ∧
          run module "update" texts = some updated ∧
          updated.dom.nodes[placed b.1]? = some (.text (.text "1")) ∧
          updated.dom.nodes[1 - placed b.1]? = some (.text (.text "5")) := by
  refine ⟨⟨by decide, texts_holdsNodes_dangling, rfl⟩, by decide, rfl,
    texts_holdsNodes_swapped, (_, "n"), List.mem_cons_self, rfl, ?_⟩
  exact ⟨_, _, rfl, rfl, rfl, rfl⟩

end Page

end Component
