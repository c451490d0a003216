/-
The life of a component on a page: what it adds when it is mounted keeps its shape
through any number of updates, and is taken out again when it is detached.
-/
import Component.Proofs.Page.Rendering
import Component.Proofs.Page.Updating

namespace Component

namespace Table

/-- The attributes of every element of a table have distinct names. -/
def AttributesDistinct (t : Table) : Prop :=
  ∀ n ∈ t.nodes, ∀ tagName attributes, n.kind = .element tagName attributes →
    (attributes.map Prod.fst).Nodup

/-- Every table of markup lists some views, with attributes of distinct names. -/
theorem exists_lists {markup : List Markup.Node} {t : Table} (h : ofMarkup markup = .ok t) :
    t.AttributesDistinct ∧ ∃ views, t.Lists views := by
  have hlists := lists_of_ofMarkup h
  refine ⟨fun n hn tagName attributes hkind => ?_, _, hlists⟩
  have hrow : n.row ∈ View.rowsOf none 0 (View.settledAll (Markup.viewsOf true markup)) := by
    rw [← hlists.rows_eq]
    exact List.mem_map_of_mem hn
  exact View.settledAll_attributes_nodup none 0 _ n.row hrow tagName attributes hkind

end Table

theorem Node.variable_ne_changes (n : Node) : n.variable ≠ ("changes" : Text) :=
  n.variable_ne ⟨'c', 'h', _, rfl, rfl⟩

namespace Page

open Code

/-- A page inside a call of `update`, whose argument goes by the name `changes`. -/
def enter (p : Page) (argument : Text → Option Value) : Page :=
  { p.assign "changes" .changes with changes := argument }

/-- The page after a call, when the argument is gone. -/
def leave (outside p : Page) : Page :=
  { p with
    scope := fun name => if name = "changes" then outside.scope name else p.scope name
    changes := outside.changes }

theorem enter_scope (p : Page) (argument : Text → Option Value) (name : Text) :
    (p.enter argument).scope name = if name = "changes" then some .changes else p.scope name := rfl

theorem leave_scope (outside p : Page) (name : Text) :
    (outside.leave p).scope name =
      if name = "changes" then outside.scope name else p.scope name := rfl

/-- The page after a call of `update` with an argument. -/
def callUpdate (m : Module) (argument : Text → Option Value) (p : Page) : Option Page :=
  (run m "update" (p.enter argument)).map p.leave

def callUpdates (m : Module) : List (Text → Option Value) → Page → Option Page
  | [], p => some p
  | argument :: more, p => (callUpdate m argument p).bind (callUpdates m more)

/-- The nodes of a page without what its texts show. -/
def shape (p : Page) : List DomNode := p.dom.nodes.map (·.showData .missing)

theorem shape_eq_of_get? {p p' : Page}
    (h : ∀ place : Nat, p'.dom.nodes[place]?.map (·.showData .missing) =
      p.dom.nodes[place]?.map (·.showData .missing)) : p'.shape = p.shape := by
  apply List.ext_getElem?
  intro place
  simpa [shape] using h place

theorem refreshed_shape (p : Page) (id : Nat) (name : Text) :
    (p.refreshed id name).shape = p.shape := by
  apply shape_eq_of_get?
  intro place
  rw [refreshed_get?, Option.map_map]
  congr 1
  funext node
  by_cases hplace : place = id
  · cases p.changes name <;> cases node <;> simp [Dom.only, hplace, DomNode.showData]
  · simp [Dom.only, hplace]

theorem refreshedAll_shape (place : Node → Nat) (bindings : List (Node × Text)) (p : Page) :
    (p.refreshedAll place bindings).shape = p.shape := by
  induction bindings generalizing p with
  | nil => rfl
  | cons b more ih => exact (ih _).trans (refreshed_shape p _ _)

/-- Where a node of a table stands on a page that had `base` nodes before. -/
def placeFrom (base : Nat) (n : Node) : Nat := base + n.index

/-- The component of a table stands on the page `p` as it was mounted on the page
`before`: its variables hold its nodes, its roots are the last children of the mount
point, and all else on the page is as before. -/
structure Standing (before : Page) (t : Table) (target : Nat) (p : Page) : Prop where
  holds : p.HoldsNodes t (placeFrom before.dom.size)
  target_eq : p.scope "target" = some (.node target)
  mounted : p.dom.nodes[target]? = before.dom.nodes[target]?.map
    (·.adopt (t.roots.map (placeFrom before.dom.size)))
  others : ∀ place < before.dom.size, place ≠ target →
    p.dom.nodes[place]? = before.dom.nodes[place]?

/-- Running `create` and `mount` makes the component stand on the page. -/
theorem exists_standing {t : Table} {views : List View} (h : t.Lists views)
    (hattributes : t.AttributesDistinct) (hfree : t.BindingsFree) {p : Page}
    {values : Text → Value} {target : Nat}
    (hvalues : ∀ binding ∈ t.bindings, p.scope binding.2 = some (values binding.2))
    (hdocument : p.scope "document" = some .document)
    (htarget : p.scope "target" = some (.node target)) (helement : p.hasElement target = true) :
    ∃ created mounted, execAll (Lifecycle.create t) p = some created ∧
      (∀ place < p.dom.size, created.dom.nodes[place]? = p.dom.nodes[place]?) ∧
      execAll (Lifecycle.mount t) created = some mounted ∧ Standing p t target mounted := by
  obtain ⟨created, hcreate, hcreated⟩ :=
    execAll_create h p values hattributes hfree hvalues hdocument
  obtain ⟨mounted, hmount, hchanged⟩ :=
    execAll_links _ created (hcreated.ready h htarget helement)
  rw [← mount_eq h] at hmount
  have hsize := lt_size_of_hasElement helement
  have hroots : (View.tops 0 views).map (p.dom.size + ·) = t.roots.map (placeFrom p.dom.size) := by
    rw [← h.roots_eq, List.map_map]
    rfl
  refine ⟨created, mounted, hcreate, hcreated.old, hmount, ⟨?_, ?_, ?_⟩, ?_, ?_, ?_⟩
  · intro n hn
    rw [hchanged.scope_eq]
    exact hcreated.locals n.index n (h.numbered.get?_of_mem hn)
  · intro n hn m hm hplace
    have hindex : n.index = m.index := Nat.add_left_cancel hplace
    have hsame : some n = some m := by
      rw [← h.numbered.get?_of_mem hn, ← h.numbered.get?_of_mem hm, hindex]
    exact Option.some.inj hsame
  · intro b hb
    obtain ⟨hmem, hkind⟩ := Table.kind_of_mem_bindings hb
    refine ⟨values b.2, ?_⟩
    rw [hchanged.get?_eq, placeFrom, hcreated.new _ b.1 (h.numbered.get?_of_mem hmem), hkind]
    rfl
  · rw [hchanged.scope_eq, hcreated.others _ fun hmem => ?_]
    · exact htarget
    · obtain ⟨n, _, hn⟩ := List.mem_map.mp hmem
      exact n.variable_ne_target hn
  · rw [hchanged.get?_eq, under_mountLinks_target t views hsize, hroots, hcreated.old target hsize]
  · intro place hplace hne
    rw [hchanged.get?_eq, under_mountLinks_old t views hplace hne, hcreated.old place hplace]
    simp

theorem HoldsNodes.congr {p p' : Page} {t : Table} {place : Node → Nat}
    (h : p.HoldsNodes t place) (hdom : p'.dom = p.dom)
    (hscope : ∀ n ∈ t.nodes, p'.scope n.variable = p.scope n.variable) :
    p'.HoldsNodes t place where
  scope_eq n hn := (hscope n hn).trans (h.scope_eq n hn)
  distinct := h.distinct
  texts b hb := by
    rw [hdom]
    exact h.texts b hb

theorem Standing.update {before p : Page} {t : Table} {target : Nat}
    (h : Standing before t target p) (ht : t.Numbered) (hsize : target < before.dom.size)
    (hfree : t.BindingsFree) (properties : List Property) (statements : List Statement)
    (argument : Text → Option Value) :
    ∃ updated, callUpdate (Lifecycle.assemble properties t statements) argument p = some updated ∧
      Standing before t target updated ∧ updated.shape = p.shape := by
  have hnames : ∀ b ∈ t.bindings,
      b.2 ≠ ("changes" : Text) ∧ b.2 ∉ t.nodes.map Node.variable :=
    fun b hb => ⟨(hfree b hb).2.2.2, (hfree b hb).1⟩
  have hinside : (p.enter argument).HoldsNodes t (placeFrom before.dom.size) := by
    refine h.holds.congr rfl fun n _ => ?_
    rw [enter_scope, if_neg n.variable_ne_changes]
  have hargument : (p.enter argument).scope "changes" = some .changes := by
    rw [enter_scope, if_pos rfl]
  have hrun := hinside.run_update_eq ht hnames hargument properties statements
  have hkept : ∀ place < before.dom.size,
      ((p.enter argument).refreshedAll (placeFrom before.dom.size) t.bindings).dom.nodes[place]? =
        p.dom.nodes[place]? := by
    intro place hplace
    apply refreshedAll_get?_of_ne
    intro b _ _ heq
    rw [placeFrom] at heq
    omega
  refine ⟨p.leave ((p.enter argument).refreshedAll (placeFrom before.dom.size) t.bindings),
    by rw [callUpdate, hrun, Option.map_some], ⟨?_, ?_, ?_, ?_⟩,
    refreshedAll_shape _ t.bindings (p.enter argument)⟩
  · refine (hinside.refreshedAll hnames).congr rfl fun n _ => ?_
    rw [leave_scope, if_neg n.variable_ne_changes]
  · have hother : ("target" : Text) ∉ t.bindings.map Prod.snd := by
      intro hmem
      obtain ⟨b, hb, hname⟩ := List.mem_map.mp hmem
      exact (hfree b hb).2.1 hname
    have hname : ("target" : Text) ≠ "changes" := by decide
    rw [leave_scope, if_neg hname, refreshedAll_scope, if_neg hother, enter_scope, if_neg hname]
    exact h.target_eq
  · exact (hkept target hsize).trans h.mounted
  · intro place hplace hne
    exact (hkept place hplace).trans (h.others place hplace hne)

/-- Any number of updates leave the component standing, in the shape it had. -/
theorem Standing.updates {before p : Page} {t : Table} {target : Nat}
    (h : Standing before t target p) (ht : t.Numbered) (hsize : target < before.dom.size)
    (hfree : t.BindingsFree) (properties : List Property) (statements : List Statement)
    (arguments : List (Text → Option Value)) :
    ∃ updated,
      callUpdates (Lifecycle.assemble properties t statements) arguments p = some updated ∧
      Standing before t target updated ∧ updated.shape = p.shape := by
  induction arguments generalizing p with
  | nil => exact ⟨p, rfl, h, rfl⟩
  | cons argument more ih =>
      obtain ⟨next, hnext, hstanding, hshape⟩ :=
        h.update ht hsize hfree properties statements argument
      obtain ⟨last, hlast, hlastStanding, hlastShape⟩ := ih hstanding
      refine ⟨last, ?_, hlastStanding, hlastShape.trans hshape⟩
      rw [callUpdates, hnext, Option.bind_some]
      exact hlast

/-- The statement that takes a root out of the mount point. -/
def removal (root : Node) : Stmt :=
  Lifecycle.invoke Lifecycle.target "removeChild" [.name root.variable]

theorem detach_eq {t : Table} (ht : t.Numbered) : Lifecycle.detach t = t.roots.map removal := by
  apply List.map_congr_left
  intro root hroot
  rw [ht.nodeName_eq (Table.mem_roots.1 hroot).1]
  rfl

theorem Dom.get?_remove (dom : Dom) (parent child place : Nat) :
    (dom.remove parent child).nodes[place]? =
      dom.nodes[place]?.map (only parent (·.release child) place) :=
  get?_edit _ _ _ _

theorem exec_removeChild (p : Page) {receiver argument : Text} {id child : Nat} {node : DomNode}
    (hreceiver : p.scope receiver = some (.node id))
    (hargument : p.scope argument = some (.node child))
    (hnode : p.dom.nodes[id]? = some node) (hchild : child ∈ node.children) :
    ∃ p', exec (Lifecycle.invoke (.name receiver) "removeChild" [.name argument]) p = some p' ∧
      p.Changed (Dom.only id (·.release child)) p' := by
  have hmethod : Method.named.lookup ("removeChild" : String).toList = some .removeChild := rfl
  have hvalues : evalAll [.name argument] p = some ([.node child], p) := by
    simp [evalAll, eval_name hargument]
  refine ⟨{ p with dom := p.dom.remove id child }, ?_, ⟨rfl, rfl, p.dom.get?_remove id child⟩⟩
  rw [exec_invoke hmethod (eval_name hreceiver) hvalues]
  simp [invoke, hnode, hchild]

/-- Taking the first of some last children out of the mount point, one after another,
leaves the children before them and those after them. -/
theorem execAll_removals {target : Nat} {tagName : Text} {attributes : List (Text × Text)}
    {listeners : List (Text × Value)} {children rest : List Nat} (place : Node → Nat)
    (removed : List Node) (p : Page) (htarget : p.scope "target" = some (.node target))
    (hscope : ∀ root ∈ removed, p.scope root.variable = some (.node (place root)))
    (hnew : ∀ root ∈ removed, place root ∉ children)
    (hnodup : (removed.map place ++ rest).Nodup)
    (hnode : p.dom.nodes[target]? =
      some (.element tagName attributes listeners (children ++ (removed.map place ++ rest)))) :
    ∃ p', execAll (removed.map removal) p = some p' ∧ p'.scope = p.scope ∧
      p'.dom.nodes[target]? =
        some (.element tagName attributes listeners (children ++ rest)) ∧
      ∀ id, id ≠ target → p'.dom.nodes[id]? = p.dom.nodes[id]? := by
  induction removed generalizing p with
  | nil => exact ⟨p, rfl, rfl, hnode, fun _ _ => rfl⟩
  | cons root more ih =>
      obtain ⟨next, hexec, hchanged⟩ := exec_removeChild p htarget
        (hscope root List.mem_cons_self) hnode (by simp [DomNode.children])
      rw [List.map_cons, List.cons_append, List.nodup_cons] at hnodup
      have hkept : ∀ ids : List Nat, place root ∉ ids → ids.filter (· ≠ place root) = ids := by
        intro ids hids
        apply List.filter_eq_self.mpr
        intro id hid
        exact decide_eq_true fun heq => hids (heq ▸ hid)
      have hnext : next.dom.nodes[target]? = some (.element tagName attributes listeners
          (children ++ (more.map place ++ rest))) := by
        rw [hchanged.get?_eq, hnode, Option.map_some, Dom.only, if_pos rfl, DomNode.release,
          List.map_cons, List.cons_append, List.filter_append,
          hkept children (hnew root List.mem_cons_self), List.filter_cons_of_neg (by simp),
          hkept _ hnodup.1]
      obtain ⟨last, hrest, hlastScope, hlastNode, hothers⟩ := ih next
        (by rw [hchanged.scope_eq]; exact htarget)
        (fun other hother => by
          rw [hchanged.scope_eq]
          exact hscope other (List.mem_cons_of_mem root hother))
        (fun other hother => hnew other (List.mem_cons_of_mem root hother))
        hnodup.2 hnext
      refine ⟨last, ?_, hlastScope.trans hchanged.scope_eq, hlastNode, ?_⟩
      · rw [List.map_cons, execAll, removal]
        exact (congrArg (·.bind (execAll (more.map removal))) hexec).trans hrest
      · intro id hid
        rw [hothers id hid, hchanged.get?_eq]
        cases p.dom.nodes[id]? <;> simp [Dom.only, hid]

/-- Detaching takes out the roots of a standing component one after another, each of
which is then a child of the mount point. -/
theorem Standing.removals {before p : Page} {t : Table} {views : List View} {target : Nat}
    (h : Standing before t target p) (hlists : t.Lists views) {tagName : Text}
    {attributes : List (Text × Text)} {listeners : List (Text × Value)} {children : List Nat}
    (helement : before.dom.nodes[target]? =
      some (.element tagName attributes listeners children)) (removed rest : List Node)
    (hroots : t.roots = removed ++ rest) :
    ∃ q, execAll (removed.map removal) p = some q ∧ q.scope = p.scope ∧
      q.dom.nodes[target]? = some (.element tagName attributes listeners
        (children ++ rest.map (placeFrom before.dom.size))) ∧
      ∀ id, id ≠ target → q.dom.nodes[id]? = p.dom.nodes[id]? := by
  have hmem : ∀ root ∈ removed, root ∈ t.nodes := by
    intro root hroot
    have hfound : root ∈ t.roots := hroots ▸ List.mem_append_left rest hroot
    exact (List.mem_filter.mp hfound).1
  apply execAll_removals (placeFrom before.dom.size) removed p h.target_eq
  · exact fun root hroot => h.holds.scope_eq root (hmem root hroot)
  · intro root _ hold
    have hbound := before.dom.closed _ (List.mem_of_getElem? helement) _ hold
    exact Nat.not_lt.mpr (Nat.le_add_right _ _) hbound
  · rw [← List.map_append, ← hroots]
    have hindices : (t.roots.map Node.index).Nodup := by
      rw [hlists.roots_eq]
      exact ((View.nodup_linksInside_tops 0 views).sublist (List.sublist_append_right _ _))
    have hplaces : ((t.roots.map Node.index).map (before.dom.size + ·)).Nodup :=
      hindices.map fun first second heq => Nat.add_left_cancel heq
    rwa [List.map_map] at hplaces
  · rw [h.mounted, helement, hroots, List.map_append]
    rfl

/-- A component that is created, mounted, updated any number of times and detached
leaves every node that was on the page before as it found it, the mount point and its
children included.  The updates change nothing but the data of texts, and every node
that is removed is at that moment a child of the mount point. -/
theorem lifetime_leaves_page_as_found (markup : List Markup.Node) (t : Table)
    (properties : List Property) (statements : List Statement) (p : Page)
    (values : Text → Value) (target : Nat) (tagName : Text) (attributes : List (Text × Text))
    (listeners : List (Text × Value)) (children : List Nat)
    (arguments : List (Text → Option Value)) (htable : Table.ofMarkup markup = .ok t)
    (hfree : t.BindingsFree)
    (hvalues : ∀ binding ∈ t.bindings, p.scope binding.2 = some (values binding.2))
    (hdocument : p.scope "document" = some .document)
    (htarget : p.scope "target" = some (.node target))
    (helement : p.dom.nodes[target]? =
      some (.element tagName attributes listeners children)) :
    ∃ module created mounted updated detached,
      Lifecycle.emit properties t statements = .ok module ∧
      run module "create" p = some created ∧ run module "mount" created = some mounted ∧
      callUpdates module arguments mounted = some updated ∧
      run module "detach" updated = some detached ∧
      updated.shape = mounted.shape ∧
      (∀ before statement after, Lifecycle.detach t = before ++ statement :: after →
        ∃ q root id node, statement = removal root ∧ execAll before updated = some q ∧
          q.scope "target" = some (.node target) ∧ q.scope root.variable = some (.node id) ∧
          q.dom.nodes[target]? = some node ∧ id ∈ node.children) ∧
      ∀ place < p.dom.size, created.dom.nodes[place]? = p.dom.nodes[place]? ∧
        detached.dom.nodes[place]? = p.dom.nodes[place]? := by
  obtain ⟨hdistinct, views, hlists⟩ := Table.exists_lists htable
  have hsize : target < p.dom.size := (List.getElem?_eq_some_iff.mp helement).1
  obtain ⟨created, mounted, hcreate, hold, hmount, hstanding⟩ := exists_standing hlists hdistinct
    hfree hvalues hdocument htarget (by simp [hasElement, helement, DomNode.isElement])
  obtain ⟨updated, hupdates, hupdated, hshape⟩ :=
    hstanding.updates hlists.numbered hsize hfree properties statements arguments
  obtain ⟨detached, hdetach, -, hrestored, hothers⟩ :=
    hupdated.removals hlists helement t.roots [] (List.append_nil _).symm
  have hemit : Lifecycle.emit properties t statements = .ok _ :=
    Lifecycle.emit_eq_ok_iff.2 ⟨hlists.isIndexed, rfl⟩
  have hbody := detach_eq hlists.numbered
  rw [← hbody] at hdetach
  refine ⟨_, created, mounted, updated, detached, hemit, hcreate, hmount, hupdates, hdetach,
    hshape, ?_, ?_⟩
  · rw [hbody]
    intro before statement after hbody
    obtain ⟨removed, rest, hroots, rfl, hrest⟩ := List.map_eq_append_iff.mp hbody
    obtain ⟨root, more, rfl, rfl, rfl⟩ := List.map_eq_cons_iff.mp hrest
    obtain ⟨q, hexec, hscope, hnode, -⟩ :=
      hupdated.removals hlists helement removed (root :: more) hroots
    have hroot : root ∈ t.nodes := by
      have hfound : root ∈ t.roots := by simp [hroots]
      exact (List.mem_filter.mp hfound).1
    refine ⟨q, root, placeFrom p.dom.size root, _, rfl, hexec, ?_, ?_, hnode,
      by simp [DomNode.children]⟩
    · rw [hscope]
      exact hupdated.target_eq
    · rw [hscope]
      exact hupdated.holds.scope_eq root hroot
  · intro place hplace
    refine ⟨hold place hplace, ?_⟩
    by_cases htargetPlace : place = target
    · rw [htargetPlace, hrestored, helement]
      simp
    · rw [hothers place htargetPlace, hupdated.others place hplace htargetPlace]

namespace LifetimeWitness

/-- Two roots, of which the first names an attribute twice, around a text of its own. -/
def markup : List Markup.Node :=
  [.element ⟨0, 24⟩ "p"
    [⟨⟨3, 8⟩, ⟨3, 5⟩, "id", .text ⟨6, 7⟩ "a"⟩, ⟨⟨9, 14⟩, ⟨9, 11⟩, "id", .text ⟨12, 13⟩ "b"⟩]
    [.text ⟨15, 20⟩ "n\x7bn\x7d" false] false,
    .text ⟨24, 27⟩ "\x7bn\x7d" false]

def table : Table :=
  ⟨[⟨0, none, .element "p" [("id", "b")], ⟨0, 24⟩⟩, ⟨1, some 0, .staticText "n", ⟨15, 16⟩⟩,
      ⟨2, some 0, .binding "n", ⟨16, 19⟩⟩, ⟨3, none, .binding "n", ⟨24, 27⟩⟩], []⟩

theorem body_closed :
    ∀ node ∈ [DomNode.element "body" [] [] [1], .text (.text "old")], ∀ child ∈ node.children,
      child < [DomNode.element "body" [] [] [1], .text (.text "old")].length := by
  decide

/-- A page with a body that holds a text. -/
def page : Page where
  dom := ⟨[.element "body" [] [] [1], .text (.text "old")], body_closed⟩
  scope name :=
    if name = "document" then some .document
    else if name = "target" then some (.node 0)
    else if name = "n" then some (.text "5")
    else none
  changes _ := none

/-- A change of the property that is shown, one of another name, and none. -/
def arguments : List (Text → Option Value) :=
  [fun name => if name = "n" then some (.text "6") else none,
    fun name => if name = "m" then some (.text "7") else none, fun _ => none]

end LifetimeWitness

open LifetimeWitness in
theorem lifetime_of_two_roots :
    ∃ module created mounted updated detached, Lifecycle.emit [] table [] = .ok module ∧
      run module "create" page = some created ∧ run module "mount" created = some mounted ∧
      callUpdates module arguments mounted = some updated ∧
      run module "detach" updated = some detached ∧
      updated.shape = mounted.shape ∧
      (∀ before statement after, Lifecycle.detach table = before ++ statement :: after →
        ∃ q root id node, statement = removal root ∧ execAll before updated = some q ∧
          q.scope "target" = some (.node 0) ∧ q.scope root.variable = some (.node id) ∧
          q.dom.nodes[0]? = some node ∧ id ∈ node.children) ∧
      ∀ place < page.dom.size, created.dom.nodes[place]? = page.dom.nodes[place]? ∧
        detached.dom.nodes[place]? = page.dom.nodes[place]? :=
  lifetime_leaves_page_as_found markup table [] [] page (fun _ => .text "5") 0 "body" [] [] [1]
    arguments (by decide +kernel) (by unfold Table.BindingsFree; decide +kernel)
    (by decide +kernel) rfl rfl rfl

end Page

end Component
