/-
A mounted component shows its markup.  The statements of `create`, then those of
`mount`, put what the markup shows at the end of the mount point.
-/
import Component.Proofs.Page.MountOrder
import Mathlib.Data.List.Nodup

namespace Component

namespace View

mutual

theorem map_index_rows (parent : Option Nat) (start : Nat) (v : View) :
    (v.rows parent start).map (·.1) = List.range' start v.size := by
  cases v with
  | static text => rfl
  | binding name => rfl
  | element tagName attributes listeners children =>
      rw [rows, List.map_cons, map_index_rowsOf, size, Nat.add_comm 1, List.range'_succ]

theorem map_index_rowsOf (parent : Option Nat) (start : Nat) (views : List View) :
    (rowsOf parent start views).map (·.1) = List.range' start (totalSize views) := by
  cases views with
  | nil => rfl
  | cons v more =>
      rw [rowsOf, List.map_append, map_index_rows, map_index_rowsOf, totalSize,
        ← List.range'_append_1]

end

mutual

/-- Only elements have listeners. -/
theorem mem_handlers_element (parent : Option Nat) (start : Nat) (v : View) :
    ∀ handler ∈ v.handlers start, ∃ own tagName attributes,
      (handler.1, own, .element tagName attributes) ∈ v.rows parent start := by
  intro handler hhandler
  cases v with
  | static text => simp [handlers] at hhandler
  | binding name => simp [handlers] at hhandler
  | element tagName attributes listeners children =>
      simp only [handlers, List.mem_append, List.mem_map] at hhandler
      rcases hhandler with ⟨listener, _, rfl⟩ | hinner
      · exact ⟨parent, tagName, attributes, List.mem_cons_self⟩
      · obtain ⟨own, tagName', attributes', hrow⟩ :=
          mem_handlersOf_element (some start) (start + 1) children handler hinner
        exact ⟨own, tagName', attributes', List.mem_cons_of_mem _ hrow⟩

theorem mem_handlersOf_element (parent : Option Nat) (start : Nat) (views : List View) :
    ∀ handler ∈ handlersOf start views, ∃ own tagName attributes,
      (handler.1, own, .element tagName attributes) ∈ rowsOf parent start views := by
  intro handler hhandler
  cases views with
  | nil => simp [handlersOf] at hhandler
  | cons v more =>
      simp only [handlersOf, List.mem_append] at hhandler
      rcases hhandler with hown | hmore
      · obtain ⟨own, tagName, attributes, hrow⟩ :=
          mem_handlers_element parent start v handler hown
        exact ⟨own, tagName, attributes, List.mem_append.mpr (Or.inl hrow)⟩
      · obtain ⟨own, tagName, attributes, hrow⟩ :=
          mem_handlersOf_element parent (start + v.size) more handler hmore
        exact ⟨own, tagName, attributes, List.mem_append.mpr (Or.inr hrow)⟩

end

mutual

/-- Only elements have children. -/
theorem mem_links_element (parent : Option Nat) (start : Nat) (v : View) :
    ∀ link ∈ v.links start, ∃ own tagName attributes,
      (link.1, own, .element tagName attributes) ∈ v.rows parent start := by
  intro link hlink
  cases v with
  | static text => simp [links] at hlink
  | binding name => simp [links] at hlink
  | element tagName attributes listeners children =>
      rcases mem_linksOf_element start (start + 1) children link hlink with heq | hinner
      · exact ⟨parent, tagName, attributes, by rw [heq]; exact List.mem_cons_self⟩
      · obtain ⟨own, tagName', attributes', hrow⟩ := hinner
        exact ⟨own, tagName', attributes', List.mem_cons_of_mem _ hrow⟩

theorem mem_linksOf_element (parent start : Nat) (views : List View) :
    ∀ link ∈ linksOf parent start views, link.1 = parent ∨ ∃ own tagName attributes,
      (link.1, own, .element tagName attributes) ∈ rowsOf (some parent) start views := by
  intro link hlink
  cases views with
  | nil => simp [linksOf] at hlink
  | cons v more =>
      simp only [linksOf, List.mem_append, List.mem_cons] at hlink
      rcases hlink with hinner | rfl | hmore
      · obtain ⟨own, tagName, attributes, hrow⟩ :=
          mem_links_element (some parent) start v link hinner
        exact Or.inr ⟨own, tagName, attributes, List.mem_append.mpr (Or.inl hrow)⟩
      · exact Or.inl rfl
      · rcases mem_linksOf_element parent (start + v.size) more link hmore with heq | hrow
        · exact Or.inl heq
        · obtain ⟨own, tagName, attributes, hrow⟩ := hrow
          exact Or.inr ⟨own, tagName, attributes, List.mem_append.mpr (Or.inr hrow)⟩

end

theorem mem_linksInside_element (start : Nat) (views : List View) :
    ∀ link ∈ linksInside start views, ∃ own tagName attributes,
      (link.1, own, .element tagName attributes) ∈ rowsOf none start views := by
  induction views generalizing start with
  | nil => simp [linksInside]
  | cons v more ih =>
      intro link hlink
      simp only [linksInside, List.mem_append] at hlink
      rcases hlink with hinner | hmore
      · obtain ⟨own, tagName, attributes, hrow⟩ := mem_links_element none start v link hinner
        exact ⟨own, tagName, attributes, List.mem_append.mpr (Or.inl hrow)⟩
      · obtain ⟨own, tagName, attributes, hrow⟩ := ih (start + v.size) link hmore
        exact ⟨own, tagName, attributes, List.mem_append.mpr (Or.inr hrow)⟩

theorem under_linksOf_self (parent start : Nat) (hparent : parent < start) (views : List View) :
    under parent (linksOf parent start views) = tops start views := by
  induction views generalizing start with
  | nil => rfl
  | cons v more ih =>
      have hinner : under parent (v.links start) = [] := by
        apply under_eq_nil
        intro link hlink
        have hrange := mem_links_range start v link hlink
        omega
      have hmore := ih (start + v.size) (by omega)
      rw [linksOf, under_append, hinner, List.nil_append, tops, ← hmore]
      simp [under]

theorem under_linksOf_other {parent i : Nat} (hne : i ≠ parent) (start : Nat)
    (views : List View) :
    under i (linksOf parent start views) = under i (linksInside start views) := by
  induction views generalizing start with
  | nil => rfl
  | cons v more ih =>
      have hne' : ¬ parent = i := fun h => hne h.symm
      rw [linksOf, linksInside, under_append, under_append, ← ih (start + v.size)]
      simp [under, hne']

end View

namespace Table

/-- The rows of a table are those of some views. -/
structure Lists (t : Table) (views : List View) : Prop where
  rows_eq : t.rows = View.rowsOf none 0 views
  handlers_eq : t.handlers = View.handlersOf 0 views

theorem lists_of_ofMarkup {markup : List Markup.Node} {t : Table} (h : ofMarkup markup = .ok t) :
    t.Lists (View.settledAll (Markup.viewsOf true markup)) :=
  ⟨(ofMarkup_extends h).1, (ofMarkup_extends h).2⟩

theorem Lists.map_index {t : Table} {views : List View} (h : t.Lists views) :
    t.nodes.map Node.index = List.range' 0 (View.totalSize views) := by
  rw [← View.map_index_rowsOf none, ← h.rows_eq, rows, List.map_map]
  rfl

theorem Lists.index_eq {t : Table} {views : List View} (h : t.Lists views) {i : Nat} {n : Node}
    (hn : t.nodes[i]? = some n) : n.index = i := by
  have hget : (t.nodes.map Node.index)[i]? = some n.index := by
    rw [List.getElem?_map, hn]
    rfl
  rw [h.map_index] at hget
  obtain ⟨hlt, heq⟩ := List.getElem?_eq_some_iff.mp hget
  simpa using heq.symm

theorem Lists.length_eq {t : Table} {views : List View} (h : t.Lists views) :
    t.nodes.length = View.totalSize views := by
  rw [← length_rows, h.rows_eq, View.length_rowsOf]

theorem Lists.numbered {t : Table} {views : List View} (h : t.Lists views) : t.Numbered where
  index_eq _ _ hn := h.index_eq hn
  parent_lt n hn p hp := by
    have hrow : n.row ∈ View.rowsOf none 0 views := h.rows_eq ▸ List.mem_map_of_mem hn
    obtain ⟨-, hnone | ⟨i, hi, -, hlt⟩⟩ := View.mem_rowsOf_range none 0 views n.row hrow
    · rw [Node.row, hp] at hnone
      cases hnone
    · rw [Node.row, hp, Option.some.injEq] at hi
      rwa [hi, h.length_eq, ← Nat.zero_add (View.totalSize views)]

theorem Lists.exists_of_mem_rows {t : Table} {views : List View} (h : t.Lists views) {row : Row}
    (hrow : row ∈ View.rowsOf none 0 views) : ∃ n, t.nodes[row.1]? = some n ∧ n.row = row := by
  rw [← h.rows_eq, rows] at hrow
  obtain ⟨n, hn, rfl⟩ := List.mem_map.mp hrow
  exact ⟨n, h.numbered.get?_of_mem hn, rfl⟩

/-- Listeners belong to elements. -/
theorem Lists.listener_element {t : Table} {views : List View} (h : t.Lists views) {l : Listener}
    (hl : l ∈ t.listeners) : ∃ n tagName attributes, t.nodes[l.node]? = some n ∧
      n.kind = .element tagName attributes := by
  have hhandler : (l.node, l.event, l.handler) ∈ View.handlersOf 0 views := by
    rw [← h.handlers_eq]
    exact List.mem_map_of_mem hl
  obtain ⟨own, tagName, attributes, hrow⟩ := View.mem_handlersOf_element none 0 views _ hhandler
  obtain ⟨n, hn, hrow⟩ := h.exists_of_mem_rows hrow
  exact ⟨n, tagName, attributes, hn, congrArg (·.2.2) hrow⟩

theorem Lists.isIndexed {t : Table} {views : List View} (h : t.Lists views) :
    Lifecycle.isIndexed t = true := by
  refine Lifecycle.isIndexed_of_numbered h.numbered fun l hl => ?_
  obtain ⟨n, _, _, hn, _⟩ := h.listener_element hl
  exact (List.getElem?_eq_some_iff.mp hn).1

theorem rowsUnder_rows (t : Table) (index : Nat) :
    rowsUnder index t.rows = (t.childrenOf index).map Node.index := by
  have hsame : (fun row : Row => decide (row.2.1 = some index)) ∘ Node.row =
      fun n => n.parent == some index := by
    funext n
    rw [Bool.eq_iff_iff]
    simp only [Function.comp, Node.row, beq_iff_eq]
    exact decide_eq_true_iff
  rw [rowsUnder, rows, List.filter_map, List.map_map, hsame]
  rfl

theorem Lists.roots_eq {t : Table} {views : List View} (h : t.Lists views) :
    t.roots.map Node.index = View.tops 0 views := by
  rw [← View.roots_rowsOf, ← h.rows_eq, rows, List.filter_map, List.map_map]
  rfl

theorem Lists.parentsAgree {t : Table} {views : List View} (h : t.Lists views) :
    t.ParentsAgree none 0 views := by
  intro i _ _
  rw [h.rows_eq]

end Table

namespace Page

open Code

mutual

/-- The node at a place shows a view, with the given values of properties. -/
def Shows (dom : Dom) (values : Text → Value) (id : Nat) : View → Prop
  | .element tagName attributes listeners children =>
      ∃ ids, dom.nodes[id]? = some (.element tagName attributes
          (listeners.map fun l => (l.1, .code l.2)) ids) ∧
        ShowsAll dom values ids children
  | .static text => dom.nodes[id]? = some (.text (.text text))
  | .binding name => dom.nodes[id]? = some (.text (values name))

/-- The nodes at several places show several views, in order. -/
def ShowsAll (dom : Dom) (values : Text → Value) (ids : List Nat) : List View → Prop
  | [] => ids = []
  | v :: more =>
      ∃ id rest, ids = id :: rest ∧ Shows dom values id v ∧ ShowsAll dom values rest more

end

/-- The link of two nodes of a table that stand on the page from `base` on. -/
def innerLink (t : Table) (base : Nat) (link : Nat × Nat) : Link :=
  ⟨nameAt t link.1, base + link.1, nameAt t link.2, base + link.2⟩

/-- The link of a root to the mount point. -/
def rootLink (t : Table) (base target : Nat) (root : Nat) : Link :=
  ⟨"target", target, nameAt t root, base + root⟩

@[simp] theorem rootLink_parent (t : Table) (base target root : Nat) :
    (rootLink t base target root).parent = target := rfl

@[simp] theorem rootLink_child (t : Table) (base target root : Nat) :
    (rootLink t base target root).child = base + root := rfl

/-- All links that `mount` makes, in order. -/
def mountLinks (t : Table) (views : List View) (base target : Nat) : List Link :=
  (View.linksInside 0 views).map (innerLink t base) ++
    (View.tops 0 views).map (rootLink t base target)

theorem attach_eq {t : Table} {views : List View} (h : t.Lists views) (base depth : Nat)
    (n : Node) (hn : n ∈ t.nodes) :
    Lifecycle.attach t depth n =
      ((t.linksFrom depth n.index).map (innerLink t base)).map Link.statement := by
  induction depth generalizing n with
  | zero => rfl
  | succ depth ih =>
      rw [Lifecycle.attach, Table.linksFrom, Table.rowsUnder_rows, List.flatMap_map,
        List.map_flatMap, List.map_flatMap]
      apply List.flatMap_congr
      intro child hchild
      have hmem : child ∈ t.nodes := (List.mem_filter.mp hchild).1
      rw [ih child hmem, List.map_append, List.map_append, h.numbered.nodeName_eq hn,
        h.numbered.nodeName_eq hmem]
      simp [innerLink, Link.statement, Lifecycle.append, nameAt_eq (h.numbered.get?_of_mem hn),
        nameAt_eq (h.numbered.get?_of_mem hmem)]

theorem statement_rootLink {t : Table} {index : Nat} {root : Node}
    (h : t.nodes[index]? = some root) (base target : Nat) :
    (rootLink t base target index).statement =
      Lifecycle.append Lifecycle.target (.name root.variable) := by
  unfold rootLink
  rewrite [nameAt_eq h]
  exact rfl

/-- The body of `mount` links every node to its parent, then the roots to the mount
point. -/
theorem mount_eq {t : Table} {views : List View} (h : t.Lists views) (base target : Nat) :
    Lifecycle.mount t = (mountLinks t views base target).map Link.statement := by
  have hmem : ∀ root ∈ t.roots, root ∈ t.nodes := fun root hroot => (List.mem_filter.mp hroot).1
  have hinner : t.roots.flatMap (Lifecycle.attach t t.nodes.length) =
      ((View.linksInside 0 views).map (innerLink t base)).map Link.statement := by
    rw [← Table.linksFrom_eq_linksInside t views (Nat.le_of_eq h.length_eq.symm) h.parentsAgree,
      ← h.roots_eq, List.flatMap_map, List.map_flatMap, List.map_flatMap]
    apply List.flatMap_congr
    intro root hroot
    exact attach_eq h base t.nodes.length root (hmem root hroot)
  have houter : t.roots.map (fun root =>
        Lifecycle.append Lifecycle.target (Lifecycle.nodeName t root)) =
      ((View.tops 0 views).map (rootLink t base target)).map Link.statement := by
    rw [← h.roots_eq, List.map_map, List.map_map]
    apply List.map_congr_left
    intro root hroot
    rw [h.numbered.nodeName_eq (hmem root hroot)]
    exact (statement_rootLink (h.numbered.get?_of_mem (hmem root hroot)) base target).symm
  rw [Lifecycle.mount, hinner, houter, ← List.map_append]
  rfl

/-- What the code makes of a row, given all listeners and all links. -/
def built (values : Text → Value) (base : Nat) (handlers : List (Nat × Text × Text))
    (links : List (Nat × Nat)) (row : Row) : DomNode :=
  ((born values row.2.2).listen
    ((under row.1 handlers).map fun handler => (handler.1, .code handler.2))).adopt
      ((under row.1 links).map (base + ·))

mutual

/-- Where the nodes of a view are built from the listeners and links of the view,
its first node shows the view. -/
theorem shows_of_built (dom : Dom) (values : Text → Value) (base : Nat)
    (handlers : List (Nat × Text × Text)) (links : List (Nat × Nat)) (v : View)
    (parent : Option Nat) (start : Nat)
    (hrows : ∀ row ∈ v.rows parent start,
      dom.nodes[base + row.1]? = some (built values base handlers links row))
    (hhandlers : ∀ i, start ≤ i → i < start + v.size →
      under i handlers = under i (v.handlers start))
    (hlinks : ∀ i, start ≤ i → i < start + v.size → under i links = under i (v.links start)) :
    Shows dom values (base + start) v := by
  cases v with
  | static text =>
      have hrow := hrows _ List.mem_cons_self
      simpa [Shows, built, born, DomNode.listen, DomNode.adopt] using hrow
  | binding name =>
      have hrow := hrows _ List.mem_cons_self
      simpa [Shows, built, born, DomNode.listen, DomNode.adopt] using hrow
  | element tagName attributes listeners children =>
      simp only [View.size] at hhandlers hlinks
      have hown := hhandlers start (Nat.le_refl _) (by omega)
      have hinner := hlinks start (Nat.le_refl _) (by omega)
      have hlisteners : under start (View.handlersOf (start + 1) children) = [] := by
        apply under_eq_nil
        intro handler hhandler
        have hrange := View.mem_handlersOf_range (start + 1) children handler hhandler
        omega
      rw [View.handlers, under_append, under_map_const, hlisteners, List.append_nil] at hown
      rw [View.links] at hinner
      have hrow := hrows _ List.mem_cons_self
      refine ⟨(under start links).map (base + ·), ?_, ?_⟩
      · simpa [built, born, DomNode.listen, DomNode.adopt, hown] using hrow
      · rw [hinner, View.under_linksOf_self start (start + 1) (by omega)]
        refine showsAll_of_built dom values base handlers links children (some start) (start + 1)
          ?_ ?_ ?_
        · exact fun row hmem => hrows row (List.mem_cons_of_mem _ hmem)
        · intro i hlow hhigh
          rw [hhandlers i (by omega) (by omega), View.handlers, under_append, under_eq_nil,
            List.nil_append]
          intro handler hhandler
          obtain ⟨listener, _, rfl⟩ := List.mem_map.mp hhandler
          simp only
          omega
        · intro i hlow hhigh
          rw [hlinks i (by omega) (by omega), View.links, View.under_linksOf_other (by omega)]

theorem showsAll_of_built (dom : Dom) (values : Text → Value) (base : Nat)
    (handlers : List (Nat × Text × Text)) (links : List (Nat × Nat)) (views : List View)
    (parent : Option Nat) (start : Nat)
    (hrows : ∀ row ∈ View.rowsOf parent start views,
      dom.nodes[base + row.1]? = some (built values base handlers links row))
    (hhandlers : ∀ i, start ≤ i → i < start + View.totalSize views →
      under i handlers = under i (View.handlersOf start views))
    (hlinks : ∀ i, start ≤ i → i < start + View.totalSize views →
      under i links = under i (View.linksInside start views)) :
    ShowsAll dom values ((View.tops start views).map (base + ·)) views := by
  cases views with
  | nil => rfl
  | cons v more =>
      simp only [View.totalSize] at hhandlers hlinks
      refine ⟨base + start, (View.tops (start + v.size) more).map (base + ·), rfl, ?_, ?_⟩
      · refine shows_of_built dom values base handlers links v parent start ?_ ?_ ?_
        · exact fun row hmem => hrows row (List.mem_append.mpr (Or.inl hmem))
        · intro i hlow hhigh
          have hmore : under i (View.handlersOf (start + v.size) more) = [] := by
            apply under_eq_nil
            intro handler hhandler
            have hrange := View.mem_handlersOf_range (start + v.size) more handler hhandler
            omega
          rw [hhandlers i hlow (by omega), View.handlersOf, under_append, hmore, List.append_nil]
        · intro i hlow hhigh
          have hmore : under i (View.linksInside (start + v.size) more) = [] := by
            apply under_eq_nil
            intro link hlink
            have hrange := View.mem_linksInside_range (start + v.size) more link hlink
            omega
          rw [hlinks i hlow (by omega), View.linksInside, under_append, hmore, List.append_nil]
      · refine showsAll_of_built dom values base handlers links more parent (start + v.size)
          ?_ ?_ ?_
        · exact fun row hmem => hrows row (List.mem_append.mpr (Or.inr hmem))
        · intro i hlow hhigh
          rw [hhandlers i (by omega) (by omega), View.handlersOf, under_append, under_eq_nil,
            List.nil_append]
          intro handler hhandler
          have hrange := View.mem_handlers_range start v handler hhandler
          omega
        · intro i hlow hhigh
          rw [hlinks i (by omega) (by omega), View.linksInside, under_append, under_eq_nil,
            List.nil_append]
          intro link hlink
          have hrange := View.mem_links_range start v link hlink
          omega

end

/-- The nodes on the page when `create` has run. -/
structure Created (p : Page) (t : Table) (values : Text → Value) (p' : Page) : Prop where
  others : ∀ name, name ∉ t.nodes.map Node.variable → p'.scope name = p.scope name
  locals : ∀ i n, t.nodes[i]? = some n → p'.scope n.variable = some (.node (p.dom.size + i))
  size_eq : p'.dom.size = p.dom.size + t.nodes.length
  old : ∀ place < p.dom.size, p'.dom.nodes[place]? = p.dom.nodes[place]?
  new : ∀ i n, t.nodes[i]? = some n → p'.dom.nodes[p.dom.size + i]? =
    some ((born values n.kind).listen
      ((under i t.handlers).map fun handler => (handler.1, .code handler.2)))

theorem under_shift {α β : Type} (base i : Nat) (f : α → β) (entries : List (Nat × α)) :
    under (base + i) (entries.map fun entry => (base + entry.1, f entry.2)) =
      (under i entries).map f := by
  induction entries with
  | nil => rfl
  | cons entry more ih =>
      by_cases hkey : entry.1 = i
      · simpa [under, hkey] using ih
      · have hkey' : ¬ base + entry.1 = base + i := by omega
        simpa [under, hkey] using ih

theorem run_create (properties : List Property) (t : Table) (statements : List Statement)
    (p : Page) : run (Lifecycle.assemble properties t statements) "create" p =
      execAll (Lifecycle.create t) p := rfl

theorem run_mount (properties : List Property) (t : Table) (statements : List Statement)
    (p : Page) : run (Lifecycle.assemble properties t statements) "mount" p =
      execAll (Lifecycle.mount t) p := rfl

end Page

/-- No property that a table shows is named like a variable of the compiled module. -/
def Table.BindingsFree (t : Table) : Prop :=
  ∀ binding ∈ t.bindings, binding.2 ∉ t.nodes.map Node.variable ∧
    binding.2 ≠ ("target" : Text) ∧ binding.2 ≠ ("document" : Text) ∧
      binding.2 ≠ ("changes" : Text)

theorem Table.mem_bindings {t : Table} {n : Node} {name : Text} (hn : n ∈ t.nodes)
    (hkind : n.kind = .binding name) : (n, name) ∈ t.bindings := by
  simp only [Table.bindings, List.mem_filterMap]
  exact ⟨n, hn, by simp [hkind]⟩

namespace Page

open Code

/-- The body of `create` makes every node of the table, with its listeners. -/
theorem execAll_create {t : Table} {views : List View} (h : t.Lists views) (p : Page)
    (values : Text → Value)
    (hattributes : ∀ n ∈ t.nodes, ∀ tagName attributes, n.kind = .element tagName attributes →
      (attributes.map Prod.fst).Nodup)
    (hfree : t.BindingsFree)
    (hvalues : ∀ binding ∈ t.bindings, p.scope binding.2 = some (values binding.2))
    (hdocument : p.scope "document" = some .document) :
    ∃ p', execAll (Lifecycle.create t) p = some p' ∧ p.Created t values p' := by
  obtain ⟨made, hmade, hnodes, hothers, hlocals⟩ := execAll_createNodes t t.nodes values p
    (fun n hn => h.numbered.nodeName_eq hn) hdocument h.numbered.variables_nodup
    (fun n hn name hname =>
      ⟨hvalues _ (Table.mem_bindings hn hname), (hfree _ (Table.mem_bindings hn hname)).1⟩)
    hattributes
  have hnew : ∀ i n, t.nodes[i]? = some n →
      made.dom.nodes[p.dom.size + i]? = some (born values n.kind) := by
    intro i n hn
    rw [hnodes, Dom.size, List.getElem?_append_right (by omega), Nat.add_sub_cancel_left,
      List.getElem?_map, hn]
    rfl
  obtain ⟨last, hlast, hchanged⟩ := execAll_addListeners t p.dom.size made
    (by
      intro l hl
      obtain ⟨n, tagName, attributes, hn, hkind⟩ := h.listener_element hl
      refine ⟨(List.getElem?_eq_some_iff.mp hn).1, ?_⟩
      simp [hasElement, hnew l.node n hn, hkind, born, DomNode.isElement])
    hlocals
  refine ⟨last, ?_, ?_, ?_, ?_, ?_, ?_⟩
  · rw [Lifecycle.create, execAll_append, hmade]
    exact hlast
  · intro name hname
    rw [hchanged.scope_eq]
    exact hothers name hname
  · intro i n hn
    rw [hchanged.scope_eq]
    exact hlocals i n hn
  · rw [hchanged.size_eq, Dom.size, hnodes, List.length_append, List.length_map]
    rfl
  · intro place hplace
    have hnone : under place (t.handlers.map fun handler =>
        (p.dom.size + handler.1, (handler.2.1, Value.code handler.2.2))) = [] := by
      apply under_eq_nil
      intro entry hentry
      obtain ⟨handler, _, rfl⟩ := List.mem_map.mp hentry
      simp only
      omega
    rw [hchanged.get?_eq, hnone, hnodes, List.getElem?_append_left hplace]
    cases p.dom.nodes[place]? with
    | none => rfl
    | some node => simp
  · intro i n hn
    rw [hchanged.get?_eq, hnew i n hn,
      under_shift p.dom.size i (fun handler : Text × Text => (handler.1, Value.code handler.2))]
    rfl

section Created

variable {p p' : Page} {t : Table} {values : Text → Value}

theorem Created.scope_nameAt (h : p.Created t values p') {i : Nat} (hi : i < t.nodes.length) :
    p'.scope (nameAt t i) = some (.node (p.dom.size + i)) ∧ p.dom.size + i < p'.dom.size := by
  have hn := List.getElem?_eq_getElem hi
  rw [nameAt_eq hn, h.size_eq]
  exact ⟨h.locals i _ hn, by omega⟩

/-- No new node has been appended to any node. -/
theorem Created.not_mem_children (h : p.Created t values p') {child : Nat}
    (hchild : p.dom.size ≤ child) : ∀ node ∈ p'.dom.nodes, child ∉ node.children := by
  intro node hnode hmem
  obtain ⟨place, hplace⟩ := List.mem_iff_getElem?.mp hnode
  by_cases hold : place < p.dom.size
  · rw [h.old place hold] at hplace
    have hbound := p.dom.closed node (List.mem_of_getElem? hplace) child hmem
    exact Nat.not_lt.mpr hchild hbound
  · obtain ⟨i, rfl⟩ := Nat.exists_eq_add_of_le (Nat.le_of_not_lt hold)
    have hi : i < t.nodes.length := by
      have hlt := (List.getElem?_eq_some_iff.mp hplace).1
      have hsize := h.size_eq
      simp only [Dom.size] at hsize hlt
      omega
    rw [h.new i _ (List.getElem?_eq_getElem hi), Option.some.injEq] at hplace
    rw [← hplace, DomNode.children_listen] at hmem
    cases hkind : (t.nodes[i]).kind <;> simp [hkind, born, DomNode.children] at hmem

theorem lt_size_of_hasElement {id : Nat} (h : p.hasElement id = true) : id < p.dom.size := by
  by_contra hge
  have hnone : p.dom.nodes[id]? = none := List.getElem?_eq_none_iff.mpr (Nat.le_of_not_lt hge)
  simp [hasElement, hnone] at h

theorem map_child_mountLinks (t : Table) (views : List View) (base target : Nat) :
    (mountLinks t views base target).map Link.child =
      ((View.linksInside 0 views).map Prod.snd ++ View.tops 0 views).map (base + ·) := by
  simp [mountLinks, innerLink, Function.comp_def]

/-- After `create`, all nodes can be linked as `mount` does. -/
theorem Created.ready {views : List View} (h : t.Lists views) (hcreated : p.Created t values p')
    {target : Nat} (htarget : p.scope "target" = some (.node target))
    (helement : p.hasElement target = true) :
    Ready (mountLinks t views p.dom.size target) p' := by
  have hlength := h.length_eq
  constructor
  · intro link hlink
    rcases List.mem_append.mp hlink with hinner | hroot
    · obtain ⟨pair, hpair, rfl⟩ := List.mem_map.mp hinner
      obtain ⟨own, tagName, attributes, hrow⟩ := View.mem_linksInside_element 0 views pair hpair
      obtain ⟨n, hn, hnrow⟩ := h.exists_of_mem_rows hrow
      have hkind : n.kind = .element tagName attributes := congrArg (fun row => row.2.2) hnrow
      have hrange := (View.mem_linksInside_range 0 views pair hpair).1
      refine ⟨(hcreated.scope_nameAt (by omega)).1, ?_⟩
      simp [innerLink, hasElement, hcreated.new pair.1 n hn, hkind, born, DomNode.isElement,
        DomNode.listen]
    · obtain ⟨root, _, rfl⟩ := List.mem_map.mp hroot
      have hother : ("target" : Text) ∉ t.nodes.map Node.variable := by
        intro hmem
        obtain ⟨n, _, hn⟩ := List.mem_map.mp hmem
        exact n.variable_ne_target hn
      refine ⟨(hcreated.others _ hother).trans htarget, ?_⟩
      rw [hasElement, rootLink_parent, hcreated.old target (lt_size_of_hasElement helement)]
      exact helement
  · intro link hlink
    rcases List.mem_append.mp hlink with hinner | hroot
    · obtain ⟨pair, hpair, rfl⟩ := List.mem_map.mp hinner
      have hrange := (View.mem_linksInside_range 0 views pair hpair).2
      exact hcreated.scope_nameAt (by omega)
    · obtain ⟨root, htop, rfl⟩ := List.mem_map.mp hroot
      have hrange := View.mem_tops_range 0 views root htop
      exact hcreated.scope_nameAt (by omega)
  · rw [map_child_mountLinks]
    exact (View.nodup_linksInside_tops 0 views).map (fun a b hab => by simpa using hab)
  · intro link hlink
    apply hcreated.not_mem_children
    rcases List.mem_append.mp hlink with hinner | hroot
    · obtain ⟨pair, _, rfl⟩ := List.mem_map.mp hinner
      exact Nat.le_add_right _ _
    · obtain ⟨root, _, rfl⟩ := List.mem_map.mp hroot
      exact Nat.le_add_right _ _

end Created

theorem under_mountLinks_new (t : Table) (views : List View) {base target : Nat}
    (htarget : target < base) (i : Nat) :
    under (base + i) ((mountLinks t views base target).map fun link =>
      (link.parent, link.child)) = (under i (View.linksInside 0 views)).map (base + ·) := by
  have hroots : under (base + i) (((View.tops 0 views).map (rootLink t base target)).map
      fun link => (link.parent, link.child)) = [] := by
    apply under_eq_nil
    intro entry hentry
    simp only [List.map_map, List.mem_map] at hentry
    obtain ⟨root, _, rfl⟩ := hentry
    simp only [Function.comp, rootLink_parent]
    omega
  rw [mountLinks, List.map_append, under_append, hroots, List.append_nil,
    ← under_shift base i (base + ·), List.map_map]
  rfl

theorem under_mountLinks_old (t : Table) (views : List View) {base target place : Nat}
    (hplace : place < base) (hne : place ≠ target) :
    under place ((mountLinks t views base target).map fun link => (link.parent, link.child)) =
      [] := by
  apply under_eq_nil
  intro entry hentry
  simp only [mountLinks, List.map_append, List.map_map, List.mem_append, List.mem_map] at hentry
  rcases hentry with ⟨link, _, rfl⟩ | ⟨root, _, rfl⟩
  · simp only [Function.comp, innerLink]
    omega
  · exact fun heq => hne heq.symm

theorem under_mountLinks_target (t : Table) (views : List View) {base target : Nat}
    (htarget : target < base) :
    under target ((mountLinks t views base target).map fun link => (link.parent, link.child)) =
      (View.tops 0 views).map (base + ·) := by
  have hinner : under target (((View.linksInside 0 views).map (innerLink t base)).map
      fun link => (link.parent, link.child)) = [] := by
    apply under_eq_nil
    intro entry hentry
    simp only [List.map_map, List.mem_map] at hentry
    obtain ⟨link, _, rfl⟩ := hentry
    simp only [Function.comp, innerLink]
    omega
  rw [mountLinks, List.map_append, under_append, hinner, List.nil_append, List.map_map,
    ← under_map_const target ((View.tops 0 views).map (base + ·)), List.map_map]
  rfl

/-- Running `create` and then `mount` puts new nodes that show the markup after the
children that the mount point had, and changes no other node of the page.  In
particular no statement reads a variable that has no value. -/
theorem mounted_page_shows_markup (markup : List Markup.Node) (t : Table)
    (properties : List Property) (statements : List Statement) (p : Page)
    (values : Text → Value) (target : Nat) (tagName : Text)
    (attributes : List (Text × Text)) (listeners : List (Text × Value)) (children : List Nat)
    (hdistinct : Markup.AttributesDistinctIn markup) (htable : Table.ofMarkup markup = .ok t)
    (hfree : t.BindingsFree)
    (hvalues : ∀ binding ∈ t.bindings, p.scope binding.2 = some (values binding.2))
    (hdocument : p.scope "document" = some .document)
    (htarget : p.scope "target" = some (.node target))
    (helement : p.dom.nodes[target]? =
      some (.element tagName attributes listeners children)) :
    ∃ module created mounted ids,
      Lifecycle.emit properties t statements = .ok module ∧
      run module "create" p = some created ∧ run module "mount" created = some mounted ∧
      mounted.dom.nodes[target]? =
        some (.element tagName attributes listeners (children ++ ids)) ∧
      (∀ id ∈ ids, p.dom.size ≤ id) ∧
      ShowsAll mounted.dom values ids (Markup.viewsOf true markup) ∧
      ∀ place < p.dom.size, place ≠ target →
        mounted.dom.nodes[place]? = p.dom.nodes[place]? := by
  obtain ⟨hrows, hhandlers⟩ := Table.ofMarkup_rows hdistinct htable
  set views := Markup.viewsOf true markup with hviews
  have hlists : t.Lists views := ⟨hrows, hhandlers⟩
  have hattributes : ∀ n ∈ t.nodes, ∀ tagName attributes, n.kind = .element tagName attributes →
      (attributes.map Prod.fst).Nodup := by
    intro n hn tagName attributes hkind
    have hrow : n.row ∈ View.rowsOf none 0 views := by
      rw [← hlists.rows_eq]
      exact List.mem_map_of_mem hn
    exact Markup.rows_attributes_nodup_of markup true none 0 hdistinct n.row hrow
      tagName attributes hkind
  have htargetSize : target < p.dom.size := (List.getElem?_eq_some_iff.mp helement).1
  obtain ⟨created, hcreate, hcreated⟩ :=
    execAll_create hlists p values hattributes hfree hvalues hdocument
  obtain ⟨mounted, hmount, hchanged⟩ := execAll_links _ created
    (hcreated.ready hlists htarget (by simp [hasElement, helement, DomNode.isElement]))
  have hemit : Lifecycle.emit properties t statements = .ok _ :=
    Lifecycle.emit_eq_ok_iff.2 ⟨hlists.isIndexed, rfl⟩
  refine ⟨_, created, mounted, (View.tops 0 views).map (p.dom.size + ·), hemit,
    ?_, ?_, ?_, ?_, ?_, ?_⟩
  · rw [run_create]
    exact hcreate
  · rw [run_mount, mount_eq hlists p.dom.size target]
    exact hmount
  · rw [hchanged.get?_eq, under_mountLinks_target t views htargetSize,
      hcreated.old target htargetSize, helement]
    rfl
  · intro id hid
    obtain ⟨top, _, rfl⟩ := List.mem_map.mp hid
    exact Nat.le_add_right _ _
  · refine showsAll_of_built mounted.dom values p.dom.size t.handlers (View.linksInside 0 views)
      views none 0 ?_ ?_ (fun _ _ _ => rfl)
    · intro row hrow
      obtain ⟨n, hn, rfl⟩ := hlists.exists_of_mem_rows hrow
      rw [hchanged.get?_eq, under_mountLinks_new t views htargetSize, hcreated.new _ n hn]
      rfl
    · intro i _ _
      rw [hlists.handlers_eq]
  · intro place hplace hne
    rw [hchanged.get?_eq, under_mountLinks_old t views hplace hne, hcreated.old place hplace]
    cases p.dom.nodes[place]? with
    | none => rfl
    | some node => simp

namespace RenderingWitness

/-- A paragraph with an attribute, a listener, a binding and an empty element. -/
def markup : List Markup.Node :=
  [.element ⟨0, 41⟩ "p"
    [⟨⟨3, 12⟩, ⟨3, 8⟩, "class", .text ⟨10, 11⟩ "a"⟩,
      ⟨⟨13, 25⟩, ⟨13, 21⟩, "on:click", .expression ⟨22, 25⟩ ⟨23, 24⟩ "f"⟩]
    [.text ⟨26, 32⟩ "Hi \x7bn\x7d" false, .element ⟨32, 37⟩ "br" [] [] true] false]

def table : Table :=
  ⟨[⟨0, none, .element "p" [("class", "a")], ⟨0, 41⟩⟩,
      ⟨1, some 0, .staticText "Hi ", ⟨26, 29⟩⟩, ⟨2, some 0, .binding "n", ⟨29, 32⟩⟩,
      ⟨3, some 0, .element "br" [], ⟨32, 37⟩⟩],
    [⟨0, "click", "f", ⟨13, 25⟩⟩]⟩

/-- A page with a body that holds a text. -/
def page : Page where
  dom := ⟨[.element "body" [] [] [1], .text (.text "old")], by decide⟩
  scope name :=
    if name = "document" then some .document
    else if name = "target" then some (.node 0)
    else if name = "n" then some (.text "5")
    else none
  changes _ := none

end RenderingWitness

open RenderingWitness in
theorem mounted_page_shows_paragraph :
    ∃ module created mounted ids, Lifecycle.emit [] table [] = .ok module ∧
      run module "create" page = some created ∧ run module "mount" created = some mounted ∧
      mounted.dom.nodes[0]? = some (.element "body" [] [] ([1] ++ ids)) ∧
      (∀ id ∈ ids, page.dom.size ≤ id) ∧
      ShowsAll mounted.dom (fun _ => .text "5") ids (Markup.viewsOf true markup) ∧
      ∀ place < page.dom.size, place ≠ 0 →
        mounted.dom.nodes[place]? = page.dom.nodes[place]? :=
  mounted_page_shows_markup markup table [] [] page (fun _ => .text "5") 0 "body" [] [] [1]
    (by simp [markup, Markup.AttributesDistinctIn, Markup.Node.AttributesDistinct])
    (by decide +kernel) (by unfold Table.BindingsFree; decide +kernel) (by decide +kernel) rfl rfl
    rfl

end Page

end Component
