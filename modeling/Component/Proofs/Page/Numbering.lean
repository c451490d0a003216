/-
How the table of a component numbers its nodes.

The table lists what the markup shows in document order.  What stands inside a node
follows it without a gap, so that the numbers below a node form one block.
-/
import Component.Proofs.Compiling
import Component.Proofs.Page.Rendering
import Mathlib.Data.Nat.Find
import Mathlib.Logic.Relation

namespace Component

namespace View

mutual

/-- The parent of a row inside a view is the number of an element. -/
theorem exists_parent_rows (parent : Option Nat) (start : Nat) (v : View) :
    ∀ row ∈ v.rows parent start, row.2.1 = parent ∨ ∃ i own tagName attributes,
      row.2.1 = some i ∧ i < row.1 ∧
        (i, own, .element tagName attributes) ∈ v.rows parent start := by
  intro row hrow
  cases v with
  | static text => exact .inl (by rw [List.mem_singleton.mp hrow])
  | binding name => exact .inl (by rw [List.mem_singleton.mp hrow])
  | element tagName attributes listeners children =>
      rcases List.mem_cons.mp hrow with rfl | hrow
      · exact .inl rfl
      · have hlow := (mem_rowsOf_range (some start) (start + 1) children row hrow).1.1
        rcases exists_parent_rowsOf (some start) (start + 1) children row hrow with
          hown | ⟨i, own, tagName', attributes', hi, hlt, helement⟩
        · exact .inr ⟨start, parent, tagName, attributes, hown, hlow, List.mem_cons_self⟩
        · exact .inr ⟨i, own, tagName', attributes', hi, hlt, List.mem_cons_of_mem _ helement⟩

theorem exists_parent_rowsOf (parent : Option Nat) (start : Nat) (views : List View) :
    ∀ row ∈ rowsOf parent start views, row.2.1 = parent ∨ ∃ i own tagName attributes,
      row.2.1 = some i ∧ i < row.1 ∧
        (i, own, .element tagName attributes) ∈ rowsOf parent start views := by
  intro row hrow
  cases views with
  | nil => simp [rowsOf] at hrow
  | cons v more =>
      rcases List.mem_append.mp hrow with hfirst | hmore
      · refine (exists_parent_rows parent start v row hfirst).imp_right ?_
        rintro ⟨i, own, tagName, attributes, hi, hlt, helement⟩
        exact ⟨i, own, tagName, attributes, hi, hlt, List.mem_append_left _ helement⟩
      · refine (exists_parent_rowsOf parent (start + v.size) more row hmore).imp_right ?_
        rintro ⟨i, own, tagName, attributes, hi, hlt, helement⟩
        exact ⟨i, own, tagName, attributes, hi, hlt, List.mem_append_right _ helement⟩

end

mutual

/-- What stands between a node and one of its children stands inside that node. -/
theorem between_rows {parent : Option Nat} {start : Nat} (v : View) {row child : Row}
    (hrow : row ∈ v.rows parent start)
    (hchild : child ∈ v.rows parent start) {p : Nat} (hp : child.2.1 = some p) (hlow : p < row.1)
    (hhigh : row.1 < child.1) : ∃ q, row.2.1 = some q ∧ p ≤ q := by
  cases v with
  | static text =>
      rw [List.mem_singleton.mp hrow, List.mem_singleton.mp hchild] at hhigh
      exact absurd hhigh (Nat.lt_irrefl _)
  | binding name =>
      rw [List.mem_singleton.mp hrow, List.mem_singleton.mp hchild] at hhigh
      exact absurd hhigh (Nat.lt_irrefl _)
  | element tagName attributes listeners children =>
      have hinside : ∀ i, some start = some i → i < start + 1 := by
        rintro i ⟨⟩
        exact Nat.lt_succ_self start
      rcases List.mem_cons.mp hrow with rfl | hrow
      · rcases List.mem_cons.mp hchild with rfl | hchild
        · exact absurd hhigh (Nat.lt_irrefl _)
        · obtain ⟨-, hown | ⟨i, hi, hstart, -⟩⟩ :=
            mem_rowsOf_range (some start) (start + 1) children child hchild
          · rw [hown] at hp
            cases hp
            exact absurd hlow (Nat.lt_irrefl _)
          · rw [hi] at hp
            cases hp
            simp only at hlow
            omega
      · rcases List.mem_cons.mp hchild with rfl | hchild
        · have hstart := (mem_rowsOf_range (some start) (start + 1) children row hrow).1.1
          simp only at hhigh
          omega
        · exact between_rowsOf hinside children hrow hchild hp hlow hhigh

theorem between_rowsOf {parent : Option Nat} {start : Nat}
    (hparent : ∀ i, parent = some i → i < start) (views : List View) {row child : Row}
    (hrow : row ∈ rowsOf parent start views) (hchild : child ∈ rowsOf parent start views) {p : Nat}
    (hp : child.2.1 = some p) (hlow : p < row.1) (hhigh : row.1 < child.1) :
    ∃ q, row.2.1 = some q ∧ p ≤ q := by
  cases views with
  | nil => simp [rowsOf] at hrow
  | cons v more =>
      have hlater : ∀ i, parent = some i → i < start + v.size := fun i hi =>
        Nat.lt_add_right _ (hparent i hi)
      rcases List.mem_append.mp hrow with hrow | hrow <;>
        rcases List.mem_append.mp hchild with hchild | hchild
      · exact between_rows v hrow hchild hp hlow hhigh
      · -- The child comes in a later view, so its parent is the one that all views share.
        obtain ⟨⟨-, hend⟩, hrowParent⟩ := mem_rows_range parent start v row hrow
        obtain ⟨-, hown | ⟨i, hi, hstart, -⟩⟩ :=
          mem_rowsOf_range parent (start + v.size) more child hchild
        · rw [hown] at hp
          have hout := hparent p hp
          rcases hrowParent with hsame | ⟨q, hq, hinside, -⟩
          · exact ⟨p, hsame.trans hp, Nat.le_refl _⟩
          · exact ⟨q, hq, by omega⟩
        · rw [hi] at hp
          cases hp
          omega
      · have hstart := (mem_rowsOf_range parent (start + v.size) more row hrow).1.1
        have hend := (mem_rows_range parent start v child hchild).1.2
        omega
      · exact between_rowsOf hlater more hrow hchild hp hlow hhigh

end

mutual

/-- Listeners come in the order of their nodes. -/
theorem handlers_pairwise (start : Nat) (v : View) :
    (v.handlers start).Pairwise (·.1 ≤ ·.1) := by
  cases v with
  | static text => exact List.Pairwise.nil
  | binding name => exact List.Pairwise.nil
  | element tagName attributes listeners children =>
      refine List.pairwise_append.mpr ⟨?_, handlersOf_pairwise (start + 1) children, ?_⟩
      · rw [List.pairwise_map]
        exact List.pairwise_of_forall fun _ _ => Nat.le_refl start
      · intro own hown inner hinner
        obtain ⟨listener, -, rfl⟩ := List.mem_map.mp hown
        have hstart := (mem_handlersOf_range (start + 1) children inner hinner).1
        simp only
        omega

theorem handlersOf_pairwise (start : Nat) (views : List View) :
    (handlersOf start views).Pairwise (·.1 ≤ ·.1) := by
  cases views with
  | nil => exact List.Pairwise.nil
  | cons v more =>
      refine List.pairwise_append.mpr
        ⟨handlers_pairwise start v, handlersOf_pairwise (start + v.size) more, ?_⟩
      intro first hfirst second hsecond
      have hend := (mem_handlers_range start v first hfirst).2
      have hstart := (mem_handlersOf_range (start + v.size) more second hsecond).1
      omega

end

end View

namespace Table

/-- The node numbered `child` is directly inside the one numbered `parent`. -/
def Holds (t : Table) (parent child : Nat) : Prop :=
  ∃ n, t.nodes[child]? = some n ∧ n.parent = some parent

/-- The node numbered `inner` is inside the one numbered `outer`, at any depth. -/
def Below (t : Table) (outer inner : Nat) : Prop := Relation.TransGen t.Holds outer inner

section Lists

variable {t : Table} {views : List View}

theorem Lists.row_mem (h : t.Lists views) {i : Nat} {n : Node} (hn : t.nodes[i]? = some n) :
    n.row ∈ View.rowsOf none 0 views := by
  rw [← h.rows_eq]
  exact List.mem_map_of_mem (List.mem_of_getElem? hn)

/-- The parent of a node comes before it and is an element. -/
theorem Lists.parent (h : t.Lists views) {n : Node} (hn : n ∈ t.nodes) {p : Nat}
    (hp : n.parent = some p) : p < n.index ∧
      ∃ outer tagName attributes, t.nodes[p]? = some outer ∧
        outer.kind = .element tagName attributes := by
  have hrow : n.row ∈ View.rowsOf none 0 views := h.row_mem (h.numbered.get?_of_mem hn)
  rcases View.exists_parent_rowsOf none 0 views n.row hrow with
    hnone | ⟨i, own, tagName, attributes, hi, hlt, helement⟩
  · rw [Node.row, hp] at hnone
    cases hnone
  · rw [Node.row, hp] at hi
    cases hi
    obtain ⟨outer, houter, hrow⟩ := h.exists_of_mem_rows helement
    exact ⟨hlt, outer, tagName, attributes, houter, congrArg (·.2.2) hrow⟩

theorem Lists.holds_lt (h : t.Lists views) {parent child : Nat} (hholds : t.Holds parent child) :
    parent < child := by
  obtain ⟨n, hn, hparent⟩ := hholds
  have hlt := (h.parent (List.mem_of_getElem? hn) hparent).1
  rwa [h.index_eq hn] at hlt

/-- What stands between a node and one of its children is inside a node that does not come
before the first. -/
theorem Lists.between (h : t.Lists views) {parent middle child : Nat}
    (hholds : t.Holds parent child) (hlow : parent < middle) (hhigh : middle < child) :
    ∃ q, t.Holds q middle ∧ parent ≤ q := by
  obtain ⟨n, hn, hparent⟩ := hholds
  obtain ⟨hlt, -⟩ := List.getElem?_eq_some_iff.mp hn
  obtain ⟨m, hm⟩ : ∃ m, t.nodes[middle]? = some m :=
    ⟨_, List.getElem?_eq_getElem (Nat.lt_trans hhigh hlt)⟩
  have hindexes : m.row.1 = middle ∧ n.row.1 = child := ⟨h.index_eq hm, h.index_eq hn⟩
  obtain ⟨q, hq, hle⟩ := View.between_rowsOf (by simp) views (h.row_mem hm)
    (h.row_mem hn) hparent (by omega) (by omega)
  exact ⟨q, ⟨m, hm, hq⟩, hle⟩

/-- If a node is inside another, or is that node, then so are its children and all that
stands between it and them. -/
theorem Lists.below_between (h : t.Lists views) {outer parent child : Nat}
    (hparent : Relation.ReflTransGen t.Holds outer parent) (hholds : t.Holds parent child)
    (middle : Nat) (hlow : parent < middle) (hhigh : middle ≤ child) : t.Below outer middle := by
  induction middle using Nat.strongRecOn with
  | ind middle ih =>
      rcases Nat.eq_or_lt_of_le hhigh with rfl | hhigh
      · exact .tail' hparent hholds
      · obtain ⟨q, hq, hle⟩ := h.between hholds hlow hhigh
        have hlt := h.holds_lt hq
        rcases Nat.eq_or_lt_of_le hle with rfl | hle
        · exact .tail' hparent hq
        · exact (ih q hlt hle (by omega)).tail hq

/-- What stands between a node and a node inside it is inside it too. -/
theorem Lists.below_of_le (h : t.Lists views) {outer inner : Nat} (hbelow : t.Below outer inner) :
    ∀ middle, outer < middle → middle ≤ inner → t.Below outer middle := by
  induction hbelow with
  | single hholds => exact h.below_between .refl hholds
  | @tail last inner hlast hholds ih =>
      intro middle hlow hhigh
      rcases Nat.lt_or_ge last middle with hafter | hbefore
      · exact h.below_between hlast.to_reflTransGen hholds middle hafter hhigh
      · exact ih middle hlow hbefore

theorem Lists.below_lt (h : t.Lists views) {outer inner : Nat} (hbelow : t.Below outer inner) :
    outer < inner ∧ inner < t.nodes.length := by
  have hinside : ∀ {parent child}, t.Holds parent child → child < t.nodes.length := by
    rintro parent child ⟨n, hn, -⟩
    exact (List.getElem?_eq_some_iff.mp hn).1
  induction hbelow with
  | single hholds => exact ⟨h.holds_lt hholds, hinside hholds⟩
  | tail _ hholds ih => exact ⟨Nat.lt_trans ih.1 (h.holds_lt hholds), hinside hholds⟩

/-- What is inside a node follows it without a gap. -/
theorem Lists.block (h : t.Lists views) {i : Nat} (hi : i < t.nodes.length) :
    ∃ stop, i < stop ∧ stop ≤ t.nodes.length ∧ ∀ j, t.Below i j ↔ i < j ∧ j < stop := by
  -- The first number after the node that is not inside it ends the block.
  have hend : ∃ stop, i < stop ∧ ¬ t.Below i stop :=
    ⟨t.nodes.length, hi, fun hbelow => Nat.lt_irrefl _ (h.below_lt hbelow).2⟩
  classical
  obtain ⟨hlow, hout⟩ := Nat.find_spec hend
  refine ⟨Nat.find hend, hlow, ?_, fun j => ⟨fun hbelow => ⟨(h.below_lt hbelow).1, ?_⟩, ?_⟩⟩
  · exact Nat.find_min' hend ⟨hi, fun hbelow => Nat.lt_irrefl _ (h.below_lt hbelow).2⟩
  · by_contra hge
    exact hout (h.below_of_le hbelow _ hlow (Nat.le_of_not_lt hge))
  · rintro ⟨hafter, hbefore⟩
    by_contra hbelow
    exact Nat.find_min hend hbefore ⟨hafter, hbelow⟩

/-- Nodes that are picked from a table stay in the order of their numbers. -/
theorem Lists.filter_pairwise (h : t.Lists views) (test : Node → Bool) :
    ((t.nodes.filter test).map Node.index).Pairwise (· < ·) := by
  have hall : (t.nodes.map Node.index).Pairwise (· < ·) := by
    rw [h.map_index]
    exact List.pairwise_lt_range'
  exact hall.sublist (List.filter_sublist.map Node.index)

/-- Listeners belong to elements and come in the order of these. -/
theorem Lists.listeners (h : t.Lists views) :
    (∀ l ∈ t.listeners, ∃ n tagName attributes, t.nodes[l.node]? = some n ∧
      n.kind = .element tagName attributes) ∧
    t.listeners.Pairwise (·.node ≤ ·.node) := by
  constructor
  · exact fun l hl => h.listener_element hl
  · have hsorted := View.handlersOf_pairwise 0 views
    rwa [← h.handlers_eq, handlers, List.pairwise_map] at hsorted

end Lists

/-! ### Names that bindings refer to -/

theorem mem_freshNames {seen names : List Text} {name : Text} :
    name ∈ freshNames seen names ↔ name ∈ names ∧ name ∉ seen := by
  induction names generalizing seen with
  | nil => simp [freshNames]
  | cons first more ih =>
      by_cases hseen : first ∈ seen
      · simp only [freshNames, hseen, ↓reduceIte, ih, List.mem_cons]
        grind
      · simp only [freshNames, hseen, ↓reduceIte, ih, List.mem_cons]
        grind

/-- Fresh names are listed in the order of their first use. -/
theorem freshNames_pairwise (seen names : List Text) :
    (freshNames seen names).Pairwise fun first second =>
      names.idxOf first < names.idxOf second := by
  induction names generalizing seen with
  | nil => exact List.Pairwise.nil
  | cons first more ih =>
      -- A name that is listed later is another one, so its first use is one further on.
      have hlater : ∀ seen, first ∈ seen → (freshNames seen more).Pairwise fun a b =>
          (first :: more).idxOf a < (first :: more).idxOf b := by
        intro seen hseen
        refine (ih seen).imp_of_mem fun {a b} ha hb hlt => ?_
        have hne : ∀ name ∈ freshNames seen more, first ≠ name := by
          rintro name hname rfl
          exact (mem_freshNames.mp hname).2 hseen
        rw [List.idxOf_cons_ne _ (hne a ha), List.idxOf_cons_ne _ (hne b hb)]
        exact Nat.succ_lt_succ hlt
      unfold freshNames
      split_ifs with hseen
      · exact hlater seen hseen
      · refine List.pairwise_cons.mpr ⟨fun name hname => ?_, hlater _ List.mem_cons_self⟩
        have hne : first ≠ name := by
          rintro rfl
          exact (mem_freshNames.mp hname).2 List.mem_cons_self
        rw [List.idxOf_cons_self, List.idxOf_cons_ne _ hne]
        exact Nat.succ_pos _

theorem referenced_nodup (t : Table) : t.referenced.Nodup := by
  refine (freshNames_pairwise [] (t.bindings.map (·.2))).imp ?_
  rintro first second hlt rfl
  exact Nat.lt_irrefl _ hlt

theorem mem_referenced {t : Table} {name : Text} :
    name ∈ t.referenced ↔ ∃ b ∈ t.bindings, b.2 = name := by
  simp [referenced, mem_freshNames]

end Table

/-- The table of markup is the pre-order listing of what the markup shows.  Every node has
its place as its number, stands after its parent, which is an element, and is followed at
once by all that is inside it.  Roots, children and listeners come in document order,
listeners of one element in the order of its attributes.  The variables of the nodes are
distinct, and the names that bindings refer to are listed once each, by first use. -/
theorem table_lists_document_in_order (markup : List Markup.Node) (t : Table)
    (h : Table.ofMarkup markup = .ok t) :
    (∀ (i : Nat) (n : Node), t.nodes[i]? = some n → n.index = i) ∧
    (∀ n ∈ t.nodes, ∀ p, n.parent = some p → p < n.index ∧
      ∃ outer tagName attributes, t.nodes[p]? = some outer ∧
        outer.kind = .element tagName attributes) ∧
    (∀ i < t.nodes.length, ∃ stop, i < stop ∧ stop ≤ t.nodes.length ∧
      ∀ j, t.Below i j ↔ i < j ∧ j < stop) ∧
    (t.rows = View.rowsOf none 0 (View.settledAll (Markup.viewsOf true markup)) ∧
      (t.roots.map Node.index).Pairwise (· < ·) ∧
      ∀ i, ((t.childrenOf i).map Node.index).Pairwise (· < ·)) ∧
    ((∀ l ∈ t.listeners, ∃ n tagName attributes, t.nodes[l.node]? = some n ∧
        n.kind = .element tagName attributes) ∧
      t.listeners.Pairwise (·.node ≤ ·.node) ∧
      t.handlers = View.handlersOf 0 (View.settledAll (Markup.viewsOf true markup))) ∧
    (t.nodes.map Node.variable).Nodup ∧
    t.referenced.Nodup ∧ (∀ name, name ∈ t.referenced ↔ ∃ b ∈ t.bindings, b.2 = name) ∧
      t.referenced.Pairwise fun first second =>
        (t.bindings.map (·.2)).idxOf first < (t.bindings.map (·.2)).idxOf second := by
  have hlists := Table.lists_of_ofMarkup h
  obtain ⟨helements, hsorted⟩ := hlists.listeners
  refine ⟨fun i n => hlists.index_eq, fun n hn p => hlists.parent hn, fun i => hlists.block, ?_, ?_,
    hlists.numbered.variables_nodup, t.referenced_nodup, fun name => Table.mem_referenced,
    Table.freshNames_pairwise _ _⟩
  · exact ⟨hlists.rows_eq, hlists.filter_pairwise _, fun i => hlists.filter_pairwise _⟩
  · exact ⟨helements, hsorted, hlists.handlers_eq⟩

namespace NumberingWitness

/-- An attribute that makes an element listen to an event. -/
def listens (event handler : Text) : Markup.Attribute :=
  ⟨⟨0, 0⟩, ⟨0, 0⟩, "on:".toList ++ event, .expression ⟨0, 0⟩ ⟨0, 0⟩ handler⟩

/-- A list that shows two properties, one of them twice, and a text after it. -/
def markup : List Markup.Node :=
  [.element ⟨0, 0⟩ "ul" [listens "keyup" "f", listens "click" "g"]
      [.element ⟨0, 0⟩ "li" [listens "click" "f"]
        [.text ⟨0, 0⟩ "\x7ba\x7d\x7bb\x7d\x7ba\x7d" false] false,
        .comment ⟨0, 0⟩ "empty", .element ⟨0, 0⟩ "li" [] [] false] false,
    .text ⟨0, 0⟩ "end" false]

theorem numbered : ((Table.ofMarkup markup).toOption.any fun t =>
    t.nodes.length = 7 && t.referenced = ["a".toList, "b".toList] &&
      t.nodes.map (·.parent) = [none, some 0, some 1, some 1, some 1, some 0, none]) = true := by
  decide +kernel

end NumberingWitness

open NumberingWitness in
theorem nested_list_numbered :
    ∃ t, Table.ofMarkup markup = .ok t ∧ t.nodes.length = 7 ∧
      t.referenced = ["a".toList, "b".toList] ∧
      t.handlers = [(0, "keyup".toList, "f".toList), (0, "click".toList, "g".toList),
        (1, "click".toList, "f".toList)] ∧
      ∃ stop, 0 < stop ∧ stop ≤ 7 ∧ ∀ j, t.Below 0 j ↔ 0 < j ∧ j < stop := by
  obtain ⟨t, ht, hchecked⟩ := exists_ok_of_any _ _ numbered
  simp only [Bool.and_eq_true, decide_eq_true_eq] at hchecked
  obtain ⟨⟨hlength, hreferenced⟩, -⟩ := hchecked
  obtain ⟨-, -, hblocks, -, ⟨-, -, hhandlers⟩, -⟩ := table_lists_document_in_order markup t ht
  refine ⟨t, ht, hlength, hreferenced, ?_, hlength ▸ hblocks 0 (by omega)⟩
  rw [hhandlers]
  decide +kernel

end Component
