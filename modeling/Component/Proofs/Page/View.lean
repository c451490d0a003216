/-
What markup shows, as a tree of elements and texts, and the node table as the
list of that tree in document order.
-/
import Component.Table
import Mathlib.Data.List.Nodup
import Mathlib.Tactic.Common

namespace Component

/-- What a piece of markup shows: an element with its plain attributes and its
listeners, a fixed text, or the value of a property. -/
inductive View where
  | element (tagName : Text) (attributes : List (Text × Text))
      (listeners : List (Text × Text)) (children : List View)
  | static (text : Text)
  | binding (name : Text)

namespace Markup

/-- The value of an attribute as a fixed text. -/
def AttributeValue.decoded : AttributeValue → Text
  | .absent => []
  | .text _ value => Reference.decode value
  | .expression _ _ value => value

/-- The attributes of an element that are not listeners. -/
def plainAttributes (attributes : List Attribute) : List (Text × Text) :=
  (attributes.filter fun a => (eventName? a.name).isNone).map fun a =>
    (a.name, a.value.decoded)

/-- The listeners of an element: the event and the handler of each. -/
def eventHandlers (attributes : List Attribute) : List (Text × Text) :=
  attributes.filterMap fun a =>
    (eventName? a.name).map fun event => (event, a.value.decoded.trim)

def segmentView : Segment → View
  | .literal text _ => .static (Reference.decode text)
  | .binding name _ => .binding name

/-- What a run of text that begins at an offset shows. -/
def textViews (start : Nat) (data : Text) : List View :=
  match Segment.scan start data with
  | .ok segments => segments.map segmentView
  | .error _ => []

/-- What a node shows inside an element whose body is kept as written. -/
def rawView? : Node → Option View
  | .text _ data _ => some (.static data)
  | _ => none

mutual

/-- What a markup node shows.  Comments show nothing, and neither does whitespace
outside of all elements. -/
def Node.views (outside : Bool) : Node → List View
  | .element _ name attributes children _ =>
      [.element name (plainAttributes attributes) (eventHandlers attributes)
        (if keepsText name then children.filterMap rawView? else viewsOf false children)]
  | .text span data blank => if outside && blank then [] else textViews span.start data
  | .comment .. => []

def viewsOf (outside : Bool) : List Node → List View
  | [] => []
  | node :: more => node.views outside ++ viewsOf outside more

end

mutual

/-- No element has two attributes of one name. -/
def Node.AttributesDistinct : Node → Prop
  | .element _ _ attributes children _ =>
      (attributes.map (·.name)).Nodup ∧ AttributesDistinctIn children
  | _ => True

/-- No element of a forest has two attributes of one name. -/
def AttributesDistinctIn : List Node → Prop
  | [] => True
  | node :: more => node.AttributesDistinct ∧ AttributesDistinctIn more

end

end Markup

/-- A node of the table, but for its span. -/
abbrev Row := Nat × Option Nat × NodeKind

def Node.row (n : Node) : Row := (n.index, n.parent, n.kind)

def Table.rows (t : Table) : List Row := t.nodes.map Node.row

/-- The listeners of a table, but for their spans. -/
def Table.handlers (t : Table) : List (Nat × Text × Text) :=
  t.listeners.map fun l => (l.node, l.event, l.handler)

namespace View

mutual

def size : View → Nat
  | .element _ _ _ children => 1 + totalSize children
  | _ => 1

def totalSize : List View → Nat
  | [] => 0
  | v :: more => v.size + totalSize more

end

mutual

/-- The rows of a view whose first node is numbered `start`. -/
def rows (parent : Option Nat) (start : Nat) : View → List Row
  | .element tagName attributes _ children =>
      (start, parent, .element tagName attributes) :: rowsOf (some start) (start + 1) children
  | .static text => [(start, parent, .staticText text)]
  | .binding name => [(start, parent, .binding name)]

def rowsOf (parent : Option Nat) (start : Nat) : List View → List Row
  | [] => []
  | v :: more => v.rows parent start ++ rowsOf parent (start + v.size) more

end

mutual

/-- The listeners in a view, each with the number of its node. -/
def handlers (start : Nat) : View → List (Nat × Text × Text)
  | .element _ _ listeners children =>
      listeners.map (fun l => (start, l)) ++ handlersOf (start + 1) children
  | _ => []

def handlersOf (start : Nat) : List View → List (Nat × Text × Text)
  | [] => []
  | v :: more => v.handlers start ++ handlersOf (start + v.size) more

end

mutual

theorem length_rows (parent : Option Nat) (start : Nat) (v : View) :
    (v.rows parent start).length = v.size := by
  cases v with
  | element tagName attributes listeners children =>
      simp only [rows, size, List.length_cons, length_rowsOf]
      omega
  | static text => rfl
  | binding name => rfl

theorem length_rowsOf (parent : Option Nat) (start : Nat) (views : List View) :
    (rowsOf parent start views).length = totalSize views := by
  cases views with
  | nil => rfl
  | cons v more => simp only [rowsOf, totalSize, List.length_append, length_rows, length_rowsOf]

end

theorem rowsOf_append (parent : Option Nat) (start : Nat) (first second : List View) :
    rowsOf parent start (first ++ second) =
      rowsOf parent start first ++ rowsOf parent (start + totalSize first) second := by
  induction first generalizing start with
  | nil => simp [rowsOf, totalSize]
  | cons v more ih =>
      simp only [List.cons_append, rowsOf, totalSize, ih, List.append_assoc, Nat.add_assoc]

theorem handlersOf_append (start : Nat) (first second : List View) :
    handlersOf start (first ++ second) =
      handlersOf start first ++ handlersOf (start + totalSize first) second := by
  induction first generalizing start with
  | nil => simp [handlersOf, totalSize]
  | cons v more ih =>
      simp only [List.cons_append, handlersOf, totalSize, ih, List.append_assoc, Nat.add_assoc]

end View

/-- A table goes on with what some views show. -/
structure Table.Extends (t : Table) (parent : Option Nat) (views : List View)
    (t' : Table) : Prop where
  rows_eq : t'.rows = t.rows ++ View.rowsOf parent t.nodes.length views
  handlers_eq : t'.handlers = t.handlers ++ View.handlersOf t.nodes.length views

namespace Table

theorem length_rows (t : Table) : t.rows.length = t.nodes.length := by
  simp [rows]

theorem Extends.refl (t : Table) (parent : Option Nat) : t.Extends parent [] t :=
  ⟨by simp [View.rowsOf], by simp [View.handlersOf]⟩

theorem Extends.length_eq {t t' : Table} {parent : Option Nat} {views : List View}
    (h : t.Extends parent views t') :
    t'.nodes.length = t.nodes.length + View.totalSize views := by
  rw [← length_rows, h.rows_eq, List.length_append, View.length_rowsOf, length_rows]

theorem Extends.trans {t t' t'' : Table} {parent : Option Nat} {first second : List View}
    (hfirst : t.Extends parent first t') (hsecond : t'.Extends parent second t'') :
    t.Extends parent (first ++ second) t'' where
  rows_eq := by
    rw [hsecond.rows_eq, hfirst.rows_eq, hfirst.length_eq, View.rowsOf_append,
      List.append_assoc]
  handlers_eq := by
    rw [hsecond.handlers_eq, hfirst.handlers_eq, hfirst.length_eq, View.handlersOf_append,
      List.append_assoc]

theorem add_extends_static (t : Table) (parent : Option Nat) (text : Text) (span : Span) :
    t.Extends parent [.static text] (t.add parent (.staticText text) span) :=
  ⟨by simp [rows, add, Node.row, View.rowsOf, View.rows],
    by simp [handlers, add, View.handlersOf, View.handlers]⟩

theorem add_extends_binding (t : Table) (parent : Option Nat) (name : Text) (span : Span) :
    t.Extends parent [.binding name] (t.add parent (.binding name) span) :=
  ⟨by simp [rows, add, Node.row, View.rowsOf, View.rows],
    by simp [handlers, add, View.handlersOf, View.handlers]⟩

theorem addSegments_extends (t : Table) (parent : Option Nat) (segments : List Segment) :
    t.Extends parent (segments.map Markup.segmentView)
      (segments.foldl (addSegment parent) t) := by
  induction segments generalizing t with
  | nil => exact Extends.refl t parent
  | cons segment more ih =>
      rw [List.map_cons, List.foldl_cons, ← List.singleton_append]
      refine Extends.trans ?_ (ih (addSegment parent t segment))
      cases segment with
      | literal text span => exact add_extends_static t parent _ span
      | binding name span => exact add_extends_binding t parent name span

theorem addRawTexts_extends (t : Table) (parent : Nat) (children : List Markup.Node) :
    t.Extends (some parent) (children.filterMap Markup.rawView?)
      (children.foldl (addRawText parent) t) := by
  induction children generalizing t with
  | nil => exact Extends.refl t (some parent)
  | cons child more ih =>
      cases child with
      | element span name attributes children selfClosing => exact ih t
      | comment span data => exact ih t
      | text span data blank =>
          exact Extends.trans (add_extends_static t (some parent) data span)
            (ih (t.add (some parent) (.staticText data) span))

end Table

theorem setAttribute_of_not_mem {name : Text} (value : Text) {known : List (Text × Text)}
    (hname : name ∉ known.map Prod.fst) :
    setAttribute name value known = known ++ [(name, value)] := by
  induction known with
  | nil => rfl
  | cons entry more ih =>
      simp only [List.map_cons, List.mem_cons, not_or] at hname
      have hne : ¬ entry.1 = name := fun heq => hname.1 heq.symm
      simp only [setAttribute, hne, ↓reduceIte, List.cons_append, ih hname.2]

theorem setAttribute_names_nodup (name value : Text) {known : List (Text × Text)}
    (h : (known.map Prod.fst).Nodup) : ((setAttribute name value known).map Prod.fst).Nodup := by
  by_cases hmem : name ∈ known.map Prod.fst
  · have hsame : (setAttribute name value known).map Prod.fst = known.map Prod.fst := by
      clear h
      induction known with
      | nil => simp at hmem
      | cons entry more ih =>
          by_cases hname : entry.1 = name
          · simp [setAttribute, hname]
          · have hlater : name ∈ more.map Prod.fst :=
              (List.mem_cons.mp hmem).resolve_left fun heq => hname heq.symm
            simp [setAttribute, hname, ih hlater]
    rw [hsame]
    exact h
  · rw [setAttribute_of_not_mem value hmem, List.map_append]
    exact h.append (List.nodup_singleton name) (by simpa using hmem)

/-- Attributes set one after another: of two of one name, the later gives the value and
the earlier the place. -/
def setAttributes (attributes known : List (Text × Text)) : List (Text × Text) :=
  attributes.foldl (fun known a => setAttribute a.1 a.2 known) known

theorem setAttributes_names_nodup (attributes : List (Text × Text)) {known : List (Text × Text)}
    (h : (known.map Prod.fst).Nodup) :
    ((setAttributes attributes known).map Prod.fst).Nodup := by
  induction attributes generalizing known with
  | nil => exact h
  | cons a more ih => exact ih (setAttribute_names_nodup a.1 a.2 h)

theorem setAttributes_of_nodup {attributes known : List (Text × Text)}
    (h : ((known ++ attributes).map Prod.fst).Nodup) :
    setAttributes attributes known = known ++ attributes := by
  induction attributes generalizing known with
  | nil => exact (List.append_nil known).symm
  | cons a more ih =>
      have hnew : a.1 ∉ known.map Prod.fst := by
        intro hmem
        rw [List.map_append] at h
        exact (List.nodup_append.mp h).2.2 a.1 hmem a.1 List.mem_cons_self rfl
      have hnext : ((known ++ [a]) ++ more).map Prod.fst = (known ++ a :: more).map Prod.fst := by
        simp
      rw [setAttributes, List.foldl_cons, setAttribute_of_not_mem a.2 hnew]
      exact (ih (hnext ▸ h)).trans (List.append_assoc known [a] more)

namespace View

mutual

def settled : View → View
  | .element tagName attributes listeners children =>
      .element tagName (setAttributes attributes []) listeners (settledAll children)
  | .static text => .static text
  | .binding name => .binding name

def settledAll : List View → List View
  | [] => []
  | v :: more => v.settled :: settledAll more

end

theorem settledAll_append (first second : List View) :
    settledAll (first ++ second) = settledAll first ++ settledAll second := by
  induction first with
  | nil => rfl
  | cons v more ih => rw [List.cons_append, settledAll, ih, settledAll, List.cons_append]

theorem settledAll_eq_self {views : List View} (h : ∀ v ∈ views, v.settled = v) :
    settledAll views = views := by
  induction views with
  | nil => rfl
  | cons v more ih =>
      rw [settledAll, h v List.mem_cons_self, ih fun v hv => h v (List.mem_cons_of_mem _ hv)]

theorem settledAll_segments (segments : List Segment) :
    settledAll (segments.map Markup.segmentView) = segments.map Markup.segmentView := by
  apply settledAll_eq_self
  intro v hv
  obtain ⟨segment, -, rfl⟩ := List.mem_map.mp hv
  cases segment <;> rfl

theorem settledAll_rawTexts (children : List Markup.Node) :
    settledAll (children.filterMap Markup.rawView?) = children.filterMap Markup.rawView? := by
  apply settledAll_eq_self
  intro v hv
  obtain ⟨child, -, hchild⟩ := List.mem_filterMap.mp hv
  cases child with
  | text span data blank => rw [← Option.some.inj hchild]; rfl
  | element | comment => cases hchild

mutual

/-- The attributes of every element of a settled view have distinct names. -/
theorem settled_attributes_nodup (parent : Option Nat) (start : Nat) (v : View) :
    ∀ row ∈ v.settled.rows parent start, ∀ tagName attributes,
      row.2.2 = .element tagName attributes → (attributes.map Prod.fst).Nodup := by
  intro row hrow tagName attributes hkind
  cases v with
  | static text =>
      rw [List.mem_singleton.mp hrow] at hkind
      cases hkind
  | binding name =>
      rw [List.mem_singleton.mp hrow] at hkind
      cases hkind
  | element own given listeners children =>
      rcases List.mem_cons.mp hrow with rfl | hinner
      · obtain ⟨rfl, rfl⟩ := NodeKind.element.inj hkind
        exact setAttributes_names_nodup given List.nodup_nil
      · exact settledAll_attributes_nodup _ _ children row hinner tagName attributes hkind

theorem settledAll_attributes_nodup (parent : Option Nat) (start : Nat) (views : List View) :
    ∀ row ∈ rowsOf parent start (settledAll views), ∀ tagName attributes,
      row.2.2 = .element tagName attributes → (attributes.map Prod.fst).Nodup := by
  intro row hrow tagName attributes hkind
  cases views with
  | nil => cases hrow
  | cons v more =>
      rcases List.mem_append.mp hrow with hown | hmore
      · exact settled_attributes_nodup parent start v row hown tagName attributes hkind
      · exact settledAll_attributes_nodup parent _ more row hmore tagName attributes hkind

end

end View

theorem Markup.plainAttributes_nodup {attributes : List Markup.Attribute}
    (h : (attributes.map (·.name)).Nodup) :
    ((Markup.plainAttributes attributes).map Prod.fst).Nodup := by
  rw [Markup.plainAttributes, List.map_map]
  exact h.sublist (List.Sublist.map _ List.filter_sublist)

mutual

/-- Markup without two attributes of one name has nothing to settle. -/
theorem Markup.Node.settledAll_views (node : Markup.Node) (outside : Bool)
    (hdistinct : node.AttributesDistinct) :
    View.settledAll (node.views outside) = node.views outside := by
  cases node with
  | comment span data => rfl
  | text span data blank =>
      unfold Markup.Node.views Markup.textViews
      split_ifs
      · rfl
      · cases Segment.scan span.start data with
        | error e => rfl
        | ok segments => exact View.settledAll_segments segments
  | element span name attributes children selfClosing =>
      unfold Markup.Node.AttributesDistinct at hdistinct
      have hplain : setAttributes (Markup.plainAttributes attributes) [] =
          Markup.plainAttributes attributes :=
        setAttributes_of_nodup (Markup.plainAttributes_nodup hdistinct.1)
      unfold Markup.Node.views
      simp only [View.settledAll, View.settled, hplain]
      split_ifs
      · rw [View.settledAll_rawTexts]
      · rw [Markup.settledAll_viewsOf children false hdistinct.2]

theorem Markup.settledAll_viewsOf (markup : List Markup.Node) (outside : Bool)
    (hdistinct : Markup.AttributesDistinctIn markup) :
    View.settledAll (Markup.viewsOf outside markup) = Markup.viewsOf outside markup := by
  cases markup with
  | nil => rfl
  | cons node more =>
      unfold Markup.AttributesDistinctIn at hdistinct
      rw [Markup.viewsOf, View.settledAll_append, Markup.Node.settledAll_views node _ hdistinct.1,
        Markup.settledAll_viewsOf more _ hdistinct.2]

end

/-- The attributes of every element in what markup shows have distinct names, if they have
in the markup. -/
theorem Markup.rows_attributes_nodup_of (markup : List Markup.Node) (outside : Bool)
    (parent : Option Nat) (start : Nat) (hdistinct : Markup.AttributesDistinctIn markup) :
    ∀ row ∈ View.rowsOf parent start (Markup.viewsOf outside markup), ∀ tagName attributes,
      row.2.2 = .element tagName attributes → (attributes.map Prod.fst).Nodup := by
  rw [← Markup.settledAll_viewsOf markup outside hdistinct]
  exact View.settledAll_attributes_nodup parent start (Markup.viewsOf outside markup)

theorem readListener_eq_ok {node : Nat} {event : Text} {a : Markup.Attribute}
    {listener : Listener} (h : readListener node event a = .ok listener) :
    listener = ⟨node, event, a.value.decoded.trim, a.span⟩ := by
  unfold readListener at h
  cases hvalue : a.value with
  | absent =>
      simp only [hvalue] at h
      split_ifs at h
      contradiction
  | text span value =>
      simp only [hvalue] at h
      split_ifs at h
      exact (Except.ok.inj h).symm
  | expression span inner value =>
      simp only [hvalue] at h
      split_ifs at h
      exact (Except.ok.inj h).symm

theorem readPlainValue_eq_ok {a : Markup.Attribute} {value : Text}
    (h : readPlainValue a = .ok value) : value = a.value.decoded := by
  unfold readPlainValue at h
  cases hvalue : a.value <;> simp_all [Markup.AttributeValue.decoded]

/-- The attributes of an element are set one after another, and its listeners kept in the
order of the source. -/
theorem readElementAttributes_settled {node : Nat} {attributes : List Markup.Attribute}
    {plain plain' : List (Text × Text)} {listeners listeners' : List Listener}
    (h : readElementAttributes node attributes (plain, listeners) = .ok (plain', listeners')) :
    plain' = setAttributes (Markup.plainAttributes attributes) plain ∧
      listeners'.map (fun l => (l.node, l.event, l.handler)) =
        listeners.map (fun l => (l.node, l.event, l.handler)) ++
          (Markup.eventHandlers attributes).map fun l => (node, l) := by
  induction attributes generalizing plain listeners with
  | nil =>
      simp only [readElementAttributes, Except.ok.injEq, Prod.mk.injEq] at h
      obtain ⟨rfl, rfl⟩ := h
      simp [Markup.plainAttributes, Markup.eventHandlers, setAttributes]
  | cons a more ih =>
      unfold readElementAttributes at h
      cases hevent : eventName? a.name with
      | some event =>
          simp only [hevent] at h
          cases hlistener : readListener node event a with
          | error e => simp [hlistener] at h
          | ok listener =>
              simp only [hlistener] at h
              obtain ⟨hrest, hlisteners⟩ := ih h
              refine ⟨?_, ?_⟩
              · simpa [Markup.plainAttributes, hevent] using hrest
              · rw [hlisteners, readListener_eq_ok hlistener]
                simp [Markup.eventHandlers, hevent]
      | none =>
          simp only [hevent] at h
          cases hvalue : readPlainValue a with
          | error e => simp [hvalue] at h
          | ok value =>
              simp only [hvalue] at h
              obtain ⟨hrest, hlisteners⟩ := ih h
              refine ⟨?_, ?_⟩
              · rw [hrest, readPlainValue_eq_ok hvalue]
                simp [Markup.plainAttributes, hevent, setAttributes]
              · simpa [Markup.eventHandlers, hevent] using hlisteners

namespace Table

mutual

/-- A markup node adds to a table what it shows. -/
theorem addMarkup_extends (node : Markup.Node) {parent : Option Nat} {t t' : Table}
    (h : addMarkup parent t node = .ok t') :
    t.Extends parent (View.settledAll (node.views parent.isNone)) t' := by
  cases node with
  | comment span data =>
      simp only [addMarkup, Except.ok.injEq] at h
      subst h
      exact Extends.refl t parent
  | text span data blank =>
      unfold addMarkup at h
      unfold Markup.Node.views Markup.textViews
      split_ifs at h ⊢ with hblank
      · rw [← Except.ok.inj h]
        exact Extends.refl t parent
      · cases hscan : Segment.scan span.start data with
        | error e => simp [hscan] at h
        | ok segments =>
            simp only [hscan, Except.ok.injEq] at h
            rw [← h, View.settledAll_segments]
            exact addSegments_extends t parent segments
  | element span name attributes children selfClosing =>
      unfold addMarkup at h
      cases hread : readElementAttributes t.nodes.length attributes ([], []) with
      | error e => simp [hread] at h
      | ok found =>
          obtain ⟨plain, listeners⟩ := found
          obtain ⟨hplain, hlisteners⟩ := readElementAttributes_settled hread
          simp only [hread] at h
          -- The table with the element itself; what follows adds its children.
          set own : Table := { t.add parent (.element name plain) span with
            listeners := (t.add parent (.element name plain) span).listeners ++ listeners }
            with hown
          have hlength : own.nodes.length = t.nodes.length + 1 := by
            simp [hown, Table.add]
          have hrows : own.rows =
              t.rows ++ [(t.nodes.length, parent, .element name plain)] := by
            simp [hown, rows, Table.add, Node.row]
          have hhandlers : own.handlers =
              t.handlers ++ (Markup.eventHandlers attributes).map fun l => (t.nodes.length, l) := by
            simpa [hown, handlers, Table.add] using hlisteners
          have hinner : own.Extends (some t.nodes.length) (View.settledAll
              (if keepsText name then children.filterMap Markup.rawView?
                else Markup.viewsOf false children)) t' := by
            split_ifs at h ⊢ with hkeeps
            · rw [← Except.ok.inj h, View.settledAll_rawTexts]
              exact addRawTexts_extends own t.nodes.length children
            · exact addAllMarkup_extends children h
          refine ⟨?_, ?_⟩
          · rw [hinner.rows_eq, hrows, hlength]
            simp [Markup.Node.views, View.settledAll, View.settled, View.rowsOf, View.rows, hplain]
          · rw [hinner.handlers_eq, hhandlers, hlength]
            simp [Markup.Node.views, View.settledAll, View.settled, View.handlersOf, View.handlers]

theorem addAllMarkup_extends (markup : List Markup.Node) {parent : Option Nat} {t t' : Table}
    (h : addAllMarkup parent t markup = .ok t') :
    t.Extends parent (View.settledAll (Markup.viewsOf parent.isNone markup)) t' := by
  cases markup with
  | nil =>
      simp only [addAllMarkup, Except.ok.injEq] at h
      subst h
      exact Extends.refl t parent
  | cons node more =>
      unfold addAllMarkup at h
      cases hnode : addMarkup parent t node with
      | error e => simp [hnode] at h
      | ok next =>
          simp only [hnode] at h
          rw [Markup.viewsOf, View.settledAll_append]
          exact (addMarkup_extends node hnode).trans (addAllMarkup_extends more h)

end

/-- The table of markup lists what the markup shows, numbered in document order. -/
theorem ofMarkup_extends {markup : List Markup.Node} {t : Table} (h : ofMarkup markup = .ok t) :
    t.rows = View.rowsOf none 0 (View.settledAll (Markup.viewsOf true markup)) ∧
      t.handlers = View.handlersOf 0 (View.settledAll (Markup.viewsOf true markup)) := by
  have hextends := addAllMarkup_extends markup h
  exact ⟨by simpa [rows, empty] using hextends.rows_eq,
    by simpa [handlers, empty] using hextends.handlers_eq⟩

theorem ofMarkup_rows {markup : List Markup.Node} {t : Table}
    (hdistinct : Markup.AttributesDistinctIn markup) (h : ofMarkup markup = .ok t) :
    t.rows = View.rowsOf none 0 (Markup.viewsOf true markup) ∧
      t.handlers = View.handlersOf 0 (Markup.viewsOf true markup) := by
  rw [← Markup.settledAll_viewsOf markup true hdistinct]
  exact ofMarkup_extends h

end Table

end Component
