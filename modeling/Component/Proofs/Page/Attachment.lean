/-
The order in which the nodes of a component are put together: a node is appended
to its parent when its own children are in place.
-/
import Component.Lifecycle
import Component.Proofs.Page.View

namespace Component

/-- The entries of a list under a key, in order. -/
def under {α : Type} (key : Nat) (entries : List (Nat × α)) : List α :=
  (entries.filter (·.1 = key)).map (·.2)

theorem under_append {α : Type} (key : Nat) (first second : List (Nat × α)) :
    under key (first ++ second) = under key first ++ under key second := by
  simp [under]

theorem under_eq_nil {α : Type} {key : Nat} {entries : List (Nat × α)}
    (h : ∀ entry ∈ entries, entry.1 ≠ key) : under key entries = [] := by
  simp only [under, List.map_eq_nil_iff, List.filter_eq_nil_iff, decide_eq_true_eq]
  exact h

theorem under_map_const {α : Type} (key : Nat) (values : List α) :
    under key (values.map fun value => (key, value)) = values := by
  induction values with
  | nil => rfl
  | cons value more ih => simpa [under] using ih

/-- The numbers of the rows whose parent is numbered `parent`. -/
def rowsUnder (parent : Nat) (rows : List Row) : List Nat :=
  (rows.filter (·.2.1 = some parent)).map (·.1)

theorem rowsUnder_append (parent : Nat) (first second : List Row) :
    rowsUnder parent (first ++ second) = rowsUnder parent first ++ rowsUnder parent second := by
  simp [rowsUnder]

theorem rowsUnder_eq_nil {parent : Nat} {rows : List Row}
    (h : ∀ row ∈ rows, row.2.1 ≠ some parent) : rowsUnder parent rows = [] := by
  simp only [rowsUnder, List.map_eq_nil_iff, List.filter_eq_nil_iff, decide_eq_true_eq]
  exact h

namespace View

mutual

/-- The links of parents to children inside a view, in the order in which the view
is put together. -/
def links (start : Nat) : View → List (Nat × Nat)
  | .element _ _ _ children => linksOf start (start + 1) children
  | _ => []

/-- The links that put several views into the node numbered `parent`. -/
def linksOf (parent start : Nat) : List View → List (Nat × Nat)
  | [] => []
  | v :: more => v.links start ++ (parent, start) :: linksOf parent (start + v.size) more

end

/-- The numbers of the topmost nodes of several views. -/
def tops (start : Nat) : List View → List Nat
  | [] => []
  | v :: more => start :: tops (start + v.size) more

def linksInside (start : Nat) : List View → List (Nat × Nat)
  | [] => []
  | v :: more => v.links start ++ linksInside (start + v.size) more

theorem size_pos (v : View) : 0 < v.size := by
  cases v with
  | element _ _ _ children =>
      rw [size]
      omega
  | static _ => exact Nat.one_pos
  | binding _ => exact Nat.one_pos

mutual

theorem mem_rows_range (parent : Option Nat) (start : Nat) (v : View) :
    ∀ row ∈ v.rows parent start, (start ≤ row.1 ∧ row.1 < start + v.size) ∧
      (row.2.1 = parent ∨ ∃ i, row.2.1 = some i ∧ start ≤ i ∧ i < start + v.size) := by
  intro row hrow
  cases v with
  | static text =>
      simp only [rows, List.mem_singleton] at hrow
      simp [hrow, size]
  | binding name =>
      simp only [rows, List.mem_singleton] at hrow
      simp [hrow, size]
  | element tagName attributes listeners children =>
      simp only [rows, List.mem_cons] at hrow
      simp only [size]
      rcases hrow with rfl | hrow
      · exact ⟨⟨Nat.le_refl _, by omega⟩, Or.inl rfl⟩
      · obtain ⟨hrange, hparent⟩ :=
          mem_rowsOf_range (some start) (start + 1) children row hrow
        refine ⟨by omega, Or.inr ?_⟩
        rcases hparent with hown | ⟨i, hi, hlow, hhigh⟩
        · exact ⟨start, hown, by omega⟩
        · exact ⟨i, hi, by omega⟩

theorem mem_rowsOf_range (parent : Option Nat) (start : Nat) (views : List View) :
    ∀ row ∈ rowsOf parent start views, (start ≤ row.1 ∧ row.1 < start + totalSize views) ∧
      (row.2.1 = parent ∨
        ∃ i, row.2.1 = some i ∧ start ≤ i ∧ i < start + totalSize views) := by
  intro row hrow
  cases views with
  | nil => simp [rowsOf] at hrow
  | cons v more =>
      simp only [rowsOf, List.mem_append] at hrow
      simp only [totalSize]
      rcases hrow with hrow | hrow
      · obtain ⟨hrange, hparent⟩ := mem_rows_range parent start v row hrow
        refine ⟨by omega, hparent.imp_right ?_⟩
        rintro ⟨i, hi, hlow, hhigh⟩
        exact ⟨i, hi, by omega⟩
      · obtain ⟨hrange, hparent⟩ := mem_rowsOf_range parent (start + v.size) more row hrow
        refine ⟨by omega, hparent.imp_right ?_⟩
        rintro ⟨i, hi, hlow, hhigh⟩
        exact ⟨i, hi, by omega⟩

end

mutual

theorem mem_handlers_range (start : Nat) (v : View) :
    ∀ handler ∈ v.handlers start, start ≤ handler.1 ∧ handler.1 < start + v.size := by
  intro handler hhandler
  cases v with
  | static text => simp [handlers] at hhandler
  | binding name => simp [handlers] at hhandler
  | element tagName attributes listeners children =>
      simp only [handlers, List.mem_append, List.mem_map] at hhandler
      simp only [size]
      rcases hhandler with ⟨listener, _, rfl⟩ | hinner
      · exact ⟨Nat.le_refl _, by omega⟩
      · have hrange := mem_handlersOf_range (start + 1) children handler hinner
        omega

theorem mem_handlersOf_range (start : Nat) (views : List View) :
    ∀ handler ∈ handlersOf start views,
      start ≤ handler.1 ∧ handler.1 < start + totalSize views := by
  intro handler hhandler
  cases views with
  | nil => simp [handlersOf] at hhandler
  | cons v more =>
      simp only [handlersOf, List.mem_append] at hhandler
      simp only [totalSize]
      rcases hhandler with hown | hmore
      · have hrange := mem_handlers_range start v handler hown
        omega
      · have hrange := mem_handlersOf_range (start + v.size) more handler hmore
        omega

end

mutual

theorem mem_links_range (start : Nat) (v : View) :
    ∀ link ∈ v.links start, (start ≤ link.1 ∧ link.1 < start + v.size) ∧
      start < link.2 ∧ link.2 < start + v.size := by
  intro link hlink
  cases v with
  | static text => simp [links] at hlink
  | binding name => simp [links] at hlink
  | element tagName attributes listeners children =>
      simp only [links] at hlink
      simp only [size]
      obtain ⟨hparent, hchild⟩ := mem_linksOf_range start (start + 1) children link hlink
      omega

theorem mem_linksOf_range (parent start : Nat) (views : List View) :
    ∀ link ∈ linksOf parent start views,
      (link.1 = parent ∨ start ≤ link.1 ∧ link.1 < start + totalSize views) ∧
        start ≤ link.2 ∧ link.2 < start + totalSize views := by
  intro link hlink
  cases views with
  | nil => simp [linksOf] at hlink
  | cons v more =>
      simp only [linksOf, List.mem_append, List.mem_cons] at hlink
      simp only [totalSize]
      have hpos := size_pos v
      rcases hlink with hinner | rfl | hmore
      · have hrange := mem_links_range start v link hinner
        omega
      · exact ⟨Or.inl rfl, Nat.le_refl _, by omega⟩
      · have hrange := mem_linksOf_range parent (start + v.size) more link hmore
        omega

end

theorem mem_linksInside_range (start : Nat) (views : List View) :
    ∀ link ∈ linksInside start views,
      (start ≤ link.1 ∧ link.1 < start + totalSize views) ∧
        start ≤ link.2 ∧ link.2 < start + totalSize views := by
  induction views generalizing start with
  | nil => simp [linksInside]
  | cons v more ih =>
      intro link hlink
      simp only [linksInside, List.mem_append] at hlink
      simp only [totalSize]
      rcases hlink with hinner | hmore
      · have hrange := mem_links_range start v link hinner
        omega
      · have hrange := ih (start + v.size) link hmore
        omega

theorem mem_tops_range (start : Nat) (views : List View) :
    ∀ top ∈ tops start views, start ≤ top ∧ top < start + totalSize views := by
  induction views generalizing start with
  | nil => simp [tops]
  | cons v more ih =>
      intro top htop
      simp only [tops, List.mem_cons] at htop
      simp only [totalSize]
      have hpos := size_pos v
      rcases htop with rfl | hmore
      · omega
      · have hrange := ih (start + v.size) top hmore
        omega

mutual

/-- No node inside a view is linked to two parents. -/
theorem nodup_links (start : Nat) (v : View) : ((v.links start).map Prod.snd).Nodup := by
  cases v with
  | static text => simp [links]
  | binding name => simp [links]
  | element tagName attributes listeners children =>
      exact nodup_linksOf start (start + 1) children

theorem nodup_linksOf (parent start : Nat) (views : List View) :
    ((linksOf parent start views).map Prod.snd).Nodup := by
  cases views with
  | nil => simp [linksOf]
  | cons v more =>
      have hpos := size_pos v
      have hmore : ∀ child ∈ (linksOf parent (start + v.size) more).map Prod.snd,
          start + v.size ≤ child := by
        intro child hchild
        obtain ⟨link, hlink, rfl⟩ := List.mem_map.mp hchild
        exact (mem_linksOf_range parent (start + v.size) more link hlink).2.1
      simp only [linksOf, List.map_append, List.map_cons]
      refine List.nodup_append.mpr ⟨nodup_links start v, List.nodup_cons.mpr ⟨?_, ?_⟩, ?_⟩
      · intro hstart
        have hlow := hmore start hstart
        omega
      · exact nodup_linksOf parent (start + v.size) more
      · intro child hchild other hother
        obtain ⟨link, hlink, rfl⟩ := List.mem_map.mp hchild
        have hrange := (mem_links_range start v link hlink).2
        rcases List.mem_cons.mp hother with rfl | hother
        · omega
        · have hlow := hmore other hother
          omega

end

/-- Linking the topmost nodes last still gives no node two parents. -/
theorem nodup_linksInside_tops (start : Nat) (views : List View) :
    ((linksInside start views).map Prod.snd ++ tops start views).Nodup := by
  induction views generalizing start with
  | nil => simp [linksInside, tops]
  | cons v more ih =>
      have hpos := size_pos v
      have hmore : ∀ child ∈ (linksInside (start + v.size) more).map Prod.snd ++
          tops (start + v.size) more, start + v.size ≤ child := by
        intro child hchild
        rcases List.mem_append.mp hchild with hinner | htop
        · obtain ⟨link, hlink, rfl⟩ := List.mem_map.mp hinner
          exact (mem_linksInside_range (start + v.size) more link hlink).2.1
        · exact (mem_tops_range (start + v.size) more child htop).1
      have hperm : ((linksInside start (v :: more)).map Prod.snd ++ tops start (v :: more)).Perm
          ((v.links start).map Prod.snd ++ start ::
            ((linksInside (start + v.size) more).map Prod.snd ++
              tops (start + v.size) more)) := by
        simp only [linksInside, tops, List.map_append, List.append_assoc]
        exact List.Perm.append_left _ List.perm_middle
      refine hperm.nodup_iff.mpr ?_
      refine List.nodup_append.mpr ⟨nodup_links start v, List.nodup_cons.mpr ⟨?_, ?_⟩, ?_⟩
      · intro hstart
        have hlow := hmore start hstart
        omega
      · exact ih (start + v.size)
      · intro child hchild other hother
        obtain ⟨link, hlink, rfl⟩ := List.mem_map.mp hchild
        have hrange := (mem_links_range start v link hlink).2
        rcases List.mem_cons.mp hother with rfl | hother
        · omega
        · have hlow := hmore other hother
          omega

/-- The rows of views directly inside a node that comes before them. -/
theorem rowsUnder_rowsOf_self (parent start : Nat) (hparent : parent < start)
    (views : List View) : rowsUnder parent (rowsOf (some parent) start views) =
      tops start views := by
  induction views generalizing start with
  | nil => rfl
  | cons v more ih =>
      have hown : rowsUnder parent (v.rows (some parent) start) = [start] := by
        cases v with
        | static text => simp [rows, rowsUnder]
        | binding name => simp [rows, rowsUnder]
        | element tagName attributes listeners children =>
            have hinner : rowsUnder parent (rowsOf (some start) (start + 1) children) = [] := by
              apply rowsUnder_eq_nil
              intro row hrow hparentRow
              rcases (mem_rowsOf_range (some start) (start + 1) children row hrow).2 with
                hself | ⟨i, hi, hlow, _⟩
              · rw [hparentRow, Option.some.injEq] at hself
                omega
              · rw [hparentRow, Option.some.injEq] at hi
                omega
            simpa [rows, rowsUnder] using hinner
      rw [rowsOf, rowsUnder_append, hown, ih (start + v.size) (by omega)]
      rfl

/-- The rows of views outside of all elements. -/
theorem roots_rowsOf (start : Nat) (views : List View) :
    ((rowsOf none start views).filter (·.2.1.isNone)).map (·.1) = tops start views := by
  induction views generalizing start with
  | nil => rfl
  | cons v more ih =>
      have hown : ((v.rows none start).filter (·.2.1.isNone)).map (·.1) = [start] := by
        cases v with
        | static text => simp [rows]
        | binding name => simp [rows]
        | element tagName attributes listeners children =>
            have hinner :
                (rowsOf (some start) (start + 1) children).filter (·.2.1.isNone) = [] := by
              apply List.filter_eq_nil_iff.mpr
              intro row hrow
              rcases (mem_rowsOf_range (some start) (start + 1) children row hrow).2 with
                hself | ⟨i, hi, _⟩
              · simp [hself]
              · simp [hi]
            simp [rows, hinner]
      rw [rowsOf, List.filter_append, List.map_append, hown, ih (start + v.size)]
      rfl

end View

namespace Table

/-- The links that put together what is inside the node at an index, which lies at
most `depth` levels deep. -/
def linksFrom (t : Table) : Nat → Nat → List (Nat × Nat)
  | 0, _ => []
  | depth + 1, index =>
      (rowsUnder index t.rows).flatMap fun child => t.linksFrom depth child ++ [(index, child)]

/-- Among the rows numbered like those of some views, a table has the same parents
as the views. -/
def ParentsAgree (t : Table) (parent : Option Nat) (start : Nat) (views : List View) : Prop :=
  ∀ i, start ≤ i → i < start + View.totalSize views →
    rowsUnder i t.rows = rowsUnder i (View.rowsOf parent start views)

theorem ParentsAgree.head {t : Table} {parent : Option Nat} {start : Nat} {v : View}
    {more : List View} (hparent : ∀ i, parent = some i → i < start)
    (h : t.ParentsAgree parent start (v :: more)) : t.ParentsAgree parent start [v] := by
  intro i hlow hhigh
  simp only [View.totalSize, Nat.add_zero] at hhigh
  rw [h i hlow (by simp only [View.totalSize]; omega)]
  have hmore : rowsUnder i (View.rowsOf parent (start + v.size) more) = [] := by
    apply rowsUnder_eq_nil
    intro row hrow hi
    rcases (View.mem_rowsOf_range parent (start + v.size) more row hrow).2 with
      hself | ⟨j, hj, hjlow, _⟩
    · have hbelow := hparent i (hself.symm.trans hi)
      omega
    · rw [hi, Option.some.injEq] at hj
      omega
  simp only [View.rowsOf, rowsUnder_append, hmore, List.append_nil]

theorem ParentsAgree.tail {t : Table} {parent : Option Nat} {start : Nat} {v : View}
    {more : List View} (hparent : ∀ i, parent = some i → i < start)
    (h : t.ParentsAgree parent start (v :: more)) :
    t.ParentsAgree parent (start + v.size) more := by
  intro i hlow hhigh
  rw [h i (by omega) (by simp only [View.totalSize]; omega)]
  have hown : rowsUnder i (v.rows parent start) = [] := by
    apply rowsUnder_eq_nil
    intro row hrow hi
    rcases (View.mem_rows_range parent start v row hrow).2 with hself | ⟨j, hj, _, hjhigh⟩
    · have hbelow := hparent i (hself.symm.trans hi)
      omega
    · rw [hi, Option.some.injEq] at hj
      omega
  simp only [View.rowsOf, rowsUnder_append, hown, List.nil_append]

theorem ParentsAgree.children {t : Table} {parent : Option Nat} {start : Nat}
    {tagName : Text} {attributes listeners : List (Text × Text)} {children : List View}
    (hparent : ∀ i, parent = some i → i < start)
    (h : t.ParentsAgree parent start [.element tagName attributes listeners children]) :
    t.ParentsAgree (some start) (start + 1) children ∧
      rowsUnder start t.rows = View.tops (start + 1) children := by
  have hrows : ∀ i, start ≤ i → i < start + 1 + View.totalSize children →
      rowsUnder i t.rows =
        rowsUnder i (View.rowsOf (some start) (start + 1) children) := by
    intro i hlow hhigh
    rw [h i hlow (by simp only [View.totalSize, View.size]; omega)]
    have hne : ¬ parent = some i := fun hi => by
      have hbelow := hparent i hi
      omega
    simp [View.rowsOf, View.rows, rowsUnder, hne]
  refine ⟨fun i hlow hhigh => hrows i (by omega) hhigh, ?_⟩
  rw [hrows start (Nat.le_refl _) (by omega),
    View.rowsUnder_rowsOf_self start (start + 1) (by omega)]

mutual

/-- The walk down from a node of the table follows the view that was listed there. -/
theorem linksFrom_eq_links (t : Table) (v : View) {parent : Option Nat} {start depth : Nat}
    (hparent : ∀ i, parent = some i → i < start) (hdepth : v.size ≤ depth)
    (hagree : t.ParentsAgree parent start [v]) :
    t.linksFrom depth start = v.links start := by
  obtain ⟨deeper, rfl⟩ : ∃ deeper, depth = deeper + 1 :=
    ⟨depth - 1, by have := View.size_pos v; omega⟩
  cases v with
  | static text =>
      rw [linksFrom, hagree start (Nat.le_refl _) (by simp [View.totalSize, View.size])]
      have hne : ¬ parent = some start := fun hi => Nat.lt_irrefl _ (hparent start hi)
      simp [View.rowsOf, View.rows, rowsUnder, hne, View.links]
  | binding name =>
      rw [linksFrom, hagree start (Nat.le_refl _) (by simp [View.totalSize, View.size])]
      have hne : ¬ parent = some start := fun hi => Nat.lt_irrefl _ (hparent start hi)
      simp [View.rowsOf, View.rows, rowsUnder, hne, View.links]
  | element tagName attributes listeners children =>
      obtain ⟨hinner, htops⟩ := hagree.children hparent
      rw [linksFrom, htops, View.links]
      simp only [View.size] at hdepth
      exact linksFrom_eq_linksOf t children (by simp) (by omega) hinner

theorem linksFrom_eq_linksOf (t : Table) (views : List View) {parent start depth : Nat}
    (hparent : parent < start) (hdepth : View.totalSize views ≤ depth)
    (hagree : t.ParentsAgree (some parent) start views) :
    ((View.tops start views).flatMap fun child => t.linksFrom depth child ++ [(parent, child)]) =
      View.linksOf parent start views := by
  cases views with
  | nil => rfl
  | cons v more =>
      have hbelow : ∀ i, some parent = some i → i < start := by
        intro i hi
        rw [← Option.some.inj hi]
        exact hparent
      simp only [View.totalSize] at hdepth
      simp only [View.tops, List.flatMap_cons, View.linksOf, List.append_assoc,
        List.singleton_append]
      rw [linksFrom_eq_links t v hbelow (by omega) (hagree.head hbelow),
        linksFrom_eq_linksOf t more (by omega) (by omega) (hagree.tail hbelow)]

end

theorem linksFrom_eq_linksInside (t : Table) (views : List View) {start depth : Nat}
    (hdepth : View.totalSize views ≤ depth) (hagree : t.ParentsAgree none start views) :
    (View.tops start views).flatMap (t.linksFrom depth) = View.linksInside start views := by
  induction views generalizing start with
  | nil => rfl
  | cons v more ih =>
      have hbelow : ∀ i, (none : Option Nat) = some i → i < start := by simp
      simp only [View.totalSize] at hdepth
      simp only [View.tops, List.flatMap_cons, View.linksInside]
      rw [linksFrom_eq_links t v hbelow (by omega) (hagree.head hbelow),
        ih (by omega) (hagree.tail hbelow)]

end Table

end Component
