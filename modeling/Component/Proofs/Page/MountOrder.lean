/-
The order in which `mount` appends the nodes of a table.

A node has one parent at most and a root has none, so a walk that goes from a root to
children never comes back to a node, even in a table in which other nodes are inside
themselves.  The walk ends, and it appends what it meets once, to its parent, when all
that belongs inside it is in place.
-/
import Component.Proofs.Page.Mounting
import Mathlib.Data.List.Perm.Subperm
import Mathlib.Logic.Relation

namespace Component

namespace Table

/-- The nodes that lie a number of levels below a root. -/
inductive AtLevel (t : Table) : Nat → Node → Prop where
  | root {n : Node} (hn : n ∈ t.roots) : AtLevel t 0 n
  | child {level : Nat} {parent n : Node} (hparent : AtLevel t level parent)
      (hn : n ∈ t.childrenOf parent.index) : AtLevel t (level + 1) n

/-- The nodes that children of children of a root lead to. -/
def Reached (t : Table) (n : Node) : Prop := ∃ level, t.AtLevel level n

/-- A node is another one, or lies inside it at some depth. -/
def Encloses (t : Table) (outer inner : Node) : Prop :=
  Relation.ReflTransGen (fun parent child => child ∈ t.childrenOf parent.index) outer inner

variable {t : Table} {level depth : Nat} {n m c : Node}

theorem mem_roots : n ∈ t.roots ↔ n ∈ t.nodes ∧ n.parent = none := by
  simp [roots]

theorem mem_childrenOf {index : Nat} :
    n ∈ t.childrenOf index ↔ n ∈ t.nodes ∧ n.parent = some index := by
  simp [childrenOf]

theorem Numbered.eq_of_index_eq (h : t.Numbered) (hn : n ∈ t.nodes) (hm : m ∈ t.nodes)
    (heq : n.index = m.index) : n = m := by
  have hsame := h.get?_of_mem hn
  rw [heq, h.get?_of_mem hm] at hsame
  exact (Option.some.inj hsame).symm

theorem Numbered.pairwise (h : t.Numbered) : t.nodes.Pairwise (·.index < ·.index) := by
  rw [List.pairwise_iff_getElem]
  intro i j hi hj hlt
  rwa [h.index_eq i _ (List.getElem?_eq_getElem hi), h.index_eq j _ (List.getElem?_eq_getElem hj)]

theorem Numbered.nodup (h : t.Numbered) : t.nodes.Nodup := by
  refine h.pairwise.imp ?_
  rintro first second hlt rfl
  exact Nat.lt_irrefl _ hlt

theorem Numbered.variables_nodup (h : t.Numbered) : (t.nodes.map Node.variable).Nodup := by
  rw [List.nodup_map_iff_inj_on h.nodup]
  intro first hfirst second hsecond heq
  exact h.eq_of_index_eq hfirst hsecond (Node.index_eq_of_variable_eq heq)

/-! ### Levels -/

theorem AtLevel.mem (h : t.AtLevel level n) : n ∈ t.nodes := by
  cases h with
  | root hn => exact (mem_roots.1 hn).1
  | child _ hn => exact (mem_childrenOf.1 hn).1

/-- A node lies on one level only, since it is led to from its parent only. -/
theorem AtLevel.unique (ht : t.Numbered) (h : t.AtLevel level n) {level' : Nat}
    (h' : t.AtLevel level' n) : level = level' := by
  induction h generalizing level' with
  | root hn =>
      have hnone := (mem_roots.1 hn).2
      cases h' with
      | root _ => rfl
      | child _ hchild =>
          rw [(mem_childrenOf.1 hchild).2] at hnone
          cases hnone
  | @child level parent n hparent hn ih =>
      have hsome := (mem_childrenOf.1 hn).2
      cases h' with
      | root hroot =>
          rw [(mem_roots.1 hroot).2] at hsome
          cases hsome
      | @child _ parent' _ hparent' hn' =>
          rw [(mem_childrenOf.1 hn').2, Option.some.injEq] at hsome
          obtain rfl := ht.eq_of_index_eq hparent'.mem hparent.mem hsome
          rw [ih hparent']

theorem AtLevel.encloses (h : t.AtLevel level n) (hm : t.Encloses n m) :
    ∃ level', level ≤ level' ∧ t.AtLevel level' m := by
  induction hm with
  | refl => exact ⟨level, Nat.le_refl _, h⟩
  | tail _ hchild ih =>
      obtain ⟨level', hle, hlevel⟩ := ih
      exact ⟨level' + 1, Nat.le_succ_of_le hle, .child hlevel hchild⟩

/-- No node that a root leads to is inside one of its own children. -/
theorem AtLevel.not_encloses (ht : t.Numbered) (h : t.AtLevel level n)
    (hc : c ∈ t.childrenOf n.index) : ¬ t.Encloses c n := by
  intro hback
  obtain ⟨level', hle, hlevel⟩ := (AtLevel.child h hc).encloses hback
  have hsame := h.unique ht hlevel
  omega

/-- Two nodes of one level that enclose the same node are the same. -/
theorem AtLevel.eq_of_encloses (ht : t.Numbered) {first second : Node}
    (hfirst : t.AtLevel level first) (hsecond : t.AtLevel level second)
    (h : t.Encloses first m) (h' : t.Encloses second m) : first = second := by
  induction h with
  | refl =>
      rcases Relation.ReflTransGen.cases_tail h' with rfl | ⟨p, hp, hchild⟩
      · rfl
      · obtain ⟨level', hle, hlevel⟩ := hsecond.encloses hp
        have hsame := hfirst.unique ht (.child hlevel hchild)
        omega
  | @tail p m hp hchild ih =>
      obtain ⟨level', hle, hlevel⟩ := hfirst.encloses hp
      rcases Relation.ReflTransGen.cases_tail h' with rfl | ⟨p', hp', hchild'⟩
      · have hsame := hsecond.unique ht (.child hlevel hchild)
        omega
      · obtain ⟨_, _, hlevel'⟩ := hsecond.encloses hp'
        have hparent := (mem_childrenOf.1 hchild).2
        rw [(mem_childrenOf.1 hchild').2, Option.some.injEq] at hparent
        obtain rfl := ht.eq_of_index_eq hlevel'.mem hlevel.mem hparent
        exact ih hp'

/-- There are more nodes than levels above a node, since each of these has another node. -/
theorem AtLevel.lt_length (ht : t.Numbered) (h : t.AtLevel level n) : level < t.nodes.length := by
  have hchain : ∃ chain : List Node, chain.length = level + 1 ∧ chain.Nodup ∧
      ∀ m ∈ chain, ∃ level', level' ≤ level ∧ t.AtLevel level' m := by
    induction h with
    | @root n hn =>
        refine ⟨[n], rfl, List.nodup_singleton n, fun m hm => ?_⟩
        rw [List.mem_singleton.1 hm]
        exact ⟨0, Nat.le_refl _, .root hn⟩
    | @child level parent n hparent hn ih =>
        obtain ⟨chain, hlength, hnodup, hlevels⟩ := ih
        have hlevel := AtLevel.child hparent hn
        refine ⟨n :: chain, by rw [List.length_cons, hlength], List.nodup_cons.2 ⟨?_, hnodup⟩, ?_⟩
        · intro hmem
          obtain ⟨level', hle, hlevel'⟩ := hlevels n hmem
          have hsame := hlevel.unique ht hlevel'
          omega
        · intro m hm
          rcases List.mem_cons.1 hm with rfl | hm
          · exact ⟨level + 1, Nat.le_refl _, hlevel⟩
          · obtain ⟨level', hle, hlevel'⟩ := hlevels m hm
            exact ⟨level', Nat.le_succ_of_le hle, hlevel'⟩
  obtain ⟨chain, hlength, hnodup, hlevels⟩ := hchain
  have hsubset : chain ⊆ t.nodes := fun m hm => (hlevels m hm).choose_spec.2.mem
  have hle := (List.subperm_of_subset hnodup hsubset).length_le
  omega

/-- If parents come before their children, every node is led to from a root. -/
theorem Numbered.reached (ht : t.Numbered)
    (hbefore : ∀ n ∈ t.nodes, ∀ p, n.parent = some p → p < n.index) (hn : n ∈ t.nodes) :
    t.Reached n := by
  induction hindex : n.index using Nat.strongRecOn generalizing n with
  | ind index ih =>
      cases hparent : n.parent with
      | none => exact ⟨0, .root (mem_roots.2 ⟨hn, hparent⟩)⟩
      | some p =>
          have hp := List.getElem?_eq_getElem (ht.parent_lt n hn p hparent)
          have hindex' := ht.index_eq p _ hp
          obtain ⟨level, hlevel⟩ :=
            ih p (hindex ▸ hbefore n hn p hparent) (List.mem_of_getElem? hp) hindex'
          exact ⟨level + 1, .child hlevel (mem_childrenOf.2 ⟨hn, by rw [hparent, hindex']⟩)⟩

end Table

namespace Lifecycle

open Code

/-- The walk over the children of a node that are left ends, with these statements.  It
knows no bound on its depth. -/
inductive Attaches (t : Table) : Node → List Node → List Stmt → Prop where
  | done {n : Node} : Attaches t n [] []
  | child {n c : Node} {more : List Node} {inner rest : List Stmt}
      (hinner : Attaches t c (t.childrenOf c.index) inner) (hrest : Attaches t n more rest) :
      Attaches t n (c :: more)
        (inner ++ append (.name n.variable) (.name c.variable) :: rest)

/-- One `appendChild`: to a node, or to the mount point if there is none. -/
structure Append where
  receiver : Option Node
  child : Node
deriving Repr, DecidableEq

/-- The statement of an append. -/
def Append.statement (a : Append) : Stmt :=
  match a.receiver with
  | some parent => append (.name parent.variable) (.name a.child.variable)
  | none => append target (.name a.child.variable)

/-- The appends that put together what is inside a node, down to `depth` levels. -/
def appendsInside (t : Table) : Nat → Node → List Append
  | 0, _ => []
  | depth + 1, n =>
      (t.childrenOf n.index).flatMap fun child => appendsInside t depth child ++ [⟨some n, child⟩]

/-- The appends that put together what is inside the roots. -/
def appendsBelow (t : Table) : List Append := t.roots.flatMap (appendsInside t t.nodes.length)

/-- All appends of `mount`, in order. -/
def appends (t : Table) : List Append := appendsBelow t ++ t.roots.map (⟨none, ·⟩)

/-- What holds of an append and a later one: another node is appended, nothing is
appended any more to the one that was, and siblings go by their numbers. -/
structure Append.Before (a b : Append) : Prop where
  other : a.child ≠ b.child
  complete : b.receiver ≠ some a.child
  siblings : a.receiver = b.receiver → a.child.index < b.child.index

variable {t : Table} {level depth : Nat} {n c : Node} {a b : Append}

theorem map_statement_appendsInside (ht : t.Numbered) (depth : Nat) (hn : n ∈ t.nodes) :
    (appendsInside t depth n).map Append.statement = attach t depth n := by
  induction depth generalizing n with
  | zero => rfl
  | succ depth ih =>
      rw [appendsInside, attach, List.map_flatMap]
      apply List.flatMap_congr
      intro child hchild
      have hmem := (Table.mem_childrenOf.1 hchild).1
      rw [List.map_append, ih hmem, ht.nodeName_eq hn, ht.nodeName_eq hmem]
      rfl

theorem map_statement_appends (ht : t.Numbered) : (appends t).map Append.statement = mount t := by
  rw [appends, appendsBelow, mount, List.map_append, List.map_flatMap, List.map_map]
  congr 1
  · apply List.flatMap_congr
    intro root hroot
    exact map_statement_appendsInside ht t.nodes.length (Table.mem_roots.1 hroot).1
  · apply List.map_congr_left
    intro root hroot
    rw [ht.nodeName_eq (Table.mem_roots.1 hroot).1]
    rfl

/-- Below a root the walk ends before the bound on its depth is met. -/
theorem attaches (ht : t.Numbered) (hn : t.AtLevel level n)
    (hdepth : t.nodes.length ≤ level + depth) :
    Attaches t n (t.childrenOf n.index) (attach t depth n) := by
  induction depth generalizing level n with
  | zero =>
      have hlt := hn.lt_length ht
      omega
  | succ depth ih =>
      have hloop : ∀ children ⊆ t.childrenOf n.index, Attaches t n children
          (children.flatMap fun child =>
            attach t depth child ++ [append (nodeName t n) (nodeName t child)]) := by
        intro children hchildren
        induction children with
        | nil => exact .done
        | cons child more ihmore =>
            have hchild := (Table.mem_childrenOf.1 (hchildren List.mem_cons_self)).1
            rw [List.flatMap_cons, List.append_assoc, List.singleton_append,
              ht.nodeName_eq hn.mem, ht.nodeName_eq hchild]
            rw [ht.nodeName_eq hn.mem] at ihmore
            refine .child (ih (.child hn (hchildren List.mem_cons_self)) (by omega)) ?_
            exact ihmore (List.subset_of_cons_subset hchildren)
      exact hloop _ (List.Subset.refl _)

theorem endsWithin_of_atLevel (ht : t.Numbered) (hn : t.AtLevel level n)
    (hdepth : t.nodes.length ≤ level + depth) : endsWithin t depth n = true := by
  induction depth generalizing level n with
  | zero =>
      have hlt := hn.lt_length ht
      omega
  | succ depth ih =>
      refine List.all_eq_true.2 fun child hchild => ih (.child hn hchild) ?_
      omega

/-- No code is missing for a table whose nodes are numbered by their places. -/
theorem isIndexed_of_numbered (ht : t.Numbered)
    (hlisteners : ∀ l ∈ t.listeners, l.node < t.nodes.length) : isIndexed t = true := by
  simp only [isIndexed, Bool.and_eq_true, List.all_eq_true, decide_eq_true_eq, Option.all_eq_true]
  refine ⟨⟨fun n hn => ⟨?_, ht.parent_lt n hn⟩, hlisteners⟩, fun root hroot => ?_⟩
  · exact (List.getElem?_eq_some_iff.1 (ht.get?_of_mem hn)).1
  · exact endsWithin_of_atLevel ht (.root hroot) (Nat.le_add_left _ _)

/-! ### What is appended where -/

theorem receiver_of_mem_appendsInside (ha : a ∈ appendsInside t depth n) :
    ∃ p, a.receiver = some p ∧ t.Encloses n p ∧ a.child ∈ t.childrenOf p.index := by
  induction depth generalizing n with
  | zero => cases ha
  | succ depth ih =>
      obtain ⟨child, hchild, hmem⟩ := List.mem_flatMap.1 ha
      rcases List.mem_append.1 hmem with hinside | hlast
      · obtain ⟨p, hreceiver, hp, hown⟩ := ih hinside
        exact ⟨p, hreceiver, .head hchild hp, hown⟩
      · rw [List.mem_singleton.1 hlast]
        exact ⟨n, rfl, .refl, hchild⟩

theorem mem_appendsInside (ht : t.Numbered) (hn : t.AtLevel level n)
    (hdepth : t.nodes.length ≤ level + depth) {p : Node} (hp : t.Encloses n p)
    (hc : c ∈ t.childrenOf p.index) : ⟨some p, c⟩ ∈ appendsInside t depth n := by
  induction depth generalizing level n with
  | zero =>
      have hlt := hn.lt_length ht
      omega
  | succ depth ih =>
      refine List.mem_flatMap.2 ?_
      rcases Relation.ReflTransGen.cases_head hp with rfl | ⟨child, hchild, hinside⟩
      · exact ⟨c, hc, List.mem_append_right _ List.mem_cons_self⟩
      · exact ⟨child, hchild, List.mem_append_left _ (ih (.child hn hchild) (by omega) hinside)⟩

/-- Appends in two different nodes of one level have nothing to do with each other. -/
theorem before_of_apart (ht : t.Numbered) {first second p q : Node}
    (hfirst : t.AtLevel level first) (hsecond : t.AtLevel level second) (hne : first ≠ second)
    (hp : t.Encloses first p) (hq : t.Encloses second q) (ha : t.Encloses first a.child)
    (hb : t.Encloses second b.child) (hreceiver : a.receiver = some p)
    (hreceiver' : b.receiver = some q) : a.Before b where
  other heq := hne (hfirst.eq_of_encloses ht hsecond ha (heq ▸ hb))
  complete heq := by
    rw [hreceiver', Option.some.injEq] at heq
    exact hne (hfirst.eq_of_encloses ht hsecond ha (heq ▸ hq))
  siblings heq := by
    rw [hreceiver, hreceiver', Option.some.injEq] at heq
    exact absurd (hfirst.eq_of_encloses ht hsecond hp (heq ▸ hq)) hne

theorem encloses_child {p : Node} (hp : t.Encloses n p) (hc : c ∈ t.childrenOf p.index) :
    t.Encloses n c :=
  hp.tail hc

/-- What is inside a child is appended before the child is. -/
theorem before_own_append (ht : t.Numbered) (hn : t.AtLevel level n)
    (hc : c ∈ t.childrenOf n.index) (ha : a ∈ appendsInside t depth c) : a.Before ⟨some n, c⟩ := by
  obtain ⟨p, hreceiver, hp, hchild⟩ := receiver_of_mem_appendsInside ha
  have hback := hn.not_encloses ht hc
  refine ⟨fun heq => ?_, fun heq => ?_, fun heq => ?_⟩
  · obtain ⟨_, _, hlevel⟩ := (Table.AtLevel.child hn hc).encloses hp
    exact hlevel.not_encloses ht hchild (heq ▸ hp)
  · rw [Option.some.injEq] at heq
    exact hback (heq ▸ encloses_child hp hchild)
  · rw [hreceiver, Option.some.injEq] at heq
    exact absurd (heq ▸ hp) hback

/-- The appends in a child come before those in a later sibling, and so does the one of
the child itself. -/
theorem before_of_siblings (ht : t.Numbered) (hn : t.AtLevel level n) {first second : Node}
    (hfirst : first ∈ t.childrenOf n.index) (hsecond : second ∈ t.childrenOf n.index)
    (hlt : first.index < second.index)
    (ha : a ∈ appendsInside t depth first ++ [⟨some n, first⟩])
    (hb : b ∈ appendsInside t depth second ++ [⟨some n, second⟩]) : a.Before b := by
  have hne : first ≠ second := by
    rintro rfl
    exact Nat.lt_irrefl _ hlt
  have hlevel := Table.AtLevel.child hn hfirst
  have hlevel' := Table.AtLevel.child hn hsecond
  rcases List.mem_append.1 ha with ha | ha <;> rcases List.mem_append.1 hb with hb | hb
  · obtain ⟨p, hreceiver, hp, hchild⟩ := receiver_of_mem_appendsInside ha
    obtain ⟨q, hreceiver', hq, hchild'⟩ := receiver_of_mem_appendsInside hb
    exact before_of_apart ht hlevel hlevel' hne hp hq (encloses_child hp hchild)
      (encloses_child hq hchild') hreceiver hreceiver'
  · obtain ⟨p, hreceiver, hp, hchild⟩ := receiver_of_mem_appendsInside ha
    rw [List.mem_singleton.1 hb]
    have hinside := encloses_child hp hchild
    refine ⟨fun (heq : a.child = second) => ?_, fun heq => ?_, fun heq => ?_⟩
    · exact hne (hlevel.eq_of_encloses ht hlevel' (heq ▸ hinside) .refl)
    · exact hn.not_encloses ht hfirst (Option.some.inj heq ▸ hinside)
    · rw [hreceiver, Option.some.injEq] at heq
      exact absurd (heq ▸ hp) (hn.not_encloses ht hfirst)
  · obtain ⟨q, hreceiver', hq, hchild'⟩ := receiver_of_mem_appendsInside hb
    rw [List.mem_singleton.1 ha]
    refine ⟨fun (heq : first = b.child) => ?_, fun (heq : b.receiver = some first) => ?_,
      fun heq => ?_⟩
    · exact hne (hlevel.eq_of_encloses ht hlevel' .refl (heq ▸ encloses_child hq hchild'))
    · rw [hreceiver', Option.some.injEq] at heq
      exact hne (hlevel.eq_of_encloses ht hlevel' .refl (heq ▸ hq))
    · rw [hreceiver', Option.some.injEq] at heq
      exact absurd (heq ▸ hq) (hn.not_encloses ht hsecond)
  · rw [List.mem_singleton.1 ha, List.mem_singleton.1 hb]
    refine ⟨hne, fun heq => ?_, fun _ => hlt⟩
    exact hn.not_encloses ht hfirst (Option.some.inj heq ▸ .refl)

theorem appendsInside_pairwise (ht : t.Numbered) (hn : t.AtLevel level n) :
    (appendsInside t depth n).Pairwise Append.Before := by
  induction depth generalizing level n with
  | zero => exact List.Pairwise.nil
  | succ depth ih =>
      refine List.pairwise_flatMap.2 ⟨fun child hchild => ?_, ?_⟩
      · refine List.pairwise_append.2
          ⟨ih (.child hn hchild), List.pairwise_singleton _ _, fun a ha b hb => ?_⟩
        rw [List.mem_singleton.1 hb]
        exact before_own_append ht hn hchild ha
      · have hordered : (t.childrenOf n.index).Pairwise (·.index < ·.index) :=
          ht.pairwise.filter _
        refine hordered.imp_of_mem fun hfirst hsecond hlt a ha b hb => ?_
        exact before_of_siblings ht hn hfirst hsecond hlt ha hb

theorem mem_appendsBelow (ha : a ∈ appendsBelow t) :
    ∃ root ∈ t.roots, ∃ p, a.receiver = some p ∧ t.Encloses root p ∧
      a.child ∈ t.childrenOf p.index := by
  obtain ⟨root, hroot, hmem⟩ := List.mem_flatMap.1 ha
  exact ⟨root, hroot, receiver_of_mem_appendsInside hmem⟩

theorem appends_pairwise (ht : t.Numbered) : (appends t).Pairwise Append.Before := by
  have hordered : t.roots.Pairwise (·.index < ·.index) := ht.pairwise.filter _
  refine List.pairwise_append.2 ⟨List.pairwise_flatMap.2 ⟨fun root hroot => ?_, ?_⟩, ?_, ?_⟩
  · exact appendsInside_pairwise ht (.root hroot)
  · refine hordered.imp_of_mem fun {first second} hfirst hsecond hlt a ha b hb => ?_
    have hne : first ≠ second := by
      rintro rfl
      exact Nat.lt_irrefl _ hlt
    obtain ⟨p, hreceiver, hp, hchild⟩ := receiver_of_mem_appendsInside ha
    obtain ⟨q, hreceiver', hq, hchild'⟩ := receiver_of_mem_appendsInside hb
    exact before_of_apart ht (.root hfirst) (.root hsecond) hne hp hq (encloses_child hp hchild)
      (encloses_child hq hchild') hreceiver hreceiver'
  · refine List.pairwise_map.2 (hordered.imp fun {first second} hlt => ⟨?_, ?_, fun _ => hlt⟩)
    · rintro rfl
      exact Nat.lt_irrefl _ hlt
    · intro heq
      cases heq
  · intro a ha b hb
    obtain ⟨root, hroot, rfl⟩ := List.mem_map.1 hb
    obtain ⟨_, _, p, hreceiver, _, hchild⟩ := mem_appendsBelow ha
    refine ⟨fun heq => ?_, fun heq => ?_, fun heq => ?_⟩
    · have hparent := (Table.mem_childrenOf.1 hchild).2
      rw [heq, (Table.mem_roots.1 hroot).2] at hparent
      cases hparent
    · cases heq
    · rw [hreceiver] at heq
      cases heq

theorem mem_map_child_appends (ht : t.Numbered) :
    n ∈ (appends t).map Append.child ↔ t.Reached n := by
  constructor
  · intro hn
    obtain ⟨a, ha, rfl⟩ := List.mem_map.1 hn
    rcases List.mem_append.1 ha with hbelow | hlast
    · obtain ⟨root, hroot, p, _, hp, hchild⟩ := mem_appendsBelow hbelow
      obtain ⟨level, _, hlevel⟩ := (Table.AtLevel.root hroot).encloses hp
      exact ⟨level + 1, .child hlevel hchild⟩
    · obtain ⟨root, hroot, rfl⟩ := List.mem_map.1 hlast
      exact ⟨0, .root hroot⟩
  · rintro ⟨level, hn⟩
    -- The walk begins at the root above the node.
    have habove : ∀ {level n}, t.AtLevel level n → ∃ root ∈ t.roots, t.Encloses root n := by
      intro level n hn
      induction hn with
      | @root n hn => exact ⟨n, hn, .refl⟩
      | child _ hn ih =>
          obtain ⟨root, hroot, hp⟩ := ih
          exact ⟨root, hroot, encloses_child hp hn⟩
    cases hn with
    | root hn =>
        exact List.mem_map.2 ⟨⟨none, n⟩, List.mem_append_right _ (List.mem_map_of_mem hn), rfl⟩
    | @child _ parent _ hparent hn =>
        obtain ⟨root, hroot, hp⟩ := habove hparent
        have hmem := mem_appendsInside ht (.root hroot) (Nat.le_add_left _ _) hp hn
        refine List.mem_map.2 ⟨⟨some parent, n⟩, List.mem_append_left _ ?_, rfl⟩
        exact List.mem_flatMap.2 ⟨root, hroot, hmem⟩

theorem receiver_of_mem_appends (ha : a ∈ appends t) :
    a.receiver.map Node.index = a.child.parent ∧ ∀ p ∈ a.receiver, t.Reached p := by
  rcases List.mem_append.1 ha with hbelow | hlast
  · obtain ⟨root, hroot, p, hreceiver, hp, hchild⟩ := mem_appendsBelow hbelow
    obtain ⟨level, _, hlevel⟩ := (Table.AtLevel.root hroot).encloses hp
    rw [hreceiver, (Table.mem_childrenOf.1 hchild).2]
    refine ⟨rfl, fun q hq => ?_⟩
    rw [← Option.some.inj hq]
    exact ⟨level, hlevel⟩
  · obtain ⟨root, hroot, rfl⟩ := List.mem_map.1 hlast
    exact ⟨(Table.mem_roots.1 hroot).2.symm, by simp⟩

theorem receiver_ne_child (ht : t.Numbered) (ha : a ∈ appends t) : a.receiver ≠ some a.child := by
  intro heq
  obtain ⟨hparent, hreached⟩ := receiver_of_mem_appends ha
  obtain ⟨level, hlevel⟩ := hreached a.child heq
  rw [heq, Option.map_some] at hparent
  exact hlevel.not_encloses ht (Table.mem_childrenOf.2 ⟨hlevel.mem, hparent.symm⟩) .refl

/-- How a list of appends puts a table together. -/
structure Assembles (t : Table) (appends : List Append) : Prop where
  /-- The roots go to the mount point last of all, each once, by their numbers. -/
  roots_last : (∃ below, appends = below ++ t.roots.map (⟨none, ·⟩) ∧
    ∀ a ∈ below, a.receiver ≠ none) ∧ t.roots.Pairwise (·.index < ·.index)
  /-- Nodes go to their parents. -/
  to_parent : ∀ a ∈ appends, a.receiver.map Node.index = a.child.parent ∧
    ∀ p ∈ a.receiver, p ∈ t.nodes
  /-- What a root leads to is appended once, and nothing else is. -/
  once : ∀ n, (t.Reached n → (appends.map Append.child).count n = 1) ∧
    (¬ t.Reached n → n ∉ appends.map Append.child)
  /-- All appends to a node come before the append of the node. -/
  children_first : ∀ (i j : Nat) (a b : Append), appends[i]? = some a → appends[j]? = some b →
    b.receiver = some a.child → j < i
  /-- Nodes with the same receiver go by their numbers. -/
  siblings : ∀ (i j : Nat) (a b : Append), appends[i]? = some a → appends[j]? = some b → i < j →
    a.receiver = b.receiver → a.child.index < b.child.index

theorem before_of_lt (ht : t.Numbered) {i j : Nat} (ha : (appends t)[i]? = some a)
    (hb : (appends t)[j]? = some b) (hlt : i < j) : a.Before b := by
  obtain ⟨hi, rfl⟩ := List.getElem?_eq_some_iff.1 ha
  obtain ⟨hj, rfl⟩ := List.getElem?_eq_some_iff.1 hb
  exact List.pairwise_iff_getElem.1 (appends_pairwise ht) i j hi hj hlt

theorem nodup_map_child_appends (ht : t.Numbered) : ((appends t).map Append.child).Nodup :=
  List.pairwise_map.2 ((appends_pairwise ht).imp Append.Before.other)

theorem assembles_appends (ht : t.Numbered) : Assembles t (appends t) where
  roots_last := by
    refine ⟨⟨appendsBelow t, rfl, fun a ha hnone => ?_⟩, ht.pairwise.filter _⟩
    obtain ⟨_, _, p, hreceiver, _⟩ := mem_appendsBelow ha
    rw [hreceiver] at hnone
    cases hnone
  to_parent a ha := by
    obtain ⟨hparent, hreached⟩ := receiver_of_mem_appends ha
    exact ⟨hparent, fun p hp => (hreached p hp).choose_spec.mem⟩
  once n := by
    rw [← mem_map_child_appends ht]
    exact ⟨List.count_eq_one_of_mem (nodup_map_child_appends ht), id⟩
  children_first i j a b ha hb hreceiver := by
    rcases Nat.lt_trichotomy j i with hlt | rfl | hlt
    · exact hlt
    · obtain rfl := Option.some.inj (ha.symm.trans hb)
      exact absurd hreceiver (receiver_ne_child ht (List.mem_of_getElem? ha))
    · exact absurd hreceiver (before_of_lt ht ha hb hlt).complete
  siblings _ _ _ _ ha hb hlt := (before_of_lt ht ha hb hlt).siblings

/-- The walk of `mount` from the roots ends, also in a table in which nodes that no root
leads to are inside themselves.  The body of `mount` is a list of appends to the variables
of the nodes, which are all different, and it puts together what the roots lead to: every
node goes to its parent once, after all that goes into it and after its siblings with
smaller numbers, and the roots come last.  If parents come before their children, every
node of the table is appended once. -/
theorem mount_assembles_children_first (t : Table) (ht : t.Numbered) :
    (∀ n, t.Reached n → Attaches t n (t.childrenOf n.index) (attach t t.nodes.length n)) ∧
    mount t = (appends t).map Append.statement ∧ (t.nodes.map Node.variable).Nodup ∧
    Assembles t (appends t) ∧
    ((∀ n ∈ t.nodes, ∀ p, n.parent = some p → p < n.index) →
      ((appends t).map Append.child).Perm t.nodes) := by
  refine ⟨?_, (map_statement_appends ht).symm, ht.variables_nodup, assembles_appends ht, ?_⟩
  · rintro n ⟨level, hn⟩
    exact attaches ht hn (Nat.le_add_left _ _)
  · intro hbefore
    rw [List.perm_ext_iff_of_nodup (nodup_map_child_appends ht) ht.nodup]
    intro n
    rw [mem_map_child_appends ht]
    exact ⟨fun ⟨_, hn⟩ => hn.mem, ht.reached hbefore⟩

namespace MountOrderWitness

/-- A list with two items, one of which holds a text, and two further elements that are
inside each other. -/
def table : Table :=
  ⟨[⟨0, none, .element "ul" [], .empty 0⟩, ⟨1, some 0, .element "li" [], .empty 0⟩,
    ⟨2, some 1, .staticText "a", .empty 0⟩, ⟨3, some 4, .element "i" [], .empty 0⟩,
    ⟨4, some 3, .element "b" [], .empty 0⟩, ⟨5, some 0, .element "li" [], .empty 0⟩], []⟩

end MountOrderWitness

open MountOrderWitness in
theorem list_mounted_beside_cycle :
    table.Numbered ∧ mount table = (appends table).map Append.statement ∧
      ((appends table).map fun a => (a.receiver.map Node.index, a.child.index)) =
        [(some 1, 2), (some 0, 1), (some 0, 5), (none, 0)] ∧
      Assembles table (appends table) := by
  have numbered : table.Numbered := by decide
  obtain ⟨-, hmount, -, hassembles, -⟩ := mount_assembles_children_first table numbered
  exact ⟨numbered, hmount, by decide, hassembles⟩

end Lifecycle

end Component
