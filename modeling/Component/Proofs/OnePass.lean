/-
The body of the factory as one pass over a script.

Emitting a component sorts the items of its script into imports, properties and statements,
and puts the last two together again by where they begin.  Read from left to right, the items
of a script in order give the same body, one after another.
-/
import Component.Proofs.Extraction
import Component.Proofs.Relocation
import Mathlib.Data.List.Pairwise
import Mathlib.Data.List.Perm.Basic

namespace Component

open Code (BodyItem)
open Markup (OrderedWithin)
open Lifecycle (applyDefault emit factoryBody orderByStart)
open Script (Item Declarator)

/-! ### One pass over items -/

/-- What a declarator that is exported leaves in the body: a default value, if it has one. -/
def Script.Declarator.walk (script : Text) (d : Declarator) : List BodyItem :=
  match d.pattern, d.initializer with
  | .name name, some value =>
      [.stmt (.ifThen (.same (.name name) (.name "undefined"))
        [.expr (.assign (.name name) (.raw (value.read script)))])]
  | _, _ => []

/-- What an item leaves in the body.  Imports leave nothing, and exports what their declarators
leave; any other item is copied. -/
def Script.Item.walk (script : Text) (item : Item) : List BodyItem :=
  if item.isExport then item.exported.flatMap (·.walk script)
  else if item.isImport then [] else [.verbatim (item.span.read script)]

/-! ### Sorting what is in order -/

section Sorting

variable {α β : Type}

theorem Lifecycle.orderByStart_eq {items sorted : List (Nat × α)} (hperm : items.Perm sorted)
    (hsorted : sorted.Pairwise fun first second => first.1 < second.1) :
    orderByStart items = sorted := by
  rw [orderByStart_eq_insertionSort]
  have : Std.Total fun first second : Nat × α => first.1 ≤ second.1 :=
    ⟨fun first second => Nat.le_total first.1 second.1⟩
  have : IsTrans (Nat × α) fun first second => first.1 ≤ second.1 :=
    ⟨fun _ _ _ => Nat.le_trans⟩
  have hall := (List.perm_insertionSort (fun first second => first.1 ≤ second.1) items).trans hperm
  apply List.Perm.eq_of_pairwise ?_ (List.pairwise_insertionSort _ items)
    (hsorted.imp Nat.le_of_lt) hall
  -- Entries that start together are the same, since no two in the list do.
  intro first second hfirst hsecond hle hge
  by_contra hne
  have hapart : sorted.Pairwise fun a b => a.1 ≠ b.1 := hsorted.imp Nat.ne_of_lt
  have : Std.Symm fun a b : Nat × α => a.1 ≠ b.1 := ⟨fun _ _ h => h.symm⟩
  exact hapart.forall (hall.mem_iff.1 hfirst) hsecond hne (Nat.le_antisymm hle hge)

theorem Markup.OrderedWithin.bounds {first last : Nat} {spans : List Span}
    (h : OrderedWithin first last spans) {span : Span} (hspan : span ∈ spans) :
    first ≤ span.start ∧ span.start < span.stop ∧ span.stop ≤ last := by
  induction spans generalizing first with
  | nil => cases hspan
  | cons next more ih =>
      obtain ⟨hfirst, hlt, hmore⟩ := h
      rcases List.mem_cons.1 hspan with rfl | hspan
      · exact ⟨hfirst, hlt, hmore.le⟩
      · have := ih hmore hspan
        omega

/-- Entries that stand inside spans in order are in order. -/
theorem pairwise_flatMap {span : α → Span} {f : α → List (Nat × β)} {base first last : Nat}
    {xs : List α} (h : OrderedWithin first last (xs.map span))
    (hf : ∀ x ∈ xs, (f x).Pairwise (fun a b => a.1 < b.1) ∧
      ∀ e ∈ f x, base + (span x).start ≤ e.1 ∧ e.1 < base + (span x).stop) :
    (xs.flatMap f).Pairwise (fun a b => a.1 < b.1) ∧
      ∀ e ∈ xs.flatMap f, base + first ≤ e.1 ∧ e.1 < base + last := by
  induction xs generalizing first with
  | nil => exact ⟨List.Pairwise.nil, fun e he => by cases he⟩
  | cons x more ih =>
      obtain ⟨hfirst, hlt, hmore⟩ := h
      obtain ⟨hx, hin⟩ := hf x List.mem_cons_self
      obtain ⟨hpairwise, hafter⟩ := ih hmore fun y hy => hf y (List.mem_cons_of_mem x hy)
      have hstop := hmore.le
      rw [List.flatMap_cons]
      constructor
      · rw [List.pairwise_append]
        refine ⟨hx, hpairwise, fun a ha b hb => ?_⟩
        have := hin a ha
        have := hafter b hb
        omega
      · intro e he
        rcases List.mem_append.1 he with he | he
        · have := hin e he
          omega
        · have := hafter e he
          omega

end Sorting

/-! ### Emission -/

namespace ScriptBlock

variable {block : ScriptBlock} {items : List Item} {parts : ScriptParts}

/-- What a declarator leaves in the body, with its place in the source. -/
def declaratorEntries (block : ScriptBlock) (d : Declarator) : List (Nat × BodyItem) :=
  (d.walk block.content).map (block.span.start + d.span.start, ·)

/-- What an item that is copied leaves in the body, with its place in the source. -/
def copyEntries (block : ScriptBlock) (item : Item) : List (Nat × BodyItem) :=
  if item.isExport || item.isImport then []
  else [(block.span.start + item.span.start, .verbatim (item.span.read block.content))]

/-- What an item leaves in the body, with places in the source. -/
def entries (block : ScriptBlock) (item : Item) : List (Nat × BodyItem) :=
  block.copyEntries item ++ item.exported.flatMap block.declaratorEntries

theorem exported_of_not_isExport {item : Item} (h : item.isExport = false) :
    item.exported = [] := by
  cases item <;> first | rfl | cases h

theorem map_snd_entries (item : Item) :
    (block.entries item).map Prod.snd = item.walk block.content := by
  rw [entries, List.map_append, List.map_flatMap, Item.walk, copyEntries]
  have hd : ∀ d : Declarator, (block.declaratorEntries d).map Prod.snd = d.walk block.content := by
    intro d
    simp [declaratorEntries]
  simp only [hd]
  cases hexport : item.isExport with
  | true => simp
  | false =>
      rw [exported_of_not_isExport hexport]
      cases item.isImport <;> simp

/-- Entries of an item stand inside it. -/
theorem pairwise_entries (block : ScriptBlock) {item : Item}
    (hspan : item.span.start < item.span.stop)
    (h : OrderedWithin item.span.start item.span.stop (item.exported.map Declarator.span)) :
    (block.entries item).Pairwise (fun a b => a.1 < b.1) ∧
      ∀ e ∈ block.entries item, block.span.start + item.span.start ≤ e.1 ∧
        e.1 < block.span.start + item.span.stop := by
  rw [entries, copyEntries]
  cases hexport : item.isExport with
  | true =>
      rw [Bool.true_or, if_pos rfl, List.nil_append]
      refine pairwise_flatMap h fun d hd => ?_
      have hbounds := h.bounds (List.mem_map_of_mem hd)
      unfold declaratorEntries Declarator.walk
      split
      · refine ⟨List.pairwise_singleton _ _, fun e he => ?_⟩
        obtain rfl := List.mem_singleton.1 he
        simp only
        omega
      · exact ⟨List.Pairwise.nil, fun e he => by cases he⟩
  | false =>
      rw [exported_of_not_isExport hexport, List.flatMap_nil, List.append_nil, Bool.false_or]
      split
      · exact ⟨List.Pairwise.nil, fun e he => by cases he⟩
      · refine ⟨List.pairwise_singleton _ _, fun e he => ?_⟩
        obtain rfl := List.mem_singleton.1 he
        simp only
        omega

theorem copies_eq (hsize : block.span.start + block.content.size < UInt32.size)
    (h : ∀ item ∈ items, item.span.Within block.content) :
    (((items.filter (!·.isExport)).map block.keep).filter (·.placement ≠ .moduleScope)).map
        (fun s => (s.span.start, BodyItem.verbatim s.source)) =
      items.flatMap block.copyEntries := by
  induction items with
  | nil => rfl
  | cons item more ih =>
      rw [List.flatMap_cons, ← ih fun other hother => h other (List.mem_cons_of_mem item hother)]
      have hplace := place_eq (h item List.mem_cons_self) hsize
      have hsource := excerpt_eq (h item List.mem_cons_self)
      cases hexport : item.isExport with
      | true => simp [copyEntries, hexport]
      | false =>
          cases himport : item.isImport <;>
            simp [copyEntries, hexport, himport, keep, Item.placement, hplace, hsource]

theorem defaults_eq {declarators : List Declarator}
    (hsize : block.span.start + block.content.size < UInt32.size)
    (hname : ∀ d ∈ declarators, ∃ name, d.pattern = .name name)
    (hspan : ∀ d ∈ declarators, d.span.Within block.content)
    (hvalue : ∀ d ∈ declarators, ∀ span, d.initializer = some span → span.Within block.content) :
    (declarators.map block.property).filterMap (fun p => p.default.map fun default =>
        (p.span.start, BodyItem.stmt (applyDefault p default))) =
      declarators.flatMap block.declaratorEntries := by
  rw [List.filterMap_map, List.filterMap_eq_flatMap_toList]
  refine List.flatMap_congr fun d hd => ?_
  obtain ⟨name, hpattern⟩ := hname d hd
  have hplace := place_eq (hspan d hd) hsize
  cases hinit : d.initializer with
  | none => simp [declaratorEntries, Declarator.walk, property, hinit, hpattern]
  | some value =>
      have hread := excerpt_eq (hvalue d hd value hinit)
      simp [declaratorEntries, Declarator.walk, property, hinit, hpattern, applyDefault, hplace,
        hread, Script.Pattern.plainName]

theorem imports_eq (h : ∀ item ∈ items, item.span.Within block.content) :
    (((items.filter (!·.isExport)).map block.keep).filter (·.placement = .moduleScope)).map
        (·.source) =
      (items.filter (·.isImport)).map (·.span.read block.content) := by
  induction items with
  | nil => rfl
  | cons item more ih =>
      have hmore := ih fun other hother => h other (List.mem_cons_of_mem item hother)
      have hsource := excerpt_eq (h item List.mem_cons_self)
      cases item <;>
        simp_all [Item.isExport, Item.isImport, keep, Item.placement]

section InOrder

variable (horder : Script.InOrder block.content items)

include horder

theorem within_of_inOrder : ∀ item ∈ items, item.span.Within block.content := by
  intro item hitem
  obtain ⟨-, hlt, hstop⟩ := horder.ordered.bounds (List.mem_map_of_mem hitem)
  exact ⟨Nat.le_of_lt hlt, hstop⟩

theorem exported_within_of_inOrder : ∀ d ∈ items.flatMap Item.exported,
    d.span.Within block.content ∧
      ∀ span, d.initializer = some span → span.Within block.content := by
  intro d hd
  obtain ⟨item, hitem, hd⟩ := List.mem_flatMap.1 hd
  have hplaced := horder.exported item hitem
  obtain ⟨-, hlt, hinside⟩ := hplaced.ordered.bounds (List.mem_map_of_mem hd)
  have hstop := Nat.le_trans hinside (within_of_inOrder horder item hitem).2
  refine ⟨⟨Nat.le_of_lt hlt, hstop⟩, fun span hspan => ?_⟩
  obtain ⟨hle, hvalue⟩ := hplaced.values d hd span hspan
  exact ⟨hle, Nat.le_trans hvalue hstop⟩

theorem pairwise_entries_of_inOrder :
    (items.flatMap block.entries).Pairwise fun a b => a.1 < b.1 := by
  have hinside := fun item (hitem : item ∈ items) => pairwise_entries block
    (horder.ordered.bounds (List.mem_map_of_mem hitem)).2.1 (horder.exported item hitem).ordered
  exact (pairwise_flatMap horder.ordered hinside).1

/-- Statements and default values, put together by where they begin, are what one pass over the
items leaves. -/
theorem factoryBody_eq_walk (hsize : block.span.start + block.content.size < UInt32.size)
    (h : ScriptParts.ofItems block items = .ok parts) :
    factoryBody parts.properties (parts.statements.filter (·.placement ≠ .moduleScope)) =
      items.flatMap (Item.walk block.content) := by
  obtain ⟨hproperties, hstatements⟩ := parts_of_ofItems h
  have hsupported := (ScriptParts.exists_ofItems_iff.1 ⟨parts, h⟩).1.supported
  have hdefaults := defaults_eq hsize
    (fun d hd => Script.exists_name_of_mem_exported hsupported hd)
    (fun d hd => (exported_within_of_inOrder horder d hd).1)
    (fun d hd => (exported_within_of_inOrder horder d hd).2)
  unfold factoryBody
  rw [hproperties, hstatements, copies_eq hsize (within_of_inOrder horder), hdefaults,
    List.flatMap_assoc]
  dsimp only
  have hsort := Lifecycle.orderByStart_eq (List.flatMap_append_perm items _ _)
    (pairwise_entries_of_inOrder horder)
  rw [hsort, List.map_flatMap]
  exact List.flatMap_congr fun item _ => map_snd_entries item

end InOrder

/-- A script without its byte order mark is no longer than with it. -/
theorem size_readable_le (block : ScriptBlock) : block.readable.size ≤ block.content.size := by
  unfold readable
  split
  case h_1 c rest hcontent =>
    rw [hcontent]
    split
    · exact Nat.le_add_left ..
    · exact Nat.le_refl _
  case h_2 => exact Nat.zero_le _

/-- What is read of the script of a block is in order. -/
theorem inOrder_of_itemsWith (h : block.itemsWith Script.read = .ok items) :
    Script.InOrder block.content items := by
  unfold itemsWith at h
  split at h
  · cases h
    exact ⟨Nat.zero_le _, by simp⟩
  · exact (Script.inOrder_of_read h).of_le block.size_readable_le

/-- The items that are read of a script are in order; and emitting the parts of items that are
in order goes through them once, from left to right: imports leave for the module, exported names
are the properties, and every other item and every default value stands in the body where the
script has it, if the script ends below 4 GiB. -/
theorem emit_is_one_pass {read : Text → Except Script.SyntaxError (List Item)}
    (block : ScriptBlock) (items : List Item) (parts : ScriptParts) (table : Table)
    (hitems : block.itemsWith read = .ok items) (hparts : block.partsWith read = .ok parts)
    (hindexed : Lifecycle.isIndexed table = true) :
    (read = Script.read → Script.InOrder block.content items) ∧
      (Script.InOrder block.content items →
        ∃ module, emit parts.properties table parts.statements = .ok module ∧
          (block.span.start + block.content.size < UInt32.size →
            module.body = items.flatMap (Item.walk block.content)) ∧
          module.imports = (items.filter (·.isImport)).map (·.span.read block.content) ∧
          List.Forall₂ (fun name d => d.pattern = .name name) module.properties
            (items.flatMap Item.exported)) := by
  constructor
  · rintro rfl
    exact inOrder_of_itemsWith hitems
  intro horder
  rw [partsWith_eq_ofItems hitems] at hparts
  obtain ⟨-, hstatements⟩ := parts_of_ofItems hparts
  refine ⟨_, Lifecycle.emit_eq_ok_iff.2 ⟨hindexed, rfl⟩,
    fun hsize => factoryBody_eq_walk horder hsize hparts, ?_, ?_⟩
  · rw [← imports_eq (within_of_inOrder horder), ← hstatements]
    rfl
  · apply List.forall₂_map_left_iff.2
    exact (represents_of_ofItems hparts).properties.imp fun p d h => h.1

open ExtractionWitness in
/-- A default value that an import comes before and a statement after. -/
theorem default_stays_before_statement :
    ∃ items parts module, apart.itemsWith Script.read = .ok items ∧
      apart.partsWith Script.read = .ok parts ∧ Script.InOrder apart.content items ∧
      emit parts.properties .empty parts.statements = .ok module ∧
      module.body = items.flatMap (Item.walk apart.content) ∧
      module.body.map BodyItem.render = body := by
  obtain ⟨items, hitems, hany⟩ := exists_ok_of_any _ _ clashing_refused_apart_sorted.2.1
  obtain ⟨parts, hparts, hview⟩ := exists_ok_of_any _ _ hany
  rw [← partsWith_eq_ofItems hitems] at hparts
  obtain ⟨horder, hpass⟩ := emit_is_one_pass apart items parts .empty hitems hparts rfl
  obtain ⟨module, hmodule, hbody, -⟩ := hpass (horder rfl)
  have hassembled := (Lifecycle.emit_eq_ok_iff.1 hmodule).2
  refine ⟨items, parts, module, hitems, hparts, horder rfl, hmodule, hbody (by decide), ?_⟩
  rw [hassembled]
  exact (of_decide_eq_true hview).2

namespace WrappingWitness

/-- A script that begins a few bytes below 4 GiB.  Its statement begins there, and its
property behind. -/
def wrapping : ScriptBlock := ⟨"let a = 1;export let x = 2;", ⟨4294967290, 4294967317⟩⟩

theorem order_of_body_and_script :
    ((wrapping.itemsWith Script.read).toOption.any fun items =>
      (ScriptParts.ofItems wrapping items).toOption.any fun parts =>
        (Lifecycle.assemble parts.properties .empty parts.statements).body.map BodyItem.render =
            ["  if (x === undefined) \x7b\n    x = 2;\n  \x7d\n".toList, "  let a = 1;\n".toList] ∧
          (items.flatMap (Item.walk wrapping.content)).map BodyItem.render =
            ["  let a = 1;\n".toList,
              "  if (x === undefined) \x7b\n    x = 2;\n  \x7d\n".toList]) = true := by
  decide +kernel

end WrappingWitness

open WrappingWitness in
/-- Where offsets of the source reach 4 GiB, a default value comes to stand before a
statement that the script has before it. -/
theorem default_wraps_before_statement :
    ∃ items parts module, wrapping.itemsWith Script.read = .ok items ∧
      wrapping.partsWith Script.read = .ok parts ∧
      Script.InOrder wrapping.content items ∧
      emit parts.properties .empty parts.statements = .ok module ∧
      module.body ≠ items.flatMap (Item.walk wrapping.content) := by
  obtain ⟨items, hitems, hany⟩ := exists_ok_of_any _ _ order_of_body_and_script
  obtain ⟨parts, hparts, hview⟩ := exists_ok_of_any _ _ hany
  obtain ⟨hbody, hwalk⟩ := of_decide_eq_true hview
  rw [← partsWith_eq_ofItems hitems] at hparts
  refine ⟨items, parts, _, hitems, hparts, inOrder_of_itemsWith hitems,
    Lifecycle.emit_eq_ok_iff.2 ⟨rfl, rfl⟩, fun heq => ?_⟩
  rw [heq, hwalk] at hbody
  exact absurd hbody (by decide)

end ScriptBlock

end Component
