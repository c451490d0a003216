/-
Which scripts can be taken apart, and what they are taken apart into.

A script is accepted if and only if it is clean and can be cut at its spans.  It is clean
if what it exports are variables with names of their own, and no other statement declares a
name that is taken.  Then every exported declarator is a property and every other item a
statement, in the order of the script.
-/
import Component.Proofs.FactoryScope
import Mathlib.Data.List.Forall2

namespace Component

namespace Script

/-- A pattern binds a name, at whatever depth, with or without a default value. -/
inductive Pattern.Introduces (name : Text) : Pattern → Prop where
  | name : Introduces name (.name name)
  | element {elements : List Pattern} {pattern : Pattern} (hpattern : pattern ∈ elements)
      (h : Introduces name pattern) : Introduces name (.array elements)
  | property {elements : List Pattern} {pattern : Pattern} (hpattern : pattern ∈ elements)
      (h : Introduces name pattern) : Introduces name (.object elements)
  | withDefault {pattern : Pattern} (h : Introduces name pattern) :
      Introduces name (.withDefault pattern)
  | remaining {pattern : Pattern} (h : Introduces name pattern) :
      Introduces name (.remaining pattern)

mutual

theorem Pattern.mem_names_iff {name : Text} (pattern : Pattern) :
    name ∈ pattern.names ↔ pattern.Introduces name := by
  cases pattern with
  | name text =>
      rw [Pattern.names, List.mem_singleton]
      constructor
      · rintro rfl
        exact .name
      · rintro ⟨⟩
        rfl
  | array elements =>
      rw [Pattern.names, Pattern.mem_namesOfAll_iff elements]
      constructor
      · rintro ⟨pattern, hpattern, h⟩
        exact .element hpattern h
      · rintro (_ | ⟨hpattern, h⟩)
        exact ⟨_, hpattern, h⟩
  | object elements =>
      rw [Pattern.names, Pattern.mem_namesOfAll_iff elements]
      constructor
      · rintro ⟨pattern, hpattern, h⟩
        exact .property hpattern h
      · rintro (_ | _ | ⟨hpattern, h⟩)
        exact ⟨_, hpattern, h⟩
  | withDefault pattern =>
      rw [Pattern.names, Pattern.mem_names_iff pattern]
      constructor
      · exact .withDefault
      · rintro (_ | _ | _ | h)
        exact h
  | remaining pattern =>
      rw [Pattern.names, Pattern.mem_names_iff pattern]
      constructor
      · exact .remaining
      · rintro (_ | _ | _ | _ | h)
        exact h

theorem Pattern.mem_namesOfAll_iff {name : Text} (patterns : List Pattern) :
    name ∈ Pattern.namesOfAll patterns ↔ ∃ pattern ∈ patterns, pattern.Introduces name := by
  cases patterns with
  | nil => simp [Pattern.namesOfAll]
  | cons pattern more =>
      rw [Pattern.namesOfAll, List.mem_append, Pattern.mem_names_iff pattern,
        Pattern.mem_namesOfAll_iff more, List.exists_mem_cons_iff]

end

/-- An item declares a name at top level without exporting it. -/
inductive Item.Declares (name : Text) : Item → Prop where
  | imports {span : Span} {locals : List Text} (hname : name ∈ locals) :
      Declares name (.imports span locals)
  | declarator {span : Span} {declarators : List Declarator} {d : Declarator}
      (hd : d ∈ declarators) (h : d.pattern.Introduces name) :
      Declares name (.variables span declarators)
  | function {span : Span} : Declares name (.function span name)
  | classDeclaration {span : Span} : Declares name (.classDeclaration span name)

theorem Item.mem_declared_iff {name : Text} {item : Item} :
    name ∈ item.declared ↔ item.Declares name := by
  constructor
  · intro h
    match item with
    | .imports span locals => exact .imports h
    | .variables span declarators =>
        obtain ⟨d, hd, hname⟩ := List.mem_flatMap.1 h
        exact .declarator hd ((Pattern.mem_names_iff _).1 hname)
    | .function span found =>
        rw [List.mem_singleton.1 h]
        exact .function
    | .classDeclaration span found =>
        rw [List.mem_singleton.1 h]
        exact .classDeclaration
    | .statement .. | .exportedVariables .. | .otherExport .. => cases h
  · rintro (hname | ⟨hd, hname⟩ | _ | _)
    · exact hname
    · exact List.mem_flatMap.2 ⟨_, hd, (Pattern.mem_names_iff _).2 hname⟩
    · exact List.mem_singleton.2 rfl
    · exact List.mem_singleton.2 rfl

def Item.isExport : Item → Bool
  | .exportedVariables .. | .otherExport .. => true
  | _ => false

def Item.isImport : Item → Bool
  | .imports .. => true
  | _ => false

/-- Scripts that keep the names they export and declare apart. -/
structure Clean (items : List Item) : Prop where
  /-- An export declares variables, none of them by a pattern. -/
  plain : ∀ item ∈ items, item.isExport = true → ∃ span declarators,
    item = .exportedVariables span declarators ∧ ∀ d ∈ declarators, ∃ name, d.pattern = .name name
  /-- No two exported names are equal. -/
  distinct : (items.flatMap Item.exported).Pairwise fun d e =>
    ∀ name, d.pattern = .name name → e.pattern ≠ .name name
  /-- No exported name is reserved. -/
  exported : ∀ d ∈ items.flatMap Item.exported, ∀ name, d.pattern = .name name →
    isReservedName name = false
  /-- No other name that is declared is reserved or exported. -/
  declared : ∀ item ∈ items, ∀ name, item.Declares name → isReservedName name = false ∧
    ∀ d ∈ items.flatMap Item.exported, d.pattern ≠ .name name

section Clean

variable {items : List Item}

theorem Pattern.isName_iff {pattern : Pattern} :
    pattern.isName = true ↔ ∃ name, pattern = .name name := by
  cases pattern <;> simp [Pattern.isName]

theorem plain_iff_supported :
    (∀ item ∈ items, item.isExport = true → ∃ span declarators,
      item = .exportedVariables span declarators ∧ ∀ d ∈ declarators, ∃ name,
        d.pattern = .name name) ↔ ∀ item ∈ items, item.isSupported = true := by
  refine forall₂_congr fun item _ => ?_
  cases item <;> simp [Item.isExport, Item.isSupported, Pattern.isName_iff]

/-- Declarators that are names export the names that their patterns bind. -/
theorem flatMap_exportedNames (items : List Item) :
    items.flatMap Item.exportedNames =
      (items.flatMap Item.exported).flatMap fun d => d.pattern.names := by
  rw [List.flatMap_assoc]
  rfl

theorem exists_name_of_mem_exported (h : ∀ item ∈ items, item.isSupported = true) {d : Declarator}
    (hd : d ∈ items.flatMap Item.exported) : ∃ name, d.pattern = .name name := by
  obtain ⟨item, hitem, hd⟩ := List.mem_flatMap.1 hd
  have hsupported := h item hitem
  cases item
  case exportedVariables span declarators =>
    exact Pattern.isName_iff.1 (List.all_eq_true.1 hsupported d hd)
  all_goals cases hd

theorem mem_exportedNames_iff (h : ∀ item ∈ items, item.isSupported = true) {name : Text} :
    name ∈ items.flatMap Item.exportedNames ↔
      ∃ d ∈ items.flatMap Item.exported, d.pattern = .name name := by
  rw [flatMap_exportedNames, List.mem_flatMap]
  refine exists_congr fun d => and_congr_right fun hd => ?_
  obtain ⟨found, hfound⟩ := exists_name_of_mem_exported h hd
  rw [hfound, Pattern.names, List.mem_singleton, Pattern.name.injEq, eq_comm]

theorem nodup_exportedNames_iff (h : ∀ item ∈ items, item.isSupported = true) :
    (items.flatMap Item.exportedNames).Nodup ↔ (items.flatMap Item.exported).Pairwise fun d e =>
      ∀ name, d.pattern = .name name → e.pattern ≠ .name name := by
  rw [flatMap_exportedNames, List.nodup_flatMap]
  have hone : ∀ d ∈ items.flatMap Item.exported, (d.pattern.names).Nodup := by
    intro d hd
    obtain ⟨name, hname⟩ := exists_name_of_mem_exported h hd
    rw [hname]
    exact List.nodup_singleton name
  rw [and_iff_right hone]
  refine List.Pairwise.iff_of_mem fun {d e} hd he => ?_
  obtain ⟨first, hfirst⟩ := exists_name_of_mem_exported h hd
  obtain ⟨second, hsecond⟩ := exists_name_of_mem_exported h he
  simp [Function.onFun, hfirst, hsecond, Pattern.names, eq_comm]

theorem clean_iff_tidy : Clean items ↔ Tidy items := by
  constructor
  · rintro ⟨hplain, hdistinct, hexported, hdeclared⟩
    have hsupported := plain_iff_supported.1 hplain
    refine ⟨hsupported, (nodup_exportedNames_iff hsupported).2 hdistinct, ?_, ?_⟩
    · intro name hname
      obtain ⟨d, hd, hpattern⟩ := (mem_exportedNames_iff hsupported).1 hname
      exact hexported d hd name hpattern
    · intro name hname
      obtain ⟨item, hitem, hname⟩ := List.mem_flatMap.1 hname
      obtain ⟨hfree, hapart⟩ := hdeclared item hitem name (Item.mem_declared_iff.1 hname)
      refine ⟨hfree, fun hmem => ?_⟩
      obtain ⟨d, hd, hpattern⟩ := (mem_exportedNames_iff hsupported).1 hmem
      exact hapart d hd hpattern
  · rintro ⟨hsupported, hdistinct, hexported, hdeclared⟩
    refine ⟨plain_iff_supported.2 hsupported, (nodup_exportedNames_iff hsupported).1 hdistinct,
      ?_, ?_⟩
    · intro d hd name hpattern
      exact hexported name ((mem_exportedNames_iff hsupported).2 ⟨d, hd, hpattern⟩)
    · intro item hitem name hname
      have hmem := List.mem_flatMap.2 ⟨item, hitem, Item.mem_declared_iff.2 hname⟩
      obtain ⟨hfree, hapart⟩ := hdeclared name hmem
      refine ⟨hfree, fun d hd hpattern => ?_⟩
      exact hapart ((mem_exportedNames_iff hsupported).2 ⟨d, hd, hpattern⟩)

end Clean

end Script

open Script (Item Declarator)

/-! ### Parts -/

/-- The name of a pattern that is only a name. -/
def Script.Pattern.plainName : Script.Pattern → Text
  | .name text => text
  | _ => []

/-- Where an item that is kept goes. -/
def Script.Item.placement (item : Item) : Placement :=
  if item.isImport then .moduleScope else .factoryBody

namespace ScriptBlock

variable {block : ScriptBlock} {items : List Item} {parts : ScriptParts}

/-- The property of an exported declarator. -/
def property (block : ScriptBlock) (d : Declarator) : Property :=
  ⟨d.pattern.plainName, d.initializer.map block.excerpt, block.place d.span⟩

/-- The statement of an item that is kept as written. -/
def keep (block : ScriptBlock) (item : Item) : Statement :=
  ⟨block.excerpt item.span, item.placement, item.declared, block.place item.span⟩

theorem properties_addProperty (old : ScriptParts) (d : Declarator) (next : ScriptParts)
    (h : old.addProperty block d = .ok next) :
    next.properties = old.properties ++ [block.property d] := by
  obtain ⟨name, default, hpattern, -, -, hdefault, rfl⟩ := ScriptParts.addProperty_eq_ok h
  rw [(mapM_textAt_eq_ok_iff.1 hdefault).2]
  simp [property, hpattern, Script.Pattern.plainName]

theorem properties_addItem (old : ScriptParts) (item : Item) (next : ScriptParts)
    (h : old.addItem block item = .ok next) :
    next.properties = old.properties ++ item.exported.map block.property := by
  cases item
  case exportedVariables span declarators =>
    rw [view_of_foldlM properties_addProperty h, ← List.map_eq_flatMap]
    rfl
  case otherExport => cases h
  all_goals
    obtain ⟨_, -, rfl⟩ := ScriptParts.addStatement_eq_ok h
    exact (List.append_nil _).symm

theorem statements_addItem (old : ScriptParts) (item : Item) (next : ScriptParts)
    (h : old.addItem block item = .ok next) :
    next.statements = old.statements ++ ([item].filter (!·.isExport)).map block.keep := by
  cases item
  case exportedVariables span declarators =>
    have hkeeps : next.statements = old.statements := by
      refine @foldlM_keeps _ _ _ _ (·.statements = old.statements) declarators ?_ old next rfl h
      intro acc d _ next hacc hadd
      obtain ⟨_, _, _, _, _, _, rfl⟩ := ScriptParts.addProperty_eq_ok hadd
      exact hacc
    rw [hkeeps]
    exact (List.append_nil _).symm
  case otherExport => cases h
  all_goals
    obtain ⟨text, htext, rfl⟩ := ScriptParts.addStatement_eq_ok h
    rw [(textAt_eq_ok_iff.1 htext).2]
    rfl

/-- What the items of a script are sorted into. -/
theorem parts_of_ofItems (h : ScriptParts.ofItems block items = .ok parts) :
    parts.properties = (items.flatMap Item.exported).map block.property ∧
      parts.statements = (items.filter (!·.isExport)).map block.keep := by
  have hfold := (ScriptParts.ofItems_eq_ok_iff.1 h).1
  constructor
  · rw [view_of_foldlM properties_addItem hfold, List.map_flatMap]
    rfl
  · rw [view_of_foldlM statements_addItem hfold, ← List.map_flatMap, ← List.filter_flatMap,
      List.flatMap_singleton']
    rfl

theorem ofItems_of_tidy (htidy : Script.Tidy items) (hcuts : block.CutsWhole items) :
    ScriptParts.ofItems block items =
      .ok ⟨(items.flatMap Item.exported).map block.property,
        (items.filter (!·.isExport)).map block.keep⟩ := by
  obtain ⟨parts, hparts⟩ := ScriptParts.exists_ofItems_iff.2 ⟨htidy, hcuts⟩
  obtain ⟨hproperties, hstatements⟩ := parts_of_ofItems hparts
  rw [hparts, ← hproperties, ← hstatements]

/-- What stands for the items of a script. -/
structure Represents (block : ScriptBlock) (items : List Item) (parts : ScriptParts) : Prop where
  /-- Properties are the exported declarators, from left to right. -/
  properties : List.Forall₂ (fun p d => d.pattern = .name p.name ∧
    Option.Rel block.IsCut d.initializer p.default ∧ p.span = block.place d.span)
    parts.properties (items.flatMap Item.exported)
  /-- Statements are the other items, in order.  Imports, and nothing else, leave the factory. -/
  statements : List.Forall₂ (fun s item => block.IsCut item.span s.source ∧
    s.span = block.place item.span ∧ (s.placement = .moduleScope ↔ item.isImport = true) ∧
    ∀ name, name ∈ s.declared ↔ item.Declares name)
    parts.statements (items.filter (!·.isExport))
  /-- No item goes missing, and none is kept twice. -/
  length : parts.statements.length + (items.filter (·.isExport)).length = items.length

/-- What is cut of an item: itself if it is kept, and the default values that it exports. -/
theorem mem_cuts_iff {item : Item} {span : Span} :
    span ∈ item.cuts ↔ item.isExport = false ∧ span = item.span ∨
      ∃ d ∈ item.exported, d.initializer = some span := by
  cases item <;> simp [Item.cuts, Item.isExport, Item.exported, Item.span]

theorem CutsWhole.isCut_initializer (h : block.CutsWhole items) {d : Declarator}
    (hd : d ∈ items.flatMap Item.exported) :
    Option.Rel block.IsCut d.initializer (d.initializer.map block.excerpt) := by
  obtain ⟨item, hitem, hd⟩ := List.mem_flatMap.1 hd
  cases hvalue : d.initializer with
  | none => exact .none
  | some value =>
    exact .some (isCut_excerpt (h item hitem value (mem_cuts_iff.2 (.inr ⟨d, hd, hvalue⟩))))

theorem CutsWhole.isCut_span (h : block.CutsWhole items) {item : Item}
    (hitem : item ∈ items.filter (!·.isExport)) :
    block.IsCut item.span (block.excerpt item.span) := by
  obtain ⟨hmem, hkept⟩ := List.mem_filter.1 hitem
  refine isCut_excerpt (h item hmem item.span (mem_cuts_iff.2 (.inl ⟨?_, rfl⟩)))
  simpa using hkept

theorem represents_of_ofItems (h : ScriptParts.ofItems block items = .ok parts) :
    Represents block items parts := by
  obtain ⟨hproperties, hstatements⟩ := parts_of_ofItems h
  obtain ⟨htidy, hcuts⟩ := ScriptParts.exists_ofItems_iff.1 ⟨parts, h⟩
  refine ⟨?_, ?_, ?_⟩
  · rw [hproperties, List.forall₂_map_left_iff, List.forall₂_same]
    intro d hd
    obtain ⟨name, hname⟩ := Script.exists_name_of_mem_exported htidy.supported hd
    refine ⟨?_, hcuts.isCut_initializer hd, rfl⟩
    rw [property, hname]
    rfl
  · rw [hstatements, List.forall₂_map_left_iff, List.forall₂_same]
    intro item hitem
    refine ⟨hcuts.isCut_span hitem, rfl, ?_, fun name => Item.mem_declared_iff⟩
    simp [keep, Item.placement]
  · rw [hstatements, List.length_map, add_comm]
    exact (List.length_eq_length_filter_add Item.isExport).symm

section Refusal

variable {old : ScriptParts}

/-- A step that can be refused, but does not end the compiler. -/
abbrev Refuses (result : Except Failure ScriptParts) : Prop :=
  Yields (fun _ => True) (· ≠ .crashed) result

theorem refuses_addProperty {d : Declarator}
    (h : ∀ value ∈ d.initializer, (block.clamp value).LiesIn block.content) :
    Refuses (old.addProperty block d) := by
  unfold ScriptParts.addProperty
  simp only [mapM_textAt_eq_ok_iff.2 ⟨h, rfl⟩]
  split
  · split_ifs
    · exact fun heq => nomatch heq
    · exact fun heq => nomatch heq
    · trivial
  · exact fun heq => nomatch heq

theorem refuses_addStatement {span : Span} {placement : Placement} {declared : List Text}
    (h : (block.clamp span).LiesIn block.content) :
    Refuses (old.addStatement block span placement declared) := by
  rw [ScriptParts.addStatement, textAt_eq_ok_iff.2 ⟨h, rfl⟩]
  trivial

theorem refuses_addItem {item : Item}
    (h : ∀ span ∈ item.cuts, (block.clamp span).LiesIn block.content) :
    Refuses (old.addItem block item) := by
  cases item
  case exportedVariables span declarators =>
    refine Yields.foldlM (fun old d hd _ => refuses_addProperty fun value hvalue => ?_) trivial
    exact h value (List.mem_filterMap.2 ⟨d, hd, hvalue⟩)
  case otherExport => exact fun heq => nomatch heq
  all_goals exact refuses_addStatement (h _ (List.mem_singleton_self _))

/-- Where all texts are cut between characters, items that are not accepted are refused. -/
theorem CutsWhole.refuses_ofItems (h : block.CutsWhole items) :
    Refuses (ScriptParts.ofItems block items) := by
  have hfold : Refuses (items.foldlM (ScriptParts.addItem block) ⟨[], []⟩) :=
    Yields.foldlM (fun old item hitem _ => refuses_addItem (h item hitem)) trivial
  refine hfold.bind fun sorted _ _ => ?_
  split
  · exact fun heq => nomatch heq
  · trivial

end Refusal

/-- A script is taken apart if and only if it is clean and its texts are cut between
characters.  A clean script whose texts are not is the end of the compiler; a script that is
not clean is refused, if its texts are.  What is taken apart is represented: its exported
declarators are the properties, and its other items the statements, whatever reads the
script.  Only spans that are not counted from the front of the script miss its characters. -/
theorem extraction_accepts_exactly_clean_scripts
    {read : Text → Except Script.SyntaxError (List Item)} (block : ScriptBlock)
    (items : List Item) (h : block.itemsWith read = .ok items) :
    ((∃ parts, block.partsWith read = .ok parts) ↔
      Script.Clean items ∧ block.CutsWhole items) ∧
    (Script.Clean items → ¬ block.CutsWhole items →
      block.partsWith read = .error .crashed) ∧
    (¬ Script.Clean items → block.CutsWhole items →
      ∃ e, block.partsWith read = .error (.refused e)) ∧
    (∀ parts, block.partsWith read = .ok parts → Represents block items parts) ∧
    (Script.read block.content = .ok items → block.CutsWhole items) := by
  have haccepted := @ScriptParts.exists_ofItems_iff block items
  rw [partsWith_eq_ofItems h, Script.clean_iff_tidy]
  refine ⟨haccepted, fun htidy hcuts => ?_, fun htidy hcuts => ?_,
    fun parts => represents_of_ofItems,
    fun hread => cutsWhole_of_liesIn (Script.liesIn_of_read hread)⟩
  · exact ScriptParts.ofItems_of_not_cutsWhole htidy hcuts
  · have hrefuses := hcuts.refuses_ofItems
    cases hparts : ScriptParts.ofItems block items with
    | error failure =>
      rw [hparts] at hrefuses
      cases failure with
      | refused e => exact ⟨e, rfl⟩
      | crashed => exact absurd rfl hrefuses
    | ok parts => exact absurd (haccepted.1 ⟨parts, hparts⟩).1 htidy

namespace ExtractionWitness

/-- A remaining element, bound inside an object inside an array, is exported further down. -/
def clashing : ScriptBlock :=
  ⟨"let [\x7b p: [q = 1, ...r] \x7d] = s;\nexport let r;", ⟨8, 49⟩⟩

/-- An export of two properties between an import and a declaration with a pattern. -/
def apart : ScriptBlock :=
  ⟨"import \x7b u as v \x7d from 'm';\nexport let a = v, b;\nlet \x7b p: [q = b, ...r] \x7d = a;",
    ⟨8, 88⟩⟩

/-- What the factory for the second script begins with. -/
def body : List Text :=
  ["  if (a === undefined) \x7b\n    a = v;\n  \x7d\n", "  let \x7b p: [q = b, ...r] \x7d = a;\n"]

/-- An empty statement behind a byte order mark. -/
def marked : ScriptBlock := ⟨"\ufeff;", ⟨0, 4⟩⟩

/-- Whether there is one item, a statement that hoists nothing. -/
def isOneStatement : List Item → Bool
  | [.statement _ []] => true
  | _ => false

-- Evaluated together, so that the words of the language are spelled out once.
theorem clashing_refused_apart_sorted :
    ((clashing.itemsWith Script.read).toOption.any fun items =>
      (ScriptParts.ofItems clashing items).toOption.isNone && clashing.CutsWhole items) = true ∧
    ((apart.itemsWith Script.read).toOption.any fun items =>
      (ScriptParts.ofItems apart items).toOption.any fun parts =>
        (parts.properties.map (·.name) = ["a".toList, "b".toList] ∧
          parts.statements.map (·.declared) = [["v".toList], ["q".toList, "r".toList]]) ∧
        (Lifecycle.assemble parts.properties ⟨[], []⟩ parts.statements).body.map
          Code.BodyItem.render = body) = true ∧
    ((marked.itemsWith Script.read).toOption.any fun items =>
      isOneStatement items && !marked.CutsWhole items) = true := by
  decide +kernel

theorem clean_of_isOneStatement {items : List Item} (h : isOneStatement items = true) :
    Script.Clean items := by
  unfold isOneStatement at h
  split at h
  case h_1 span =>
    rw [Script.clean_iff_tidy]
    have hnone : [Item.statement span []].flatMap Item.exportedNames = [] := rfl
    exact ⟨by simp [Item.isSupported], by simp [hnone], by simp [hnone], by simp [Item.declared]⟩
  case h_2 => cases h

end ExtractionWitness

open ExtractionWitness in
theorem nested_rest_clashes_with_later_export :
    (∃ items, clashing.itemsWith Script.read = .ok items ∧ ¬ Script.Clean items) ∧
      ∃ items parts, apart.itemsWith Script.read = .ok items ∧ Script.Clean items ∧
        apart.partsWith Script.read = .ok parts ∧ Represents apart items parts ∧
        parts.properties.map (·.name) = ["a".toList, "b".toList] ∧
        parts.statements.map (·.declared) = [["v".toList], ["q".toList, "r".toList]] := by
  obtain ⟨hclashing, hapart, -⟩ := clashing_refused_apart_sorted
  constructor
  · obtain ⟨items, hitems, hchecked⟩ := exists_ok_of_any _ _ hclashing
    obtain ⟨hnone, hcuts⟩ := Bool.and_eq_true_iff.1 hchecked
    refine ⟨items, hitems, fun hclean => ?_⟩
    obtain ⟨parts, hparts⟩ := (extraction_accepts_exactly_clean_scripts _ items hitems).1.2
      ⟨hclean, of_decide_eq_true hcuts⟩
    rw [partsWith_eq_ofItems hitems] at hparts
    rw [hparts] at hnone
    cases hnone
  · obtain ⟨items, hitems, hany⟩ := exists_ok_of_any _ _ hapart
    obtain ⟨parts, hparts, hview⟩ := exists_ok_of_any _ _ hany
    rw [← partsWith_eq_ofItems hitems] at hparts
    obtain ⟨hiff, -, -, hrepresents, -⟩ := extraction_accepts_exactly_clean_scripts _ items hitems
    exact ⟨items, parts, hitems, (hiff.1 ⟨parts, hparts⟩).1, hparts, hrepresents parts hparts,
      (of_decide_eq_true hview).1⟩

open ExtractionWitness in
/-- A clean script that begins with a byte order mark is the end of the compiler: the place
where its only statement seems to end is inside the mark. -/
theorem clean_script_behind_mark_crashes :
    ∃ items, marked.itemsWith Script.read = .ok items ∧ Script.Clean items ∧
      marked.partsWith Script.read = .error .crashed := by
  obtain ⟨items, hitems, hchecked⟩ := exists_ok_of_any _ _ clashing_refused_apart_sorted.2.2
  obtain ⟨hone, hcuts⟩ := Bool.and_eq_true_iff.1 hchecked
  have hclean := clean_of_isOneStatement hone
  refine ⟨items, hitems, hclean, ?_⟩
  rw [partsWith_eq_ofItems hitems]
  exact ScriptParts.ofItems_of_not_cutsWhole (Script.clean_iff_tidy.1 hclean) (by simpa using hcuts)

end ScriptBlock

end Component
