/-
The names that a script binds in the scope of the factory, and which of them keep apart from
reserved names and properties.

Whether a script is accepted depends on the names that it exports and on those that it
declares at top level.  Variables that it declares with `var` below other statements are bound
in the same scope, but are not looked at.
-/
import Component.Proofs.Scoping
import Component.Proofs.Script.Declarators
import Component.Proofs.Script.Hoisting

namespace Component

namespace Script

/-- The names that an item declares at top level without exporting them. -/
def Item.declared : Item → List Text
  | .imports _ locals => locals
  | .variables _ declarators => Declarator.allNames declarators
  | .function _ name => [name]
  | .classDeclaration _ name => [name]
  | _ => []

/-- The names that an item binds with `var` below a statement. -/
def Item.hoisted : Item → List Text
  | .statement _ hoisted => hoisted
  | _ => []

/-- The names that an item binds in the scope of the factory without exporting them. -/
def Item.bound (item : Item) : List Text := item.declared ++ item.hoisted

def Item.exportedNames (item : Item) : List Text := Declarator.allNames item.exported

/-- Whether an item exports nothing, or variables without patterns. -/
def Item.isSupported : Item → Bool
  | .exportedVariables _ declarators => declarators.all (·.pattern.isName)
  | .otherExport .. => false
  | _ => true

/-- Items that keep the names they export and declare apart from each other and from reserved
names.  What they hoist is not mentioned. -/
structure Tidy (items : List Item) : Prop where
  supported : ∀ item ∈ items, item.isSupported = true
  distinct : (items.flatMap Item.exportedNames).Nodup
  exported : ∀ name ∈ items.flatMap Item.exportedNames, isReservedName name = false
  declared : ∀ name ∈ items.flatMap Item.declared,
    isReservedName name = false ∧ name ∉ items.flatMap Item.exportedNames

end Script

/-! ### Names that are added one after another -/

/-- New names that are not reserved and differ from each other and from those that are taken. -/
structure Admissible (taken new : List Text) : Prop where
  free : ∀ name ∈ new, isReservedName name = false
  distinct : (taken ++ new).Nodup

theorem admissible_append {taken first second : List Text} :
    Admissible taken (first ++ second) ↔
      Admissible taken first ∧ Admissible (taken ++ first) second := by
  constructor
  · intro h
    have hdistinct := h.distinct
    rw [← List.append_assoc] at hdistinct
    exact ⟨⟨fun name hname => h.free name (List.mem_append_left _ hname), hdistinct.of_append_left⟩,
      ⟨fun name hname => h.free name (List.mem_append_right _ hname), hdistinct⟩⟩
  · rintro ⟨hfirst, hsecond⟩
    refine ⟨List.forall_mem_append.2 ⟨hfirst.free, hsecond.free⟩, ?_⟩
    rw [← List.append_assoc]
    exact hsecond.distinct

section Fold

variable {ε α β γ : Type} {step : β → α → Except ε β}

/-- What a step appends to a list that is read off the state, a run appends step by step. -/
theorem view_of_foldlM {view : β → List γ} {part : α → List γ}
    (hview : ∀ b a next, step b a = .ok next → view next = view b ++ part a) {items : List α}
    {b last : β} (h : items.foldlM step b = .ok last) :
    view last = view b ++ items.flatMap part := by
  induction items generalizing b with
  | nil =>
    obtain rfl := Except.ok.inj h
    rw [List.flatMap_nil, List.append_nil]
  | cons a more ih =>
    rw [List.foldlM_cons] at h
    obtain ⟨next, hnext, hmore⟩ := exists_ok_of_bind h
    rw [ih hmore, hview b a next hnext, List.flatMap_cons, List.append_assoc]

/-- A run of steps that each take admissible names succeeds if all the names are admissible
together. -/
theorem exists_foldlM_iff {view : β → List Text} {part : α → List Text} {Good : α → Prop}
    (hview : ∀ b a next, step b a = .ok next → view next = view b ++ part a)
    (hstep : ∀ b a, (view b).Nodup →
      ((∃ next, step b a = .ok next) ↔ Good a ∧ Admissible (view b) (part a)))
    (items : List α) {b : β} (hb : (view b).Nodup) :
    (∃ last, items.foldlM step b = .ok last) ↔
      (∀ a ∈ items, Good a) ∧ Admissible (view b) (items.flatMap part) := by
  induction items generalizing b with
  | nil =>
    refine iff_of_true ⟨b, rfl⟩ ⟨by simp, ⟨by simp, ?_⟩⟩
    rwa [List.flatMap_nil, List.append_nil]
  | cons a more ih =>
    rw [List.flatMap_cons, admissible_append, List.forall_mem_cons, List.foldlM_cons]
    constructor
    · rintro ⟨last, h⟩
      obtain ⟨next, hnext, hmore⟩ := exists_ok_of_bind h
      obtain ⟨hgood, hadmissible⟩ := (hstep b a hb).1 ⟨next, hnext⟩
      have hrest := (ih (b := next) (hview b a next hnext ▸ hadmissible.distinct)).1 ⟨last, hmore⟩
      rw [hview b a next hnext] at hrest
      exact ⟨⟨hgood, hrest.1⟩, hadmissible, hrest.2⟩
    · rintro ⟨⟨hgood, hall⟩, hadmissible, hmore⟩
      obtain ⟨next, hnext⟩ := (hstep b a hb).2 ⟨hgood, hadmissible⟩
      have hnames := hview b a next hnext
      obtain ⟨last, hlast⟩ := (ih (b := next) (hnames ▸ hadmissible.distinct)).2
        ⟨hall, hnames ▸ hmore⟩
      exact ⟨last, by rw [hnext]; exact hlast⟩

/-- A run whose names are all admissible fails only as its steps do on admissible names. -/
theorem error_of_foldlM {view : β → List Text} {part : α → List Text} {Good : α → Prop}
    {Fault : ε → Prop} (hview : ∀ b a next, step b a = .ok next → view next = view b ++ part a)
    (hstep : ∀ b a e, Good a → Admissible (view b) (part a) → step b a = .error e → Fault e)
    {items : List α} {b : β} {e : ε} (hgood : ∀ a ∈ items, Good a)
    (hadmissible : Admissible (view b) (items.flatMap part))
    (h : items.foldlM step b = .error e) : Fault e := by
  induction items generalizing b with
  | nil => cases h
  | cons a more ih =>
    rw [List.flatMap_cons, admissible_append] at hadmissible
    obtain ⟨hfirst, hmore⟩ := hadmissible
    obtain ⟨ha, hgood⟩ := List.forall_mem_cons.1 hgood
    rw [List.foldlM_cons] at h
    cases hnext : step b a with
    | error other =>
      rw [hnext] at h
      exact hstep b a e ha hfirst (hnext.trans h)
    | ok next =>
      rw [hnext] at h
      exact ih hgood (hview b a next hnext ▸ hmore) h

end Fold

/-! ### Parts of a script -/

namespace ScriptParts

def names (parts : ScriptParts) : List Text := parts.properties.map (·.name)

/-- The names that the statements declare. -/
def declared (parts : ScriptParts) : List Text := parts.statements.flatMap (·.declared)

variable {block : ScriptBlock}

theorem names_addProperty (parts : ScriptParts) (d : Script.Declarator) (next : ScriptParts)
    (h : parts.addProperty block d = .ok next) : next.names = parts.names ++ d.pattern.names := by
  obtain ⟨name, _, hpattern, -, -, -, rfl⟩ := addProperty_eq_ok h
  simp [names, hpattern, Script.Pattern.names]

theorem any_eq_false_iff {parts : ScriptParts} {name : Text} :
    parts.properties.any (·.name == name) = false ↔ name ∉ parts.names := by
  rw [names, mem_names_iff_isProperty, isProperty, Bool.not_eq_true]

/-- A declarator with a new name is added as soon as its default value is cut. -/
theorem addProperty_of_admissible (block : ScriptBlock) {parts : ScriptParts}
    {d : Script.Declarator} (hname : d.pattern.isName = true)
    (h : Admissible parts.names d.pattern.names) :
    ∃ name, parts.addProperty block d = (d.initializer.mapM block.textAt >>= fun default =>
      .ok { parts with
        properties := parts.properties ++ [⟨name, default, block.place d.span⟩] }) := by
  obtain ⟨pattern, span, initializer⟩ := d
  cases pattern with
  | name name =>
    have hfree := h.free name (List.mem_singleton_self name)
    have hnew : name ∉ parts.names := by
      intro hold
      exact List.disjoint_of_nodup_append h.distinct hold (List.mem_singleton_self name)
    rw [← any_eq_false_iff] at hnew
    refine ⟨name, ?_⟩
    simp only [addProperty, hfree, hnew, Bool.false_eq_true, if_false]
  | _ => cases hname

theorem exists_addProperty_iff (parts : ScriptParts) (d : Script.Declarator)
    (hparts : parts.names.Nodup) :
    (∃ next, parts.addProperty block d = .ok next) ↔
      (d.pattern.isName = true ∧
        ∀ span ∈ d.initializer, (block.clamp span).LiesIn block.content) ∧
      Admissible parts.names d.pattern.names := by
  constructor
  · rintro ⟨next, h⟩
    obtain ⟨name, _, hpattern, hfree, hnew, hdefault, -⟩ := addProperty_eq_ok h
    rw [any_eq_false_iff] at hnew
    rw [hpattern, Script.Pattern.names]
    refine ⟨⟨rfl, (ScriptBlock.mapM_textAt_eq_ok_iff.1 hdefault).1⟩, by simpa using hfree, ?_⟩
    exact hparts.append (List.nodup_singleton name) (by simpa using hnew)
  · rintro ⟨⟨hname, hcuts⟩, hadmissible⟩
    obtain ⟨name, hadd⟩ := addProperty_of_admissible block hname hadmissible
    rw [hadd, ScriptBlock.mapM_textAt_eq_ok_iff.2 ⟨hcuts, rfl⟩]
    exact ⟨_, rfl⟩

theorem eq_crashed_of_addProperty (parts : ScriptParts) (d : Script.Declarator)
    (failure : Failure) (hname : d.pattern.isName = true)
    (hadmissible : Admissible parts.names d.pattern.names)
    (h : parts.addProperty block d = .error failure) : failure = .crashed := by
  obtain ⟨name, hadd⟩ := addProperty_of_admissible block hname hadmissible
  rw [hadd] at h
  cases hdefault : d.initializer.mapM block.textAt with
  | error other =>
    rw [hdefault] at h
    exact (Except.error.inj h).symm.trans (ScriptBlock.eq_crashed_of_mapM_textAt hdefault)
  | ok default =>
    rw [hdefault] at h
    cases h

theorem names_addItem (parts : ScriptParts) (item : Script.Item) (next : ScriptParts)
    (h : parts.addItem block item = .ok next) : next.names = parts.names ++ item.exportedNames := by
  cases item
  case exportedVariables span ds => exact view_of_foldlM names_addProperty h
  case otherExport => cases h
  all_goals
    obtain ⟨_, -, rfl⟩ := addStatement_eq_ok h
    exact (List.append_nil _).symm

theorem declared_addItem (parts : ScriptParts) (item : Script.Item) (next : ScriptParts)
    (h : parts.addItem block item = .ok next) :
    next.declared = parts.declared ++ item.declared := by
  cases item
  case exportedVariables span ds =>
    have hkeeps : next.statements = parts.statements := by
      refine @foldlM_keeps _ _ _ _ (·.statements = parts.statements) ds ?_ parts next rfl h
      intro acc d _ next hacc hadd
      obtain ⟨_, _, _, _, _, _, rfl⟩ := addProperty_eq_ok hadd
      exact hacc
    rw [declared, hkeeps]
    exact (List.append_nil _).symm
  case otherExport => cases h
  all_goals
    obtain ⟨_, -, rfl⟩ := addStatement_eq_ok h
    simp [declared, Script.Item.declared]

theorem exists_addStatement_iff {parts : ScriptParts} {span : Span} {placement : Placement}
    {declared : List Text} :
    (∃ next, parts.addStatement block span placement declared = .ok next) ↔
      (block.clamp span).LiesIn block.content := by
  constructor
  · rintro ⟨next, h⟩
    obtain ⟨text, htext, -⟩ := addStatement_eq_ok h
    exact (ScriptBlock.textAt_eq_ok_iff.1 htext).1
  · intro hlies
    rw [addStatement, ScriptBlock.textAt_eq_ok_iff.2 ⟨hlies, rfl⟩]
    exact ⟨_, rfl⟩

theorem eq_crashed_of_addStatement {parts : ScriptParts} {span : Span} {placement : Placement}
    {declared : List Text} {failure : Failure}
    (h : parts.addStatement block span placement declared = .error failure) :
    failure = .crashed := by
  cases htext : block.textAt span with
  | error other =>
    rw [addStatement, htext] at h
    exact (Except.error.inj h).symm.trans (ScriptBlock.eq_crashed_of_textAt htext)
  | ok text =>
    rw [addStatement, htext] at h
    cases h

theorem eq_crashed_of_addItem (parts : ScriptParts) (item : Script.Item) (failure : Failure)
    (hsupported : item.isSupported = true)
    (hadmissible : Admissible parts.names item.exportedNames)
    (h : parts.addItem block item = .error failure) : failure = .crashed := by
  cases item
  case exportedVariables span ds =>
    exact error_of_foldlM names_addProperty eq_crashed_of_addProperty
      (List.all_eq_true.1 hsupported) hadmissible h
  case otherExport => cases hsupported
  all_goals exact eq_crashed_of_addStatement h

theorem exists_addItem_iff (parts : ScriptParts) (item : Script.Item)
    (hparts : parts.names.Nodup) :
    (∃ next, parts.addItem block item = .ok next) ↔
      (item.isSupported = true ∧
        ∀ span ∈ item.cuts, (block.clamp span).LiesIn block.content) ∧
      Admissible parts.names item.exportedNames := by
  have hnone : Admissible parts.names [] :=
    ⟨by simp, (List.append_nil parts.names).symm ▸ hparts⟩
  cases item
  case exportedVariables span ds =>
    rw [show (∃ next, parts.addItem block (.exportedVariables span ds) = .ok next) ↔ _ from
      exists_foldlM_iff names_addProperty exists_addProperty_iff ds hparts]
    refine and_congr_left fun _ => ?_
    simp only [forall_and, Script.Item.isSupported, List.all_eq_true, Script.Item.cuts,
      List.mem_filterMap, forall_exists_index, and_imp, Option.mem_def]
    exact and_congr_right fun _ =>
      ⟨fun h value d hd hvalue => h d hd value hvalue, fun h d hd value => h value d hd⟩
  case otherExport span form =>
    refine iff_of_false ?_ ?_
    · rintro ⟨next, h⟩
      cases h
    · rintro ⟨⟨h, -⟩, -⟩
      cases h
  all_goals
    refine exists_addStatement_iff.trans ⟨fun hlies => ?_, fun h => ?_⟩
    · exact ⟨⟨rfl, List.forall_mem_singleton.2 hlies⟩, hnone⟩
    · exact h.1.2 _ (List.mem_singleton_self _)

theorem clash_eq_none_iff {parts : ScriptParts} :
    parts.clash = none ↔
      ∀ name ∈ parts.declared, isReservedName name = false ∧ name ∉ parts.names := by
  have hfault : ∀ name, parts.nameFault name = none ↔
      isReservedName name = false ∧ name ∉ parts.names := by
    intro name
    rw [← any_eq_false_iff, nameFault]
    cases isReservedName name <;> cases parts.properties.any (·.name == name) <;> simp
  simp only [clash, List.findSome?_eq_none_iff, Option.map_eq_none_iff, hfault, declared,
    List.mem_flatMap]
  constructor
  · rintro h name ⟨statement, hstatement, hname⟩
    exact h statement hstatement name hname
  · intro h statement hstatement name hname
    exact h name ⟨statement, hstatement, hname⟩

theorem ofItems_eq_ok_iff {items : List Script.Item} {parts : ScriptParts} :
    ofItems block items = .ok parts ↔
      items.foldlM (addItem block) ⟨[], []⟩ = .ok parts ∧ parts.clash = none := by
  constructor
  · intro h
    obtain ⟨sorted, hsorted, h⟩ := exists_ok_of_bind h
    split at h
    case h_1 => cases h
    case h_2 hclash =>
      obtain rfl := Except.ok.inj h
      exact ⟨hsorted, hclash⟩
  · rintro ⟨hsorted, hclash⟩
    rw [ofItems, hsorted]
    simp only [bind, Except.bind, hclash]

/-- Whether a declared name clashes depends on the names alone. -/
theorem clash_of_foldlM {items : List Script.Item} {parts : ScriptParts}
    (h : items.foldlM (addItem block) ⟨[], []⟩ = .ok parts) :
    parts.clash = none ↔ ∀ name ∈ items.flatMap Script.Item.declared,
      isReservedName name = false ∧ name ∉ items.flatMap Script.Item.exportedNames := by
  have hnames : parts.names = items.flatMap Script.Item.exportedNames :=
    view_of_foldlM names_addItem h
  have hdeclared : parts.declared = items.flatMap Script.Item.declared :=
    view_of_foldlM declared_addItem h
  rw [clash_eq_none_iff, hnames, hdeclared]

/-- The items of a script are accepted if and only if they are tidy, whatever they hoist, and
their texts are cut between characters. -/
theorem exists_ofItems_iff {items : List Script.Item} :
    (∃ parts, ofItems block items = .ok parts) ↔
      Script.Tidy items ∧ block.CutsWhole items := by
  have hfold : (∃ parts, items.foldlM (addItem block) ⟨[], []⟩ = .ok parts) ↔
      (∀ item ∈ items, item.isSupported = true ∧
        ∀ span ∈ item.cuts, (block.clamp span).LiesIn block.content) ∧
      Admissible [] (items.flatMap Script.Item.exportedNames) :=
    exists_foldlM_iff names_addItem exists_addItem_iff items List.nodup_nil
  simp only [ofItems_eq_ok_iff]
  constructor
  · rintro ⟨parts, h, hclash⟩
    obtain ⟨hitems, hadmissible⟩ := hfold.1 ⟨parts, h⟩
    have htidy : Script.Tidy items :=
      ⟨fun item hitem => (hitems item hitem).1, hadmissible.distinct, hadmissible.free,
        (clash_of_foldlM h).1 hclash⟩
    exact ⟨htidy, fun item hitem => (hitems item hitem).2⟩
  · rintro ⟨htidy, hcuts⟩
    obtain ⟨parts, h⟩ := hfold.2 ⟨fun item hitem => ⟨htidy.supported item hitem, hcuts item hitem⟩,
      htidy.exported, htidy.distinct⟩
    exact ⟨parts, h, (clash_of_foldlM h).2 htidy.declared⟩

/-- Tidy items fail only where a text cannot be cut. -/
theorem eq_crashed_of_ofItems {items : List Script.Item} {failure : Failure}
    (htidy : Script.Tidy items) (h : ofItems block items = .error failure) :
    failure = .crashed := by
  cases hfold : items.foldlM (addItem block) ⟨[], []⟩ with
  | error other =>
    rw [ofItems, hfold] at h
    obtain rfl := Except.error.inj h
    have hadmissible : Admissible (names ⟨[], []⟩) (items.flatMap Script.Item.exportedNames) :=
      ⟨htidy.exported, htidy.distinct⟩
    exact error_of_foldlM names_addItem eq_crashed_of_addItem htidy.supported hadmissible hfold
  | ok parts =>
    have hclash := (clash_of_foldlM hfold).2 htidy.declared
    rw [ofItems_eq_ok_iff.2 ⟨hfold, hclash⟩] at h
    cases h

theorem ofItems_of_not_cutsWhole {items : List Script.Item} (htidy : Script.Tidy items)
    (hcuts : ¬ block.CutsWhole items) : ofItems block items = .error .crashed := by
  cases hparts : ofItems block items with
  | error failure => rw [eq_crashed_of_ofItems htidy hparts]
  | ok parts => exact absurd (exists_ofItems_iff.1 ⟨parts, hparts⟩).2 hcuts

theorem names_of_ofItems {items : List Script.Item} {parts : ScriptParts}
    (h : ofItems block items = .ok parts) :
    parts.names = items.flatMap Script.Item.exportedNames :=
  view_of_foldlM names_addItem (ofItems_eq_ok_iff.1 h).1

end ScriptParts

namespace ScriptBlock

/-- The items of a script that `read` reads.  An empty script has none. -/
def itemsWith (read : Text → Except Script.SyntaxError (List Script.Item))
    (block : ScriptBlock) : Except Script.SyntaxError (List Script.Item) :=
  if block.content.isBlank then .ok [] else read block.readable

theorem partsWith_eq_ofItems {read : Text → Except Script.SyntaxError (List Script.Item)}
    {block : ScriptBlock} {items : List Script.Item} (h : block.itemsWith read = .ok items) :
    block.partsWith read = ScriptParts.ofItems block items := by
  unfold itemsWith at h
  unfold partsWith
  split at h
  case isTrue hblank =>
    obtain rfl := Except.ok.inj h
    rw [if_pos hblank]
    rfl
  case isFalse hblank => rw [if_neg hblank, h]

/-- The items of a script, or what is wrong with it.  An empty script has none. -/
def items (block : ScriptBlock) : Except Script.SyntaxError (List Script.Item) :=
  if block.content.isBlank then .ok [] else Script.read block.readable

theorem parts_of_items {block : ScriptBlock} {items : List Script.Item}
    (h : block.items = .ok items) : block.parts = ScriptParts.ofItems block items :=
  partsWith_eq_ofItems h

end ScriptBlock

/-! ### Hygiene -/

/-- A name that an accepted script binds in the scope of the factory is reserved, or that of a
property, only if `var` binds it below a statement. -/
theorem ScriptBlock.bound_apart {block : ScriptBlock} {items : List Script.Item}
    {parts : ScriptParts}
    (hitems : block.items = .ok items) (hparts : block.parts = .ok parts) {item : Script.Item}
    (hitem : item ∈ items) {name : Text} (hname : name ∈ item.bound)
    (htaken : isReservedName name = true ∨ name ∈ parts.names) : name ∈ item.hoisted := by
  rw [ScriptBlock.parts_of_items hitems] at hparts
  have htidy := (ScriptParts.exists_ofItems_iff.1 ⟨parts, hparts⟩).1
  rw [ScriptParts.names_of_ofItems hparts] at htaken
  rcases List.mem_append.1 hname with hdeclared | hhoisted
  · have hfree := htidy.declared name (List.mem_flatMap.2 ⟨item, hitem, hdeclared⟩)
    rcases htaken with hreserved | hexported
    · rw [hfree.1] at hreserved
      cases hreserved
    · exact absurd hexported hfree.2
  · exact hhoisted

section Exporting

open Script

variable {property : Text} {n : Nest} {block : ScriptBlock}

/-- A script that begins with an export is neither blank nor begins with a mark to leave out. -/
theorem items_eq_read {name text : Text} (hblock : block.content = exporting name text) :
    block.items = Script.read (exporting name text) := by
  have hreadable : block.readable = exporting name text := by
    unfold ScriptBlock.readable
    rw [hblock]
    rfl
  have hblank : (exporting name text).isBlank = false := rfl
  unfold ScriptBlock.items
  rw [hreadable, hblock, hblank, if_neg Bool.false_ne_true]

/-- A script that exports a variable and goes on with a statement is accepted, whatever the
statement binds. -/
theorem parts_exporting (hproperty : isVariable property = true)
    (hfree : isReservedName property = false) (hfits : n.fits [] = true)
    (hnested : n.isNested = true) (hblock : block.content = exporting property n.render) :
    ∃ items parts, block.items = .ok items ∧ block.parts = .ok parts ∧
      items.flatMap Item.bound = n.names ∧ parts.names = [property] := by
  obtain ⟨d, span, place, hpattern, hparse⟩ := Nest.parse_exporting hproperty hfits hnested
  have hitems : block.items = .ok [.exportedVariables span [d], .statement place n.names] := by
    rw [items_eq_read hblock, Script.read, hparse]
  have hexported : [Item.exportedVariables span [d], .statement place n.names].flatMap
      Item.exportedNames = [property] :=
    (List.append_nil _).trans (Declarator.allNames_one hpattern)
  have htidy : Tidy [.exportedVariables span [d], .statement place n.names] :=
    { supported := by simp [Item.isSupported, hpattern, Pattern.isName]
      distinct := by simp [hexported]
      exported := by simp [hexported, hfree]
      declared := by simp [Item.declared] }
  have hcuts : block.CutsWhole [.exportedVariables span [d], .statement place n.names] := by
    refine ScriptBlock.cutsWhole_of_liesIn (Script.liesIn_of_read ?_)
    rw [hblock, Script.read, hparse]
  obtain ⟨parts, hparts⟩ := (ScriptParts.exists_ofItems_iff).2 ⟨htidy, hcuts⟩
  refine ⟨_, parts, hitems, (ScriptBlock.parts_of_items hitems).trans hparts, ?_, ?_⟩
  · simp [Item.bound, Item.declared, Item.hoisted]
  · exact (ScriptParts.names_of_ofItems hparts).trans hexported

end Exporting

theorem ScriptBlock.exists_items {block : ScriptBlock} {parts : ScriptParts}
    (h : block.parts = .ok parts) : ∃ items, block.items = .ok items := by
  unfold ScriptBlock.parts partsWith at h
  unfold ScriptBlock.items
  split at h
  case isTrue hblank => exact ⟨[], by rw [if_pos hblank]⟩
  case isFalse hblank =>
    rw [if_neg hblank]
    split at h
    case h_1 => cases h
    case h_2 items hread => exact ⟨items, hread⟩

/-- A script is accepted if and only if it is read, the names it exports and declares at top
level are tidy, and its texts are cut between characters.  So in an accepted script no
property is reserved, and a name bound in the scope of the factory that is reserved, or that
of a property, is bound by `var` below a statement that is no declaration.  Such names are
not looked at: whatever a statement of any form binds at any depth, the script with an
export before it is accepted. -/
theorem factory_scope_clean_but_for_hoisted_names (block : ScriptBlock) :
    ((∃ parts, block.parts = .ok parts) ↔
      ∃ items, block.items = .ok items ∧ Script.Tidy items ∧ block.CutsWhole items) ∧
    (∀ parts, block.parts = .ok parts → ∃ items, block.items = .ok items ∧
      (∀ name ∈ parts.names, isReservedName name = false) ∧
      ∀ item ∈ items, ∀ name ∈ item.bound,
        isReservedName name = true ∨ name ∈ parts.names → name ∈ item.hoisted) ∧
    ∀ (property : Text) (n : Script.Nest), Script.isVariable property = true →
      isReservedName property = false → n.fits [] = true → n.isNested = true →
      block.content = Script.exporting property n.render →
      ∃ items parts, block.items = .ok items ∧ block.parts = .ok parts ∧
        items.flatMap Script.Item.bound = n.names ∧ parts.names = [property] := by
  refine ⟨⟨?_, ?_⟩, ?_, ?_⟩
  · rintro ⟨parts, hparts⟩
    obtain ⟨items, hitems⟩ := ScriptBlock.exists_items hparts
    rw [ScriptBlock.parts_of_items hitems] at hparts
    exact ⟨items, hitems, ScriptParts.exists_ofItems_iff.1 ⟨parts, hparts⟩⟩
  · rintro ⟨items, hitems, haccepted⟩
    rw [ScriptBlock.parts_of_items hitems]
    exact ScriptParts.exists_ofItems_iff.2 haccepted
  · intro parts hparts
    obtain ⟨items, hitems⟩ := ScriptBlock.exists_items hparts
    refine ⟨items, hitems, ?_, ?_⟩
    · intro name hname
      obtain ⟨p, hp, rfl⟩ := List.mem_map.1 hname
      exact ScriptBlock.isReservedName_property hparts p hp
    · intro item hitem name hname htaken
      exact ScriptBlock.bound_apart hitems hparts hitem hname htaken
  · intro property n hproperty hfree hfits hnested hblock
    exact parts_exporting hproperty hfree hfits hnested hblock

namespace HoistingWitness

open Script

/-- A loop whose head binds the name of the mount point, and whose body binds the property that
the loop goes over. -/
def loop : Nest := .eachLoop true "target" "a" (.block [.declare "a"])

/-- A script that exports the property and goes on with the loop. -/
def block : ScriptBlock := ⟨exporting "a" loop.render, ⟨0, 46⟩⟩

/-- A script with a block below a condition. -/
def conditional : ScriptBlock := ⟨"if (x) \x7b var target = 1 \x7d", ⟨0, 25⟩⟩

-- Evaluated together, so that the words of the language are spelled out once.
theorem loop_fits_and_conditional_binds :
    (isVariable "a" = true ∧ isReservedName "a" = false ∧ loop.fits [] = true ∧
      isReservedName "target" = true) ∧
    (conditional.items.toOption.any fun items =>
      items.any fun item => item.bound.any isReservedName) = true ∧
    conditional.parts.toOption.any (fun _ => true) = true := by
  decide +kernel

end HoistingWitness

open HoistingWitness in
theorem loop_variables_escape :
    ∃ items parts, block.items = .ok items ∧ block.parts = .ok parts ∧
      items.flatMap Script.Item.bound = ["target".toList, "a".toList] ∧
      isReservedName "target" = true ∧ parts.names = ["a".toList] := by
  obtain ⟨hvariable, hfree, hfits, hreserved⟩ := loop_fits_and_conditional_binds.1
  obtain ⟨items, parts, hitems, hparts, hbound, hnames⟩ :=
    (factory_scope_clean_but_for_hoisted_names block).2.2 "a" loop hvariable hfree hfits rfl rfl
  exact ⟨items, parts, hitems, hparts, hbound, hreserved, hnames⟩

open HoistingWitness in
/-- A `var` in a block below a condition takes the name of the mount point, and the script is
accepted. -/
theorem nested_var_takes_mount_point :
    ∃ items parts, conditional.items = .ok items ∧ conditional.parts = .ok parts ∧
      ∃ item ∈ items, ∃ name ∈ item.bound, isReservedName name = true := by
  obtain ⟨items, hitems, hbound⟩ := exists_ok_of_any _ _ loop_fits_and_conditional_binds.2.1
  obtain ⟨parts, hparts, -⟩ := exists_ok_of_any _ _ loop_fits_and_conditional_binds.2.2
  simp only [List.any_eq_true] at hbound
  exact ⟨items, parts, hitems, hparts, hbound⟩

end Component
