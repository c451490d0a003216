/-
The stages of a compilation that succeeds, and what holds of all that is gathered step
by step as long as no step fails.
-/
import Component.Compile

namespace Component

theorem exists_ok_of_bind {ε α β : Type} {x : Except ε α} {f : α → Except ε β} {result : β}
    (h : x >>= f = .ok result) : ∃ value, x = .ok value ∧ f value = .ok result := by
  cases x with
  | error e => simp [bind, Except.bind] at h
  | ok value => exact ⟨value, rfl, h⟩

theorem foldlM_keeps {ε α β : Type} {step : β → α → Except ε β} {Keeps : β → Prop}
    {items : List α} (hstep : ∀ acc, ∀ item ∈ items, ∀ next, Keeps acc →
      step acc item = .ok next → Keeps next)
    {start result : β} (hstart : Keeps start)
    (h : items.foldlM step start = .ok result) : Keeps result := by
  induction items generalizing start with
  | nil => exact Except.ok.inj h ▸ hstart
  | cons item more ih =>
      rw [List.foldlM_cons] at h
      obtain ⟨next, hnext, hrest⟩ := exists_ok_of_bind h
      refine ih ?_ (hstep start item List.mem_cons_self next hstart hnext) hrest
      exact fun acc item hitem => hstep acc item (List.mem_cons_of_mem _ hitem)

theorem lift_eq_ok_iff {α : Type} {x : Except Error α} {value : α} :
    (liftM x : Except Failure α) = .ok value ↔ x = .ok value := by
  cases x with
  | error e => exact iff_of_false (fun h => nomatch h) (fun h => nomatch h)
  | ok found =>
      have hlift : (liftM (Except.ok found : Except Error α) : Except Failure α) = .ok found :=
        rfl
      rw [hlift, Except.ok.injEq, Except.ok.injEq]

theorem exists_ok_of_any {ε α : Type} (x : Except ε α) (test : α → Bool)
    (h : x.toOption.any test = true) : ∃ value, x = .ok value ∧ test value = true := by
  cases x with
  | error e => simp [Except.toOption] at h
  | ok value => exact ⟨value, rfl, h⟩

theorem eq_ok_of_toOption {ε α : Type} {x : Except ε α} {value : α} (h : x.toOption = some value) :
    x = .ok value := by
  cases x with
  | error e => cases h
  | ok found => rw [Option.some.inj h]

/-- A computation gives a value with one property, or fails with another. -/
def Yields {ε α : Type} (Value : α → Prop) (Failure : ε → Prop) : Except ε α → Prop
  | .ok value => Value value
  | .error e => Failure e

namespace Yields

variable {ε α β : Type} {Value : α → Prop} {Failure : ε → Prop} {x : Except ε α}

@[simp] theorem ok_iff {value : α} : Yields Value Failure (.ok value) ↔ Value value := Iff.rfl

@[simp] theorem error_iff {e : ε} : Yields Value Failure (.error e) ↔ Failure e := Iff.rfl

theorem imp {Value' : α → Prop} (h : Yields Value Failure x)
    (hvalue : ∀ value, Value value → Value' value) : Yields Value' Failure x := by
  cases x with
  | error e => exact h
  | ok value => exact hvalue value h

theorem map {Value : β → Prop} {f : α → β} (h : Yields (fun value => Value (f value)) Failure x) :
    Yields Value Failure (x.map f) := by
  cases x with
  | error e => exact h
  | ok value => exact h

theorem bind {Value' : β → Prop} {f : α → Except ε β} (h : Yields Value Failure x)
    (hnext : ∀ value, x = .ok value → Value value → Yields Value' Failure (f value)) :
    Yields Value' Failure (x >>= f) := by
  cases x with
  | error e => exact h
  | ok value => exact hnext value rfl h

theorem foldlM {step : β → α → Except ε β} {Value : β → Prop} {items : List α}
    (hstep : ∀ acc, ∀ item ∈ items, Value acc → Yields Value Failure (step acc item)) {start : β}
    (hstart : Value start) : Yields Value Failure (items.foldlM step start) := by
  induction items generalizing start with
  | nil => exact hstart
  | cons item more ih =>
      rw [List.foldlM_cons]
      refine (hstep start item List.mem_cons_self hstart).bind fun next _ hnext => ih ?_ hnext
      exact fun acc item hitem => hstep acc item (List.mem_cons_of_mem _ hitem)

end Yields

namespace ScriptParts

/-- An exported declarator that is accepted adds a property under a new name, which is
not reserved. -/
theorem addProperty_eq_ok {block : ScriptBlock} {parts next : ScriptParts}
    {declarator : Script.Declarator} (h : parts.addProperty block declarator = .ok next) :
    ∃ name default, declarator.pattern = .name name ∧ isReservedName name = false ∧
      (parts.properties.any (·.name == name)) = false ∧
      declarator.initializer.mapM block.textAt = .ok default ∧
      next = { parts with properties := parts.properties ++
        [⟨name, default, block.place declarator.span⟩] } := by
  unfold addProperty at h
  simp only at h
  split at h
  case h_2 => cases h
  case h_1 name hpattern =>
    split at h
    case isTrue => cases h
    case isFalse hreserved =>
      split at h
      case isTrue => cases h
      case isFalse hknown =>
        obtain ⟨default, hdefault, h⟩ := exists_ok_of_bind h
        exact ⟨name, default, hpattern, Bool.eq_false_iff.mpr hreserved,
          Bool.eq_false_iff.mpr hknown, hdefault, (Except.ok.inj h).symm⟩

theorem addStatement_eq_ok {block : ScriptBlock} {parts next : ScriptParts} {span : Span}
    {placement : Placement} {declared : List Text}
    (h : parts.addStatement block span placement declared = .ok next) :
    ∃ source, block.textAt span = .ok source ∧
      next = { parts with statements := parts.statements ++
        [⟨source, placement, declared, block.place span⟩] } := by
  obtain ⟨source, hsource, h⟩ := exists_ok_of_bind h
  exact ⟨source, hsource, (Except.ok.inj h).symm⟩

end ScriptParts

def Script.Item.exported : Script.Item → List Script.Declarator
  | .exportedVariables _ declarators => declarators
  | _ => []

/-- What is kept when the exported declarators of an item, or the item itself, are added
is kept by the item. -/
theorem ScriptParts.addItem_keeps {block : ScriptBlock} {item : Script.Item}
    (Keeps : ScriptParts → Prop) {parts next : ScriptParts} (hparts : Keeps parts)
    (hproperty : ∀ parts, ∀ declarator ∈ item.exported, ∀ next, Keeps parts →
      parts.addProperty block declarator = .ok next → Keeps next)
    (hstatement : ∀ parts placement declared next, Keeps parts →
      parts.addStatement block item.span placement declared = .ok next → Keeps next)
    (h : parts.addItem block item = .ok next) : Keeps next := by
  cases item
  case exportedVariables span declarators => exact foldlM_keeps hproperty hparts h
  case otherExport => cases h
  all_goals exact hstatement _ _ _ _ hparts h

/-- What holds of no parts, and is kept by every item that is read, holds of all that a
script is taken apart into. -/
theorem ScriptBlock.keeps_of_partsWith
    {read : Text → Except Script.SyntaxError (List Script.Item)} {block : ScriptBlock}
    (Keeps : ScriptParts → Prop) {result : ScriptParts} (hempty : Keeps ⟨[], []⟩)
    (hitem : ∀ items, read block.readable = .ok items → ∀ parts, ∀ item ∈ items, ∀ next,
      Keeps parts → parts.addItem block item = .ok next → Keeps next)
    (h : block.partsWith read = .ok result) : Keeps result := by
  unfold ScriptBlock.partsWith at h
  split at h
  case isTrue => exact Except.ok.inj h ▸ hempty
  case isFalse =>
    split at h
    case h_1 => cases h
    case h_2 items hread =>
      obtain ⟨sorted, hsorted, h⟩ := exists_ok_of_bind h
      split at h
      case h_1 => cases h
      case h_2 => exact Except.ok.inj h ▸ foldlM_keeps (hitem items hread) hempty hsorted

/-- What holds of no parts, and is kept when a property or a statement is added, holds
of all that a script is taken apart into. -/
theorem ScriptBlock.keeps_of_parts
    {read : Text → Except Script.SyntaxError (List Script.Item)} {block : ScriptBlock}
    (Keeps : ScriptParts → Prop) {result : ScriptParts} (hempty : Keeps ⟨[], []⟩)
    (hproperty : ∀ parts declarator next, Keeps parts →
      parts.addProperty block declarator = .ok next → Keeps next)
    (hstatement : ∀ parts span placement declared next, Keeps parts →
      parts.addStatement block span placement declared = .ok next → Keeps next)
    (h : block.partsWith read = .ok result) : Keeps result := by
  refine ScriptBlock.keeps_of_partsWith Keeps hempty ?_ h
  intro items _ parts item _ next hparts hadd
  exact ScriptParts.addItem_keeps Keeps hparts (fun parts declarator _ =>
    hproperty parts declarator) (fun parts => hstatement parts item.span) hadd

/-- The stages of a compilation that succeeds. -/
structure Compiles (read : Text → Except Script.SyntaxError (List Script.Item))
    (policy : Policy) (source : Text) (out : Output) (script : ScriptParts)
    (fragment : Fragment) : Prop where
  markup : (Markup.parse {} source).errors = []
  split : Fragment.split (Markup.parse {} source).nodes = .ok fragment
  parts : fragment.script.partsWith read = .ok script
  table : Table.ofMarkup fragment.markup = .ok out.table
  resolved : resolve policy script.properties out.table script.statements = .ok out.warnings
  emitted : Lifecycle.emit script.properties out.table script.statements = .ok out.module
  properties_eq : out.properties = script.properties
  code_eq : out.code = out.module.render

theorem compiles_of_compile {read : Text → Except Script.SyntaxError (List Script.Item)}
    {policy : Policy} {source : Text} {out : Output}
    (h : compileWith read policy source = .ok out) :
    ∃ script fragment, Compiles read policy source out script fragment := by
  unfold compileWith at h
  simp only at h
  split at h
  case h_1 => cases h
  case h_2 hmarkup =>
    obtain ⟨fragment, hsplit, h⟩ := exists_ok_of_bind h
    obtain ⟨script, hparts, h⟩ := exists_ok_of_bind h
    obtain ⟨table, htable, h⟩ := exists_ok_of_bind h
    obtain ⟨warnings, hresolved, h⟩ := exists_ok_of_bind h
    obtain ⟨module, hmodule, h⟩ := exists_ok_of_bind h
    rw [lift_eq_ok_iff] at hsplit htable hresolved
    obtain rfl := Except.ok.inj h
    exact ⟨script, fragment, hmarkup, hsplit, hparts, htable, hresolved, hmodule, rfl, rfl⟩

theorem Compiles.module_eq {read : Text → Except Script.SyntaxError (List Script.Item)}
    {policy : Policy} {source : Text} {out : Output} {script : ScriptParts}
    {fragment : Fragment} (h : Compiles read policy source out script fragment) :
    out.module = Lifecycle.assemble script.properties out.table script.statements :=
  (Lifecycle.emit_eq_ok_iff.1 h.emitted).2

/-- A compilation whose stages succeed one after another. -/
theorem compileWith_eq_ok {read : Text → Except Script.SyntaxError (List Script.Item)}
    {policy : Policy} {source : Text} {fragment : Fragment} {script : ScriptParts}
    {table : Table} {warnings : List Warning}
    (hmarkup : (Markup.parse {} source).errors = [])
    (hsplit : Fragment.split (Markup.parse {} source).nodes = .ok fragment)
    (hparts : fragment.script.partsWith read = .ok script)
    (htable : Table.ofMarkup fragment.markup = .ok table)
    (hresolved : resolve policy script.properties table script.statements = .ok warnings)
    (hindexed : Lifecycle.isIndexed table = true) :
    compileWith read policy source =
      .ok ⟨(Lifecycle.assemble script.properties table script.statements).render,
        Lifecycle.assemble script.properties table script.statements, script.properties,
        table, warnings⟩ := by
  have hemit : Lifecycle.emit script.properties table script.statements = .ok _ :=
    Lifecycle.emit_eq_ok_iff.2 ⟨hindexed, rfl⟩
  rw [← lift_eq_ok_iff] at hsplit htable hresolved
  simp only [compileWith, hmarkup, hsplit, hparts, htable, hresolved, hemit, bind, Except.bind]

end Component
