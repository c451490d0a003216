/-
What becomes of bindings that name no property, policy by policy.

All policies look at the bindings in the order of the table.  The two that let
unresolved bindings pass fail at the same place, and the third fails at the first
binding that one of them warns of.
-/
import Component.Proofs.Compiling
import Component.Proofs.Script.Lexing
import Mathlib.Data.List.DropRight

namespace Component

/-! ### Names without whitespace -/

theorem Text.trim_eq_self {t : Text} (h : ∀ c ∈ t, Component.isBlank c = false) : t.trim = t := by
  have hkeeps : ∀ t : Text, (∀ c ∈ t, Component.isBlank c = false) →
      t.dropWhile Component.isBlank = t := by
    intro t ht
    refine List.dropWhile_eq_self_iff.2 fun hne => ?_
    simp [ht _ (List.getElem_mem hne)]
  rw [Text.trim, Text.trimStart, hkeeps t h, Text.trimEnd,
    hkeeps t.reverse fun c hc => h c (List.mem_reverse.1 hc), List.reverse_reverse]

/-- An identifier has no whitespace to trim. -/
theorem Script.trim_eq_self_of_isIdentifier {name : Text} (h : isIdentifier name = true) :
    name.trim = name := by
  cases name with
  | nil => cases h
  | cons c rest =>
      simp only [isIdentifier, Bool.and_eq_true] at h
      obtain ⟨⟨hstart, hrest⟩, -⟩ := h
      refine Text.trim_eq_self fun d hd => Script.isBlank_eq_false_of_isPart ?_
      rcases List.mem_cons.mp hd with rfl | hd
      · exact isPart_of_isStart hstart
      · exact List.all_eq_true.mp hrest d hd

/-! ### Bindings -/

/-- The error for what was found, or a value if there is nothing to refuse. -/
def refuseFirst {α β ε : Type} (refuse : α → ε) (value : β) : Option α → Except ε β
  | some a => .error (refuse a)
  | none => .ok value

section Refused

variable {α β ε : Type} {refuse : α → ε} {value : β} {found : Option α}

theorem refuseFirst_eq_error_iff {e : ε} :
    refuseFirst refuse value found = .error e ↔ ∃ a, found = some a ∧ e = refuse a := by
  cases found with
  | none => simp [refuseFirst]
  | some a => simp [refuseFirst, eq_comm]

theorem refuseFirst_eq_ok_iff {result : β} :
    refuseFirst refuse value found = .ok result ↔ found = none ∧ result = value := by
  cases found with
  | none => simp [refuseFirst, eq_comm]
  | some a => simp [refuseFirst]

end Refused

section Bindings

variable (properties : List Property)

/-- A binding that names no property. -/
abbrev Undeclared (b : Node × Text) : Prop := ∀ p ∈ properties, p.name ≠ b.2

/-- A binding that names no property, and could name no variable either. -/
abbrev Unnameable (b : Node × Text) : Prop :=
  Undeclared properties b ∧ Script.isIdentifier b.2 = false

/-- A listener whose handler is a name that the script does not declare. -/
abbrev Unhandled (statements : List Statement) (l : Listener) : Prop :=
  Script.isIdentifier l.handler = true ∧ (∀ p ∈ properties, p.name ≠ l.handler) ∧
    ∀ s ∈ statements, l.handler ∉ s.declared

/-- The warning for a binding that names no property. -/
def bindingWarning (b : Node × Text) : Warning := ⟨.unresolvedBinding b.2, b.1.span⟩

/-- The warning for a handler that the script does not declare. -/
def handlerWarning (l : Listener) : Warning := ⟨.unresolvedHandler l.handler, l.span⟩

/-- The error for a binding whose name is no identifier. -/
def invalidError (b : Node × Text) : Error := ⟨.invalidBinding b.2, b.1.span⟩

/-- The error for a binding that names no property: it suggests the first property of that
name up to the case of letters. -/
def unresolvedError (b : Node × Text) : Error :=
  ⟨.unresolvedBinding b.2 ((properties.find? (·.name.eqIgnoreCase b.2)).map (·.name)), b.1.span⟩

/-- The error for a binding that names no property, whatever its name is. -/
def undeclaredError (b : Node × Text) : Error :=
  if Script.isIdentifier b.2 then unresolvedError properties b else invalidError b

variable {properties}

theorem isProperty_eq_false_iff {name : Text} :
    isProperty properties name = false ↔ ∀ p ∈ properties, p.name ≠ name := by
  simp [isProperty]

theorem suggestion_eq {b : Node × Text} (hundeclared : Undeclared properties b)
    (hidentifier : Script.isIdentifier b.2 = true) :
    suggestion properties b.2 =
      (properties.find? (·.name.eqIgnoreCase b.2)).map (·.name) := by
  have hnone : properties.find? (·.name == b.2) = none := by
    simpa using hundeclared
  rw [suggestion, Script.trim_eq_self_of_isIdentifier hidentifier, hnone, Option.none_or]

/-! A binding is passed over, refused, or treated as the policy says. -/

section Step

variable {policy : Policy} {b : Node × Text} (more : List (Node × Text))

theorem resolveBindings_declared (h : ¬ Undeclared properties b) :
    resolveBindings policy properties (b :: more) = resolveBindings policy properties more := by
  obtain ⟨node, name⟩ := b
  have hknown : isProperty properties name = true := by
    rwa [Undeclared, ← isProperty_eq_false_iff, Bool.not_eq_false] at h
  conv_lhs => unfold resolveBindings
  rw [if_pos hknown]

theorem resolveBindings_unnameable (h : Unnameable properties b) :
    resolveBindings policy properties (b :: more) = .error (invalidError b) := by
  obtain ⟨node, name⟩ := b
  have hunknown : isProperty properties name = false := isProperty_eq_false_iff.mpr h.1
  unfold resolveBindings
  rw [hunknown, if_neg Bool.false_ne_true, h.2]
  rfl

theorem resolveBindings_undeclared (hundeclared : Undeclared properties b)
    (hidentifier : Script.isIdentifier b.2 = true) :
    resolveBindings policy properties (b :: more) =
      match policy with
      | .error => .error (unresolvedError properties b)
      | .warn => (resolveBindings policy properties more).map (bindingWarning b :: ·)
      | .allow => resolveBindings policy properties more := by
  have hsuggestion := suggestion_eq hundeclared hidentifier
  obtain ⟨node, name⟩ := b
  have hunknown : isProperty properties name = false := isProperty_eq_false_iff.mpr hundeclared
  conv_lhs => unfold resolveBindings
  rw [hunknown, if_neg Bool.false_ne_true, hidentifier, if_neg (by simp), hsuggestion]
  rfl

end Step

/-- A lenient policy fails at the first unnameable binding, and warns of all that are
undeclared or of none. -/
theorem resolveBindings_lenient {policy : Policy} (hpolicy : policy ≠ .error)
    (bindings : List (Node × Text)) :
    resolveBindings policy properties bindings =
      refuseFirst invalidError (if policy = .warn then
          (bindings.filter (Undeclared properties ·)).map bindingWarning else [])
        (bindings.find? (Unnameable properties ·)) := by
  induction bindings with
  | nil => simp [resolveBindings, refuseFirst]
  | cons b more ih =>
      by_cases hundeclared : Undeclared properties b
      · by_cases hidentifier : Script.isIdentifier b.2 = true
        · have hnameable : ¬ Unnameable properties b := by simp [hidentifier]
          rw [resolveBindings_undeclared more hundeclared hidentifier, ih,
            List.find?_cons_of_neg (by simpa using hnameable), List.filter_cons_of_pos (by simpa)]
          cases policy with
          | error => exact absurd rfl hpolicy
          | warn => cases more.find? (Unnameable properties ·) <;> rfl
          | allow => cases more.find? (Unnameable properties ·) <;> rfl
        · have hunnameable : Unnameable properties b :=
            ⟨hundeclared, Bool.eq_false_iff.mpr hidentifier⟩
          rw [resolveBindings_unnameable more hunnameable,
            List.find?_cons_of_pos (by simpa using hunnameable), refuseFirst]
      · have hnameable : ¬ Unnameable properties b := fun h => hundeclared h.1
        rw [resolveBindings_declared more hundeclared, ih,
          List.find?_cons_of_neg (by simpa using hnameable),
          List.filter_cons_of_neg (by simpa using hundeclared)]

/-- The strict policy fails at the first undeclared binding. -/
theorem resolveBindings_strict (bindings : List (Node × Text)) :
    resolveBindings .error properties bindings =
      refuseFirst (undeclaredError properties) [] (bindings.find? (Undeclared properties ·)) := by
  induction bindings with
  | nil => rfl
  | cons b more ih =>
      by_cases hundeclared : Undeclared properties b
      · rw [List.find?_cons_of_pos (by simpa using hundeclared)]
        by_cases hidentifier : Script.isIdentifier b.2 = true
        · rw [resolveBindings_undeclared more hundeclared hidentifier, refuseFirst, undeclaredError,
            if_pos hidentifier]
        · rw [resolveBindings_unnameable more ⟨hundeclared, Bool.eq_false_iff.mpr hidentifier⟩,
            refuseFirst, undeclaredError, if_neg hidentifier]
      · rw [resolveBindings_declared more hundeclared, ih,
          List.find?_cons_of_neg (by simpa using hundeclared)]

end Bindings

/-! ### Policies -/

section Policies

variable (properties : List Property) (table : Table) (statements : List Statement)

/-- The warnings for handlers, said of the names that are declared. -/
theorem handlerWarnings_eq (listeners : List Listener) :
    handlerWarnings properties statements listeners =
      (listeners.filter (Unhandled properties statements ·)).map handlerWarning := by
  have htest : (fun l : Listener => isUnresolvedHandler properties statements l.handler) =
      fun l => decide (Unhandled properties statements l) := by
    funext l
    rw [Bool.eq_iff_iff]
    simp [isUnresolvedHandler, isProperty, and_assoc]
  rw [handlerWarnings, htest]
  rfl

/-- The result under a lenient policy. -/
theorem resolve_lenient {policy : Policy} (hpolicy : policy ≠ .error) :
    resolve policy properties table statements =
      refuseFirst invalidError (if policy = .warn then
          (table.bindings.filter (Undeclared properties ·)).map bindingWarning ++
            (table.listeners.filter (Unhandled properties statements ·)).map handlerWarning
          else [])
        (table.bindings.find? (Unnameable properties ·)) := by
  rw [resolve, resolveBindings_lenient hpolicy, handlerWarnings_eq]
  cases policy with
  | error => exact absurd rfl hpolicy
  | warn => cases table.bindings.find? (Unnameable properties ·) <;> rfl
  | allow => cases table.bindings.find? (Unnameable properties ·) <;> rfl

/-- The result under the strict policy. -/
theorem resolve_strict :
    resolve .error properties table statements =
      refuseFirst (undeclaredError properties)
        ((table.listeners.filter (Unhandled properties statements ·)).map handlerWarning)
        (table.bindings.find? (Undeclared properties ·)) := by
  rw [resolve, resolveBindings_strict, handlerWarnings_eq]
  cases table.bindings.find? (Undeclared properties ·) <;> rfl

/-- The strict policy passes what is passed without a warning for a binding. -/
theorem resolve_strict_eq_ok_iff (warnings : List Warning) :
    resolve .error properties table statements = .ok warnings ↔
      resolve .warn properties table statements = .ok warnings ∧
        ∀ w ∈ warnings, ∀ name, w.caution ≠ .unresolvedBinding name := by
  have hhandlers : ∀ w ∈ (table.listeners.filter (Unhandled properties statements ·)).map
      handlerWarning, ∀ name, w.caution ≠ .unresolvedBinding name := by
    intro w hw name
    obtain ⟨l, -, rfl⟩ := List.mem_map.mp hw
    simp [handlerWarning]
  rw [resolve_strict, resolve_lenient _ _ _ (by decide), if_pos rfl]
  cases hfirst : table.bindings.find? (Undeclared properties ·) with
  | none =>
      have hdeclared : ∀ b ∈ table.bindings, ¬ Undeclared properties b := by
        simpa using List.find?_eq_none.mp hfirst
      have hnone : table.bindings.find? (Unnameable properties ·) = none :=
        List.find?_eq_none.mpr fun b hb => by
          simpa using fun h => absurd h (hdeclared b hb)
      have hfilter : table.bindings.filter (Undeclared properties ·) = [] :=
        List.filter_eq_nil_iff.mpr (by simpa using hdeclared)
      rw [hnone, hfilter]
      constructor
      · rintro ⟨⟩
        exact ⟨rfl, hhandlers⟩
      · rintro ⟨⟨⟩, -⟩
        rfl
  | some b =>
      have hb : b ∈ table.bindings.filter (Undeclared properties ·) :=
        by
        have htest := List.find?_some hfirst
        exact List.mem_filter.mpr ⟨List.mem_of_find?_eq_some hfirst, htest⟩
      constructor
      · intro h
        cases h
      · rintro ⟨h, hquiet⟩
        obtain ⟨-, rfl⟩ := refuseFirst_eq_ok_iff.mp h
        refine absurd rfl (hquiet (bindingWarning b) ?_ b.2)
        exact List.mem_append_left _ (List.mem_map_of_mem hb)

end Policies

/-- What two policies let pass compiles to the same but for the warnings. -/
theorem eq_of_compiles {read : Text → Except Script.SyntaxError (List Script.Item)}
    {policy other : Policy} {source : Text} {out out' : Output}
    (h : compileWith read policy source = .ok out)
    (h' : compileWith read other source = .ok out') :
    out' = { out with warnings := out'.warnings } := by
  obtain ⟨script, fragment, hstages⟩ := compiles_of_compile h
  obtain ⟨script', fragment', hstages'⟩ := compiles_of_compile h'
  obtain rfl := Except.ok.inj (hstages.split.symm.trans hstages'.split)
  obtain rfl := Except.ok.inj (hstages.parts.symm.trans hstages'.parts)
  have htable := Except.ok.inj (hstages'.table.symm.trans hstages.table)
  have hmodule : out'.module = out.module := by
    rw [hstages'.module_eq, hstages.module_eq, htable]
  have hcode : out'.code = out.code := by
    rw [hstages'.code_eq, hstages.code_eq, hmodule]
  have hproperties := hstages'.properties_eq.trans hstages.properties_eq.symm
  obtain ⟨code, module, outProperties, outTable, warnings⟩ := out'
  subst hcode hmodule hproperties htable
  rfl

/-- The policies agree but for the bindings that name no property.  The two lenient ones
fail at the first binding that can name nothing; one is silent, and the other warns of
every undeclared binding and then of every undeclared handler.  The strict one passes what
has no warning for a binding, and fails at the first undeclared binding. -/
theorem policies_agree (properties : List Property) (table : Table)
    (statements : List Statement) :
    ((∃ warnings, resolve .allow properties table statements = .ok warnings) ↔
      ∃ warnings, resolve .warn properties table statements = .ok warnings) ∧
    (∀ e policy, policy ≠ .error → (resolve policy properties table statements = .error e ↔
      ∃ b, table.bindings.find? (Unnameable properties ·) = some b ∧ e = invalidError b)) ∧
    (∀ warnings, resolve .allow properties table statements = .ok warnings → warnings = []) ∧
    (∀ warnings, resolve .warn properties table statements = .ok warnings →
      warnings = (table.bindings.filter (Undeclared properties ·)).map bindingWarning ++
        (table.listeners.filter (Unhandled properties statements ·)).map handlerWarning) ∧
    (∀ warnings, resolve .error properties table statements = .ok warnings ↔
      resolve .warn properties table statements = .ok warnings ∧
        ∀ w ∈ warnings, ∀ name, w.caution ≠ .unresolvedBinding name) ∧
    (∀ e, resolve .error properties table statements = .error e ↔
      ∃ b, table.bindings.find? (Undeclared properties ·) = some b ∧
        e = if Script.isIdentifier b.2 then unresolvedError properties b else invalidError b) ∧
    (∀ read source policy other out out', compileWith read policy source = .ok out →
      compileWith read other source = .ok out' →
      out' = { out with warnings := out'.warnings }) := by
  have hlenient := fun (policy : Policy) (hpolicy : policy ≠ .error) =>
    resolve_lenient properties table statements hpolicy
  have hallow := hlenient .allow (by decide)
  have hwarn := hlenient .warn (by decide)
  refine ⟨?_, fun e policy hpolicy => ?_, fun warnings h => ?_, fun warnings h => ?_,
    resolve_strict_eq_ok_iff properties table statements, fun e => ?_,
    fun read source policy other out out' => eq_of_compiles⟩
  · simp [hallow, hwarn, refuseFirst_eq_ok_iff]
  · rw [hlenient policy hpolicy]
    exact refuseFirst_eq_error_iff
  · rw [hallow] at h
    exact (refuseFirst_eq_ok_iff.mp h).2
  · rw [hwarn] at h
    exact (refuseFirst_eq_ok_iff.mp h).2
  · rw [resolve_strict]
    exact refuseFirst_eq_error_iff

namespace ResolutionWitness

def properties : List Property := [⟨"count", none, ⟨19, 24⟩⟩]

/-- A button that shows the property, misspelled, and has a handler that is declared
nowhere. -/
def table : Table where
  nodes := [⟨0, none, .element "button" [], ⟨34, 77⟩⟩, ⟨1, some 0, .binding "Count", ⟨61, 68⟩⟩]
  listeners := [⟨0, "click", "missing", ⟨42, 60⟩⟩]

/-- The binding of that button. -/
def misspelled : Node × Text := (⟨1, some 0, .binding "Count", ⟨61, 68⟩⟩, "Count")

/-- A component without a script. -/
def source : Text := "\x7bCount\x7d"

-- One evaluation, since all of them look up the same reserved words.
theorem misspelled_warned_and_refused :
    (resolve .warn properties table []).toOption.isSome = true ∧
    (table.bindings.filter (Undeclared properties ·)).map bindingWarning ++
        (table.listeners.filter (Unhandled properties [] ·)).map handlerWarning =
      [⟨.unresolvedBinding "Count", ⟨61, 68⟩⟩, ⟨.unresolvedHandler "missing", ⟨42, 60⟩⟩] ∧
    (table.bindings.find? (Undeclared properties ·) = some misspelled ∧
      ⟨.unresolvedBinding "Count" (some "count"), ⟨61, 68⟩⟩ =
        if Script.isIdentifier misspelled.2 then unresolvedError properties misspelled
        else invalidError misspelled) ∧
    ((compile .allow source).toOption.any fun out => out.warnings = []) = true ∧
    ((compile .warn source).toOption.any fun out => out.warnings.length = 1) = true := by
  decide +kernel

end ResolutionWitness

open ResolutionWitness in
theorem misspelled_property_under_policies :
    resolve .warn properties table [] = .ok
      [⟨.unresolvedBinding "Count", ⟨61, 68⟩⟩, ⟨.unresolvedHandler "missing", ⟨42, 60⟩⟩] ∧
    resolve .error properties table [] =
      .error ⟨.unresolvedBinding "Count" (some "count"), ⟨61, 68⟩⟩ ∧
    ∃ out out', compile .allow source = .ok out ∧ compile .warn source = .ok out' ∧
      out' = { out with warnings := out'.warnings } ∧ out.warnings = [] ∧
        out'.warnings.length = 1 := by
  obtain ⟨-, -, -, hwarn, -, herror, hcompile⟩ := policies_agree properties table []
  obtain ⟨hsome, hfound, hfirst, hallowed, hwarned⟩ := misspelled_warned_and_refused
  obtain ⟨warnings, hwarnings⟩ := Option.isSome_iff_exists.mp hsome
  have hresolved := eq_ok_of_toOption hwarnings
  obtain ⟨out, hout, hquiet⟩ := exists_ok_of_any _ _ hallowed
  obtain ⟨out', hout', hlength⟩ := exists_ok_of_any _ _ hwarned
  refine ⟨?_, ?_, out, out', hout, hout', hcompile _ source .allow .warn out out' hout hout',
    of_decide_eq_true hquiet, of_decide_eq_true hlength⟩
  · rw [hresolved, hwarn warnings hresolved, hfound]
  · exact (herror _).mpr ⟨misspelled, hfirst⟩

end Component
