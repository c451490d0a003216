/-
Where a compilation reports what it finds.

Errors and warnings of every stage are reported at spans within the source, also where
the spans that were read in the script lie outside of it.  The length of such a span and
the columns of its ends are therefore differences that never go below zero.
-/
import Component.Lines
import Component.Proofs.Markup.Reporting
import Component.Proofs.Provenance

namespace Component

section Stages

variable {source : Text}

theorem NodeKind.Placed.within {raw : Bool} {span : Span} {kind : NodeKind}
    (h : kind.Placed source raw span) : span.Within source := by
  cases kind with
  | element tagName attributes =>
      obtain ⟨more, hcovers⟩ := h
      exact hcovers.within
  | binding property => exact Span.Covers.within h
  | staticText text =>
      cases raw with
      | true => exact Span.Covers.within h
      | false =>
          obtain ⟨written, hcovers, -⟩ := h
          exact hcovers.within

/-- Whatever a span of the script is, its place lies within the source. -/
theorem ScriptBlock.place_within {block : ScriptBlock} (hsize : source.size < UInt32.size)
    (h : block.span.Covers source block.content) (span : Span) :
    (block.place span).Within source := by
  obtain ⟨-, hend⟩ := h.within
  rw [h.stop_eq] at hend
  have hwithin : (Span.mk (block.span.start + (block.clamp span).start)
      (block.span.start + (block.clamp span).stop)).Within source := by
    simp only [Span.Within, clamp]
    omega
  rw [place, Span.slice, hwithin.ofOffsets_eq hsize]
  exact hwithin

/-- A failure that has a place has it within the source. -/
def Failure.Within (source : Text) : Failure → Prop
  | .refused e => e.span.Within source
  | .crashed => True

theorem Yields.lift {α : Type} {Value : α → Prop} {x : Except Error α}
    (h : Yields Value (fun e => e.span.Within source) x) :
    Yields Value (Failure.Within source) (liftM x : Except Failure α) := by
  cases x with
  | error e => exact h
  | ok value => exact h

namespace ScriptParts

variable {block : ScriptBlock}

/-- The statements that were kept so far stand within the source. -/
def StatementsWithin (source : Text) (parts : ScriptParts) : Prop :=
  ∀ s ∈ parts.statements, s.span.Within source

theorem textAt_within (block : ScriptBlock) (span : Span) :
    Yields (fun _ => True) (Failure.Within source) (block.textAt span) := by
  rw [ScriptBlock.textAt_eq]
  split_ifs <;> trivial

section Covered

variable {parts : ScriptParts} (h : parts.StatementsWithin source) (hsize : source.size < UInt32.size)
  (hblock : block.span.Covers source block.content)
include h hsize hblock

theorem addStatement_within (span : Span) (placement : Placement) (declared : List Text) :
    Yields (StatementsWithin source) (Failure.Within source)
      (parts.addStatement block span placement declared) := by
  refine (textAt_within block span).bind fun text _ _ => ?_
  intro s hs
  rcases List.mem_append.mp hs with hold | hnew
  · exact h s hold
  · rw [List.mem_singleton.mp hnew]
    exact ScriptBlock.place_within hsize hblock span

theorem addProperty_within (declarator : Script.Declarator) :
    Yields (StatementsWithin source) (Failure.Within source)
      (parts.addProperty block declarator) := by
  have hplace := ScriptBlock.place_within hsize hblock declarator.span
  unfold addProperty
  simp only
  split
  · split_ifs
    · exact hplace
    · exact hplace
    · cases declarator.initializer with
      | none => exact h
      | some value =>
          rw [Option.mapM_some, ScriptBlock.textAt_eq]
          split_ifs
          · exact h
          · trivial
  · exact hplace

theorem addItem_within (item : Script.Item) :
    Yields (StatementsWithin source) (Failure.Within source) (parts.addItem block item) := by
  cases item
  case exportedVariables span declarators =>
    exact Yields.foldlM (fun parts declarator _ hparts =>
      addProperty_within hparts hsize hblock declarator) h
  case otherExport span form => exact ScriptBlock.place_within hsize hblock span
  all_goals exact addStatement_within h hsize hblock _ _ _

end Covered

theorem clash_within {parts : ScriptParts} (h : parts.StatementsWithin source) {e : Error}
    (hclash : parts.clash = some e) : e.span.Within source := by
  obtain ⟨s, hs, hfault⟩ := List.exists_of_findSome?_eq_some hclash
  obtain ⟨fault, -, rfl⟩ := Option.map_eq_some_iff.mp hfault
  exact h s hs

end ScriptParts

theorem ScriptBlock.partsWith_within {block : ScriptBlock} (hsize : source.size < UInt32.size)
    (hblock : block.span.Covers source block.content)
    (read : Text → Except Script.SyntaxError (List Script.Item)) :
    Yields (ScriptParts.StatementsWithin source) (Failure.Within source)
      (block.partsWith read) := by
  have hempty : ScriptParts.StatementsWithin source ⟨[], []⟩ := List.forall_mem_nil _
  unfold ScriptBlock.partsWith
  split_ifs
  · exact hempty
  · split
    · exact ScriptBlock.place_within hsize hblock _
    · refine Yields.bind (Yields.foldlM (fun parts item _ hparts =>
        ScriptParts.addItem_within hparts hsize hblock item) hempty) fun parts _ hparts => ?_
      split
      · rename_i e hclash
        exact ScriptParts.clash_within hparts hclash
      · exact hparts

theorem resolveBindings_within (policy : Policy) (properties : List Property)
    {bindings : List (Node × Text)} (h : ∀ b ∈ bindings, b.1.span.Within source) :
    Yields (fun warnings => ∀ w ∈ warnings, w.span.Within source) (fun e => e.span.Within source)
      (resolveBindings policy properties bindings) := by
  induction bindings with
  | nil => exact List.forall_mem_nil _
  | cons b more ih =>
      obtain ⟨node, name⟩ := b
      have hnode := h (node, name) List.mem_cons_self
      have hmore := ih fun b hb => h b (List.mem_cons_of_mem _ hb)
      unfold resolveBindings
      split_ifs
      · exact hmore
      · exact hnode
      · cases policy with
        | error => exact hnode
        | allow => exact hmore
        | warn =>
            refine (hmore.imp fun warnings hwarnings => ?_).map
            exact List.forall_mem_cons.mpr ⟨hnode, hwarnings⟩

theorem resolve_within (policy : Policy) (properties : List Property) {table : Table}
    (statements : List Statement) (h : table.PointsInto source) :
    Yields (fun warnings => ∀ w ∈ warnings, w.span.Within source) (fun e => e.span.Within source)
      (resolve policy properties table statements) := by
  have hbindings : ∀ b ∈ table.bindings, b.1.span.Within source := by
    intro b hb
    obtain ⟨n, hn, hkind⟩ := List.mem_filterMap.mp hb
    have hsame : b.1 = n := by
      split at hkind <;> cases hkind
      rfl
    rw [hsame]
    exact (h.placed n hn).within
  refine Yields.bind (resolveBindings_within policy properties hbindings)
    fun warnings _ hwarnings => ?_
  split_ifs
  · exact hwarnings
  · intro w hw
    rcases List.mem_append.mp hw with hmem | hmem
    · exact hwarnings w hmem
    · obtain ⟨l, hl, rfl⟩ := List.mem_map.mp hmem
      obtain ⟨more, hcovers⟩ := h.listeners l (List.mem_filter.mp hl).1
      exact hcovers.within

end Stages

/-- Errors and warnings of a compilation lie within the source, whatever the spans that
are read in the script are. -/
theorem compileWith_within (read : Text → Except Script.SyntaxError (List Script.Item))
    (policy : Policy) {source : Text} (hsize : source.size < UInt32.size) :
    Yields (fun out => ∀ w ∈ out.warnings, w.span.Within source) (Failure.Within source)
      (compileWith read policy source) := by
  have herrors := Markup.parse_errors_within {} source
  unfold compileWith
  simp only
  split
  · rename_i e more heq
    exact herrors e (heq ▸ List.mem_cons_self)
  · refine (split_parse_placed source).lift.bind fun fragment _ hfragment => ?_
    obtain ⟨hblock, hplaced, hordered⟩ := hfragment
    refine (ScriptBlock.partsWith_within hsize hblock read).bind fun script _ _ => ?_
    refine (Table.ofMarkup_placed hsize hplaced hordered).lift.bind fun table _ htable => ?_
    refine (resolve_within policy script.properties script.statements htable).lift.bind
      fun warnings _ hwarnings => ?_
    cases Lifecycle.emit_cases script.properties table script.statements with
    | inl hemit => rw [hemit]; exact hwarnings
    | inr hemit => rw [hemit]; trivial

/-- The column of an offset is its distance from the start of its line. -/
theorem locateFrom_column (line : Nat) {start offset : Nat} (starts : List Nat)
    (h : start ≤ offset) :
    line ≤ (locateFrom line start offset starts).line ∧
      ∃ first, (start :: starts)[(locateFrom line start offset starts).line - line]? = some first ∧
        first + (locateFrom line start offset starts).column = offset := by
  induction starts generalizing line start with
  | nil => exact ⟨Nat.le_refl _, start, by simp [locateFrom], Nat.add_sub_of_le h⟩
  | cons next more ih =>
      rw [locateFrom]
      split_ifs with hnext
      · obtain ⟨hline, first, hfirst, hcolumn⟩ := ih (line + 1) hnext
        refine ⟨Nat.le_of_succ_le hline, first, ?_, hcolumn⟩
        rw [← hfirst, ← Nat.sub_add_cancel (Nat.sub_le_sub_right hline line)]
        simp only [Nat.add_sub_cancel_left, List.getElem?_cons_succ]
        congr 1
      · exact ⟨Nat.le_refl _, start, by simp, Nat.add_sub_of_le h⟩

/-- What a report needs of a span: it lies within the source, its length leads from its
start to its end, and each of its ends is reached from the start of a line. -/
structure Span.Reportable (span : Span) (source : Text) : Prop where
  within : span.Within source
  length_eq : span.start + span.length = span.stop
  column_eq : ∀ offset ∈ [span.start, span.stop], ∃ first,
    (lineStarts source)[(locate source offset).line]? = some first ∧
      first + (locate source offset).column = offset

theorem Span.Within.reportable {source : Text} {span : Span} (h : span.Within source) :
    span.Reportable source where
  within := h
  length_eq := Nat.add_sub_of_le h.1
  column_eq offset _ := (locateFrom_column 0 _ (Nat.zero_le offset)).2

/-- No error of a document points outside of the source, nor does an error that ends a
compilation or a warning, if the source is less than 4 GiB long. -/
theorem diagnostics_stay_in_source
    (read : Text → Except Script.SyntaxError (List Script.Item)) (options : Markup.Options)
    (policy : Policy) (source : Text) :
    (∀ e ∈ (Markup.parse options source).errors, e.span.Reportable source) ∧
      (source.size < UInt32.size →
        (∀ e, compileWith read policy source = .error (.refused e) → e.span.Reportable source) ∧
        ∀ out, compileWith read policy source = .ok out →
          ∀ w ∈ out.warnings, w.span.Reportable source) := by
  refine ⟨fun e he => (Markup.parse_errors_within options source e he).reportable,
    fun hsize => ?_⟩
  have hcompile := compileWith_within read policy hsize
  constructor
  · intro e he
    rw [he] at hcompile
    exact Span.Within.reportable hcompile
  · intro out hout w hw
    rw [hout] at hcompile
    exact (hcompile w hw).reportable

namespace DiagnosingWitness

/-- A script that an accented letter ends. -/
def source : Text := "<script>é</script>"

/-- A reader whose error lies behind the script and ends before it begins. -/
def stray (_ : Text) : Except Script.SyntaxError (List Script.Item) :=
  .error ⟨⟨90, 4⟩, "unexpected end"⟩

theorem compile_source : compileWith stray .error source =
    .error (.refused ⟨.scriptSyntax "unexpected end", ⟨10, 10⟩⟩) := by
  rfl

end DiagnosingWitness

open DiagnosingWitness in
theorem stray_script_error_stays_in_source :
    source.size < UInt32.size ∧
      compileWith stray .error source =
        .error (.refused ⟨.scriptSyntax "unexpected end", ⟨10, 10⟩⟩) ∧
      Span.Reportable ⟨10, 10⟩ source := by
  have hsize : source.size < UInt32.size := by decide
  have hreported := ((diagnostics_stay_in_source stray {} .error source).2 hsize).1
  exact ⟨hsize, compile_source, hreported _ compile_source⟩

end Component
