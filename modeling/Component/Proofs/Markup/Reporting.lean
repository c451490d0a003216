/-
Where errors in markup are reported.

Every error is reported at the next token, at an attribute, or from the place of an
earlier reader to that of a later one.  All of these lie within the source, whatever the
source is and however a construct in it is broken off.
-/
import Component.Proofs.Markup.Placement

namespace Component.Markup

namespace Reader

@[simp] theorem advance_errors (r : Reader) : r.advance.errors = r.errors := by
  unfold advance
  split
  · rfl
  · split_ifs <;> rfl

@[simp] theorem skipNewlines_errors (r : Reader) : r.skipNewlines.errors = r.errors := by
  have hfold : ∀ (passed : List Token) (r : Reader),
      (passed.foldl (fun r _ => r.advance) r).errors = r.errors := by
    intro passed
    induction passed with
    | nil => exact fun _ => rfl
    | cons token more ih => exact fun r => (ih r.advance).trans r.advance_errors
  exact hfold _ r

/-- A reader in step, all of whose errors lie within the source. -/
structure Located (source : Text) (r : Reader) : Prop extends InStep source r where
  errors_within : ∀ e ∈ r.errors, e.span.Within source

variable {source : Text} {r r' : Reader}

theorem located_start (source : Text) : (start source).Located source where
  toInStep := inStep_start source
  errors_within := by simp [start]

theorem Located.of_errors_eq (h : r.Located source) (hr' : r'.InStep source)
    (herrors : r'.errors = r.errors) : r'.Located source where
  toInStep := hr'
  errors_within := herrors ▸ h.errors_within

theorem Located.report (h : r.Located source) (fault : Fault) {span : Span}
    (hspan : span.Within source) : (r.report fault span).Located source where
  toInStep := h.toInStep.report fault span
  errors_within := by
    intro e he
    rcases List.mem_append.mp he with hmem | hmem
    · exact h.errors_within e hmem
    · rw [List.mem_singleton.mp hmem]
      exact hspan

/-- The way from one place of a reader to a later one lies within the source. -/
theorem Further.within (h : Further source r r') : (Span.mk r.offset r'.offset).Within source := by
  have hsize := h.inStep.offset_add_size
  exact ⟨h.offset_le, by simp only; omega⟩

theorem InStep.current_within (h : r.InStep source) : r.current.span.Within source := by
  obtain ⟨cut, rest, hrest, -, htokens⟩ := h.exists_tokens
  have hsize := h.offset_add_size
  rw [hrest, Text.size_append] at hsize
  rcases tokensAt_cases (r.offset + cut.size) rest with
    hend | ⟨gap, c, tail, more, kind, hsplit, -, -, hcons⟩
  · have hcurrent : r.current = .endOfFile source.size := by
      rw [current, htokens, hend, List.headD_cons, ← hsize, Nat.add_assoc]
    rw [hcurrent]
    exact ⟨Nat.le_refl _, Nat.le_refl _⟩
  · have hcurrent : r.current.span = ⟨r.offset + cut.size + gap.size,
        r.offset + cut.size + gap.size + Text.size (c :: tail)⟩ := by
      rw [current, htokens, hcons]
      rfl
    rw [hsplit, ← List.cons_append, Text.size_append, Text.size_append] at hsize
    rw [hcurrent]
    exact ⟨Nat.le_add_right _ _, by simp only; omega⟩

theorem Located.advance (h : r.Located source) : r.advance.Located source :=
  h.of_errors_eq h.toInStep.advance.inStep r.advance_errors

theorem Located.skipNewlines (h : r.Located source) : r.skipNewlines.Located source :=
  h.of_errors_eq h.toInStep.skipNewlines.inStep r.skipNewlines_errors

theorem Located.seek (h : r.Located source) {passed rest : Text} (hrest : r.rest = passed ++ rest) :
    (r.seek (r.offset + passed.size)).Located source :=
  h.of_errors_eq (h.toInStep.seek hrest).inStep rfl

theorem Located.seekEnd (h : r.Located source) : r.seekEnd.Located source :=
  h.seek (List.append_nil r.rest).symm

theorem Located.reportHere (h : r.Located source) (fault : Fault) :
    (r.reportHere fault).Located source :=
  h.report fault h.current_within

theorem Located.eat (h : r.Located source) (kind : TokenKind) : (r.eat kind).Located source := by
  unfold Reader.eat
  split_ifs
  · exact h.advance
  · exact h

theorem Located.expect (h : r.Located source) (kind : TokenKind) :
    (r.expect kind).Located source := by
  unfold Reader.expect
  split_ifs
  · exact h.advance
  · exact h.reportHere _

theorem Located.takeName (h : r.Located source) : r.takeName.2.Located source := by
  unfold Reader.takeName
  split_ifs
  · exact h.advance
  · exact h

end Reader

variable {source : Text} {r r' : Reader}

theorem readQuotedValue_located (h : r.Located source) (name : Text) (quote : Char) :
    (readQuotedValue name quote r).2.Located source := by
  have hsplit := Text.breakBefore_append (fun t => t.head? == some quote) r.advance.rest
  unfold readQuotedValue
  simp only
  split_ifs
  · exact (h.advance.report _ h.current_within).seekEnd
  · exact (h.advance.seek hsplit.symm).advance

theorem readExpressionValue_located (h : r.Located source) (name : Text) :
    (readExpressionValue name r).2.Located source := by
  unfold readExpressionValue
  simp only
  split
  · exact (h.advance.report _ h.current_within).seekEnd
  · rename_i value tail hvalue
    exact (h.advance.seek (expressionFrom_eq_some hvalue).1).advance

theorem readBareValue_located (h : r.Located source) (hkind : r.kind ≠ .endOfFile) :
    (readBareValue r).2.Located source :=
  h.of_errors_eq (readBareValue_spec h.toInStep hkind).1.inStep rfl

theorem readValue_located (h : r.Located source) (name : Text) :
    (readValue name r).2.Located source := by
  unfold readValue
  split
  · exact readQuotedValue_located h name _
  · exact readQuotedValue_located h name _
  · exact readExpressionValue_located h name
  · exact readBareValue_located h (by simp [*])
  · exact readBareValue_located h (by simp [*])
  · exact h.reportHere _

theorem readAttribute_located (h : r.Located source) : (readAttribute r).2.Located source := by
  unfold readAttribute
  simp only
  split_ifs
  · exact readValue_located h.advance.skipNewlines.advance.skipNewlines _
  · exact h.advance.skipNewlines

theorem AttributeTurn.located {known known' : List Attribute} (h : AttributeTurn known r known' r')
    (hr : r.Located source) : r'.Located source := by
  cases h with
  | kept _ hread _ =>
      have hlocated := readAttribute_located hr.skipNewlines
      rwa [hread] at hlocated
  | dropped hkind hread _ =>
      have hlocated := readAttribute_located hr.skipNewlines
      have hplaced := readAttribute_placed hr.skipNewlines.toInStep hkind
      rw [hread] at hlocated hplaced
      obtain ⟨more, hcovers⟩ := hplaced _ rfl
      exact hlocated.report _ hcovers.within
  | passedOver _ => exact (hr.skipNewlines.reportHere _).advance

theorem AttributesEnd.located (h : AttributesEnd r r') (hr : r.Located source) :
    r'.Located source := by
  cases h with
  | tagEnd _ => exact hr.skipNewlines
  | noValue _ hread =>
      have hlocated := readAttribute_located hr.skipNewlines
      rwa [hread] at hlocated

theorem ReadsAttributes.located {known known' : List Attribute}
    (h : ReadsAttributes known r known' r') (hr : r.Located source) : r'.Located source := by
  induction h with
  | leave hend => exact hend.located hr
  | turn hturn _ ih => exact ih (hturn.located hr)

theorem readStartTag_located {tag : StartTag} (h : r.Located source)
    (htag : readStartTag r = (tag, r')) : r'.Located source := by
  have hstart := (h.expect .tagOpen).advance
  have hattributes := (exists_readsAttributes _ [] _ hstart.toInStep (Nat.le_refl _)).located hstart
  unfold readStartTag at htag
  simp only at htag
  split_ifs at htag
  · rw [← (Prod.mk.inj htag).2]
    exact hattributes.advance
  · rw [← (Prod.mk.inj htag).2]
    exact hattributes.expect .tagClose

theorem readComment_located (h : r.Located source) (hopens : opensComment r.rest = true) :
    (readComment r).2.Located source := by
  have hin := (readComment_further h.toInStep hopens).1.inStep
  have hopening := h.current_within
  rw [h.toInStep.commentOpen hopens] at hopening
  unfold readComment at hin ⊢
  simp only at hin ⊢
  split_ifs at hin ⊢
  · exact (h.report _ hopening).of_errors_eq hin rfl
  · exact h.of_errors_eq hin rfl

theorem readClosingTag_located (h : r.Located source) (name : Text) {start : Nat}
    (hstart : start ≤ r.offset) : (readClosingTag name start r).Located source := by
  have hafter := h.advance.takeName.skipNewlines.expect .tagClose
  unfold readClosingTag
  simp only
  split_ifs
  · exact hafter
  · have hname := h.toInStep.advance.trans h.advance.toInStep.takeName
    have hskip := hname.trans hname.inStep.skipNewlines
    exact hafter.report _ (hskip.trans (hskip.inStep.expect .tagClose)).within
  · have hsize := h.toInStep.offset_add_size
    exact h.report _ ⟨hstart, by simp only; omega⟩

theorem skipClosingTag_located (h : r.Located source) : (skipClosingTag r).Located source := by
  have hname := h.toInStep.advance.trans h.advance.toInStep.takeName
  have hafter := hname.trans (hname.inStep.eat .tagClose)
  exact (h.advance.takeName.eat .tagClose).report _ hafter.within

theorem ReadsFlat.located {options : Options} {node : Node} (h : ReadsFlat options r node r')
    (hr : r.Located source) : r'.Located source := by
  cases h with
  | comment hopens => exact readComment_located hr hopens
  | text hrest hopens =>
      exact hr.of_errors_eq (readText_spec hr.toInStep hrest hopens).1.inStep rfl
  | leaf _ htag _ => exact readStartTag_located hr htag
  | @raw r₁ r₂ tag _ hopens htag _ _ hbody =>
      have hstart := (readStartTag_further hr.toInStep hopens htag).1
      have hraw := (readRawText_spec hstart.inStep tag.name).1
      have hlocated : (readRawText tag.name r₁).2.Located source :=
        (readStartTag_located hr htag).of_errors_eq hraw.inStep rfl
      rw [hbody] at hraw hlocated
      exact readClosingTag_located hlocated tag.name (hstart.trans hraw).offset_le

theorem Reads.located {options : Options} {inside : Bool} {nodes : List Node}
    (h : Reads options inside r nodes r') (hr : r.Located source) : r'.Located source := by
  induction h with
  | done _ => exact hr
  | closing _ => exact hr
  | stray _ _ ih => exact ih (skipClosingTag_located hr)
  | flat hnode _ ih => exact ih (hnode.located hr)
  | @element _ r r₁ r₂ _ tag _ _ hopens htag _ _ hchildren _ ihchildren ih =>
      have hstart := (readStartTag_further hr.toInStep hopens htag).1
      have hbody := hstart.toFurther.trans (hchildren.further hstart.inStep)
      have hchildren := ihchildren (readStartTag_located hr htag)
      exact ih (readClosingTag_located hchildren tag.name hbody.offset_le)

/-- Every error in a document is reported within the source. -/
theorem parse_errors_within (options : Options) (source : Text) :
    ∀ e ∈ (parse options source).errors, e.span.Within source := by
  obtain ⟨r, hreads, -, herrors⟩ := exists_reads_parse options source
  rw [herrors]
  exact (hreads.located (Reader.located_start source)).errors_within

end Component.Markup
