/-
What is read of a text, a comment, a raw-text body and a closing tag.

Each of them is read by a reader that stays in step.  Comments and texts are the
text passed, and a construct at the front of the source is never read as nothing.
-/
import Component.Proofs.Markup.StartTag

namespace Component.Markup

theorem exists_of_opensClosingTag {t : Text} (h : opensClosingTag t = true) :
    ∃ more, t = '<' :: '/' :: more := by
  obtain ⟨more, hmore⟩ := List.isPrefixOf_iff_prefix.mp h
  exact ⟨more, hmore.symm⟩

theorem exists_of_opensComment {t : Text} (h : opensComment t = true) :
    ∃ more, t = '<' :: '!' :: '-' :: '-' :: more := by
  obtain ⟨more, hmore⟩ := List.isPrefixOf_iff_prefix.mp h
  exact ⟨more, hmore.symm⟩

theorem ne_nil_of_opens {p : Text → Bool} {t : Text} (hp : p [] = false) (h : p t = true) :
    t ≠ [] := by
  rintro rfl
  rw [hp] at h
  exact absurd h (by decide)

theorem opensMarkup_eq_false {t : Text} (htag : opensTag t = false)
    (hclosing : opensClosingTag t = false) (hcomment : opensComment t = false) :
    opensMarkup t = false := by
  simp [opensMarkup, htag, hclosing, hcomment]

theorem Reader.InStep.closingOpen {source : Text} {r : Reader} (h : r.InStep source)
    (hopens : opensClosingTag r.rest = true) :
    ∃ more, r.rest = '<' :: '/' :: more ∧ r.HasNext [] ['<', '/'] more ∧
      r.current = ⟨.closingOpen, ⟨r.offset, r.offset + 2⟩, ['<', '/']⟩ := by
  obtain ⟨more, hrest⟩ := exists_of_opensClosingTag hopens
  exact ⟨more, hrest, h.front hrest rfl rfl⟩

theorem Reader.InStep.commentOpen {source : Text} {r : Reader} (h : r.InStep source)
    (hopens : opensComment r.rest = true) :
    r.current = ⟨.commentOpen, ⟨r.offset, r.offset + 4⟩, ['<', '!', '-', '-']⟩ := by
  obtain ⟨more, hrest⟩ := exists_of_opensComment hopens
  exact (h.front hrest rfl rfl).2

theorem readText_spec {source : Text} {r : Reader} (h : r.InStep source) (hne : r.rest ≠ [])
    (hopens : opensMarkup r.rest = false) :
    Reader.Onward source r (readText r).2 ∧
      ∃ data : Text, data ≠ [] ∧ r.rest = data ++ (readText r).2.rest ∧
        (readText r).2.offset = r.offset + data.size ∧
        (readText r).1 = .text ⟨r.offset, r.offset + data.size⟩ data data.isBlank := by
  have hsplit := Text.breakBefore_append opensMarkup r.rest
  refine ⟨h.seek hsplit.symm, (Text.breakBefore opensMarkup r.rest).1, ?_, ?_, rfl, rfl⟩
  · cases hrest : r.rest with
    | nil => exact absurd hrest hne
    | cons c rest =>
        rw [hrest] at hopens
        simp [Text.breakBefore, hopens]
  · conv_lhs => rw [← hsplit]
    rw [readText, Reader.seek_rest hsplit.symm]

theorem readText_further {source : Text} {r : Reader} (h : r.InStep source) (hne : r.rest ≠ [])
    (hopens : opensMarkup r.rest = false) :
    Reader.Further source r (readText r).2 ∧ r.offset < (readText r).2.offset := by
  obtain ⟨honward, data, hdata, -, hoffset, -⟩ := readText_spec h hne hopens
  have hpos := Text.size_pos_of_ne_nil hdata
  exact ⟨honward.toFurther, by omega⟩

theorem readRawText_spec {source : Text} {r : Reader} (h : r.InStep source) (name : Text) :
    Reader.Onward source r (readRawText name r).2 ∧
      ∃ data : Text, r.rest = data ++ (readRawText name r).2.rest ∧
        (readRawText name r).2.offset = r.offset + data.size ∧
        (readRawText name r).1 = if data.isEmpty then []
          else [.text ⟨r.offset, r.offset + data.size⟩ data data.isBlank] := by
  set closes : Text → Bool := fun t =>
    Text.lower (t.take ('<' :: '/' :: name.lower).length) == '<' :: '/' :: name.lower with hcloses
  have hsplit := Text.breakBefore_append closes r.rest
  refine ⟨h.seek hsplit.symm, (Text.breakBefore closes r.rest).1, ?_, rfl, rfl⟩
  conv_lhs => rw [← hsplit]
  rw [readRawText, Reader.seek_rest hsplit.symm]

/-- A comment is read up to its end; one without an end is read up to the end of the
source and reported. -/
theorem readComment_spec {source : Text} {r : Reader} (h : r.InStep source)
    (hopens : opensComment r.rest = true) :
    ∃ data : Text, (readComment r).1 = .comment ⟨r.offset, (readComment r).2.offset⟩ data ∧
      ((r.rest = ['<', '!', '-', '-'] ++ (data ++ (['-', '-', '>'] ++ (readComment r).2.rest)) ∧
          (readComment r).2.offset = r.offset + 4 + data.size + 3 ∧
          Reader.Onward source r (readComment r).2) ∨
        (r.rest = ['<', '!', '-', '-'] ++ data ∧ (readComment r).2.rest = [] ∧
          (readComment r).2.offset = r.offset + 4 + data.size ∧
          ∃ r', Reader.Onward source r r' ∧
            (readComment r).2 = r'.report .unterminatedComment ⟨r.offset, r.offset + 4⟩)) := by
  obtain ⟨more, hrest⟩ := exists_of_opensComment hopens
  have hdrop : r.rest.drop 4 = more := by
    rw [hrest]
    rfl
  have hsplit := Text.breakBefore_append (['-', '-', '>'].isPrefixOf ·) more
  have hsnd := Text.breakBefore_snd (['-', '-', '>'].isPrefixOf ·) more
  set data := (Text.breakBefore (['-', '-', '>'].isPrefixOf ·) more).1 with hdata
  set tail := (Text.breakBefore (['-', '-', '>'].isPrefixOf ·) more).2 with htail
  refine ⟨data, ?_⟩
  unfold readComment
  simp only [hdrop, ← hdata, ← htail]
  by_cases hempty : tail = []
  · have hpassed : r.rest = (['<', '!', '-', '-'] ++ data) ++ [] := by
      rw [hrest, ← hsplit, hempty]
      simp
    have hsize : r.offset + 4 + data.size =
        r.offset + Text.size (['<', '!', '-', '-'] ++ data) := by
      rw [Text.size_append, ← Nat.add_assoc]
      rfl
    simp only [hempty, List.isEmpty_nil, ↓reduceIte]
    rw [hsize]
    refine ⟨rfl, Or.inr ⟨by simpa using hpassed, ?_, rfl, _, h.seek hpassed, rfl⟩⟩
    exact Reader.seek_rest hpassed
  · obtain ⟨after, hafter⟩ := List.isPrefixOf_iff_prefix.mp (hsnd.resolve_left hempty)
    have hpassed : r.rest = (['<', '!', '-', '-'] ++ (data ++ ['-', '-', '>'])) ++ after := by
      rw [hrest, ← hsplit, ← hafter]
      simp
    have hsize : r.offset + 4 + data.size + 3 =
        r.offset + Text.size (['<', '!', '-', '-'] ++ (data ++ ['-', '-', '>'])) := by
      rw [Text.size_append, Text.size_append, ← Nat.add_assoc, ← Nat.add_assoc]
      rfl
    simp only [List.isEmpty_eq_false_iff.mpr hempty, Bool.false_eq_true, ↓reduceIte]
    rw [hsize]
    refine ⟨rfl, Or.inl ⟨?_, rfl, h.seek hpassed⟩⟩
    rw [Reader.seek_rest hpassed, hpassed]
    simp

theorem readComment_further {source : Text} {r : Reader} (h : r.InStep source)
    (hopens : opensComment r.rest = true) :
    Reader.Further source r (readComment r).2 ∧ r.offset < (readComment r).2.offset := by
  obtain ⟨data, -, ⟨-, hoffset, honward⟩ | ⟨-, -, hoffset, r', honward, heq⟩⟩ :=
    readComment_spec h hopens
  · exact ⟨honward.toFurther, by omega⟩
  · refine ⟨?_, by omega⟩
    rw [heq]
    exact honward.toFurther.trans (honward.inStep.further_report _ _)

theorem readClosingTag_of_opens {source : Text} {r : Reader} (h : r.InStep source)
    (hopens : opensClosingTag r.rest = true) (name : Text) (start : Nat) :
    Reader.Onward source r (readClosingTag name start r) ∧
      r.offset < (readClosingTag name start r).offset := by
  obtain ⟨more, -, hnext, hcurrent⟩ := h.closingOpen hopens
  have hname := h.advance.inStep.takeName
  have hskip := hname.inStep.skipNewlines
  have hafter := hskip.trans (hskip.inStep.expect .tagClose)
  have hpassed : r.offset < r.advance.offset := by
    have hstart := hnext.start_lt_advance
    rwa [hcurrent] at hstart
  have hoffset := Nat.lt_of_lt_of_le hpassed (hname.trans hafter).offset_le
  have hwhole := h.advance.trans (hname.trans hafter)
  unfold readClosingTag
  simp only [hopens, ↓reduceIte]
  split_ifs
  · exact ⟨hwhole, hoffset⟩
  · rw [Reader.report_offset]
    exact ⟨hwhole.trans (hwhole.inStep.onward_report _ rfl _), hoffset⟩

theorem readClosingTag_of_not_opens {r : Reader} (hopens : opensClosingTag r.rest = false)
    (name : Text) (start : Nat) :
    readClosingTag name start r = r.report (.unclosedTag name) ⟨start, r.offset⟩ := by
  simp [readClosingTag, hopens]

theorem readClosingTag_further {source : Text} {r : Reader} (h : r.InStep source) (name : Text)
    (start : Nat) : Reader.Further source r (readClosingTag name start r) := by
  by_cases hopens : opensClosingTag r.rest = true
  · exact (readClosingTag_of_opens h hopens name start).1.toFurther
  · rw [readClosingTag_of_not_opens (Bool.eq_false_iff.mpr hopens)]
    exact h.further_report _ _

theorem skipClosingTag_spec {source : Text} {r : Reader} (h : r.InStep source)
    (hopens : opensClosingTag r.rest = true) :
    ∃ name r', Reader.Onward source r r' ∧ r.offset < r'.offset ∧
      skipClosingTag r = r'.report (.unexpectedClosingTag name) ⟨r.offset, r'.offset⟩ := by
  obtain ⟨more, -, hnext, hcurrent⟩ := h.closingOpen hopens
  have hname := h.advance.inStep.takeName
  have hafter := hname.trans (hname.inStep.eat .tagClose)
  have hpassed : r.offset < r.advance.offset := by
    have hstart := hnext.start_lt_advance
    rwa [hcurrent] at hstart
  refine ⟨r.advance.takeName.1, r.advance.takeName.2.eat .tagClose, h.advance.trans hafter, ?_, rfl⟩
  exact Nat.lt_of_lt_of_le hpassed hafter.offset_le

theorem skipClosingTag_further {source : Text} {r : Reader} (hr : r.InStep source)
    (hopens : opensClosingTag r.rest = true) :
    Reader.Further source r (skipClosingTag r) ∧ r.offset < (skipClosingTag r).offset := by
  obtain ⟨name, r', honward, hpassed, heq⟩ := skipClosingTag_spec hr hopens
  rw [heq]
  exact ⟨honward.toFurther.trans (honward.inStep.further_report _ _), hpassed⟩

end Component.Markup
