/-
Cutting texts out of a script.

Statements and default values are the texts at spans of the script.  A span that begins
or ends inside a character has no text, and the script then has no parts.
-/
import Component.Proofs.Compiling
import Component.Proofs.Markup.Placement

namespace Component

theorem Text.takeBytes_append_dropBytes (n : Nat) (t : Text) :
    takeBytes n t ++ dropBytes n t = t := by
  induction t generalizing n with
  | nil => rfl
  | cons c rest ih =>
      by_cases hn : n = 0
      · simp [hn]
      · simp [takeBytes, dropBytes, hn, ih]

namespace Span

/-- The span lies in the text, from between two characters to between two characters. -/
def LiesIn (span : Span) (text : Text) : Prop := ∃ part, span.Covers text part

theorem liesIn_iff {span : Span} {text : Text} :
    span.LiesIn text ↔ span.start ≤ span.stop ∧ (text.takeBytes span.start).size = span.start ∧
      (text.takeBytes span.stop).size = span.stop := by
  constructor
  · rintro ⟨part, before, after, rfl, rfl⟩
    refine ⟨Nat.le_add_right _ _, ?_, ?_⟩
    · rw [Text.takeBytes_size_append]
    · rw [← List.append_assoc, ← Text.size_append, Text.takeBytes_size_append]
  · rintro ⟨hordered, hstart, hstop⟩
    have hfirst := Text.takeBytes_append_dropBytes span.start text
    have hlast := Text.takeBytes_append_dropBytes span.stop text
    obtain ⟨part, hpart⟩ := Markup.exists_append_of_size_le (hfirst.trans hlast.symm)
      (by rw [hstart, hstop]; exact hordered)
    refine ⟨part, text.takeBytes span.start, text.dropBytes span.stop, ?_, ?_⟩
    · rw [← List.append_assoc, ← hpart, hlast]
    · rw [← Text.size_append, ← hpart, hstart, hstop]

instance (span : Span) (text : Text) : Decidable (span.LiesIn text) :=
  decidable_of_iff _ liesIn_iff.symm

theorem LiesIn.within {span : Span} {text : Text} (h : span.LiesIn text) : span.Within text := by
  obtain ⟨part, hpart⟩ := h
  exact hpart.within

theorem LiesIn.covers {span : Span} {text : Text} (h : span.LiesIn text) :
    span.Covers text (span.read text) := by
  obtain ⟨part, hpart⟩ := h
  rwa [hpart.read]

end Span

namespace ScriptBlock

variable {block : ScriptBlock} {span : Span}

theorem clamp_eq_self (h : span.Within block.content) : block.clamp span = span := by
  obtain ⟨hordered, hend⟩ := h
  simp only [clamp]
  rw [Nat.min_eq_left (Nat.le_trans hordered hend), Nat.max_eq_left hordered, Nat.min_eq_left hend]

/-- A span inside a script that ends below 4 GiB is moved by where the script starts. -/
theorem place_eq (h : span.Within block.content)
    (hsize : block.span.start + block.content.size < UInt32.size) :
    block.place span = ⟨block.span.start + span.start, block.span.start + span.stop⟩ := by
  obtain ⟨hordered, hend⟩ := h
  rw [place, clamp_eq_self ⟨hordered, hend⟩, Span.slice]
  exact Span.ofOffsets_eq (by omega) (by omega)

/-- What stands at a span of the script, up to the end of a last character that the span
takes in part. -/
def excerpt (block : ScriptBlock) (span : Span) : Text := (block.clamp span).read block.content

theorem excerpt_eq (h : span.Within block.content) :
    block.excerpt span = span.read block.content := by
  rw [excerpt, clamp_eq_self h]

theorem textAt_eq (block : ScriptBlock) (span : Span) :
    block.textAt span = if (block.clamp span).LiesIn block.content
      then .ok (block.excerpt span) else .error .crashed := by
  have hordered : (block.clamp span).start ≤ (block.clamp span).stop := by
    simp only [clamp]
    omega
  simp only [textAt, Text.slice?, Text.isBoundary, Bool.and_eq_true, beq_iff_eq,
    Span.liesIn_iff, hordered, true_and]
  split_ifs <;> rfl

theorem textAt_eq_ok_iff {text : Text} :
    block.textAt span = .ok text ↔
      (block.clamp span).LiesIn block.content ∧ text = block.excerpt span := by
  rw [textAt_eq]
  split_ifs with h
  · rw [Except.ok.injEq, and_iff_right h, eq_comm]
  · exact iff_of_false (fun heq => nomatch heq) (fun hboth => h hboth.1)

theorem eq_crashed_of_textAt {failure : Failure} (h : block.textAt span = .error failure) :
    failure = .crashed := by
  rw [textAt_eq] at h
  split_ifs at h
  exact (Except.error.inj h).symm

/-- The text of a span inside the script is what the script has there. -/
theorem covers_of_textAt {text : Text} (h : block.textAt span = .ok text)
    (hspan : span.Within block.content) : span.Covers block.content text := by
  obtain ⟨hlies, rfl⟩ := textAt_eq_ok_iff.1 h
  rw [clamp_eq_self hspan] at hlies
  rw [excerpt_eq hspan]
  exact hlies.covers

/-- An optional text is cut like a text. -/
theorem mapM_textAt_eq_ok_iff {value : Option Span} {text : Option Text} :
    value.mapM block.textAt = .ok text ↔
      (∀ span ∈ value, (block.clamp span).LiesIn block.content) ∧
        text = value.map block.excerpt := by
  cases value with
  | none => simp [Option.mapM_none, pure, Except.pure, eq_comm]
  | some span =>
      simp only [Option.mapM_some, textAt_eq, Option.mem_some_iff, forall_eq', Option.map_some]
      split_ifs with h
      · simp [h, Functor.map, Except.map, eq_comm]
      · exact iff_of_false (fun heq => nomatch heq) (fun hboth => h hboth.1)

theorem eq_crashed_of_mapM_textAt {value : Option Span} {failure : Failure}
    (h : value.mapM block.textAt = .error failure) : failure = .crashed := by
  cases value with
  | none => cases h
  | some span =>
      cases hcut : block.textAt span with
      | error other =>
          rw [Option.mapM_some, hcut] at h
          exact (Except.error.inj h).symm.trans (eq_crashed_of_textAt hcut)
      | ok text =>
          rw [Option.mapM_some, hcut] at h
          cases h

/-- A text is cut at a span, and is what the script has there if the span lies inside. -/
def IsCut (block : ScriptBlock) (span : Span) (text : Text) : Prop :=
  block.textAt span = .ok text ∧
    (span.Within block.content → span.Covers block.content text)

theorem isCut_excerpt (h : (block.clamp span).LiesIn block.content) :
    block.IsCut span (block.excerpt span) := by
  have htext := textAt_eq_ok_iff.2 ⟨h, rfl⟩
  exact ⟨htext, covers_of_textAt htext⟩

end ScriptBlock

/-- The spans whose texts are kept of an item: those of the default values that it
exports, or its own. -/
def Script.Item.cuts : Script.Item → List Span
  | .exportedVariables _ declarators => declarators.filterMap (·.initializer)
  | .otherExport .. => []
  | item => [item.span]

/-- All texts that are kept of some items are cut between characters. -/
def ScriptBlock.CutsWhole (block : ScriptBlock) (items : List Script.Item) : Prop :=
  ∀ item ∈ items, ∀ span ∈ item.cuts, (block.clamp span).LiesIn block.content

instance (block : ScriptBlock) (items : List Script.Item) : Decidable (block.CutsWhole items) :=
  inferInstanceAs (Decidable (∀ item ∈ items, ∀ span ∈ item.cuts, _))

end Component
