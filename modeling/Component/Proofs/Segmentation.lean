/-
Cutting a text into segments, and writing segments out again.

Up to its first misplaced brace a text consists of runs without braces and of bindings.
What the scanner does with each of these is said once, and `brace_induction` takes a text
apart accordingly.  Scanning and writing out are inverse to each other on segments in
normal form; where scanning fails, the braces of the text say how and where.
-/
import Component.Proofs.Provenance
import Mathlib.Data.List.Chain

namespace Component.Segment

open Markup (Tiles)

/-- Whether a character opens or closes a binding. -/
def isBrace (c : Char) : Bool := c = '{' || c = '}'

/-- A text in which no binding is opened or closed. -/
def BraceFree (t : Text) : Prop := ∀ c ∈ t, isBrace c = false

theorem ne_of_isBrace_eq_false {c : Char} (h : isBrace c = false) : c ≠ '{' ∧ c ≠ '}' := by
  simpa [isBrace] using h

theorem size_braced (name : Text) : (braced name).size = name.size + 2 := by
  have hopen : '{'.utf8Size = 1 := rfl
  have hclose : '}'.utf8Size = 1 := rfl
  simp only [braced, Text.size_cons, Text.size_append, Text.size_nil, hopen, hclose]
  omega

/-! ### What the scanner does with a text -/

theorem scanFrom_outside_run {run : Text} (h : BraceFree run) (offset start : Nat)
    (seen rest : Text) :
    scanFrom offset (.outside start seen) (run ++ rest) =
      scanFrom (offset + run.size) (.outside start (seen ++ run)) rest := by
  induction run generalizing offset seen with
  | nil => simp
  | cons c more ih =>
      obtain ⟨hopen, hclose⟩ := ne_of_isBrace_eq_false (h c List.mem_cons_self)
      have hmore : BraceFree more := fun d hd => h d (List.mem_cons_of_mem c hd)
      rw [List.cons_append, scanFrom, if_neg hopen, if_neg hclose, ih hmore]
      simp [Nat.add_assoc]

theorem scanFrom_inside_run {run : Text} (h : BraceFree run) (offset start : Nat)
    (seen rest : Text) :
    scanFrom offset (.inside start seen) (run ++ rest) =
      scanFrom (offset + run.size) (.inside start (seen ++ run)) rest := by
  induction run generalizing offset seen with
  | nil => simp
  | cons c more ih =>
      obtain ⟨hopen, hclose⟩ := ne_of_isBrace_eq_false (h c List.mem_cons_self)
      have hmore : BraceFree more := fun d hd => h d (List.mem_cons_of_mem c hd)
      rw [List.cons_append, scanFrom, if_neg hclose, if_neg hopen, ih hmore]
      simp [Nat.add_assoc]

section Equations

variable {run inner : Text} (hrun : BraceFree run) (hinner : BraceFree inner) (offset : Nat)
include hrun

theorem scan_run : scan offset run = .ok (pending offset (offset + run.size) run) := by
  have hscan := scanFrom_outside_run hrun offset offset [] []
  rw [List.append_nil] at hscan
  rw [scan, hscan]
  rfl

/-- A closing brace outside of a binding is an error. -/
theorem scan_unmatched (after : Text) :
    scan offset (run ++ '}' :: after) =
      .error ⟨.unmatchedBrace, .ofOffsets (offset + run.size) (offset + run.size + 1)⟩ := by
  rw [scan, scanFrom_outside_run hrun, scanFrom, if_neg (by decide), if_pos rfl]

/-- After an opening brace the scanner holds what it has seen of a name. -/
theorem scan_open (after : Text) :
    scan offset (run ++ '{' :: after) =
      (scanFrom (offset + run.size + 1) (.inside (offset + run.size) []) after).map
        (pending offset (offset + run.size) run ++ ·) := by
  rw [scan, scanFrom_outside_run hrun, scanFrom, if_pos rfl]
  rfl

include hinner

/-- A binding that is not closed is an error. -/
theorem scan_unterminated :
    scan offset (run ++ '{' :: inner) =
      .error ⟨.unterminatedBinding ('{' :: inner),
        .ofOffsets (offset + run.size) (offset + run.size + Text.size ('{' :: inner))⟩ := by
  have hend := scanFrom_inside_run hinner (offset + run.size + 1) (offset + run.size) [] []
  rw [List.append_nil] at hend
  rw [scan_open hrun, hend, Text.size_cons, ← Nat.add_assoc]
  rfl

/-- An opening brace inside of a binding is an error. -/
theorem scan_nested (after : Text) :
    scan offset (run ++ '{' :: (inner ++ '{' :: after)) =
      .error ⟨.nestedBinding ('{' :: (inner ++ ['{'])), .ofOffsets (offset + run.size)
        (offset + run.size + Text.size ('{' :: (inner ++ ['{'])))⟩ := by
  rw [scan_open hrun, scanFrom_inside_run hinner, scanFrom, if_neg (by decide), if_pos rfl]
  rw [Text.size_cons, Text.size_append, ← Nat.add_assoc, ← Nat.add_assoc]
  rfl

/-- After a binding the scanner begins anew. -/
theorem scan_binding (rest : Text) :
    scan offset (run ++ (braced inner ++ rest)) =
      (scan (offset + run.size + (braced inner).size) rest).map fun segments =>
        pending offset (offset + run.size) run ++
          .binding inner (.ofOffsets (offset + run.size)
            (offset + run.size + (braced inner).size)) :: segments := by
  have hwritten : braced inner ++ rest = '{' :: (inner ++ '}' :: rest) := by simp [braced]
  have hsize :
      offset + run.size + (braced inner).size = offset + run.size + 1 + inner.size + 1 := by
    rw [size_braced]
    omega
  rw [hwritten, scan_open hrun, scanFrom_inside_run hinner, scanFrom, if_pos rfl, hsize, scan]
  cases scanFrom (offset + run.size + 1 + inner.size + 1)
    (.outside (offset + run.size + 1 + inner.size + 1) []) rest <;> rfl

end Equations

/-- A text is a run without braces that may go on with a brace. -/
theorem exists_run (t : Text) : ∃ run rest, t = run ++ rest ∧ BraceFree run ∧
    (rest = [] ∨ ∃ after, rest = '{' :: after ∨ rest = '}' :: after) := by
  induction t with
  | nil => exact ⟨[], [], rfl, List.forall_mem_nil _, .inl rfl⟩
  | cons c more ih =>
      cases hbrace : isBrace c with
      | true =>
          have hcases : c = '{' ∨ c = '}' := by simpa [isBrace] using hbrace
          refine ⟨[], c :: more, rfl, List.forall_mem_nil _, .inr ⟨more, ?_⟩⟩
          exact hcases.imp (congrArg (· :: more)) (congrArg (· :: more))
      | false =>
          obtain ⟨run, rest, rfl, hrun, hrest⟩ := ih
          exact ⟨c :: run, rest, rfl, List.forall_mem_cons.mpr ⟨hbrace, hrun⟩, hrest⟩

/-- A text has no braces, or begins with a run after which a brace is misplaced, or begins
with a run and a binding. -/
theorem brace_induction {Holds : Text → Prop} (plain : ∀ run, BraceFree run → Holds run)
    (unmatched : ∀ run after, BraceFree run → Holds (run ++ '}' :: after))
    (unterminated : ∀ run inner, BraceFree run → BraceFree inner → Holds (run ++ '{' :: inner))
    (nested : ∀ run inner after, BraceFree run → BraceFree inner →
      Holds (run ++ '{' :: (inner ++ '{' :: after)))
    (binding : ∀ run name rest, BraceFree run → BraceFree name → Holds rest →
      Holds (run ++ (braced name ++ rest)))
    (t : Text) : Holds t := by
  induction hlength : t.length using Nat.strong_induction_on generalizing t with
  | _ n ih =>
    obtain ⟨run, rest, rfl, hrun, rfl | ⟨after, rfl | rfl⟩⟩ := exists_run t
    · exact (List.append_nil run).symm ▸ plain run hrun
    · obtain ⟨name, rest, rfl, hname, rfl | ⟨after, rfl | rfl⟩⟩ := exists_run after
      · exact (List.append_nil name).symm ▸ unterminated run name hrun hname
      · exact nested run name after hrun hname
      · have hshorter : after.length < n := by
          rw [← hlength]
          simp only [List.length_append, List.length_cons]
          omega
        have hafter := ih after.length hshorter after rfl
        simpa [braced] using binding run name after hrun hname hafter
    · exact unmatched run after hrun

/-! ### Writing segments out -/

def written : Segment → Text
  | .literal text _ => text
  | .binding name _ => braced name

/-- The text that segments are written as, one after another. -/
def render (segments : List Segment) : Text := segments.flatMap written

def isLiteral : Segment → Bool
  | .literal _ _ => true
  | .binding _ _ => false

/-- A literal has text, and neither it nor a name has braces. -/
def Clean : Segment → Prop
  | .literal text _ => text ≠ [] ∧ BraceFree text
  | .binding name _ => BraceFree name

/-- Segments that are clean, among which no two literals stand side by side. -/
def IsNormal (segments : List Segment) : Prop :=
  (∀ s ∈ segments, s.Clean) ∧
    segments.IsChain fun s next => ¬ (s.isLiteral = true ∧ next.isLiteral = true)

/-- What a segment is without its place: a literal text, or the name of a binding. -/
def content : Segment → Text ⊕ Text
  | .literal text _ => .inl text
  | .binding name _ => .inr name

/-- A segment with the span it has where it is written at an offset. -/
def writtenAt (offset : Nat) : Segment → Segment
  | .literal text _ => .literal text (.ofOffsets offset (offset + text.size))
  | .binding name _ => .binding name (.ofOffsets offset (offset + (braced name).size))

/-- The same segments, with the spans they have where they are written one after another
from an offset on. -/
def layOut (offset : Nat) : List Segment → List Segment
  | [] => []
  | s :: more => s.writtenAt offset :: layOut (offset + s.written.size) more

theorem Clean.size_pos {s : Segment} (h : s.Clean) : 0 < s.written.size := by
  cases s with
  | literal text span => exact Text.size_pos_of_ne_nil h.1
  | binding name span =>
      rw [written, size_braced]
      omega

theorem span_writtenAt (offset : Nat) (s : Segment) :
    (s.writtenAt offset).span = .ofOffsets offset (offset + s.written.size) := by
  cases s <;> rfl

theorem map_content_layOut (offset : Nat) (segments : List Segment) :
    (layOut offset segments).map content = segments.map content := by
  induction segments generalizing offset with
  | nil => rfl
  | cons s more ih =>
      rw [layOut, List.map_cons, List.map_cons, ih]
      cases s <;> rfl

theorem IsNormal.tail {s : Segment} {more : List Segment} (h : IsNormal (s :: more)) :
    IsNormal more :=
  ⟨fun next hnext => h.1 next (List.mem_cons_of_mem s hnext), h.2.tail⟩

/-- Clean segments tile what they are laid out on, below 4 GiB. -/
theorem tiles_layOut {offset : Nat} {segments : List Segment} (h : ∀ s ∈ segments, s.Clean)
    (hsize : offset + (render segments).size < UInt32.size) :
    Tiles offset (offset + (render segments).size) ((layOut offset segments).map span) := by
  induction segments generalizing offset with
  | nil => rfl
  | cons s more ih =>
      obtain ⟨hs, hmore⟩ := List.forall_mem_cons.mp h
      have hpos := hs.size_pos
      rw [render, List.flatMap_cons, Text.size_append, ← Nat.add_assoc] at hsize ⊢
      have hexact : Span.ofOffsets offset (offset + s.written.size) =
          ⟨offset, offset + s.written.size⟩ := Span.ofOffsets_eq (by omega) (by omega)
      rw [layOut, List.map_cons, span_writtenAt, hexact]
      exact ⟨rfl, Nat.lt_add_of_pos_right hpos, ih hmore hsize⟩

/-- Binding a name keeps what follows it in normal form, and a pending run that stands
before a binding is no neighbour of a literal. -/
theorem isNormal_binding {run name : Text} (hrun : BraceFree run) (hname : BraceFree name)
    {segments : List Segment} (h : IsNormal segments) (start stop : Nat) (span : Span) :
    IsNormal (pending start stop run ++ .binding name span :: segments) := by
  have hbinding : IsNormal (.binding name span :: segments) := by
    refine ⟨List.forall_mem_cons.mpr ⟨hname, h.1⟩, ?_⟩
    refine List.isChain_cons.mpr ⟨fun next _ hboth => ?_, h.2⟩
    exact absurd hboth.1 (by simp [isLiteral])
  unfold pending
  split_ifs with hempty
  · exact hbinding
  · have hnonempty : run ≠ [] := by simpa using hempty
    refine ⟨List.forall_mem_cons.mpr ⟨⟨hnonempty, hrun⟩, hbinding.1⟩, ?_⟩
    refine List.isChain_cons_cons.mpr ⟨fun hboth => ?_, hbinding.2⟩
    exact absurd hboth.2 (by simp [isLiteral])

theorem isNormal_pending {run : Text} (hrun : BraceFree run) (start stop : Nat) :
    IsNormal (pending start stop run) := by
  unfold pending
  split_ifs with hempty
  · exact ⟨List.forall_mem_nil _, .nil⟩
  · have hnonempty : run ≠ [] := by simpa using hempty
    exact ⟨List.forall_mem_singleton.mpr ⟨hnonempty, hrun⟩, .singleton _⟩

theorem render_pending (start stop : Nat) (run : Text) : render (pending start stop run) = run := by
  cases run with
  | nil => rfl
  | cons c more => exact List.append_nil _

theorem render_append (segments more : List Segment) :
    render (segments ++ more) = render segments ++ render more := List.flatMap_append

theorem layOut_append (offset : Nat) (segments more : List Segment) :
    layOut offset (segments ++ more) =
      layOut offset segments ++ layOut (offset + (render segments).size) more := by
  induction segments generalizing offset with
  | nil => simp [layOut, render]
  | cons s rest ih =>
      rw [List.cons_append, layOut, layOut, ih, List.cons_append]
      simp [render, Nat.add_assoc]

theorem layOut_pending (offset : Nat) (run : Text) :
    layOut offset (pending offset (offset + run.size) run) =
      pending offset (offset + run.size) run := by
  cases run with
  | nil => rfl
  | cons c more => rfl

/-- What scanning gives is in normal form, written as the text, and laid out where the
text begins. -/
theorem scan_yields (text : Text) (offset : Nat) {segments : List Segment}
    (h : scan offset text = .ok segments) :
    render segments = text ∧ IsNormal segments ∧ layOut offset segments = segments := by
  induction text using brace_induction generalizing offset segments with
  | plain run hrun =>
      rw [scan_run hrun] at h
      obtain rfl := Except.ok.inj h
      exact ⟨render_pending _ _ run, isNormal_pending hrun _ _, layOut_pending offset run⟩
  | unmatched run after hrun => simp [scan_unmatched hrun] at h
  | unterminated run inner hrun hinner => simp [scan_unterminated hrun hinner] at h
  | nested run inner after hrun hinner => simp [scan_nested hrun hinner] at h
  | binding run name rest hrun hname ih =>
      rw [scan_binding hrun hname] at h
      cases hrest : scan (offset + run.size + (braced name).size) rest with
      | error e =>
          rw [hrest] at h
          cases h
      | ok more =>
          rw [hrest] at h
          obtain rfl := Except.ok.inj h
          obtain ⟨hwritten, hnormal, hlaid⟩ := ih _ hrest
          refine ⟨?_, isNormal_binding hrun hname hnormal _ _ _, ?_⟩
          · rw [render_append, render_pending, ← hwritten]
            rfl
          · rw [layOut_append, layOut_pending, render_pending, layOut, written, hlaid]
            rfl

/-- Segments in normal form begin with a run, perhaps empty, after which there is nothing
or a binding. -/
theorem IsNormal.cases {segments : List Segment} (h : IsNormal segments) :
    ∃ run, BraceFree run ∧
      ((∀ offset, layOut offset segments = pending offset (offset + run.size) run) ∧
          render segments = run ∨
        ∃ name span more, BraceFree name ∧ IsNormal more ∧ more.length < segments.length ∧
          (∀ offset, layOut offset segments = pending offset (offset + run.size) run ++
            layOut (offset + run.size) (.binding name span :: more)) ∧
          render segments = run ++ (braced name ++ render more)) := by
  match segments, h with
  | [], _ => exact ⟨[], List.forall_mem_nil _, .inl ⟨fun _ => rfl, rfl⟩⟩
  | .binding name span :: more, h =>
      refine ⟨[], List.forall_mem_nil _,
        .inr ⟨name, span, more, h.1 _ List.mem_cons_self, h.tail, ?_⟩⟩
      exact ⟨Nat.lt_succ_self _, fun _ => rfl, rfl⟩
  | [.literal text span], h =>
      obtain ⟨htext, hfree⟩ := h.1 _ List.mem_cons_self
      refine ⟨text, hfree, .inl ⟨fun offset => ?_, List.append_nil _⟩⟩
      simp [pending, htext, layOut, writtenAt]
  | .literal text span :: .binding name span' :: more, h =>
      obtain ⟨htext, hfree⟩ := h.1 _ List.mem_cons_self
      refine ⟨text, hfree, .inr ⟨name, span', more, h.tail.1 _ List.mem_cons_self, h.tail.tail, ?_⟩⟩
      refine ⟨Nat.lt_add_of_pos_right (by decide : 0 < 2), fun offset => ?_, rfl⟩
      simp [pending, htext, layOut, writtenAt, written]
  | .literal text span :: .literal text' span' :: more, h =>
      exact absurd ⟨rfl, rfl⟩ (List.isChain_cons_cons.mp h.2).1

theorem scan_render {segments : List Segment} (h : IsNormal segments) (offset : Nat) :
    scan offset (render segments) = .ok (layOut offset segments) := by
  induction hlength : segments.length using Nat.strong_induction_on
    generalizing segments offset with
  | _ n ih =>
    obtain ⟨run, hrun, ⟨hlaid, hwritten⟩ |
        ⟨name, span, more, hname, hmore, hlt, hlaid, hwritten⟩⟩ :=
      h.cases
    · rw [hwritten, hlaid, scan_run hrun]
    · have hrest := ih more.length (hlength ▸ hlt) hmore
        (offset + run.size + (braced name).size) rfl
      rw [hwritten, hlaid, scan_binding hrun hname, hrest]
      rfl

/-- Scanning and writing out undo each other.  What a text is cut into is in normal form,
is written as that text again, and tiles it if the text ends below 4 GiB.  Whatever segments
in normal form are written one after another, scanning finds the same ones, each where it is
written. -/
theorem scan_inverse_to_render (offset : Nat) :
    (∀ text segments, scan offset text = .ok segments →
      render segments = text ∧ IsNormal segments ∧ layOut offset segments = segments ∧
        (offset + text.size < UInt32.size →
          Tiles offset (offset + text.size) (segments.map span))) ∧
    ∀ segments, IsNormal segments →
      scan offset (render segments) = .ok (layOut offset segments) ∧
        (layOut offset segments).map content = segments.map content := by
  constructor
  · intro text segments h
    obtain ⟨hwritten, hnormal, hlaid⟩ := scan_yields text offset h
    refine ⟨hwritten, hnormal, hlaid, fun hsize => ?_⟩
    have htiles := tiles_layOut hnormal.1 (hwritten.symm ▸ hsize)
    rwa [hlaid, hwritten] at htiles
  · intro segments h
    exact ⟨scan_render h offset, map_content_layOut offset segments⟩

/-- An accented letter before a binding, a binding without a name, and a letter. -/
theorem accented_text_cut_and_written :
    scan 3 "é\x7bx\x7d\x7b\x7db".toList = .ok [.literal "é".toList ⟨3, 5⟩,
        .binding "x".toList ⟨5, 8⟩, .binding [] ⟨8, 10⟩, .literal "b".toList ⟨10, 11⟩] ∧
      Tiles 3 11 [⟨3, 5⟩, ⟨5, 8⟩, ⟨8, 10⟩, ⟨10, 11⟩] ∧
      scan 0 (render [.binding "x".toList ⟨9, 9⟩, .binding [] ⟨9, 9⟩]) =
        .ok [.binding "x".toList ⟨0, 3⟩, .binding [] ⟨3, 5⟩] := by
  have hscan : scan 3 "é\x7bx\x7d\x7b\x7db".toList = .ok [.literal "é".toList ⟨3, 5⟩,
      .binding "x".toList ⟨5, 8⟩, .binding [] ⟨8, 10⟩, .literal "b".toList ⟨10, 11⟩] := by
    decide
  have hnormal : IsNormal [.binding "x".toList ⟨9, 9⟩, .binding [] ⟨9, 9⟩] := by
    simp [IsNormal, Clean, BraceFree, isBrace, isLiteral]
  obtain ⟨-, -, -, htiles⟩ := (scan_inverse_to_render 3).1 _ _ hscan
  exact ⟨hscan, htiles (by decide), ((scan_inverse_to_render 0).2 _ hnormal).1⟩

/-- Across 4 GiB the span of a segment ends before it begins, and tiles nothing. -/
theorem literal_wraps :
    scan 4294967295 "ab" = .ok [.literal "ab" ⟨4294967295, 1⟩] ∧
      ¬ Tiles 4294967295 4294967297 [⟨4294967295, 1⟩] := by
  refine ⟨by decide +kernel, fun htiles => ?_⟩
  obtain ⟨-, hnonempty, -⟩ := htiles
  exact absurd hnonempty (by decide)

/-! ### Misplaced braces -/

def braces (t : Text) : Text := t.filter isBrace

/-- Braces of which each opening one is followed by its closing one. -/
def Paired (bs : Text) : Prop := ∃ n, bs = (List.replicate n ['{', '}']).flatten

/-- The error for the first brace of a text that is misplaced, where the text begins at
`offset`.  Before it, or before the opening brace to which it belongs, the braces are
paired.  What comes after it plays no part. -/
inductive Misplaced (offset : Nat) : Text → Error → Prop where
  | unmatched {before : Text} (after : Text) (h : Paired (braces before)) :
      Misplaced offset (before ++ '}' :: after)
        ⟨.unmatchedBrace, ⟨offset + before.size, offset + before.size + 1⟩⟩
  | nested {before inner : Text} (after : Text) (h : Paired (braces before))
      (hinner : BraceFree inner) :
      Misplaced offset (before ++ '{' :: (inner ++ '{' :: after))
        ⟨.nestedBinding ('{' :: (inner ++ ['{'])), ⟨offset + before.size,
          offset + before.size + Text.size ('{' :: (inner ++ ['{']))⟩⟩
  | unterminated {before inner : Text} (h : Paired (braces before)) (hinner : BraceFree inner) :
      Misplaced offset (before ++ '{' :: inner)
        ⟨.unterminatedBinding ('{' :: inner), ⟨offset + before.size,
          offset + before.size + Text.size ('{' :: inner)⟩⟩

theorem paired_nil : Paired [] := ⟨0, rfl⟩

theorem paired_pair {bs : Text} : Paired ('{' :: '}' :: bs) ↔ Paired bs := by
  constructor
  · rintro ⟨n, hn⟩
    cases n with
    | zero => cases hn
    | succ n => exact ⟨n, (List.cons.inj (List.cons.inj hn).2).2⟩
  · rintro ⟨n, rfl⟩
    exact ⟨n + 1, rfl⟩

/-- Paired braces that are not none begin with a pair. -/
theorem Paired.eq_nil_or_pair {bs : Text} (h : Paired bs) :
    bs = [] ∨ ∃ more, bs = '{' :: '}' :: more := by
  obtain ⟨n, rfl⟩ := h
  cases n with
  | zero => exact .inl rfl
  | succ n => exact .inr ⟨_, rfl⟩

theorem Paired.append {bs more : Text} (h : Paired bs) (hmore : Paired more) :
    Paired (bs ++ more) := by
  obtain ⟨n, rfl⟩ := h
  obtain ⟨m, rfl⟩ := hmore
  exact ⟨n + m, by rw [← List.flatten_append, List.replicate_append_replicate]⟩

theorem braces_append (a b : Text) : braces (a ++ b) = braces a ++ braces b :=
  List.filter_append ..

theorem BraceFree.braces_eq_nil {t : Text} (h : BraceFree t) : braces t = [] :=
  List.filter_eq_nil_iff.mpr fun c hc => Bool.eq_false_iff.mp (h c hc)

theorem BraceFree.braces_append {run : Text} (h : BraceFree run) (rest : Text) :
    braces (run ++ rest) = braces rest := by
  rw [Segment.braces_append, h.braces_eq_nil, List.nil_append]

theorem braces_braced {name : Text} (h : BraceFree name) (rest : Text) :
    braces (braced name ++ rest) = '{' :: '}' :: braces rest := by
  have hwritten : braced name ++ rest = ['{'] ++ (name ++ (['}'] ++ rest)) := by simp [braced]
  rw [hwritten, braces_append, h.braces_append, braces_append]
  rfl

section Shapes

variable {run inner : Text} (hrun : BraceFree run) (hinner : BraceFree inner)
include hrun

theorem not_paired_unmatched (after : Text) : ¬ Paired (braces (run ++ '}' :: after)) := by
  rw [hrun.braces_append]
  intro h
  obtain hnil | ⟨more, hpair⟩ := h.eq_nil_or_pair
  · cases hnil
  · cases hpair

include hinner

theorem not_paired_unterminated : ¬ Paired (braces (run ++ '{' :: inner)) := by
  have hbraces : braces ('{' :: inner) = ['{'] := congrArg ('{' :: ·) hinner.braces_eq_nil
  rw [hrun.braces_append, hbraces]
  intro h
  obtain hnil | ⟨more, hpair⟩ := h.eq_nil_or_pair
  · cases hnil
  · cases hpair

theorem not_paired_nested (after : Text) :
    ¬ Paired (braces (run ++ '{' :: (inner ++ '{' :: after))) := by
  have hbraces : braces ('{' :: (inner ++ '{' :: after)) = '{' :: '{' :: braces after :=
    congrArg ('{' :: ·) (hinner.braces_append _)
  rw [hrun.braces_append, hbraces]
  intro h
  obtain hnil | ⟨more, hpair⟩ := h.eq_nil_or_pair
  · cases hnil
  · cases hpair

theorem paired_binding (rest : Text) :
    Paired (braces (run ++ (braced inner ++ rest))) ↔ Paired (braces rest) := by
  rw [hrun.braces_append, braces_braced hinner, paired_pair]

end Shapes

theorem exists_scan_iff (text : Text) (offset : Nat) :
    (∃ segments, scan offset text = .ok segments) ↔ Paired (braces text) := by
  induction text using brace_induction generalizing offset with
  | plain run hrun =>
      rw [scan_run hrun, hrun.braces_eq_nil]
      exact iff_of_true ⟨_, rfl⟩ paired_nil
  | unmatched run after hrun =>
      rw [scan_unmatched hrun]
      exact iff_of_false (fun h => nomatch h) (not_paired_unmatched hrun after)
  | unterminated run inner hrun hinner =>
      rw [scan_unterminated hrun hinner]
      exact iff_of_false (fun h => nomatch h) (not_paired_unterminated hrun hinner)
  | nested run inner after hrun hinner =>
      rw [scan_nested hrun hinner]
      exact iff_of_false (fun h => nomatch h) (not_paired_nested hrun hinner after)
  | binding run name rest hrun hname ih =>
      rw [paired_binding hrun hname, ← ih (offset + run.size + (braced name).size),
        scan_binding hrun hname]
      cases scan (offset + run.size + (braced name).size) rest with
      | error e => exact iff_of_false (fun h => nomatch h) (fun h => nomatch h)
      | ok segments => exact iff_of_true ⟨_, rfl⟩ ⟨_, rfl⟩

/-- An error that a text has behind every run without braces, it has behind every text
whose braces are paired. -/
theorem scan_paired_append {before rest : Text} {fault : Fault} {length : Nat}
    (hrest : ∀ run, BraceFree run → ∀ offset, scan offset (run ++ rest) =
      .error ⟨fault, .ofOffsets (offset + run.size) (offset + run.size + length)⟩)
    (h : Paired (braces before)) (offset : Nat) :
    scan offset (before ++ rest) =
      .error ⟨fault, .ofOffsets (offset + before.size) (offset + before.size + length)⟩ := by
  induction before using brace_induction generalizing offset with
  | plain run hrun => exact hrest run hrun offset
  | unmatched run after hrun => exact absurd h (not_paired_unmatched hrun after)
  | unterminated run inner hrun hinner => exact absurd h (not_paired_unterminated hrun hinner)
  | nested run inner after hrun hinner => exact absurd h (not_paired_nested hrun hinner after)
  | binding run name more hrun hname ih =>
      have hmore := ih ((paired_binding hrun hname more).mp h)
        (offset + run.size + (braced name).size)
      rw [List.append_assoc, List.append_assoc, scan_binding hrun hname, hmore,
        Text.size_append, Text.size_append, ← Nat.add_assoc, ← Nat.add_assoc]
      rfl

/-- The error with its span as it is stored. -/
def stored (e : Error) : Error := ⟨e.fault, .ofOffsets e.span.start e.span.stop⟩

/-- The place of a misplaced brace is a part of the text. -/
theorem Misplaced.bounds {offset : Nat} {text : Text} {e : Error}
    (h : Misplaced offset text e) :
    e.span.start < e.span.stop ∧ e.span.stop ≤ offset + text.size := by
  have hopen : '{'.utf8Size = 1 := rfl
  have hclose : '}'.utf8Size = 1 := rfl
  cases h <;> simp only [Text.size_append, Text.size_cons, Text.size_nil, hopen, hclose] <;> omega

theorem Misplaced.stored_eq {offset : Nat} {text : Text} {e : Error}
    (h : Misplaced offset text e) (hsize : offset + text.size < UInt32.size) : stored e = e := by
  obtain ⟨hordered, hend⟩ := h.bounds
  rw [stored, Span.ofOffsets_eq (by omega) (by omega)]

theorem Misplaced.scan_eq {offset : Nat} {text : Text} {e : Error} (h : Misplaced offset text e) :
    scan offset text = .error (stored e) := by
  cases h with
  | unmatched after hbefore =>
      exact scan_paired_append (fun run hrun offset => scan_unmatched hrun offset after) hbefore _
  | nested after hbefore hinner =>
      exact scan_paired_append (fun run hrun offset => scan_nested hrun hinner offset after)
        hbefore _
  | unterminated hbefore hinner =>
      exact scan_paired_append (fun run hrun offset => scan_unterminated hrun hinner offset)
        hbefore _

/-- A misplaced brace stays misplaced behind paired ones. -/
theorem Misplaced.prepend {front text : Text} {offset : Nat} {e : Error}
    (hfront : Paired (braces front)) (h : Misplaced (offset + front.size) text e) :
    Misplaced offset (front ++ text) e := by
  have hpaired : ∀ {before}, Paired (braces before) → Paired (braces (front ++ before)) :=
    fun hbefore => braces_append front _ ▸ hfront.append hbefore
  cases h with
  | unmatched after hbefore =>
      rw [← List.append_assoc, Nat.add_assoc, ← Text.size_append]
      exact .unmatched after (hpaired hbefore)
  | nested after hbefore hinner =>
      rw [← List.append_assoc, Nat.add_assoc offset, ← Text.size_append]
      exact .nested after (hpaired hbefore) hinner
  | unterminated hbefore hinner =>
      rw [← List.append_assoc, Nat.add_assoc offset, ← Text.size_append]
      exact .unterminated (hpaired hbefore) hinner

theorem paired_or_misplaced (text : Text) (offset : Nat) :
    Paired (braces text) ∨ ∃ e, Misplaced offset text e := by
  have hfree : ∀ {run}, BraceFree run → Paired (braces run) :=
    fun hrun => hrun.braces_eq_nil ▸ paired_nil
  induction text using brace_induction generalizing offset with
  | plain run hrun => exact .inl (hfree hrun)
  | unmatched run after hrun => exact .inr ⟨_, .unmatched after (hfree hrun)⟩
  | unterminated run inner hrun hinner => exact .inr ⟨_, .unterminated (hfree hrun) hinner⟩
  | nested run inner after hrun hinner => exact .inr ⟨_, .nested after (hfree hrun) hinner⟩
  | binding run name rest hrun hname ih =>
      refine (ih (offset + (run ++ braced name).size)).imp (paired_binding hrun hname rest).mpr ?_
      rintro ⟨e, he⟩
      have hfront : Paired (braces (run ++ braced name)) := by
        have hpair := paired_binding hrun hname []
        rw [List.append_nil] at hpair
        exact hpair.mpr paired_nil
      rw [← List.append_assoc]
      exact ⟨e, he.prepend hfront⟩

/-- A text can be cut exactly if its braces are paired.  If they are not, the error is that
of the first brace that is misplaced: one that closes nothing, one that opens a binding
within another, or one that opens a binding which the text does not close.  Its place is
stored as it is if the text ends below 4 GiB. -/
theorem scan_fails_at_first_misplaced_brace (offset : Nat) (text : Text) :
    ((∃ segments, scan offset text = .ok segments) ↔ Paired (braces text)) ∧
      (∀ e, scan offset text = .error e ↔ ∃ found, Misplaced offset text found ∧ e = stored found) ∧
      (offset + text.size < UInt32.size →
        ∀ e, scan offset text = .error e ↔ Misplaced offset text e) := by
  have herror : ∀ e, scan offset text = .error e ↔
      ∃ found, Misplaced offset text found ∧ e = stored found := by
    refine fun e => ⟨fun hscan => ?_, ?_⟩
    · obtain hpaired | ⟨found, hfound⟩ := paired_or_misplaced text offset
      · obtain ⟨segments, hsegments⟩ := (exists_scan_iff text offset).mpr hpaired
        rw [hsegments] at hscan
        cases hscan
      · rw [hfound.scan_eq] at hscan
        exact ⟨found, hfound, (Except.error.inj hscan).symm⟩
    · rintro ⟨found, hfound, rfl⟩
      exact hfound.scan_eq
  refine ⟨exists_scan_iff text offset, herror, fun hsize e => (herror e).trans ⟨?_, fun h => ?_⟩⟩
  · rintro ⟨found, hfound, rfl⟩
    rwa [hfound.stored_eq hsize]
  · exact ⟨e, h, (h.stored_eq hsize).symm⟩

/-- A brace that closes nothing, behind an accented letter and a binding. -/
theorem second_closing_brace_misplaced :
    scan 3 "é\x7bx\x7d\x7d\x7b" = .error ⟨.unmatchedBrace, ⟨8, 9⟩⟩ ∧
      Misplaced 3 "é\x7bx\x7d\x7d\x7b" ⟨.unmatchedBrace, ⟨8, 9⟩⟩ := by
  have hscan : scan 3 "é\x7bx\x7d\x7d\x7b" = .error ⟨.unmatchedBrace, ⟨8, 9⟩⟩ := by decide
  obtain ⟨-, -, herror⟩ := scan_fails_at_first_misplaced_brace 3 "é\x7bx\x7d\x7d\x7b"
  exact ⟨hscan, (herror (by decide) _).mp hscan⟩

/-- At the last byte below 4 GiB the span of a misplaced brace ends before it begins. -/
theorem closing_brace_wraps :
    scan 4294967295 "\x7d" = .error ⟨.unmatchedBrace, ⟨4294967295, 0⟩⟩ ∧
      Misplaced 4294967295 "\x7d" ⟨.unmatchedBrace, ⟨4294967295, 4294967296⟩⟩ ∧
      ¬ Misplaced 4294967295 "\x7d" ⟨.unmatchedBrace, ⟨4294967295, 0⟩⟩ := by
  have hmisplaced := @Misplaced.unmatched 4294967295 [] [] paired_nil
  refine ⟨by decide +kernel, hmisplaced, fun h => ?_⟩
  exact absurd h.bounds.1 (by decide)

end Component.Segment
