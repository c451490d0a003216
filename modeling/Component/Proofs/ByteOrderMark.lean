/-
A byte order mark before a script.

The mark is left out when the script is read, and offsets count from what follows it.  So a script
has the same items with the mark as without it, but their texts are cut from the script with the
mark: each cut takes what stands three bytes earlier, and may fall inside a character.
-/
import Component.Proofs.OnePass
import Component.Proofs.Script.Declarators

namespace Component

/-- The mark that tells the order of the bytes of a text. -/
def byteOrderMark : Char := '\ufeff'

theorem utf8Size_byteOrderMark : byteOrderMark.utf8Size = 3 := rfl

/-! ### Cuts -/

/-- A span whose offsets are counted from an offset. -/
def Span.countedFrom (span : Span) (offset : Nat) : Span :=
  ⟨span.start - offset, span.stop - offset⟩

/-- What becomes of a cut from a script when a byte order mark comes before the script. -/
structure Span.Slips (cut : Span) (script : Text) : Prop where
  /-- The cut falls between characters if both ends do three bytes earlier. -/
  liesIn_iff : cut.LiesIn (byteOrderMark :: script) ↔
    (cut.start = 0 ∨ 3 ≤ cut.start) ∧ (cut.stop = 0 ∨ 3 ≤ cut.stop) ∧
      (cut.countedFrom 3).LiesIn script
  /-- A cut at the start of the script takes the mark, and leaves as much out at its end. -/
  first : cut.start = 0 → 0 < cut.stop →
    cut.read (byteOrderMark :: script) = byteOrderMark :: (cut.countedFrom 3).read script
  /-- A later cut takes what stands three bytes earlier. -/
  later : 3 ≤ cut.start → cut.read (byteOrderMark :: script) = (cut.countedFrom 3).read script

theorem size_takeBytes_byteOrderMark (script : Text) (n : Nat) :
    (Text.takeBytes n (byteOrderMark :: script)).size = n ↔
      (n = 0 ∨ 3 ≤ n) ∧ (script.takeBytes (n - 3)).size = n - 3 := by
  by_cases hn : n = 0
  · subst hn
    simp
  · rw [Text.takeBytes, if_neg hn, Text.size_cons, utf8Size_byteOrderMark]
    omega

theorem Span.slips {cut : Span} (h : cut.start ≤ cut.stop) (script : Text) : cut.Slips script where
  liesIn_iff := by
    rw [Span.liesIn_iff, Span.liesIn_iff, size_takeBytes_byteOrderMark,
      size_takeBytes_byteOrderMark, countedFrom]
    dsimp only
    omega
  first hstart hstop := by
    rw [read, read, Text.slice, Text.slice, countedFrom, hstart, Nat.zero_sub, Text.dropBytes_zero,
      Text.dropBytes_zero, Text.takeBytes, if_neg (by omega), utf8Size_byteOrderMark]
    congr 2
  later hstart := by
    rw [read, read, Text.slice, Text.slice, countedFrom, Text.dropBytes, if_neg (by omega),
      utf8Size_byteOrderMark]
    congr 1
    dsimp only
    omega

/-! ### Texts cut again -/

/-- Where the text of a statement stands in a script that begins at an offset. -/
def Statement.cut (start : Nat) (s : Statement) : Span := s.span.countedFrom start

/-- Where the default value of a property stands: it ends with the property. -/
def Property.cut (start : Nat) (p : Property) (value : Text) : Span :=
  ⟨p.span.stop - start - value.size, p.span.stop - start⟩

namespace ScriptParts

/-- Where the texts among the parts of a script stand in it. -/
def cuts (start : Nat) (parts : ScriptParts) : List Span :=
  parts.statements.map (·.cut start) ++
    parts.properties.flatMap fun p => p.default.toList.map (p.cut start)

/-- The parts of a script with their texts cut from another script.  Names, placements and spans
stay. -/
def recut (start : Nat) (script : Text) (parts : ScriptParts) : ScriptParts where
  properties := parts.properties.map fun p =>
    { p with default := p.default.map fun value => (p.cut start value).read script }
  statements := parts.statements.map fun s => { s with source := (s.cut start).read script }

end ScriptParts

/-! ### Parts of a script and where they stand -/

namespace Script

/-- Nothing is read of a script without a token. -/
theorem read_blank {script : Text} (h : script.isBlank = true) : read script = .ok [] := by
  have hbegins : ∃ newline, Begins script .endOfInput newline [] := by
    induction script with
    | nil => exact ⟨false, .nil⟩
    | cons c rest ih =>
      simp only [Text.isBlank, List.all_cons, Bool.and_eq_true] at h
      obtain ⟨newline, hrest⟩ := ih h.2
      refine ⟨isLineBreak c || newline, ?_⟩
      rw [Begins, front_cons_gap (by rw [isSpace, h.1, Bool.true_or, Bool.true_or, Bool.or_true]),
        hrest]
      rfl
  have hstart : Input.start script = ⟨script, 0⟩ := by
    apply Input.start_eq
    rintro more rfl
    cases h
  obtain ⟨newline, hbegins⟩ := hbegins
  have hmodule : (readModule (.atDepth (2 * script.length + 4))).Reads script (· = []) script :=
    Parser.Loops.repeated (moduleStep_end hbegins rfl)
  obtain ⟨items, hparse, rfl⟩ := parse_of_reads hstart hmodule
  rw [read, hparse]

end Script

open Script (Item Declarator)

namespace ScriptBlock

variable {block other : ScriptBlock} {items : List Item} {parts : ScriptParts}

section Recut

variable (hsize : block.span.start + block.content.size < UInt32.size)
include hsize

theorem countedFrom_place {span : Span} (h : span.Within block.content) :
    (block.place span).countedFrom block.span.start = span := by
  rw [place_eq h hsize]
  simp only [Span.countedFrom, Nat.add_sub_cancel_left]

/-- The default value of a property is cut from where the script has it. -/
theorem cut_property {d : Declarator} {value : Span} (hd : d.span.Within block.content)
    (hvalue : value.LiesIn block.content) (hstop : value.stop = d.span.stop) :
    (block.property d).cut block.span.start (block.excerpt value) = value := by
  obtain ⟨text, htext⟩ := hvalue
  have hplace := congrArg Span.stop (countedFrom_place hsize hd)
  have hlength := htext.stop_eq
  have hstart : value.stop - text.size = value.start := by omega
  have hcut : (block.property d).cut block.span.start text =
      ⟨value.stop - text.size, value.stop⟩ := by
    rw [Property.cut, hstop]
    exact congrArg (fun stop => Span.mk (stop - text.size) stop) hplace
  rw [excerpt_eq htext.within, htext.read, hcut, hstart]

section Parts

variable (h : ScriptParts.ofItems block items = .ok parts)
  (hitems : ∀ item ∈ items, item.LiesIn block.content)
include h hitems

/-- The texts of the parts stand where the items were cut. -/
theorem mem_cuts_parts_iff {cut : Span} :
    cut ∈ parts.cuts block.span.start ↔ ∃ item ∈ items, cut ∈ item.cuts := by
  obtain ⟨hproperties, hstatements⟩ := parts_of_ofItems h
  have hkept : ∀ item ∈ items, (block.keep item).cut block.span.start = item.span :=
    fun item hitem => countedFrom_place hsize (hitems item hitem).1.within
  have hdefault : ∀ item ∈ items, ∀ d ∈ item.exported, ∀ value, d.initializer = some value →
      (block.property d).cut block.span.start (block.excerpt value) = value := by
    intro item hitem d hd value hinitializer
    obtain ⟨hspan, hvalues⟩ := (hitems item hitem).2 d hd
    obtain ⟨hvalue, -, hstop⟩ := hvalues value hinitializer
    exact cut_property hsize hspan.within hvalue hstop
  rw [ScriptParts.cuts, hproperties, hstatements, List.mem_append]
  constructor
  · rintro (hcut | hcut)
    · obtain ⟨s, hs, rfl⟩ := List.mem_map.1 hcut
      obtain ⟨item, hitem, rfl⟩ := List.mem_map.1 hs
      obtain ⟨hmem, hexport⟩ := List.mem_filter.1 hitem
      rw [hkept item hmem]
      exact ⟨item, hmem, mem_cuts_iff.2 (.inl ⟨by simpa using hexport, rfl⟩)⟩
    · obtain ⟨p, hp, hcut⟩ := List.mem_flatMap.1 hcut
      obtain ⟨d, hd, rfl⟩ := List.mem_map.1 hp
      obtain ⟨item, hitem, hd⟩ := List.mem_flatMap.1 hd
      obtain ⟨text, htext, rfl⟩ := List.mem_map.1 hcut
      obtain ⟨value, hinitializer, rfl⟩ := Option.map_eq_some_iff.1 (Option.mem_toList.1 htext)
      rw [hdefault item hitem d hd value hinitializer]
      exact ⟨item, hitem, mem_cuts_iff.2 (.inr ⟨d, hd, hinitializer⟩)⟩
  · rintro ⟨item, hitem, hcut⟩
    rcases mem_cuts_iff.1 hcut with ⟨hexport, rfl⟩ | ⟨d, hd, hinitializer⟩
    · refine .inl (List.mem_map.2 ⟨block.keep item, ?_, hkept item hitem⟩)
      exact List.mem_map_of_mem (List.mem_filter.2 ⟨hitem, by simpa using hexport⟩)
    · have hmem := List.mem_flatMap.2 ⟨item, hitem, hd⟩
      refine .inr (List.mem_flatMap.2 ⟨block.property d, List.mem_map_of_mem hmem, ?_⟩)
      refine List.mem_map.2 ⟨block.excerpt cut, ?_, hdefault item hitem d hd cut hinitializer⟩
      rw [property, hinitializer]
      exact List.mem_singleton.2 rfl

/-- The texts of the parts are cut between characters of the script. -/
theorem liesIn_cuts : ∀ cut ∈ parts.cuts block.span.start, cut.LiesIn block.content := by
  intro cut hcut
  obtain ⟨item, hitem, hcut⟩ := (mem_cuts_parts_iff hsize h hitems).1 hcut
  obtain ⟨hown, hexported⟩ := hitems item hitem
  rcases mem_cuts_iff.1 hcut with ⟨-, rfl⟩ | ⟨d, hd, hinitializer⟩
  · exact hown
  · exact ((hexported d hd).2 cut hinitializer).1

/-- In another script that is long enough for the items, these are cut between characters if
the texts of the parts are. -/
theorem cutsWhole_iff_cuts (hlonger : block.content.size ≤ other.content.size) :
    other.CutsWhole items ↔
      ∀ cut ∈ parts.cuts block.span.start, cut.LiesIn other.content := by
  have hclamp : ∀ cut ∈ parts.cuts block.span.start, other.clamp cut = cut := by
    intro cut hcut
    obtain ⟨hordered, hend⟩ := (liesIn_cuts hsize h hitems cut hcut).within
    exact clamp_eq_self ⟨hordered, Nat.le_trans hend hlonger⟩
  have hmem : ∀ cut, cut ∈ parts.cuts block.span.start ↔ ∃ item ∈ items, cut ∈ item.cuts :=
    fun _ => mem_cuts_parts_iff hsize h hitems
  constructor
  · intro hwhole cut hcut
    obtain ⟨item, hitem, hspan⟩ := (hmem cut).1 hcut
    have hlies := hwhole item hitem cut hspan
    rwa [hclamp cut hcut] at hlies
  · intro hlies item hitem span hspan
    have hcut := (hmem span).2 ⟨item, hitem, hspan⟩
    rw [hclamp span hcut]
    exact hlies span hcut

/-- Another script at the same place, long enough for the items of a script, has parts with the
same names and spans, and with texts that are cut from it; or it has none, if one of them cannot
be cut. -/
theorem ofItems_recut (hstart : other.span.start = block.span.start)
    (hlonger : block.content.size ≤ other.content.size) :
    ScriptParts.ofItems other items =
      if ∀ cut ∈ parts.cuts block.span.start, cut.LiesIn other.content
      then .ok (parts.recut block.span.start other.content) else .error .crashed := by
  have hwhole := cutsWhole_iff_cuts hsize h hitems hlonger
  have htidy := (ScriptParts.exists_ofItems_iff.1 ⟨parts, h⟩).1
  have hwithin : ∀ span : Span, span.Within block.content → span.Within other.content :=
    fun span hspan => ⟨hspan.1, Nat.le_trans hspan.2 hlonger⟩
  have hplace : ∀ span : Span, span.Within block.content → other.place span = block.place span := by
    intro span hspan
    rw [place, place, clamp_eq_self hspan, clamp_eq_self (hwithin span hspan), Span.slice,
      Span.slice, hstart]
  obtain ⟨hproperties, hstatements⟩ := parts_of_ofItems h
  split_ifs with hcuts
  case neg => exact ScriptParts.ofItems_of_not_cutsWhole htidy (hwhole.not.2 hcuts)
  rw [ofItems_of_tidy htidy (hwhole.2 hcuts), ScriptParts.recut, hproperties, hstatements,
    List.map_map, List.map_map]
  congr 2
  · refine List.map_congr_left fun d hd => ?_
    obtain ⟨item, hitem, hd⟩ := List.mem_flatMap.1 hd
    obtain ⟨hspan, hvalues⟩ := (hitems item hitem).2 d hd
    cases hinitializer : d.initializer with
    | none =>
      simp only [property, Function.comp_apply, hinitializer, hplace _ hspan.within,
        Option.map_none]
    | some value =>
      obtain ⟨hvalue, -, hstop⟩ := hvalues value hinitializer
      have hcut := cut_property hsize hspan.within hvalue hstop
      simp only [property, Function.comp_apply, hinitializer, hplace _ hspan.within,
        Option.map_some] at hcut ⊢
      rw [hcut, excerpt_eq (hwithin value hvalue.within)]
  · refine List.map_congr_left fun item hitem => ?_
    have hspan := (hitems item (List.mem_of_mem_filter hitem)).1.within
    simp only [keep, Function.comp_apply, Statement.cut, countedFrom_place hsize hspan,
      hplace _ hspan, excerpt_eq (hwithin _ hspan)]

end Parts

end Recut

/-! ### A mark before the script -/

theorem readable_of_unmarked (h : block.content.head? ≠ some byteOrderMark) :
    block.readable = block.content := by
  unfold readable
  split
  case h_1 c rest hcontent =>
    rw [hcontent] at h ⊢
    refine if_neg fun hc => h ?_
    exact congrArg some (Char.toNat_inj.1 hc)
  case h_2 hcontent => exact hcontent.symm

theorem liesIn_of_items (h : block.content.head? ≠ some byteOrderMark)
    (hitems : block.items = .ok items) : ∀ item ∈ items, item.LiesIn block.content := by
  unfold ScriptBlock.items at hitems
  split at hitems
  · cases hitems
    exact fun item hitem => by cases hitem
  · rw [readable_of_unmarked h] at hitems
    exact Script.liesIn_of_read hitems

/-- A script has the same items with the mark as without it. -/
theorem items_marked (h : block.content.head? ≠ some byteOrderMark)
    (hother : other.content = byteOrderMark :: block.content) (hitems : block.items = .ok items) :
    other.items = .ok items := by
  have hblank : other.content.isBlank = false := by
    rw [hother]
    rfl
  have hreadable : other.readable = block.content := by
    unfold readable
    rw [hother]
    rfl
  -- Without the mark a blank script is not read at all; with it the blanks are.
  unfold ScriptBlock.items at hitems ⊢
  rw [hblank, if_neg Bool.false_ne_true, hreadable]
  split at hitems
  case isTrue hblank => exact (Script.read_blank hblank).trans hitems
  case isFalse => rwa [readable_of_unmarked h] at hitems

end ScriptBlock

/-- With a byte order mark before it, an accepted script keeps the names, the placements and the
spans of its properties and statements, but their texts are cut anew at the same offsets; and if
one of the cuts falls inside a character, the compiler ends there.  Without the mark every text is
cut between characters; with it a text is what stands three bytes earlier, with the mark in front
of what began the script. -/
theorem byte_order_mark_shifts_texts {content : Text} {parts : ScriptParts}
    (span marked : Span) (hcontent : content.head? ≠ some byteOrderMark)
    (hsize : span.start + content.size < UInt32.size) (hstart : marked.start = span.start)
    (h : ScriptBlock.parts ⟨content, span⟩ = .ok parts) :
    ScriptBlock.parts ⟨byteOrderMark :: content, marked⟩ =
        (if ∀ cut ∈ parts.cuts span.start, cut.LiesIn (byteOrderMark :: content)
          then .ok (parts.recut span.start (byteOrderMark :: content)) else .error .crashed) ∧
      parts.recut span.start content = parts ∧
      ∀ cut ∈ parts.cuts span.start, cut.LiesIn content ∧ cut.Slips content := by
  obtain ⟨items, hitems⟩ := ScriptBlock.exists_items h
  have hlies := ScriptBlock.liesIn_of_items hcontent hitems
  rw [ScriptBlock.parts_of_items hitems] at h
  have hcuts := ScriptBlock.liesIn_cuts hsize h hlies
  refine ⟨?_, ?_, fun cut hcut => ?_⟩
  · rw [ScriptBlock.parts_of_items (ScriptBlock.items_marked hcontent rfl hitems)]
    exact ScriptBlock.ofItems_recut hsize h hlies hstart (Nat.le_add_left _ _)
  · have hsame := ScriptBlock.ofItems_recut hsize h hlies rfl (Nat.le_refl _)
    rw [if_pos hcuts, h] at hsame
    exact (Except.ok.inj hsame).symm
  · exact ⟨hcuts cut hcut, Span.slips (hcuts cut hcut).within.1 content⟩

namespace MarkWitness

/-- A script with a property that has a default value, and a statement. -/
def content : Text := "export let abc = 1; f(\"é\");"

def parts : ScriptParts :=
  ⟨[⟨"abc", some "1", ⟨19, 26⟩⟩], [⟨"f(\"é\");", .factoryBody, [], ⟨28, 36⟩⟩]⟩

def slipped : ScriptParts :=
  ⟨[⟨"abc", some " ", ⟨19, 26⟩⟩], [⟨"1; f(\"é", .factoryBody, [], ⟨28, 36⟩⟩]⟩

def declaration : Text := "let a = 1;"

-- Evaluated together, so that the words of the language are spelled out once.
theorem parts_without_and_with_mark :
    ScriptBlock.parts ⟨content, ⟨8, 36⟩⟩ = .ok parts ∧
    (parts.recut 8 (byteOrderMark :: content) = slipped ∧
      ∀ cut ∈ parts.cuts 8, cut.LiesIn (byteOrderMark :: content)) ∧
    ⟨20, 28⟩ ∈ parts.cuts 8 ∧
    ScriptBlock.parts ⟨declaration, ⟨0, 10⟩⟩ =
      .ok ⟨[], [⟨declaration, .factoryBody, ["a"], ⟨0, 10⟩⟩]⟩ ∧
    ScriptBlock.parts ⟨byteOrderMark :: declaration, ⟨0, 13⟩⟩ =
      .ok ⟨[], [⟨byteOrderMark :: "let a =".toList, .factoryBody, ["a"], ⟨0, 10⟩⟩]⟩ ∧
    ScriptBlock.parts ⟨[';'], ⟨0, 1⟩⟩ = .ok ⟨[], [⟨[';'], .factoryBody, [], ⟨0, 1⟩⟩]⟩ ∧
    ScriptBlock.parts ⟨[byteOrderMark, ';'], ⟨0, 4⟩⟩ = .error .crashed := by
  decide +kernel

end MarkWitness

open MarkWitness in
theorem default_and_call_slip :
    content.head? ≠ some byteOrderMark ∧
    ScriptBlock.parts ⟨content, ⟨8, 36⟩⟩ = .ok parts ∧
    ScriptBlock.parts ⟨byteOrderMark :: content, ⟨8, 39⟩⟩ = .ok slipped ∧
    Span.LiesIn ⟨20, 28⟩ content := by
  obtain ⟨hparts, ⟨hslipped, hwhole⟩, hcut, -⟩ := parts_without_and_with_mark
  have hcontent : content.head? ≠ some byteOrderMark := by decide
  obtain ⟨hmarked, -, hcuts⟩ :=
    byte_order_mark_shifts_texts ⟨8, 36⟩ ⟨8, 39⟩ hcontent (by decide) rfl hparts
  rw [if_pos hwhole, hslipped] at hmarked
  exact ⟨hcontent, hparts, hmarked, (hcuts _ hcut).1⟩

open MarkWitness in
/-- A declaration loses its end to the mark and its span does not move; and at an empty
statement, which would be cut inside the mark, the compiler ends. -/
theorem mark_replaces_end_of_declaration :
    ScriptBlock.parts ⟨declaration, ⟨0, 10⟩⟩ =
      .ok ⟨[], [⟨declaration, .factoryBody, ["a"], ⟨0, 10⟩⟩]⟩ ∧
    ScriptBlock.parts ⟨byteOrderMark :: declaration, ⟨0, 13⟩⟩ =
      .ok ⟨[], [⟨byteOrderMark :: "let a =".toList, .factoryBody, ["a"], ⟨0, 10⟩⟩]⟩ ∧
    ScriptBlock.parts ⟨[';'], ⟨0, 1⟩⟩ = .ok ⟨[], [⟨[';'], .factoryBody, [], ⟨0, 1⟩⟩]⟩ ∧
    ScriptBlock.parts ⟨[byteOrderMark, ';'], ⟨0, 4⟩⟩ = .error .crashed :=
  parts_without_and_with_mark.2.2.2

end Component
