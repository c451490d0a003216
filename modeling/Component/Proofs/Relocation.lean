/-
The statements of a script in the factory.  Each stands on lines of its own, in the order
of the script, and is read back as it is where it can be read up to its line end.  But
nothing is put between two of them: one that has no semicolon can run on into the one that
comes to stand after it.
-/
import Component.Proofs.Code.Section
import Component.Proofs.Compiling
import Mathlib.Data.List.Sort

namespace Component

namespace Lifecycle

/-- Ordering by start is a stable sort. -/
theorem orderByStart_eq_insertionSort {α : Type} (items : List (Nat × α)) :
    orderByStart items = items.insertionSort fun first second => first.1 ≤ second.1 := by
  have hinsert : ∀ (item : Nat × α) (sorted : List (Nat × α)), insertByStart item sorted =
      sorted.orderedInsert (fun first second => first.1 ≤ second.1) item := by
    intro item sorted
    induction sorted with
    | nil => rfl
    | cons next more ih => simp only [insertByStart, List.orderedInsert, ih]
  induction items with
  | nil => rfl
  | cons item more ih =>
      rw [List.insertionSort_cons, ← ih, ← hinsert]
      rfl

end Lifecycle

/-- Every statement of a script is a piece of its text, and knows its place. -/
theorem ScriptBlock.source_eq_of_parts {block : ScriptBlock} {parts : ScriptParts}
    (h : block.parts = .ok parts) : ∀ s ∈ parts.statements,
      ∃ span, block.textAt span = .ok s.source ∧ s.span = block.place span := by
  refine ScriptBlock.keeps_of_parts (fun parts => ∀ s ∈ parts.statements,
    ∃ span, block.textAt span = .ok s.source ∧ s.span = block.place span) (by simp) ?_ ?_ h
  · intro old declarator next hold hadd
    obtain ⟨_, _, _, _, _, _, rfl⟩ := ScriptParts.addProperty_eq_ok hadd
    exact hold
  · intro old span placement declared next hold hadd s hs
    obtain ⟨text, htext, rfl⟩ := ScriptParts.addStatement_eq_ok hadd
    rcases List.mem_append.mp hs with hmem | hnew
    · exact hold s hmem
    · rw [List.mem_singleton.mp hnew]
      exact ⟨span, htext, rfl⟩

open Code Lifecycle in
/-- The section of the factory that holds the statements of a script: every statement but
the imports stands there once, as written, and every default value of a property once, in
the order in which they begin in the script.  Each is found at a place of its own, and if
all of them stand alone, the section is a script with just these statements. -/
theorem body_section_in_script_order (block : ScriptBlock) (parts : ScriptParts) (table : Table)
    (h : block.parts = .ok parts) (hindexed : isIndexed table = true) :
    ∃ module, emit parts.properties table parts.statements = .ok module ∧
      ∃ entries : List (Nat × BodyItem),
        module.body = entries.map Prod.snd ∧
        entries.Perm
          ((parts.statements.filter (·.placement ≠ .moduleScope)).map
              (fun s => (s.span.start, .verbatim s.source)) ++
            parts.properties.filterMap fun p => p.default.map fun default =>
              (p.span.start, .stmt (applyDefault p default))) ∧
        entries.Pairwise (fun first second => first.1 ≤ second.1) ∧
        (∀ s ∈ parts.statements, ∃ span, block.textAt span = .ok s.source ∧
          s.span = block.place span) ∧
        (placesFrom 0 module.body).map (·.read (module.body.flatMap BodyItem.render)) =
          module.body.map BodyItem.text ∧
        (placesFrom 0 module.body).Pairwise (fun first second => first.stop < second.start) ∧
        (StandAlone module.body →
          ∃ found, Script.read (module.body.flatMap BodyItem.render) = .ok found ∧
            found.map Script.Item.span = placesFrom 0 module.body ∧
            found.map (fun item => item.span.read (module.body.flatMap BodyItem.render)) =
              module.body.map BodyItem.text) := by
  refine ⟨_, emit_eq_ok_iff.mpr ⟨hindexed, rfl⟩, _, rfl, ?_, ?_,
    ScriptBlock.source_eq_of_parts h, read_placesFrom [] _, placesFrom_pairwise _ _,
    StandAlone.read_section⟩
  · rw [orderByStart_eq_insertionSort]
    exact List.perm_insertionSort _ _
  · rw [orderByStart_eq_insertionSort]
    have : Std.Total fun first second : Nat × BodyItem => first.1 ≤ second.1 :=
      ⟨fun first second => Nat.le_total first.1 second.1⟩
    have : IsTrans (Nat × BodyItem) fun first second => first.1 ≤ second.1 :=
      ⟨fun _ _ _ => Nat.le_trans⟩
    exact List.pairwise_insertionSort _ _

namespace RelocationWitness

open Code Script Script.Parser

/-- A script that declares a variable and takes the default value of a property from it. -/
def declaring : ScriptBlock := ⟨"let n0;export let count = n0;", ⟨0, 29⟩⟩

/-- The property of that script. -/
def count : Property := ⟨"count", some "n0", ⟨18, 28⟩⟩

/-- The statements of the factory for that script. -/
def declared : List BodyItem :=
  [.verbatim "let n0;", .stmt (Lifecycle.applyDefault count "n0")]

/-- A script in which a declaration without a semicolon is kept apart from a statement in
parentheses only by the export between them. -/
def block : ScriptBlock := ⟨"let a = 1\nexport let b;\n(0)", ⟨0, 27⟩⟩

/-- The section of the factory that holds the statements of that script. -/
def body : Text := "  let a = 1\n  (0)\n"

-- Evaluated together, so that the words of the language are spelled out once.
theorem readings :
    ((declaring.parts.toOption.any fun parts =>
      parts = ⟨[count], [⟨"let n0;", .factoryBody, ["n0"], ⟨0, 7⟩⟩]⟩) = true ∧
      isVariable "n0" = true ∧ isVariable "count" = true) ∧
    (block.parts.toOption.any fun parts =>
      (Lifecycle.assemble parts.properties .empty parts.statements).body.flatMap
        BodyItem.render = body) = true ∧
    (Script.parse block.content).map (·.map fun item => item.span.read block.content) =
      some ["let a = 1".toList, "export let b;".toList, "(0)".toList] ∧
    (Script.parse body).map (·.map fun item => item.span.read body) =
      some ["let a = 1\n  (0)".toList] := by
  decide +kernel

/-- The declaration stands at the top level before any text that goes on with a token. -/
theorem declaration_stands {rest : Text} (hrest : (front rest).isSome) :
    Stands (readTopLevel · .module) "let n0;" rest := by
  refine ⟨by simp, fun depth lead hdepth hlead => ?_⟩
  obtain ⟨depth, rfl⟩ := Nat.exists_eq_add_of_lt (show 0 < depth by omega)
  have hname : ∀ name ∈ ["n0".toList], isVariable name = true :=
    List.forall_mem_singleton.2 readings.1.2.1
  have htext : "let n0;".toList ++ rest =
      "let".toList ++ ' ' :: (Text.join ", " ["n0".toList] ++ ';' :: rest) := rfl
  rw [Nat.zero_add, htext]
  exact readTopLevel_let hlead rfl (readVariables_names depth hname hrest)

theorem declared_standAlone : StandAlone declared where
  plain := by
    intro item hitem
    obtain rfl | rfl := List.mem_pair.1 hitem
    · exact .verbatim _
    · exact .default readings.1.2.2 _
  statements before source after heq := by
    match before, heq with
    | [], heq =>
      obtain ⟨hsource, rfl⟩ := List.cons.inj heq
      obtain rfl := BodyItem.verbatim.inj hsource
      exact ⟨rfl, declaration_stands (by decide +kernel)⟩
    | [_], heq => cases (List.cons.inj (List.cons.inj heq).2).1
    | _ :: _ :: before, heq => simp [declared] at heq
  defaults before p value after heq := by
    match before, heq with
    | [], heq => cases (List.cons.inj heq).1
    | [_], heq =>
      have hdefault := BodyItem.stmt.inj (List.cons.inj (List.cons.inj heq).2).1
      obtain ⟨-, rfl⟩ := applyDefault_inj hdefault
      exact stands_name readings.1.2.1 rfl _
    | _ :: _ :: before, heq => simp [declared] at heq

theorem exists_parts : ∃ parts module, block.parts = .ok parts ∧
    Lifecycle.emit parts.properties .empty parts.statements = .ok module ∧
    module.body.flatMap Code.BodyItem.render = body := by
  obtain ⟨parts, hparts, hbody⟩ := exists_ok_of_any _ _ readings.2.1
  exact ⟨parts, _, hparts, Lifecycle.emit_eq_ok_iff.mpr ⟨rfl, rfl⟩, of_decide_eq_true hbody⟩

end RelocationWitness

open RelocationWitness in
theorem declaration_and_default_read_back :
    ∃ parts module, declaring.parts = .ok parts ∧
      Lifecycle.emit parts.properties .empty parts.statements = .ok module ∧
      Code.StandAlone module.body ∧
      ∃ found, Script.read (module.body.flatMap Code.BodyItem.render) = .ok found ∧
        found.map (fun item => item.span.read (module.body.flatMap Code.BodyItem.render)) =
          ["let n0;".toList,
            "if (count === undefined) \x7b\n    count = n0;\n  \x7d".toList] := by
  obtain ⟨parts, hparts, hdeclaring⟩ := exists_ok_of_any _ _ readings.1.1
  obtain rfl := of_decide_eq_true hdeclaring
  obtain ⟨module, hmodule, entries, -, -, -, -, -, -, hread⟩ :=
    body_section_in_script_order declaring _ .empty hparts rfl
  obtain ⟨-, rfl⟩ := Lifecycle.emit_eq_ok_iff.mp hmodule
  obtain ⟨found, hfound, -, htexts⟩ := hread declared_standAlone
  exact ⟨_, _, hparts, hmodule, declared_standAlone, found, hfound, htexts⟩

open RelocationWitness in
/-- Two statements of a script, on lines of their own in the factory, read as one: the
declaration goes on with the parentheses as a call. -/
theorem relocated_statements_merge :
    (∃ parts module, block.parts = .ok parts ∧
      Lifecycle.emit parts.properties .empty parts.statements = .ok module ∧
      module.body.flatMap Code.BodyItem.render = body) ∧
    (Script.parse block.content).map (·.map fun item => item.span.read block.content) =
      some ["let a = 1".toList, "export let b;".toList, "(0)".toList] ∧
    (Script.parse body).map (·.map fun item => item.span.read body) =
      some ["let a = 1\n  (0)".toList] :=
  ⟨exists_parts, readings.2.2⟩

end Component
