/-
What the command promises to its callers.

Every choice of settings can be written as arguments.  The status says whether the file
is UTF-8 and compiles, output comes only with success, and what is found is reported as
one JSON object a line, with places counted in the bytes of the file.
-/
import Component.CommandLine.Outcome
import Component.Proofs.Compiling
import Component.Proofs.Lines

namespace Component

/-! ### Places in a file -/

theorem Text.not_mem_join {c : Char} {separator : Text} {items : List Text}
    (hseparator : c ∉ separator) (h : ∀ t ∈ items, c ∉ t) :
    c ∉ Text.join separator items := by
  induction items using Text.join.induct with
  | case1 => simp [Text.join]
  | case2 t => simpa [Text.join] using h
  | case3 t more hmore ih =>
      obtain ⟨ht, hrest⟩ := List.forall_mem_cons.mp h
      rw [Text.join]
      · simp [ht, hseparator, ih hrest]
      · exact hmore

namespace Json

theorem newline_not_mem_escape (c : Char) : '\n' ∉ escape c := by
  have hdigit : ∀ n < 16, '\n' ≠ Nat.digitChar n := by decide
  by_cases hfeed : c = '\n'
  · subst hfeed
    decide
  unfold escape
  iterate 6 (split; · decide)
  split
  case isTrue hcontrol =>
    have hhigh := hdigit (c.toNat / 16) (by omega)
    have hlow := hdigit (c.toNat % 16) (Nat.mod_lt _ (by decide))
    simp [hhigh, hlow]
  case isFalse => simpa using Ne.symm hfeed

theorem newline_not_mem_quoted (t : Text) : '\n' ∉ quoted t := by
  simp only [quoted, List.mem_cons, List.mem_append, List.mem_flatMap, List.not_mem_nil,
    or_false, not_or]
  refine ⟨by decide, ?_, by decide⟩
  rintro ⟨c, -, hc⟩
  exact newline_not_mem_escape c hc

mutual

/-- The form on one line is on one line. -/
theorem newline_not_mem_compact (json : Json) : '\n' ∉ json.compact := by
  match json with
  | .null => decide
  | .number value =>
      intro h
      exact absurd (Nat.isDigit_of_mem_toDigits (by omega) (by omega) h) (by decide)
  | .string value => exact newline_not_mem_quoted value
  | .array values =>
      have hvalues := Text.not_mem_join (by decide : '\n' ∉ [','])
        (newline_not_mem_compactValues values)
      simp [compact, hvalues]
  | .object fields =>
      have hfields := Text.not_mem_join (by decide : '\n' ∉ [','])
        (newline_not_mem_compactFields fields)
      simp [compact, hfields]

theorem newline_not_mem_compactValues (values : List Json) :
    ∀ t ∈ compactValues values, '\n' ∉ t := by
  match values with
  | [] => exact List.forall_mem_nil _
  | value :: more =>
      exact List.forall_mem_cons.mpr
        ⟨newline_not_mem_compact value, newline_not_mem_compactValues more⟩

theorem newline_not_mem_compactFields (fields : List (Text × Json)) :
    ∀ t ∈ compactFields fields, '\n' ∉ t := by
  match fields with
  | [] => exact List.forall_mem_nil _
  | (key, value) :: more =>
      refine List.forall_mem_cons.mpr ⟨?_, newline_not_mem_compactFields more⟩
      simp [newline_not_mem_quoted, newline_not_mem_compact value]

end

end Json

namespace CommandLine

/-! ### Arguments -/

def Emission.word : Emission → Text
  | .code => "js"
  | .nodes => "nodes"

def policyWord : Policy → Text
  | .error => "error"
  | .warn => "warn"
  | .allow => "allow"

def Format.word : Format → Text
  | .plain => "human"
  | .json => "json"

/-- Arguments that spell settings out.  Behind two dashes the input can be any. -/
def Settings.arguments (s : Settings) : List Text :=
  ["--emit", s.emission.word, "--unresolved", policyWord s.policy,
    "--diagnostics", s.format.word, "--", s.input]

section Reader

variable {read : Text → Except Script.SyntaxError (List Script.Item)} {s : Settings}
  {content : ByteArray} {source : Text}

end Reader

namespace ContractWitness

/-- A component whose second line shows what it does not declare. -/
def source : Text := "é\n<p>\x7bx\x7d</p>"

/-- A component whose script cannot be cut where its statement ends. -/
def marked : Text := "<script>\ufeff;</script>"

/-- Its code is asked for under a policy. -/
def settings (policy : Policy) : Settings := ⟨"a", .code, policy, .json⟩

/-- The failure with which a compilation ends, if it does. -/
def failure? : Except Failure Output → Option Failure
  | .error failure => some failure
  | .ok _ => none

theorem compiled :
    ((compile .warn source).toOption.any fun out =>
      out.warnings = [⟨.unresolvedBinding "x", ⟨6, 9⟩⟩]) = true ∧
    failure? (compile .error source) =
      some (.refused ⟨.unresolvedBinding "x" none, ⟨6, 9⟩⟩) ∧
    failure? (compile .error marked) = some .crashed := by
  decide +kernel

end ContractWitness

end CommandLine

end Component
