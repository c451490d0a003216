/-
Reading a text that begins further on.

What is read depends on the text and not on where it begins: a text at a later offset
gives the same tokens, nodes and errors, with their spans moved by the distance.
-/
import Component.Proofs.Markup.Descent

namespace Component

/-- A span further on. -/
def Span.shift (distance : Nat) (s : Span) : Span := ⟨s.start + distance, s.stop + distance⟩

namespace Markup

variable (distance : Nat)

def Token.shift (token : Token) : Token := { token with span := token.span.shift distance }

def Error.shift (e : Error) : Error := { e with span := e.span.shift distance }

def AttributeValue.shift : AttributeValue → AttributeValue
  | .absent => .absent
  | .text span value => .text (span.shift distance) value
  | .expression span inner value => .expression (span.shift distance) (inner.shift distance) value

def Attribute.shift (a : Attribute) : Attribute :=
  ⟨a.span.shift distance, a.nameSpan.shift distance, a.name, a.value.shift distance⟩

mutual

def Node.shift : Node → Node
  | .element span name attributes children selfClosing =>
      .element (span.shift distance) name (attributes.map (Attribute.shift distance))
        (shiftAll children) selfClosing
  | .text span data blank => .text (span.shift distance) data blank
  | .comment span data => .comment (span.shift distance) data

def shiftAll : List Node → List Node
  | [] => []
  | node :: more => node.shift :: shiftAll more

end

theorem shiftAll_eq_map (nodes : List Node) :
    shiftAll distance nodes = nodes.map (Node.shift distance) := by
  induction nodes with
  | nil => rfl
  | cons node more ih => rw [shiftAll, ih, List.map_cons]

theorem tokensFrom_shift (steps offset : Nat) (t : Text) :
    tokensFrom steps (offset + distance) t =
      (tokensFrom steps offset t).map (Token.shift distance) := by
  induction steps generalizing offset t with
  | zero => cases t <;> rfl
  | succ steps ih =>
      cases t with
      | nil => rfl
      | cons c rest =>
          rcases hlexeme : lexeme c rest with ⟨kind, text, more⟩
          rw [tokensFrom_succ hlexeme, tokensFrom_succ hlexeme, List.map_append, ← ih,
            Nat.add_right_comm]
          cases kind with
          | none => rfl
          | some kind => simp [lexemeToken, Token.shift, Span.shift, Nat.add_right_comm]

theorem tokensAt_shift (offset : Nat) (t : Text) :
    tokensAt (offset + distance) t = (tokensAt offset t).map (Token.shift distance) :=
  tokensFrom_shift distance t.length offset t

namespace Reader

/-- A reader that stands further on before the same text. -/
def shift (r : Reader) : Reader :=
  ⟨r.rest, r.offset + distance, r.tokens.map (Token.shift distance),
    r.errors.map (Error.shift distance)⟩

variable {distance} (r : Reader)

@[simp] theorem shift_rest : (r.shift distance).rest = r.rest := rfl

@[simp] theorem shift_offset : (r.shift distance).offset = r.offset + distance := rfl

@[simp] theorem shift_current : (r.shift distance).current = r.current.shift distance := by
  unfold current shift
  cases r.tokens <;> rfl

@[simp] theorem shift_kind : (r.shift distance).kind = r.kind := by
  rw [kind, shift_current]
  rfl

@[simp] theorem shift_report (fault : Fault) (span : Span) :
    (r.shift distance).report fault (span.shift distance) =
      (r.report fault span).shift distance := by
  simp [report, shift, Error.shift]

@[simp] theorem shift_reportHere (fault : Fault) :
    (r.shift distance).reportHere fault = (r.reportHere fault).shift distance := by
  rw [reportHere, shift_current]
  exact shift_report r fault r.current.span

@[simp] theorem shift_advance : (r.shift distance).advance = r.advance.shift distance := by
  rcases r with ⟨rest, offset, _ | ⟨token, more⟩, errors⟩
  · rfl
  · by_cases hend : token.kind = .endOfFile
    · simp [advance, shift, Token.shift, hend]
    · simp [advance, shift, Token.shift, Span.shift, hend, Nat.add_sub_add_right]

theorem shift_seek (offset : Nat) :
    (r.shift distance).seek (offset + distance) = (r.seek offset).shift distance := by
  have hbefore : ∀ token : Token,
      ((token.shift distance).kind != .endOfFile &&
        decide ((token.shift distance).span.start < offset + distance)) =
      (token.kind != .endOfFile && decide (token.span.start < offset)) := by
    intro token
    simp [Token.shift, Span.shift]
  simp only [seek, shift, Nat.add_sub_add_right, List.dropWhile_map, Function.comp_def, hbefore]

@[simp] theorem shift_seek_add (length : Nat) :
    (r.shift distance).seek (r.offset + distance + length) =
      (r.seek (r.offset + length)).shift distance := by
  rw [Nat.add_right_comm]
  exact shift_seek r (r.offset + length)

@[simp] theorem shift_seekEnd : (r.shift distance).seekEnd = r.seekEnd.shift distance :=
  shift_seek_add r r.rest.size

@[simp] theorem shift_eat (kind : TokenKind) :
    (r.shift distance).eat kind = (r.eat kind).shift distance := by
  simp only [eat, shift_kind, shift_advance, apply_ite (shift distance)]

@[simp] theorem shift_expect (kind : TokenKind) :
    (r.shift distance).expect kind = (r.expect kind).shift distance := by
  simp only [expect, shift_kind, shift_advance, shift_reportHere, apply_ite (shift distance)]

@[simp] theorem shift_skipNewlines :
    (r.shift distance).skipNewlines = r.skipNewlines.shift distance := by
  have hfold : ∀ (passed : List Token) (r : Reader),
      (passed.map (Token.shift distance)).foldl (fun r _ => r.advance) (r.shift distance) =
        (passed.foldl (fun r _ => r.advance) r).shift distance := by
    intro passed
    induction passed with
    | nil => exact fun r => rfl
    | cons token more ih =>
        intro r
        rw [List.map_cons, List.foldl_cons, List.foldl_cons, shift_advance, ih]
  have hnewlines : (r.shift distance).tokens.takeWhile (·.kind == .newline) =
      (r.tokens.takeWhile (·.kind == .newline)).map (Token.shift distance) := by
    rw [shift, List.takeWhile_map]
    rfl
  rw [skipNewlines, hnewlines, hfold]
  rfl

@[simp] theorem shift_takeName :
    (r.shift distance).takeName = (r.takeName.1, r.takeName.2.shift distance) := by
  unfold takeName
  rw [shift_kind, shift_current, shift_advance]
  split_ifs <;> rfl

theorem start_shift (source : Text) :
    (start source).shift distance = ⟨source, distance, tokensAt distance source, []⟩ := by
  have htokens := tokensAt_shift distance 0 source
  rw [Nat.zero_add] at htokens
  rw [htokens]
  simp [start, shift, tokens_eq_tokensAt]

end Reader

variable {distance} (r : Reader)

theorem readQuotedValue_shift (name : Text) (quote : Char) :
    readQuotedValue name quote (r.shift distance) =
      ((readQuotedValue name quote r).1.map (AttributeValue.shift distance),
        (readQuotedValue name quote r).2.shift distance) := by
  unfold readQuotedValue
  simp only [Reader.shift_advance, Reader.shift_rest]
  split_ifs
  · simp [Token.shift]
  · simp [AttributeValue.shift, Span.shift, Nat.add_right_comm]

theorem readBareValue_shift :
    readBareValue (r.shift distance) =
      ((readBareValue r).1.shift distance, (readBareValue r).2.shift distance) := by
  unfold readBareValue
  simp only [Reader.shift_current, Token.shift, Span.shift, Reader.shift_rest, Reader.shift_offset,
    Nat.add_sub_add_right]
  rw [Nat.add_right_comm, Reader.shift_seek]
  rfl

theorem readExpressionValue_shift (name : Text) :
    readExpressionValue name (r.shift distance) =
      ((readExpressionValue name r).1.map (AttributeValue.shift distance),
        (readExpressionValue name r).2.shift distance) := by
  unfold readExpressionValue
  simp only [Reader.shift_advance, Reader.shift_rest]
  cases bracedExpression r.advance.rest with
  | none => simp [Token.shift]
  | some cut => simp [AttributeValue.shift, Token.shift, Span.shift, Nat.add_right_comm]

theorem readValue_shift (name : Text) :
    readValue name (r.shift distance) =
      ((readValue name r).1.map (AttributeValue.shift distance),
        (readValue name r).2.shift distance) := by
  unfold readValue
  rw [Reader.shift_kind]
  split
  · exact readQuotedValue_shift r name '"'
  · exact readQuotedValue_shift r name '\''
  · exact readExpressionValue_shift r name
  · rw [readBareValue_shift]
    rfl
  · rw [readBareValue_shift]
    rfl
  · rw [Reader.shift_reportHere]
    rfl

theorem readAttribute_shift :
    readAttribute (r.shift distance) =
      ((readAttribute r).1.map (Attribute.shift distance), (readAttribute r).2.shift distance) := by
  unfold readAttribute
  simp only [Reader.shift_current, Reader.shift_advance, Reader.shift_skipNewlines,
    Reader.shift_kind, readValue_shift, Token.shift]
  split_ifs
  · simp [Attribute.shift, Span.shift, Function.comp_def]
  · simp [Attribute.shift, Span.shift, AttributeValue.shift]

theorem readAttributes_shift (steps : Nat) (known : List Attribute) :
    readAttributes steps (known.map (Attribute.shift distance)) (r.shift distance) =
      ((readAttributes steps known r).1.map (Attribute.shift distance),
        (readAttributes steps known r).2.shift distance) := by
  induction steps generalizing known r with
  | zero => rfl
  | succ steps ih =>
      rw [readAttributes, readAttributes]
      simp only [Reader.shift_skipNewlines, Reader.shift_kind, readAttribute_shift]
      split
      · rfl
      · rfl
      · rfl
      · rcases readAttribute r.skipNewlines with ⟨_ | a, r'⟩
        · rfl
        · have hknown : (known.map (Attribute.shift distance)).any
              (·.name == (a.shift distance).name) = known.any (·.name == a.name) := by
            rw [List.any_map]
            rfl
          have hadded : known.map (Attribute.shift distance) ++ [a.shift distance] =
              (known ++ [a]).map (Attribute.shift distance) := by simp
          have hreport : (r'.shift distance).report (.duplicateAttribute (a.shift distance).name)
              (a.shift distance).span =
                (r'.report (.duplicateAttribute a.name) a.span).shift distance :=
            Reader.shift_report r' (.duplicateAttribute a.name) a.span
          simp only [Option.map_some, hknown, hreport, hadded, ih]
          split_ifs <;> rfl
      · rw [Reader.shift_reportHere, Reader.shift_advance, ih]

/-- What a start tag says, further on. -/
def StartTag.shift (distance : Nat) (tag : StartTag) : StartTag :=
  { tag with attributes := tag.attributes.map (Attribute.shift distance) }

theorem readStartTag_shift :
    readStartTag (r.shift distance) =
      ((readStartTag r).1.shift distance, (readStartTag r).2.shift distance) := by
  have hattributes : ∀ (r : Reader) (steps : Nat), readAttributes steps [] (r.shift distance) =
      ((readAttributes steps [] r).1.map (Attribute.shift distance),
        (readAttributes steps [] r).2.shift distance) :=
    fun r steps => readAttributes_shift r steps []
  have hlength : ∀ r : Reader, (r.shift distance).tokens.length = r.tokens.length :=
    fun r => List.length_map _
  unfold readStartTag
  simp only [Reader.shift_expect, Reader.shift_current, Reader.shift_advance, hlength, hattributes,
    Reader.shift_kind]
  split_ifs <;> rfl

theorem readComment_shift :
    readComment (r.shift distance) =
      ((readComment r).1.shift distance, (readComment r).2.shift distance) := by
  have hbody : r.offset + distance + 4 = r.offset + 4 + distance := Nat.add_right_comm _ _ _
  have hstop : ∀ length, r.offset + 4 + distance + length = r.offset + 4 + length + distance :=
    fun length => Nat.add_right_comm _ _ _
  unfold readComment
  simp only [Reader.shift_rest, Reader.shift_offset, hbody, hstop]
  split_ifs
  · rw [← Reader.shift_seek]
    exact congrArg (Prod.mk _) (congrArg (Reader.seek · _)
      (Reader.shift_report r .unterminatedComment ⟨r.offset, r.offset + 4⟩))
  · rw [Nat.add_right_comm _ distance 3, Reader.shift_seek]
    rfl

theorem readText_shift :
    readText (r.shift distance) =
      ((readText r).1.shift distance, (readText r).2.shift distance) := by
  simp [readText, Node.shift, Span.shift, Nat.add_right_comm]

theorem readRawText_shift (name : Text) :
    readRawText name (r.shift distance) =
      (shiftAll distance (readRawText name r).1, (readRawText name r).2.shift distance) := by
  simp only [readRawText, Reader.shift_rest, Reader.shift_offset, Reader.shift_seek,
    apply_ite (shiftAll distance), shiftAll, Node.shift, Span.shift,
    Nat.add_right_comm r.offset distance]

theorem readClosingTag_shift (name : Text) (start : Nat) :
    readClosingTag name (start + distance) (r.shift distance) =
      (readClosingTag name start r).shift distance := by
  unfold readClosingTag
  simp only [Reader.shift_rest, Reader.shift_advance, Reader.shift_takeName,
    Reader.shift_skipNewlines, Reader.shift_expect]
  split_ifs
  · rfl
  · exact Reader.shift_report _ _ ⟨r.offset, _⟩
  · exact Reader.shift_report r (.unclosedTag name) ⟨start, r.offset⟩

theorem skipClosingTag_shift :
    skipClosingTag (r.shift distance) = (skipClosingTag r).shift distance := by
  unfold skipClosingTag
  simp only [Reader.shift_advance, Reader.shift_takeName, Reader.shift_eat]
  exact Reader.shift_report _ _ ⟨r.offset, _⟩

variable {r} {options : Options}

theorem ReadsFlat.shift {r' : Reader} {node : Node} (h : ReadsFlat options r node r') :
    ReadsFlat options (r.shift distance) (node.shift distance) (r'.shift distance) := by
  cases h with
  | comment hopens =>
      have hread : ReadsFlat options (r.shift distance) _ _ := .comment hopens
      rwa [readComment_shift] at hread
  | text hrest hopens =>
      have hread : ReadsFlat options (r.shift distance) _ _ := .text hrest hopens
      rwa [readText_shift] at hread
  | @leaf _ tag hopens htag hleaf =>
      have htag' : readStartTag (r.shift distance) = (tag.shift distance, r'.shift distance) := by
        rw [readStartTag_shift, htag]
      have hread : ReadsFlat options (r.shift distance) _ _ := .leaf hopens htag' hleaf
      exact hread
  | @raw r₁ r₂ tag children hopens htag hopen hraw hbody =>
      have htag' : readStartTag (r.shift distance) = (tag.shift distance, r₁.shift distance) := by
        rw [readStartTag_shift, htag]
      have hbody' : readRawText tag.name (r₁.shift distance) =
          (shiftAll distance children, r₂.shift distance) := by
        rw [readRawText_shift, hbody]
      have hread : ReadsFlat options (r.shift distance) _ _ := .raw hopens htag' hopen hraw hbody'
      rw [Reader.shift_offset, readClosingTag_shift r₂ (tag.shift distance).name r.offset] at hread
      exact hread

/-- The nodes that are read further on are the same, further on. -/
theorem Reads.shift {inside : Bool} {r' : Reader} {nodes : List Node}
    (h : Reads options inside r nodes r') :
    Reads options inside (r.shift distance) (nodes.map (Node.shift distance))
      (r'.shift distance) := by
  induction h with
  | done hrest => exact .done hrest
  | closing hopens => exact .closing hopens
  | stray hopens _ ih =>
      rw [← skipClosingTag_shift] at ih
      exact .stray hopens ih
  | flat hnode _ ih => exact .flat hnode.shift ih
  | @element inside r r₁ r₂ _ tag children nodes hopens htag hopen hraw _ _ ihchildren ih =>
      have htag' : readStartTag (r.shift distance) = (tag.shift distance, r₁.shift distance) := by
        rw [readStartTag_shift, htag]
      rw [← readClosingTag_shift] at ih
      have hread : Reads options inside (r.shift distance) _ _ :=
        .element hopens htag' hopen hraw ihchildren ih
      rw [Reader.shift_offset, readClosingTag_shift r₂ (tag.shift distance).name r.offset,
        ← shiftAll_eq_map] at hread
      exact hread

end Markup

end Component
