/-
The text of markup.

A tree is printed with double quotes around the values of its attributes and braces
around their expressions, without any whitespace of its own but the blank before an
attribute.  The printed start tag of a well-formed element is read back as it was.
-/
import Component.Proofs.Markup.Descent

namespace Component

theorem Text.breakBefore_append_of_not {p : Text → Bool} {data tail : Text}
    (hdata : ∀ c rest, c :: rest <:+ data → p (c :: rest ++ tail) = false)
    (htail : tail = [] ∨ p tail = true) : Text.breakBefore p (data ++ tail) = (data, tail) := by
  induction data with
  | nil =>
      cases tail with
      | nil => rfl
      | cons c rest =>
          have hp := htail.resolve_left (List.cons_ne_nil c rest)
          simp [Text.breakBefore, hp]
  | cons c rest ih =>
      have hfirst := hdata c rest (List.suffix_refl _)
      have hmore := ih fun d more hsuffix => hdata d more (hsuffix.trans (List.suffix_cons c rest))
      rw [List.cons_append] at hfirst ⊢
      simp [Text.breakBefore, hfirst, hmore]

/-- A search goes on over every position at which nothing is found. -/
theorem Text.breakBefore_fst_not {p : Text → Bool} {t : Text} {c : Char} {rest : Text}
    (h : c :: rest <:+ (breakBefore p t).1) :
    p (c :: rest ++ (breakBefore p t).2) = false := by
  induction t with
  | nil => simp [breakBefore] at h
  | cons d more ih =>
      by_cases hp : p (d :: more) = true
      · simp [breakBefore, hp] at h
      · simp only [breakBefore, hp, Bool.false_eq_true, ↓reduceIte] at h ⊢
        rcases List.suffix_cons_iff.mp h with hall | hsuffix
        · rw [hall, List.cons_append, breakBefore_append]
          exact Bool.eq_false_iff.mpr hp
        · exact ih hsuffix

/-- A search ends at a place where something is found, or before it. -/
theorem Text.breakBefore_fst_prefix {p : Text → Bool} {found : Text} (hp : p found = true)
    (front : Text) : (breakBefore p (front ++ found)).1 <+: front := by
  induction front with
  | nil => cases found <;> simp [breakBefore, hp]
  | cons c rest ih =>
      rw [List.cons_append, breakBefore]
      split_ifs
      · exact List.nil_prefix
      · exact (List.prefix_cons_inj c).mpr ih

namespace Markup

/-- The characters between the quotes of a string: any but the quote and the
backslash, and any character after a backslash. -/
inductive QuotedBody (quote : Char) : Text → Prop where
  | nil : QuotedBody quote []
  | char {c : Char} {rest : Text} (hquote : c ≠ quote) (hescape : c ≠ '\\')
      (hrest : QuotedBody quote rest) : QuotedBody quote (c :: rest)
  | escaped {c : Char} {rest : Text} (hrest : QuotedBody quote rest) :
      QuotedBody quote ('\\' :: c :: rest)

/-- Expressions whose braces are balanced outside their closed strings. -/
inductive Balanced : Text → Prop where
  | nil : Balanced []
  | char {c : Char} {rest : Text} (hc : c ∉ ['{', '}', '"', '\'', '\x60'])
      (hrest : Balanced rest) : Balanced (c :: rest)
  | braces {inner rest : Text} (hinner : Balanced inner) (hrest : Balanced rest) :
      Balanced ('{' :: (inner ++ '}' :: rest))
  | quoted {quote : Char} {body rest : Text} (hquote : quote ∈ ['"', '\'', '\x60'])
      (hbody : QuotedBody quote body) (hrest : Balanced rest) :
      Balanced (quote :: (body ++ quote :: rest))

/-- Puts a text in front of what was cut off. -/
def prepend (text : Text) (cut : Option (Text × Text)) : Option (Text × Text) :=
  cut.map fun (body, tail) => (text ++ body, tail)

theorem prepend_append (a b : Text) (cut : Option (Text × Text)) :
    prepend a (prepend b cut) = prepend (a ++ b) cut := by
  cases cut <;> simp [prepend]

theorem expressionFrom_quoted {quote : Char} (hquote : quote ≠ '\\') {body : Text}
    (h : QuotedBody quote body) (depth : Nat) (tail : Text) :
    expressionFrom ⟨depth, some quote, false⟩ (body ++ quote :: tail) =
      prepend (body ++ [quote]) (expressionFrom ⟨depth, none, false⟩ tail) := by
  induction h with
  | nil =>
      rw [List.nil_append, expressionFrom]
      simp [prepend, hquote]
  | @char c rest hc hescape hrest ih =>
      rw [List.cons_append, expressionFrom]
      simp only [hescape, hc, ih, Bool.false_eq_true, ↓reduceIte]
      exact prepend_append [c] _ _
  | @escaped c rest hrest ih =>
      rw [List.cons_append, List.cons_append, expressionFrom]
      simp only [Bool.false_eq_true, ↓reduceIte]
      rw [expressionFrom]
      simp only [↓reduceIte, ih]
      exact (congrArg (prepend ['\\']) (prepend_append [c] _ _)).trans (prepend_append ['\\'] _ _)

theorem expressionFrom_balanced {value : Text} (h : Balanced value) (depth : Nat) (tail : Text) :
    expressionFrom ⟨depth, none, false⟩ (value ++ tail) =
      prepend value (expressionFrom ⟨depth, none, false⟩ tail) := by
  induction h generalizing depth tail with
  | nil =>
      cases hcut : expressionFrom ⟨depth, none, false⟩ tail <;> simp [prepend, hcut]
  | @char c rest hc hrest ih =>
      simp only [List.mem_cons, List.not_mem_nil, or_false, not_or] at hc
      rw [List.cons_append, expressionFrom]
      simp only [hc, ih, decide_false, Bool.or_self, Bool.false_eq_true, ↓reduceIte]
      exact prepend_append [c] _ _
  | @braces inner rest hinner hrest ihinner ih =>
      have hopen : ∀ t, expressionFrom ⟨depth, none, false⟩ ('{' :: t) =
          prepend ['{'] (expressionFrom ⟨depth + 1, none, false⟩ t) := by
        intro t
        rw [expressionFrom]
        rfl
      have hclose : ∀ t, expressionFrom ⟨depth + 1, none, false⟩ ('}' :: t) =
          prepend ['}'] (expressionFrom ⟨depth, none, false⟩ t) := by
        intro t
        rw [expressionFrom]
        rfl
      rw [List.cons_append, List.append_assoc, List.cons_append, hopen, ihinner, hclose, ih,
        prepend_append, prepend_append, prepend_append]
      simp
  | @quoted quote body rest hquote hbody hrest ih =>
      have hopen : ∀ t, expressionFrom ⟨depth, none, false⟩ (quote :: t) =
          prepend [quote] (expressionFrom ⟨depth, some quote, false⟩ t) := by
        intro t
        rw [expressionFrom]
        simp only [List.mem_cons, List.not_mem_nil, or_false] at hquote
        rcases hquote with rfl | rfl | rfl <;> rfl
      have hescape : quote ≠ '\\' := by
        rintro rfl
        exact absurd hquote (by decide)
      rw [List.cons_append, List.append_assoc, List.cons_append, hopen,
        expressionFrom_quoted hescape hbody, ih, prepend_append, prepend_append]
      simp

theorem bracedExpression_balanced {value : Text} (h : Balanced value) (tail : Text) :
    bracedExpression (value ++ '}' :: tail) = some (value, '}' :: tail) := by
  rw [bracedExpression, expressionFrom_balanced h]
  have hend : expressionFrom ⟨0, none, false⟩ ('}' :: tail) = some ([], '}' :: tail) := by
    rw [expressionFrom]
    rfl
  simp [hend, prepend]

def AttributeValue.print : AttributeValue → Text
  | .absent => []
  | .text _ value => '=' :: '"' :: (value ++ ['"'])
  | .expression _ _ value => '=' :: '{' :: (value ++ ['}'])

def Attribute.print (a : Attribute) : Text := ' ' :: (a.name ++ a.value.print)

def printAttributes (attributes : List Attribute) : Text := attributes.flatMap Attribute.print

def tagEnd (selfClosing : Bool) : Text := if selfClosing then ['/', '>'] else ['>']

mutual

def Node.print : Node → Text
  | .text _ data _ => data
  | .comment _ data => '<' :: '!' :: '-' :: '-' :: (data ++ ['-', '-', '>'])
  | .element _ name attributes children selfClosing =>
      '<' :: (name ++ (printAttributes attributes ++ (tagEnd selfClosing ++
        if selfClosing then [] else printAll children ++ '<' :: '/' :: (name ++ ['>']))))

def printAll : List Node → Text
  | [] => []
  | node :: nodes => node.print ++ printAll nodes

end

/-- Whether a text has the form of an element name. -/
def isElementName : Text → Bool
  | [] => false
  | c :: rest => c.isAlpha && rest.all isNamePart

def AttributeValue.WellFormed : AttributeValue → Prop
  | .absent => True
  | .text _ value => '"' ∉ value
  | .expression _ _ value => Balanced value

/-- Attributes with proper names, no two of them equal, and with values that can be
printed. -/
def AttributesWellFormed (attributes : List Attribute) : Prop :=
  (∀ a ∈ attributes, isName a.name = true ∧ a.value.WellFormed) ∧
    (attributes.map Attribute.name).Nodup

/-- The body of a raw-text element: nothing, or one text that does not contain the
closing tag in letters of either case. -/
def RawBody (name : Text) (children : List Node) : Prop :=
  children = [] ∨ ∃ span data, children = [.text span data data.isBlank] ∧ data ≠ [] ∧
    ¬ '<' :: '/' :: name.lower <:+: data.lower

def Node.isText : Node → Bool
  | .text .. => true
  | _ => false

mutual

/-- Nodes whose text can be read back. -/
def Node.WellFormed (options : Options) : Node → Prop
  | .text _ data blank => blank = data.isBlank ∧ data ≠ [] ∧
      ∀ suffix, suffix <:+ data → opensMarkup suffix = false
  | .comment _ data => ¬ ['-', '-', '>'] <:+: data
  | .element _ name attributes children selfClosing =>
      isElementName name = true ∧ AttributesWellFormed attributes ∧
        (isVoid name = true → selfClosing = true) ∧ (selfClosing = true → children = []) ∧
        (options.isRawText name = true → RawBody name children) ∧
        (options.isRawText name = false → AllWellFormed options children)

/-- Lists of nodes whose text can be read back, in which no text follows a text. -/
def AllWellFormed (options : Options) : List Node → Prop
  | [] => True
  | node :: nodes => node.WellFormed options ∧ AllWellFormed options nodes ∧
      ¬ (node.isText = true ∧ (nodes.head?.any Node.isText) = true)

end

def AttributeValue.unplaced : AttributeValue → AttributeValue
  | .absent => .absent
  | .text _ value => .text (.empty 0) value
  | .expression _ _ value => .expression (.empty 0) (.empty 0) value

def Attribute.unplaced (a : Attribute) : Attribute :=
  ⟨.empty 0, .empty 0, a.name, a.value.unplaced⟩

mutual

def Node.unplaced : Node → Node
  | .text _ data blank => .text (.empty 0) data blank
  | .comment _ data => .comment (.empty 0) data
  | .element _ name attributes children selfClosing =>
      .element (.empty 0) name (attributes.map Attribute.unplaced) (unplacedAll children)
        selfClosing

/-- A list of nodes without the places of their parts. -/
def unplacedAll : List Node → List Node
  | [] => []
  | node :: nodes => node.unplaced :: unplacedAll nodes

end

namespace Reader

/-- The reader before a text, with the tokens of that text. -/
def before (offset : Nat) (text : Text) (errors : List Error) : Reader :=
  ⟨text, offset, tokensAt offset text, errors⟩

@[simp] theorem before_offset (offset : Nat) (text : Text) (errors : List Error) :
    (before offset text errors).offset = offset := rfl

theorem InStep.eq_before {source : Text} {r : Reader} (h : r.InStep source)
    (hopens : ∀ c ∈ r.rest.head?, opensLexeme c = true) :
    r = before r.offset r.rest r.errors := by
  have htokens := h.tokens_eq_tokensAt hopens
  rcases r with ⟨rest, offset, tokens, errors⟩
  simp only [before, Reader.mk.injEq, true_and, and_true]
  exact htokens

theorem before_hasNext {c : Char} {rest text more : Text} {kind : TokenKind}
    (hlexeme : lexeme c rest = (some kind, text, more)) (offset : Nat) (errors : List Error) :
    (before offset (c :: rest) errors).HasNext [] text more ∧
      (before offset (c :: rest) errors).kind = kind := by
  obtain ⟨_, tail, _, hspec, hsplit, -⟩ := exists_lexeme c rest
  rw [hlexeme, Prod.mk.injEq, Prod.mk.injEq] at hspec
  obtain ⟨-, rfl, rfl⟩ := hspec
  have htokens := tokensAt_token hlexeme offset
  constructor
  · apply hasNext_of_tokens _ (List.cons_ne_nil c tail) (lexeme_kind_ne_endOfFile hlexeme) htokens
    rw [hsplit]
    rfl
  · rw [Reader.kind, current, before, htokens]
    rfl

theorem before_advance {c : Char} {rest text more : Text} {kind : TokenKind}
    (hlexeme : lexeme c rest = (some kind, text, more)) (offset : Nat) (errors : List Error) :
    (before offset (c :: rest) errors).advance = before (offset + text.size) more errors :=
  (before_hasNext hlexeme offset errors).1.advance_eq

/-- A lexeme of one ASCII character is passed as one byte. -/
theorem before_advance_char {c : Char} {rest : Text} {kind : TokenKind}
    (hlexeme : lexeme c rest = (some kind, [c], rest)) (hsize : c.utf8Size = 1) (offset : Nat)
    (errors : List Error) :
    (before offset (c :: rest) errors).advance = before (offset + 1) rest errors := by
  rw [before_advance hlexeme, Text.size_cons, hsize]
  rfl

theorem before_kind {c : Char} {rest text more : Text} {kind : TokenKind}
    (hlexeme : lexeme c rest = (some kind, text, more)) (offset : Nat) (errors : List Error) :
    (before offset (c :: rest) errors).kind = kind :=
  (before_hasNext hlexeme offset errors).2

theorem skipNewlines_eq_self {r : Reader} (hkind : r.kind ≠ .newline) : r.skipNewlines = r := by
  cases htokens : r.tokens with
  | nil => simp [skipNewlines, htokens]
  | cons token more =>
      have hnot : (token.kind == .newline) = false := by
        rw [kind, current, htokens] at hkind
        exact beq_eq_false_iff_ne.mpr hkind
      simp [skipNewlines, htokens, hnot]

theorem seek_before (offset : Nat) (a b : Text) (errors : List Error)
    (hopens : ∀ c ∈ b.head?, opensLexeme c = true) :
    (before offset (a ++ b) errors).seek (offset + a.size) =
      before (offset + a.size) b errors := by
  have htokens : (tokensAt offset (a ++ b)).dropWhile (fun token =>
      token.kind != .endOfFile && decide (token.span.start < offset + a.size)) =
        tokensAt (offset + a.size) b := by
    rw [← dropWhile_tokensAt_of_opensLexeme offset a b hopens]
    apply dropWhile_congr_of_mem
    intro token htoken
    by_cases hkind : token.kind = .endOfFile
    · have hstart := start_eq_of_endOfFile_mem_tokensAt offset (a ++ b) token htoken hkind
      rw [Text.size_append] at hstart
      have hnot : ¬ token.span.start < offset + a.size := by omega
      simp only [hnot, decide_false, Bool.and_false]
    · rw [bne_iff_ne.mpr hkind, Bool.true_and]
  simp only [seek, before, htokens, Nat.add_sub_cancel_left, Text.dropBytes_size_append]

end Reader

theorem takeWhile_append_of_head {p : Char → Bool} {name more : Text}
    (hname : ∀ c ∈ name, p c = true) (hmore : ∀ c ∈ more.head?, p c = false) :
    (name ++ more).takeWhile p = name ∧ (name ++ more).dropWhile p = more := by
  have hnone : more.takeWhile p = [] ∧ more.dropWhile p = more := by
    cases more with
    | nil => exact ⟨rfl, rfl⟩
    | cons c rest =>
        have hc := hmore c rfl
        simp [hc]
  rw [List.takeWhile_append_of_pos hname, List.dropWhile_append_of_pos hname, hnone.1, hnone.2]
  exact ⟨List.append_nil name, rfl⟩

theorem isRunChar_of_isName {name : Text} (h : isName name = true) :
    ∀ c ∈ name, isRunChar c = true := by
  cases name with
  | nil => exact absurd h (by decide)
  | cons first rest =>
      simp only [isName, Bool.and_eq_true, List.all_eq_true] at h
      intro c hc
      rcases List.mem_cons.mp hc with rfl | hrest
      · apply isRunChar_of_isNameChar
        simp only [isNameStart, Bool.or_eq_true, beq_iff_eq] at h
        rcases h.1 with ((halpha | rfl) | rfl) | rfl
        · exact Or.inl (isNamePart_of_isAlpha halpha)
        all_goals decide
      · exact isRunChar_of_isNamePart (h.2 c hrest)

/-- A run that no other character of a run follows is one lexeme. -/
theorem lexeme_of_run {c : Char} {rest more : Text} (hrun : ∀ d ∈ c :: rest, isRunChar d = true)
    (hmore : ∀ d ∈ more.head?, isRunChar d = false) :
    lexeme c (rest ++ more) =
      (some (if isName (c :: rest) then .name else .text), c :: rest, more) := by
  obtain ⟨htake, hdrop⟩ := takeWhile_append_of_head
    (fun d hd => hrun d (List.mem_cons_of_mem c hd)) hmore
  rw [lexeme_of_isRunChar (hrun c List.mem_cons_self), htake, hdrop]

theorem lexeme_of_isName {c : Char} {rest more : Text} (h : isName (c :: rest) = true)
    (hmore : ∀ c ∈ more.head?, isRunChar c = false) :
    lexeme c (rest ++ more) = (some .name, c :: rest, more) := by
  rw [lexeme_of_run (isRunChar_of_isName h) hmore, if_pos h]

theorem before_name {name more : Text} (h : isName name = true)
    (hmore : ∀ c ∈ more.head?, isRunChar c = false) (offset : Nat) (errors : List Error) :
    (Reader.before offset (name ++ more) errors).HasNext [] name more ∧
      (Reader.before offset (name ++ more) errors).kind = .name := by
  cases name with
  | nil => exact absurd h (by decide)
  | cons c rest => exact Reader.before_hasNext (lexeme_of_isName h hmore) offset errors

theorem before_blank_name {name more : Text} (h : isName name = true)
    (hmore : ∀ c ∈ more.head?, isRunChar c = false) (offset : Nat) (errors : List Error) :
    (Reader.before offset (' ' :: (name ++ more)) errors).HasNext [' '] name more ∧
      (Reader.before offset (' ' :: (name ++ more)) errors).kind = .name := by
  cases name with
  | nil => exact absurd h (by decide)
  | cons c rest =>
      have hlexeme := lexeme_of_isName h hmore
      have htokens : (Reader.before offset (' ' :: (c :: rest ++ more)) errors).tokens =
          ⟨.name, ⟨offset + 1, offset + 1 + Text.size (c :: rest)⟩, c :: rest⟩ ::
            tokensAt (offset + 1 + Text.size (c :: rest)) more := by
        rw [Reader.before, tokensAt_gap rfl]
        exact tokensAt_token hlexeme _
      constructor
      · exact Reader.hasNext_of_tokens rfl (List.cons_ne_nil c rest) (by decide) htokens
      · rw [Reader.kind, Reader.current, htokens]
        rfl

/-- What may follow an attribute in a start tag. -/
structure TagTail (tail : Text) : Prop where
  head : ∀ c ∈ tail.head?, isRunChar c = false
  kind : ∀ offset errors,
    (Reader.before offset tail errors).kind ∈ [.name, .selfClose, .tagClose]

theorem TagTail.kind_ne {tail : Text} (h : TagTail tail) (offset : Nat) (errors : List Error) :
    (Reader.before offset tail errors).kind ≠ .newline ∧
      (Reader.before offset tail errors).kind ≠ .equals := by
  have hkind := h.kind offset errors
  constructor <;>
    · intro heq
      rw [heq] at hkind
      exact absurd hkind (by decide)

theorem head_value_print {tail : Text} (h : TagTail tail) (value : AttributeValue) :
    ∀ c ∈ (value.print ++ tail).head?, isRunChar c = false := by
  intro c hc
  cases value with
  | absent => exact h.head c hc
  | text span value =>
      obtain rfl : '=' = c := by simpa [AttributeValue.print] using hc
      decide
  | expression span inner value =>
      obtain rfl : '=' = c := by simpa [AttributeValue.print] using hc
      decide

theorem tagTail_print (attributes : List Attribute) (selfClosing : Bool) (more : Text)
    (h : ∀ a ∈ attributes, isName a.name = true) :
    TagTail (printAttributes attributes ++ (tagEnd selfClosing ++ more)) := by
  induction attributes with
  | nil =>
      cases selfClosing with
      | true =>
          refine ⟨?_, fun offset errors => ?_⟩
          · intro c hc
            obtain rfl : '/' = c := by simpa [printAttributes, tagEnd] using hc
            decide
          · change (Reader.before offset ('/' :: '>' :: more) errors).kind ∈ _
            rw [Reader.before_kind rfl]
            decide
      | false =>
          refine ⟨?_, fun offset errors => ?_⟩
          · intro c hc
            obtain rfl : '>' = c := by simpa [printAttributes, tagEnd] using hc
            decide
          · change (Reader.before offset ('>' :: more) errors).kind ∈ _
            rw [Reader.before_kind rfl]
            decide
  | cons a attributes ih =>
      have htail := ih fun b hb => h b (List.mem_cons_of_mem a hb)
      have hprint : printAttributes (a :: attributes) ++ (tagEnd selfClosing ++ more) =
          ' ' :: (a.name ++ (a.value.print ++
            (printAttributes attributes ++ (tagEnd selfClosing ++ more)))) := by
        simp [printAttributes, Attribute.print]
      rw [hprint]
      refine ⟨?_, fun offset errors => ?_⟩
      · intro c hc
        obtain rfl : ' ' = c := by simpa using hc
        decide
      · rw [(before_blank_name (h a List.mem_cons_self) (head_value_print htail a.value)
          offset errors).2]
        decide

/-- The reader passes the delimiter before a value, and after the value the one that
closes it. -/
theorem before_delimited (opening closing : Char) (value tail : Text) {kind kind' : TokenKind}
    (hopening : lexeme opening (value ++ closing :: tail) =
      (some kind, [opening], value ++ closing :: tail)) (hsize : opening.utf8Size = 1)
    (hclosing : lexeme closing tail = (some kind', [closing], tail)) (hsize' : closing.utf8Size = 1)
    (hopens : opensLexeme closing = true) (offset : Nat) (errors : List Error) :
    (Reader.before offset (opening :: (value ++ closing :: tail)) errors).advance =
        Reader.before (offset + 1) (value ++ closing :: tail) errors ∧
      ((Reader.before (offset + 1) (value ++ closing :: tail) errors).seek
          (offset + 1 + value.size)).advance =
        Reader.before (offset + 1 + value.size + 1) tail errors := by
  constructor
  · exact Reader.before_advance_char hopening hsize offset errors
  · rw [Reader.seek_before (offset + 1) value (closing :: tail) errors (by simp [hopens])]
    exact Reader.before_advance_char hclosing hsize' _ errors

theorem readValue_quoted {value : Text} (h : '"' ∉ value) (name tail : Text) (offset : Nat)
    (errors : List Error) :
    readValue name (Reader.before offset ('"' :: (value ++ '"' :: tail)) errors) =
      (some (.text ⟨offset + 1, offset + 1 + value.size⟩ value),
        Reader.before (offset + 1 + value.size + 1) tail errors) := by
  have hsplit : Text.breakBefore (fun t => t.head? == some '"')
      (Reader.before (offset + 1) (value ++ '"' :: tail) errors).rest = (value, '"' :: tail) := by
    apply Text.breakBefore_append_of_not
    · intro c rest hsuffix
      have hmem : c ∈ value := hsuffix.subset List.mem_cons_self
      have hne : c ≠ '"' := fun heq => h (heq ▸ hmem)
      simpa using hne
    · exact Or.inr (by simp)
  obtain ⟨hadvance, hclosing⟩ :=
    before_delimited '"' '"' value tail rfl rfl rfl rfl rfl offset errors
  have hkind : (Reader.before offset ('"' :: (value ++ '"' :: tail)) errors).kind =
      .doubleQuote := Reader.before_kind rfl _ _
  rw [readValue, hkind]
  simp only [readQuotedValue, hadvance, hsplit, Reader.before_offset, hclosing, List.isEmpty_cons,
    Bool.false_eq_true, ↓reduceIte]

theorem readValue_braced {value : Text} (h : Balanced value) (name tail : Text) (offset : Nat)
    (errors : List Error) :
    ∃ span, readValue name (Reader.before offset ('{' :: (value ++ '}' :: tail)) errors) =
      (some (.expression span ⟨offset + 1, offset + 1 + value.size⟩ value),
        Reader.before (offset + 1 + value.size + 1) tail errors) := by
  have hcut : bracedExpression (Reader.before (offset + 1) (value ++ '}' :: tail) errors).rest =
      some (value, '}' :: tail) := bracedExpression_balanced h tail
  obtain ⟨hadvance, hclosing⟩ :=
    before_delimited '{' '}' value tail rfl rfl rfl rfl rfl offset errors
  have hkind : (Reader.before offset ('{' :: (value ++ '}' :: tail)) errors).kind =
      .leftBrace := Reader.before_kind rfl _ _
  rw [readValue, hkind]
  simp only [readExpressionValue, hadvance, hcut, Reader.before_offset, hclosing]
  exact ⟨_, rfl⟩

/-- After `=` and a delimiter the reader stands before the delimiter. -/
theorem before_equals (delimiter : Char) (rest : Text) {kind : TokenKind}
    (hlexeme : lexeme delimiter rest = (some kind, [delimiter], rest)) (hkind : kind ≠ .newline)
    (offset : Nat) (errors : List Error) :
    (Reader.before offset ('=' :: delimiter :: rest) errors).skipNewlines.kind = .equals ∧
      (Reader.before offset ('=' :: delimiter :: rest) errors).skipNewlines.advance.skipNewlines =
        Reader.before (offset + 1) (delimiter :: rest) errors := by
  have hequals : (Reader.before offset ('=' :: delimiter :: rest) errors).kind = .equals :=
    Reader.before_kind rfl _ _
  have hskip : (Reader.before offset ('=' :: delimiter :: rest) errors).skipNewlines =
      Reader.before offset ('=' :: delimiter :: rest) errors :=
    Reader.skipNewlines_eq_self (by rw [hequals]; decide)
  rw [hskip, Reader.before_advance_char rfl rfl]
  refine ⟨hequals, Reader.skipNewlines_eq_self ?_⟩
  rw [Reader.before_kind hlexeme]
  exact hkind

theorem readAttribute_print {a : Attribute} (hname : isName a.name = true)
    (hvalue : a.value.WellFormed) {tail : Text} (htail : TagTail tail) (offset : Nat)
    (errors : List Error) :
    ∃ a' offset', a'.unplaced = a.unplaced ∧
      readAttribute (Reader.before offset (a.print ++ tail) errors) =
        (some a', Reader.before offset' tail errors) := by
  obtain ⟨span, nameSpan, name, value⟩ := a
  have hprint : Attribute.print ⟨span, nameSpan, name, value⟩ ++ tail =
      ' ' :: (name ++ (value.print ++ tail)) := by
    simp [Attribute.print]
  obtain ⟨hnext, -⟩ := before_blank_name hname (head_value_print htail value) offset errors
  rw [hprint]
  have hadvance : (Reader.before offset (' ' :: (name ++ (value.print ++ tail))) errors).advance =
      Reader.before (offset + 1 + name.size) (value.print ++ tail) errors := hnext.advance_eq
  simp only [readAttribute, hadvance, hnext.text_eq]
  cases value with
  | absent =>
      obtain ⟨hnewline, hequals⟩ := htail.kind_ne (offset + 1 + name.size) errors
      simp only [AttributeValue.print, List.nil_append, Reader.skipNewlines_eq_self hnewline,
        hequals, ↓reduceIte]
      refine ⟨_, _, ?_, rfl⟩
      rfl
  | text valueSpan value =>
      have hprint : AttributeValue.print (.text valueSpan value) ++ tail =
          '=' :: '"' :: (value ++ '"' :: tail) := by
        simp [AttributeValue.print]
      obtain ⟨hequals, hreader⟩ := before_equals '"' (value ++ '"' :: tail) rfl (by decide)
        (offset + 1 + name.size) errors
      simp only [hprint, hequals, hreader, ↓reduceIte, readValue_quoted hvalue]
      refine ⟨_, _, ?_, rfl⟩
      rfl
  | expression valueSpan inner value =>
      have hprint : AttributeValue.print (.expression valueSpan inner value) ++ tail =
          '=' :: '{' :: (value ++ '}' :: tail) := by
        simp [AttributeValue.print]
      obtain ⟨hequals, hreader⟩ := before_equals '{' (value ++ '}' :: tail) rfl (by decide)
        (offset + 1 + name.size) errors
      obtain ⟨span, hread⟩ := readValue_braced hvalue name tail (offset + 1 + name.size + 1) errors
      simp only [hprint, hequals, hreader, ↓reduceIte, hread]
      refine ⟨_, _, ?_, rfl⟩
      rfl

theorem attributesEnd_print (selfClosing : Bool) (more : Text) (offset : Nat)
    (errors : List Error) :
    AttributesEnd (Reader.before offset (tagEnd selfClosing ++ more) errors)
      (Reader.before offset (tagEnd selfClosing ++ more) errors) := by
  have hkind : (Reader.before offset (tagEnd selfClosing ++ more) errors).kind =
      if selfClosing then .selfClose else .tagClose := by
    cases selfClosing with
    | true => exact Reader.before_kind rfl offset errors
    | false => exact Reader.before_kind rfl offset errors
  have hskip : (Reader.before offset (tagEnd selfClosing ++ more) errors).skipNewlines =
      Reader.before offset (tagEnd selfClosing ++ more) errors := by
    apply Reader.skipNewlines_eq_self
    rw [hkind]
    cases selfClosing <;> decide
  have hend : AttributesEnd (Reader.before offset (tagEnd selfClosing ++ more) errors)
      (Reader.before offset (tagEnd selfClosing ++ more) errors).skipNewlines := by
    apply AttributesEnd.tagEnd
    rw [hskip, hkind]
    cases selfClosing <;> decide
  rwa [hskip] at hend

/-- Printed attributes are read back as they were. -/
theorem readsAttributes_print (attributes known : List Attribute) (selfClosing : Bool)
    (more : Text) (offset : Nat) (errors : List Error)
    (h : ∀ a ∈ attributes, isName a.name = true ∧ a.value.WellFormed)
    (hnodup : (known.map Attribute.name ++ attributes.map Attribute.name).Nodup) :
    ∃ found offset', found.map Attribute.unplaced = attributes.map Attribute.unplaced ∧
      ReadsAttributes known
        (Reader.before offset (printAttributes attributes ++ (tagEnd selfClosing ++ more)) errors)
        (known ++ found) (Reader.before offset' (tagEnd selfClosing ++ more) errors) := by
  induction attributes generalizing known offset with
  | nil =>
      refine ⟨[], offset, rfl, ?_⟩
      rw [List.append_nil]
      exact .leave (attributesEnd_print selfClosing more offset errors)
  | cons a attributes ih =>
      have hnames : ∀ b ∈ attributes, isName b.name = true ∧ b.value.WellFormed :=
        fun b hb => h b (List.mem_cons_of_mem a hb)
      obtain ⟨hname, hvalue⟩ := h a List.mem_cons_self
      have htail := tagTail_print attributes selfClosing more fun b hb => (hnames b hb).1
      have hprint : printAttributes (a :: attributes) ++ (tagEnd selfClosing ++ more) =
          a.print ++ (printAttributes attributes ++ (tagEnd selfClosing ++ more)) := by
        simp [printAttributes]
      rw [hprint]
      obtain ⟨a', offset₁, ha', hread⟩ := readAttribute_print hname hvalue htail offset errors
      have hname' : a'.name = a.name := by
        have hsame := congrArg Attribute.name ha'
        exact hsame
      have hkind : (Reader.before offset (a.print ++
          (printAttributes attributes ++ (tagEnd selfClosing ++ more))) errors).kind = .name := by
        rw [Attribute.print, List.cons_append, List.append_assoc]
        exact (before_blank_name hname (head_value_print htail a.value) offset errors).2
      have hskip := Reader.skipNewlines_eq_self (by rw [hkind]; decide :
        (Reader.before offset (a.print ++
          (printAttributes attributes ++ (tagEnd selfClosing ++ more))) errors).kind ≠ .newline)
      have hnew : known.any (·.name == a'.name) = false := by
        rw [List.any_eq_false]
        intro b hb hsame
        rw [beq_iff_eq, hname'] at hsame
        exact (List.nodup_append.mp hnodup).2.2 b.name (List.mem_map_of_mem hb) a.name
          List.mem_cons_self hsame
      have hnodup' : ((known ++ [a']).map Attribute.name ++
          attributes.map Attribute.name).Nodup := by
        simpa [hname'] using hnodup
      obtain ⟨found, offset', hfound, hreads⟩ := ih (known ++ [a']) offset₁ hnames hnodup'
      refine ⟨a' :: found, offset', ?_, ?_⟩
      · rw [List.map_cons, List.map_cons, ha', hfound]
      · rw [List.append_assoc, List.singleton_append] at hreads
        refine .turn (.kept ?_ ?_ hnew) hreads
        · rw [hskip]
          exact hkind
        · rw [hskip]
          exact hread

theorem isName_of_isElementName {name : Text} (h : isElementName name = true) :
    isName name = true := by
  cases name with
  | nil => exact h
  | cons c rest =>
      simp only [isElementName, Bool.and_eq_true] at h
      simp [isName, isNameStart, h]

theorem expect_tagOpen_before {source : Text} {r : Reader} (h : r.InStep source) {c : Char}
    {rest : Text} (halpha : c.isAlpha = true) (hrest : r.rest = '<' :: c :: rest) :
    r.expect .tagOpen = Reader.before (r.offset + 1) (c :: rest) r.errors := by
  have hlexeme := lexeme_tagOpen halpha rest
  have hbefore := h.eq_before (by simp [hrest, opensLexeme])
  rw [hrest] at hbefore
  have hkind : r.kind = .tagOpen := by
    rw [hbefore]
    exact Reader.before_kind hlexeme _ _
  rw [Reader.expect, if_pos hkind]
  conv_lhs => rw [hbefore]
  exact Reader.before_advance_char hlexeme rfl _ _

theorem expect_tagOpen_print {source : Text} {r : Reader} (h : r.InStep source)
    {name more : Text} (hname : isElementName name = true)
    (hrest : r.rest = '<' :: (name ++ more)) :
    r.expect .tagOpen = Reader.before (r.offset + 1) (name ++ more) r.errors := by
  cases name with
  | nil => exact absurd hname (by decide)
  | cons c rest =>
      simp only [isElementName, Bool.and_eq_true] at hname
      exact expect_tagOpen_before h hname.1 hrest

/-- The printed start tag of an element is read back as it was. -/
theorem readStartTag_print {source : Text} {r : Reader} (h : r.InStep source) {name more : Text}
    {attributes : List Attribute} {selfClosing : Bool} (hname : isElementName name = true)
    (hattributes : AttributesWellFormed attributes)
    (hrest : r.rest = '<' :: (name ++ (printAttributes attributes ++
      (tagEnd selfClosing ++ more)))) :
    ∃ found offset', found.map Attribute.unplaced = attributes.map Attribute.unplaced ∧
      readStartTag r = (⟨name, found, selfClosing⟩, Reader.before offset' more r.errors) := by
  have htail := tagTail_print attributes selfClosing more fun a ha => (hattributes.1 a ha).1
  have hexpect : r.expect .tagOpen = Reader.before (r.offset + 1)
      (name ++ (printAttributes attributes ++ (tagEnd selfClosing ++ more))) r.errors :=
    expect_tagOpen_print h hname hrest
  obtain ⟨hnext, -⟩ :=
    before_name (isName_of_isElementName hname) htail.head (r.offset + 1) r.errors
  have hadvance : (r.expect .tagOpen).advance = Reader.before (r.offset + 1 + name.size)
      (printAttributes attributes ++ (tagEnd selfClosing ++ more)) r.errors := by
    rw [hexpect]
    exact hnext.advance_eq
  have htext : (r.expect .tagOpen).current.text = name := by
    rw [hexpect]
    exact hnext.text_eq
  have hinStep : (r.expect .tagOpen).advance.InStep source :=
    (h.expect .tagOpen).inStep.advance.inStep
  obtain ⟨found, offset', hfound, hreads⟩ := readsAttributes_print attributes [] selfClosing more
    (r.offset + 1 + name.size) r.errors hattributes.1 hattributes.2
  rw [← hadvance, List.nil_append] at hreads
  have hread := hreads.readAttributes_eq hinStep (Nat.le_refl _)
  unfold readStartTag
  simp only [htext, hread]
  cases selfClosing with
  | true =>
      have hkind : (Reader.before offset' (tagEnd true ++ more) r.errors).kind = .selfClose :=
        Reader.before_kind rfl _ _
      refine ⟨found, offset' + 2, hfound, ?_⟩
      have hlexeme : lexeme '/' ('>' :: more) = (some .selfClose, ['/', '>'], more) := rfl
      rw [if_pos hkind]
      exact congrArg _ (Reader.before_advance hlexeme offset' r.errors)
  | false =>
      have hkind : (Reader.before offset' (tagEnd false ++ more) r.errors).kind = .tagClose :=
        Reader.before_kind rfl _ _
      refine ⟨found, offset' + 1, hfound, ?_⟩
      have hlexeme : lexeme '>' more = (some .tagClose, ['>'], more) := rfl
      rw [if_neg (by rw [hkind]; decide), Reader.expect, if_pos hkind]
      exact congrArg _ (Reader.before_advance hlexeme offset' r.errors)

end Markup

end Component
