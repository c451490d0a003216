/-
The names of properties, and identifiers.

A binding has to show an identifier, and a property has the name that a script declares it by.
Some identifiers are names that no script can declare as they are.  A script can write any word
with an escape at its front, and a property then has a name that is no identifier if the word is
reserved; without a backslash in the script this does not happen.
-/
import Component.Proofs.Extraction
import Component.Proofs.Script.Declarators

namespace Component

namespace Script

/-! ### Ways to write a name -/

/-- A word with its first character written as an escape. -/
def quoted : Text → Text
  | [] => []
  | c :: rest => '\\' :: 'u' :: (Code.hex4 c.toNat ++ rest)

theorem readWordToken_quoted {c : Char} {name rest : Text} (hsmall : c.toNat < 0x10000)
    (hstart : Identifier.isStart c = true) (hname : name.all Identifier.isPart = true)
    (hrest : endsWord rest = true) :
    readWordToken (quoted (c :: name) ++ rest) = some (.word (c :: name) true, rest) := by
  have hpoint := codePoint_hex4 hsmall (name ++ rest)
  have hfits : (c.toNat.isValidChar && Identifier.isStart (Char.ofNat c.toNat)) = true := by
    rw [Char.ofNat_toNat, hstart, Bool.and_true]
    exact decide_eq_true c.valid
  have hparts := readWord_parts hname hrest (quoted (c :: name) ++ rest).length (by
    simp only [quoted, List.length_append, List.length_cons]
    omega)
  have hword : readWord ((quoted (c :: name) ++ rest).length + 1) true
      (quoted (c :: name) ++ rest) = some (c :: name, true, rest) := by
    simp only [quoted, List.cons_append, List.append_assoc] at hparts ⊢
    simp only [readWord, if_true, hpoint, Except.toOption, bind, Option.bind_some, hfits, hparts]
    rw [Char.ofNat_toNat]
  rw [readWordToken, hword]
  simp [quoted]

/-- A word that begins with an escape. -/
theorem Begins.quoted {name rest : Text} (hname : isWord name = true)
    (hsmall : ∀ c ∈ name.head?, c.toNat < 0x10000) (hrest : endsWord rest = true) :
    Begins (quoted name ++ rest) (.word name true) false rest := by
  cases name with
  | nil => cases hname
  | cons c name =>
    simp only [isWord, Bool.and_eq_true] at hname
    refine of_readToken rfl ?_
    exact readWordToken_quoted (hsmall c rfl) hname.1 hname.2 hrest

theorem Spells.quoted {name : Text} (hname : isBindable name = true)
    (hreserved : isReservedWord name = true) : Spells (quoted name) name := by
  have hascii :
      (reservedWords.all fun word => word.toList.head?.all (·.toNat < 0x10000)) = true := by
    decide +kernel
  obtain ⟨word, hword, rfl⟩ := (isReservedWord_iff name).1 hreserved
  have hsmall : ∀ c ∈ word.toList.head?, c.toNat < 0x10000 := by
    intro c hc
    have hhead := List.all_eq_true.1 hascii word hword
    rw [Option.mem_def.1 hc] at hhead
    exact of_decide_eq_true hhead
  rw [isBindable, Bool.and_eq_true] at hname
  refine ⟨true, fun rest hrest => .quoted hname.1 hsmall hrest, ?_⟩
  rw [Bool.true_or, Bool.true_and, hname.2]

/-- A name that can be bound can be written in a script. -/
theorem exists_spells {name : Text} (h : isBindable name = true) :
    ∃ written, Spells written name := by
  cases hreserved : isReservedWord name with
  | true => exact ⟨_, .quoted h hreserved⟩
  | false =>
    refine ⟨name, .of_isVariable ?_⟩
    rw [isBindable, Bool.and_eq_true] at h
    rw [isVariable, h.1, hreserved, h.2]
    rfl

/-! ### Words and identifiers -/

/-- The identifiers that a script cannot declare as they are. -/
def undeclarable : List Text :=
  Text.words "implements interface package private protected public eval arguments"

theorem reserved_or_fixed_iff (name : Text) :
    isReservedWord name = true ∨ isFixedName name = true ↔
      name ∈ bindingReservedWords ∨ name ∈ undeclarable := by
  -- Both sides have the keywords; what is left of each are the same twelve words.
  have hlists : (∀ word ∈ strictWords ++ ["eval".toList, "arguments".toList],
        word ∈ Text.words "await let static yield" ++ undeclarable) ∧
      ∀ word ∈ Text.words "await let static yield" ++ undeclarable,
        word ∈ strictWords ++ ["eval".toList, "arguments".toList] := by
    decide +kernel
  have hlist : name ∈ strictWords ++ ["eval".toList, "arguments".toList] ↔
      name ∈ Text.words "await let static yield" ++ undeclarable := ⟨hlists.1 name, hlists.2 name⟩
  simp only [List.mem_append, List.mem_cons, List.not_mem_nil, or_false] at hlist
  simp only [isReservedWord, isFixedName, bindingReservedWords, Bool.or_eq_true,
    List.contains_iff_mem, beq_iff_eq, List.mem_append]
  rw [or_assoc, hlist, or_assoc]

theorem isVariable_iff (name : Text) :
    isVariable name = true ↔ isIdentifier name = true ∧ name ∉ undeclarable := by
  rw [isIdentifier_iff, and_assoc, ← not_or, ← reserved_or_fixed_iff, isVariable, not_or]
  simp only [Bool.and_eq_true, Bool.not_eq_true', Bool.not_eq_true, and_assoc]

end Script

open Script

namespace ScriptBlock

variable {block : ScriptBlock} {parts : ScriptParts}

/-! ### Scripts that export one variable -/

theorem parts_of_spells {written name : Text} (h : Spells written name)
    (hfree : isReservedName name = false) (hblock : block.content = exporting written []) :
    ∃ p, block.parts = .ok ⟨[p], []⟩ ∧ p.name = name ∧ p.default = none := by
  have hexport := readTopLevel_exporting (2 * (exporting written []).length + 3) .module h
    Begins.nil.isSome
  have hmodule : (readModule (.atDepth (2 * (exporting written []).length + 4))).Reads
      (exporting written [])
      (fun items => ∃ span d, (d.pattern = .name name ∧ d.initializer = none) ∧
        items = [.exportedVariables span [d]]) [] := by
    have hlength := length_lt_exporting written []
    refine Parser.Loops.repeated (.more (moduleStep_item hexport []) hlength ?_)
    rintro _ ⟨_, span, ⟨d, hd, hitem⟩, rfl⟩
    refine moduleStep_end .nil ⟨span, d, hd, ?_⟩
    rw [hitem]
    rfl
  obtain ⟨_, hparse, span, d, ⟨hpattern, hinitializer⟩, rfl⟩ :=
    parse_of_reads (start_exporting written []) hmodule
  have hitems : block.items = .ok [.exportedVariables span [d]] := by
    rw [items_eq_read hblock, Script.read, hparse]
  have hnames : [Item.exportedVariables span [d]].flatMap Item.exportedNames = [name] :=
    (List.append_nil _).trans (Declarator.allNames_one hpattern)
  have htidy : Tidy [.exportedVariables span [d]] :=
    { supported := by simp [Item.isSupported, hpattern, Pattern.isName]
      distinct := by simp [hnames]
      exported := by simp [hnames, hfree]
      declared := by simp [Item.declared] }
  have hcuts : block.CutsWhole [.exportedVariables span [d]] := by
    simp [CutsWhole, Item.cuts, hinitializer]
  refine ⟨block.property d, ?_, ?_, ?_⟩
  · rw [parts_of_items hitems, ofItems_of_tidy htidy hcuts]
    rfl
  · rw [property, hpattern]
    rfl
  · rw [property, hinitializer]
    rfl

/-! ### Names without a backslash -/

theorem mem_content_of_mem_readable {c : Char} (h : c ∈ block.readable) : c ∈ block.content := by
  unfold readable at h
  split at h
  case h_1 first rest hcontent =>
    rw [hcontent]
    split at h
    · exact List.mem_cons_of_mem first h
    · exact h
  case h_2 => cases h

/-- A property with a reserved name comes from a script that holds a backslash. -/
theorem backslash_of_property (h : block.parts = .ok parts) {p : Property}
    (hp : p ∈ parts.properties) (hreserved : isReservedWord p.name = true) :
    '\\' ∈ block.content := by
  obtain ⟨items, hitems⟩ := exists_items h
  rw [parts_of_items hitems] at h
  have hsupported := (ScriptParts.exists_ofItems_iff.1 ⟨parts, h⟩).1.supported
  rw [(parts_of_ofItems h).1] at hp
  obtain ⟨d, hd, rfl⟩ := List.mem_map.1 hp
  obtain ⟨name, hname⟩ := exists_name_of_mem_exported hsupported hd
  obtain ⟨item, hitem, hd⟩ := List.mem_flatMap.1 hd
  rw [property, hname] at hreserved
  unfold ScriptBlock.items at hitems
  split at hitems
  case isTrue =>
    cases hitems
    cases hitem
  case isFalse =>
    exact mem_content_of_mem_readable (backslash_of_read hitems hitem hd hname hreserved)

theorem isVariable_property (h : block.parts = .ok parts) {p : Property} (hp : p ∈ parts.properties)
    (hplain : '\\' ∉ block.content) : isVariable p.name = true := by
  have hbindable := isBindable_property h p hp
  rw [isBindable, Bool.and_eq_true] at hbindable
  have hreserved : isReservedWord p.name = false :=
    Bool.eq_false_iff.2 fun hreserved => hplain (backslash_of_property h hp hreserved)
  rw [isVariable, hbindable.1, hreserved, hbindable.2]
  rfl

end ScriptBlock

theorem backslash_not_mem_of_isWord {name : Text} (h : isWord name = true) : '\\' ∉ name := by
  have hstart : Identifier.isStart '\\' = false := by decide
  have hpart : Identifier.isPart '\\' = false := by decide
  intro hmem
  cases name with
  | nil => cases hmem
  | cons c rest =>
    rw [isWord, Bool.and_eq_true] at h
    rcases List.mem_cons.1 hmem with rfl | hmem
    · rw [hstart] at h
      cases h.1
    · have hfound := List.all_eq_true.1 h.2 _ hmem
      rw [hpart] at hfound
      cases hfound

theorem backslash_not_mem_exporting {name : Text} (h : '\\' ∉ name) :
    '\\' ∉ exporting name [] := by
  unfold exporting
  simp [h]

/-- The name of a property in a script without a backslash. -/
theorem ScriptBlock.isIdentifier_property {block : ScriptBlock} {parts : ScriptParts}
    (h : block.parts = .ok parts) {p : Property} (hp : p ∈ parts.properties)
    (hplain : '\\' ∉ block.content) :
    isIdentifier p.name = true ∧ isReservedName p.name = false ∧ p.name ∉ undeclarable := by
  obtain ⟨hidentifier, hdeclarable⟩ := (isVariable_iff p.name).1 (isVariable_property h hp hplain)
  exact ⟨hidentifier, isReservedName_property h p hp, hdeclarable⟩

/-- A script that exports one variable, written as its name is, has just the property of that
name if and only if the name is an identifier that neither the compiled module reserves nor the
language keeps from being declared.  In a script without a backslash every property has such a
name.  With escapes the properties have all the names that can be bound, and with them the
reserved words of the language, which are no identifiers. -/
theorem property_names_and_identifiers (name : Text) :
    (∀ span, (∃ p, ScriptBlock.parts ⟨exporting name [], span⟩ = .ok ⟨[p], []⟩ ∧ p.name = name) ↔
      isIdentifier name = true ∧ isReservedName name = false ∧ name ∉ undeclarable) ∧
    (∀ block parts, ScriptBlock.parts block = .ok parts → '\\' ∉ block.content →
      (∃ p ∈ parts.properties, p.name = name) →
        isIdentifier name = true ∧ isReservedName name = false ∧ name ∉ undeclarable) ∧
    ((∃ block parts, ScriptBlock.parts block = .ok parts ∧ ∃ p ∈ parts.properties, p.name = name) ↔
      isWord name = true ∧ isFixedName name = false ∧ isReservedName name = false) := by
  refine ⟨fun span => ⟨?_, ?_⟩, ?_, ?_, ?_⟩
  · rintro ⟨p, hparts, rfl⟩
    have hp : p ∈ (⟨[p], []⟩ : ScriptParts).properties := List.mem_singleton_self p
    have hbindable := ScriptBlock.isBindable_property hparts p hp
    rw [isBindable, Bool.and_eq_true] at hbindable
    -- The name is a word, so a script that has it as it is holds no backslash.
    have hword := backslash_not_mem_of_isWord hbindable.1
    exact ScriptBlock.isIdentifier_property hparts hp (backslash_not_mem_exporting hword)
  · rintro ⟨hidentifier, hfree, hdeclarable⟩
    have hvariable := (isVariable_iff name).2 ⟨hidentifier, hdeclarable⟩
    obtain ⟨p, hparts, hname, -⟩ := @ScriptBlock.parts_of_spells ⟨exporting name [], span⟩ _ _
      (.of_isVariable hvariable) hfree rfl
    exact ⟨p, hparts, hname⟩
  · rintro block parts hparts hplain ⟨p, hp, rfl⟩
    exact ScriptBlock.isIdentifier_property hparts hp hplain
  · rintro ⟨block, parts, hparts, p, hp, rfl⟩
    have hbindable := ScriptBlock.isBindable_property hparts p hp
    rw [isBindable, Bool.and_eq_true, Bool.not_eq_true'] at hbindable
    exact ⟨hbindable.1, hbindable.2, ScriptBlock.isReservedName_property hparts p hp⟩
  · rintro ⟨hword, hfixed, hfree⟩
    have hbindable : isBindable name = true := by rw [isBindable, hword, hfixed]; rfl
    obtain ⟨written, hspells⟩ := exists_spells hbindable
    obtain ⟨p, hparts, hname, -⟩ := @ScriptBlock.parts_of_spells ⟨exporting written [], ⟨0, 0⟩⟩ _ _
      hspells hfree rfl
    exact ⟨_, _, hparts, p, List.mem_singleton_self p, hname⟩

namespace PropertyNameWitness

/-- A script that exports a word of the language that is not reserved. -/
def plain : ScriptBlock := ⟨"export let async;", ⟨8, 25⟩⟩

/-- A script that exports an identifier that cannot be declared. -/
def strict : ScriptBlock := ⟨"export let package;", ⟨0, 19⟩⟩

/-- A script that exports a reserved word, written with an escape. -/
def escaped : ScriptBlock := ⟨"export let \\u0076ar;", ⟨0, 20⟩⟩

-- Evaluated together, so that the words of the language are spelled out once.
theorem exported_words :
    (isIdentifier "async" = true ∧ isReservedName "async" = false ∧
      "async".toList ∉ undeclarable) ∧
    (undeclarable.all fun name => isIdentifier name && !isReservedName name) = true ∧
    "package".toList ∈ undeclarable ∧
    strict.parts = .error (.refused ⟨.scriptSyntax "not a script", ⟨0, 19⟩⟩) ∧
    isIdentifier "var" = false ∧
    (escaped.parts.toOption.any fun parts =>
      parts.properties.map (·.name) = ["var".toList]) = true := by
  decide +kernel

end PropertyNameWitness

open PropertyNameWitness in
theorem property_async :
    ∃ p, plain.parts = .ok ⟨[p], []⟩ ∧ p.name = "async".toList ∧ '\\' ∉ plain.content ∧
      isIdentifier "async" = true := by
  obtain ⟨hsingle, hplain, -⟩ := property_names_and_identifiers "async"
  obtain ⟨p, hparts, hname⟩ := (hsingle plain.span).2 exported_words.1
  have hcontent : '\\' ∉ plain.content := by decide
  obtain ⟨hidentifier, -⟩ := hplain plain _ hparts hcontent ⟨p, List.mem_singleton_self p, hname⟩
  exact ⟨p, hparts, hname, hcontent, hidentifier⟩

open PropertyNameWitness in
/-- Eight identifiers that the compiled module does not reserve cannot be exported, as with
`package`; and the reserved word `var`, which is no identifier, can be. -/
theorem identifiers_apart_from_property_names :
    (∀ name ∈ undeclarable, isIdentifier name = true ∧ isReservedName name = false) ∧
    "package".toList ∈ undeclarable ∧
    (∃ message place, strict.parts = .error (.refused ⟨.scriptSyntax message, place⟩)) ∧
    ∃ parts, escaped.parts = .ok parts ∧ parts.properties.map (·.name) = ["var".toList] ∧
      isIdentifier "var" = false := by
  obtain ⟨-, hlist, hmem, hstrict, hvar, hescaped⟩ := exported_words
  obtain ⟨parts, hparts, hnames⟩ := exists_ok_of_any _ _ hescaped
  refine ⟨?_, hmem, ⟨_, _, hstrict⟩, parts, hparts, of_decide_eq_true hnames, hvar⟩
  intro name hname
  simpa using List.all_eq_true.1 hlist name hname

end Component
