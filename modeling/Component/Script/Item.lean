/-
Items of a module: what stands at the top level of a script.
-/
import Component.Fault
import Component.Script.Statement

namespace Component.Script

open Component.Script.Parser

/-- A top-level item with its span. -/
inductive Item where
  /-- An import, by the local names it binds. -/
  | imports (span : Span) (locals : List Text)
  | variables (span : Span) (declarators : List Declarator)
  | function (span : Span) (name : Text)
  | classDeclaration (span : Span) (name : Text)
  /-- Any other statement, by the variables it hoists. -/
  | statement (span : Span) (hoisted : List Text)
  | exportedVariables (span : Span) (declarators : List Declarator)
  | otherExport (span : Span) (form : ExportForm)
deriving Repr

def Item.span : Item → Span
  | .imports span _ => span
  | .variables span _ => span
  | .function span _ => span
  | .classDeclaration span _ => span
  | .statement span _ => span
  | .exportedVariables span _ => span
  | .otherExport span _ => span

/-- Reads the attributes of an import, if there are any. -/
def readAttributes (g : Grammar) (c : Context) : Parser Unit := do
  if (← seesWord "with") || (← seesWord "assert") then
    if !(← newline) then
      advance
      expect .leftBrace
      let _ ← readItems .rightBrace false (readProperty g c)

/-- Reads the name of the module that an import or export refers to. -/
def readSource (g : Grammar) (c : Context) : Parser Unit := do
  match ← token with
  | .string .. => advance
  | _ => failure
  readAttributes g c

/-- The name of an import or export, which may be any word or a string. -/
inductive ExternalName where
  | word (name : Text)
  | string
deriving Repr, DecidableEq

/-- Reads the name under which something is imported or exported. -/
def readExternalName : Parser ExternalName := do
  match ← token with
  | .word name _ => advance; return .word name
  | .string .. => advance; return .string
  | _ => failure

/-- Reads one name of an import list, and gives the local name.  One that is imported
under its own name may be any word. -/
def readImportSpecifier : Parser Text := do
  match ← readExternalName with
  | .word name => if ← eatWord "as" then bindingName else return name
  | .string =>
      expectWord "as"
      bindingName

/-- Reads what an import binds besides its default: everything, or a list; nothing
if it has neither. -/
def readImportNames : Parser (List Text) := do
  if ← eat .star then
    expectWord "as"
    return [← bindingName]
  else if ← eat .leftBrace then listUntil .rightBrace readImportSpecifier
  else return []

/-- Whether a word just read says in which phase a module is imported, since what
is imported follows it. -/
def isPhase (word : Text) : Parser Bool := do
  if word == "defer" || word == "source" then
    match ← token with
    | .symbol .star => return true
    | .symbol .leftBrace => return true
    | next =>
        let fromToken : Token := .word "from" false
        let leadsToFrom := (← peek).any fun (following, _) => following = fromToken
        return leadsToFrom || ((next matches .word ..) && next ≠ fromToken)
  else return false

/-- Reads what an import binds after the name of its default. -/
def readAfterDefault (name : Text) : Parser (List Text) := do
  if ← eat .comma then return name :: (← readImportNames) else return [name]

def readImportClause : Parser (List Text) := do
  match ← token with
  | .word .. =>
      let name ← bindingName
      if ← isPhase name then
        match ← token with
        | .word .. => readAfterDefault (← bindingName)
        | _ => readImportNames
      else readAfterDefault name
  | _ => readImportNames

/-- Reads an import after its first word.  One that binds nothing needs no semicolon
after it. -/
def readImportDeclaration (g : Grammar) (c : Context) : Parser (List Text) := do
  match ← token with
  | .string .. =>
      readSource g c
      let _ ← eat .semicolon
      return []
  | _ =>
      let locals ← readImportClause
      expectWord "from"
      readSource g c
      semicolon
      return locals

/-- Reads one name of an export list, and gives the local one. -/
def readExportSpecifier : Parser ExternalName := do
  let name ← readExternalName
  if ← eatWord "as" then
    let _ ← readExternalName
  return name

/-- Whether a name can be exported from this module itself: a word that could be a
name outside of modules. -/
def ExternalName.isLocal : ExternalName → Bool
  | .word name => !keywords.contains name && name != "package"
  | .string => false

def readDefaultExport (g : Grammar) (c : Context) : Parser Unit := do
  if ← seesWord "function" then
    let _ ← readFunction g false
  else if ← seesAsyncFunction then
    advance
    let _ ← readFunction g true
  else if ← seesWord "class" then
    let _ ← readClass g c
  else
    let _ ← g.assignment c
    semicolon

/-- Reads an export list and where it comes from.  A list of this module itself needs
no semicolon after it. -/
def readExportList (g : Grammar) (c : Context) : Parser Unit := do
  let names ← listUntil .rightBrace readExportSpecifier
  if ← eatWord "from" then
    readSource g c
    semicolon
  else
    require (names.all ExternalName.isLocal)
    let _ ← eat .semicolon

/-- What an export holds. -/
inductive Exported where
  | variables (declarators : List Declarator)
  | other (form : ExportForm)
deriving Repr

/-- Reads an export after its first word. -/
def readExport (g : Grammar) (c : Context) : Parser Exported := do
  if ← eat .star then
    let named ← eatWord "as"
    if named then
      let _ ← readExternalName
    expectWord "from"
    readSource g c
    semicolon
    return .other (if named then .list else .reexport)
  if ← eat .leftBrace then
    readExportList g c
    return .other .list
  if ← eatWord "default" then
    readDefaultExport g c
    return .other .defaultValue
  if (← seesWord "var") || (← seesWord "let") then
    advance
    return .variables (← readVariables g c false)
  if ← eatWord "const" then return .variables (← readVariables g c true)
  if ← seesWord "function" then
    let _ ← readFunctionDeclaration g false
    return .other .function
  if ← seesAsyncFunction then
    let _ ← readFunctionDeclaration g true
    return .other .function
  let _ ← readClassDeclaration g c
  return .other .classDeclaration

/-- Whether an import declaration, and not an expression, is next. -/
def seesImportDeclaration : Parser Bool := do
  if ← seesWord "import" then
    match ← peek with
    | some (.symbol .leftParen, _) => return false
    | some (.symbol .dot, _) => return false
    | _ => return true
  else return false

/-- Reads an item, with what makes it one once its span is known. -/
def readTopLevel (g : Grammar) (c : Context) : Parser (Span → Item) := do
  if ← seesImportDeclaration then
    advance
    let locals ← readImportDeclaration g c
    return (.imports · locals)
  if ← eatWord "export" then
    match ← readExport g c with
    | .variables declarators => return (.exportedVariables · declarators)
    | .other form => return (.otherExport · form)
  if (← seesWord "var") || (← seesWord "let") then
    advance
    let declarators ← readVariables g c false
    return (.variables · declarators)
  if ← eatWord "const" then
    let declarators ← readVariables g c true
    return (.variables · declarators)
  if ← seesWord "function" then
    let name ← readFunctionDeclaration g false
    return (.function · name)
  if ← seesAsyncFunction then
    let name ← readFunctionDeclaration g true
    return (.function · name)
  if ← seesWord "class" then
    let name ← readClassDeclaration g c
    return (.classDeclaration · name)
  let hoisted ← readStatement g c
  return (.statement · hoisted)

/-- Reads one more item of a module, or its end. -/
def moduleStep (g : Grammar) (items : List Item) : Parser (List Item ⊕ List Item) := do
  if (← token) = .endOfInput then return .inr items
  let start ← position
  let item ← readTopLevel g .module
  return .inl (items ++ [item ⟨start, ← previous⟩])

def readModule (g : Grammar) : Parser (List Item) := repeated (moduleStep g) []

end Component.Script
