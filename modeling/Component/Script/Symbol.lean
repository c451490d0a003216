/-
Punctuation of scripts.

A symbol stands for the part it plays in the grammar.  Binary operators that
differ only in how tightly they bind share one symbol that carries the level.
-/
import Component.Text.Basic

namespace Component.Script

/-- A punctuation mark by its part in the grammar. -/
inductive Symbol where
  | leftBrace
  | rightBrace
  | leftParen
  | rightParen
  | leftBracket
  | rightBracket
  | dot
  | ellipsis
  | semicolon
  | comma
  | colon
  | question
  /-- The mark before a private name. -/
  | hash
  | arrow
  | assign
  /-- An assignment that combines the old value with the new one. -/
  | update
  /-- `++` or `--`. -/
  | step
  /-- `!` or `~`. -/
  | unary
  /-- `+` or `-`. -/
  | sign
  | star
  | power
  | slash
  | slashAssign
  | coalesce
  | disjunction
  | conjunction
  /-- Any other binary operator, by how tightly it binds. -/
  | binary (level : Nat)
deriving Repr, DecidableEq, Inhabited

def shortMarks : List (Char × Symbol) :=
  [('{', .leftBrace), ('}', .rightBrace), ('(', .leftParen), (')', .rightParen),
    ('[', .leftBracket), (']', .rightBracket), (';', .semicolon), (',', .comma),
    ('<', .binary 7), ('>', .binary 7), ('+', .sign), ('-', .sign), ('*', .star), ('/', .slash),
    ('%', .binary 10), ('&', .binary 5), ('|', .binary 3), ('^', .binary 4), ('!', .unary),
    ('~', .unary), ('?', .question), (':', .colon), ('=', .assign), ('.', .dot),
    ('#', .hash)]

/-- The marks of several characters, longer ones before their beginnings. -/
def longMarks : List (String × Symbol) :=
  [(">>>=", .update), ("...", .ellipsis), ("===", .binary 6), ("!==", .binary 6),
    ("**=", .update), ("<<=", .update), (">>=", .update), (">>>", .binary 8), ("&&=", .update),
    ("||=", .update), ("??=", .update), ("=>", .arrow), ("==", .binary 6), ("!=", .binary 6),
    ("<=", .binary 7), (">=", .binary 7), ("&&", .conjunction), ("||", .disjunction),
    ("??", .coalesce), ("++", .step), ("--", .step), ("+=", .update),
    ("-=", .update), ("*=", .update), ("/=", .slashAssign), ("%=", .update), ("&=", .update),
    ("|=", .update), ("^=", .update), ("<<", .binary 8), (">>", .binary 8), ("**", .power)]

/-- The longest mark at the front of a text, with its length. -/
def mark? (t : Text) : Option (Symbol × Nat) :=
  match longMarks.find? fun m => m.1.toList.isPrefixOf t with
  | some (mark, symbol) => some (symbol, mark.toList.length)
  | none => t.head?.bind fun c => (shortMarks.lookup c).map fun symbol => (symbol, 1)

/-- How tightly a symbol binds as a binary operator, if it is one. -/
def Symbol.level? : Symbol → Option Nat
  | .coalesce | .disjunction => some 1
  | .conjunction => some 2
  | .binary level => some level
  | .sign => some 9
  | .star | .slash => some 10
  | .power => some 11
  | _ => none

end Component.Script
