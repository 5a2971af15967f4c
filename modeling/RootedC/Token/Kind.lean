/-! Kinds of tokens, their names in messages, and the reserved words. -/
namespace RootedC

inductive Kind where
  | endOfInput | number | string | identifier
  | openBracket | closeBracket | openCurly | closeCurly | openParen | closeParen
  | assign | equals | bang | notEquals
  | less | lessEquals | greater | greaterEquals
  | or | and
  | semicolon | colon | comma | arrow
  | plus | dash | slash | star | percent
  | wordProc | wordLet | wordIf | wordElse | wordConst | wordVar | wordEntry | wordTrue | wordFalse
  deriving DecidableEq, Repr

namespace Kind

def all : List Kind :=
  [endOfInput, number, string, identifier, openBracket, closeBracket, openCurly, closeCurly,
    openParen, closeParen, assign, equals, bang, notEquals, less, lessEquals, greater,
    greaterEquals, or, and, semicolon, colon, comma, arrow, plus, dash, slash, star, percent,
    wordProc, wordLet, wordIf, wordElse, wordConst, wordVar, wordEntry, wordTrue, wordFalse]

theorem mem_all (k : Kind) : k ∈ all := by cases k <;> decide

def name : Kind → String
  | endOfInput => "EOF"
  | number => "Number"
  | string => "String"
  | identifier => "Identifier"
  | openBracket => "OpenBracket"
  | closeBracket => "CloseBracket"
  | openCurly => "OpenCurly"
  | closeCurly => "CloseCurly"
  | openParen => "OpenParen"
  | closeParen => "CloseParen"
  | assign => "Assignment"
  | equals => "Equals"
  | bang => "Not"
  | notEquals => "NotEquals"
  | less => "Less"
  | lessEquals => "LessEquals"
  | greater => "Greater"
  | greaterEquals => "GreaterEquals"
  | or => "Or"
  | and => "And"
  | semicolon => "Semicolon"
  | colon => "Colon"
  | comma => "Comma"
  | arrow => "Arrow"
  | plus => "Plus"
  | dash => "Dash"
  | slash => "Slash"
  | star => "Star"
  | percent => "Percent"
  | wordProc => "Proc"
  | wordLet => "Let"
  | wordIf => "If"
  | wordElse => "Else"
  | wordConst => "Const"
  | wordVar => "Var"
  | wordEntry => "Entry"
  | wordTrue => "True"
  | wordFalse => "False"

def ofName? (text : String) : Option Kind := all.find? (·.name = text)

/-- Words that are no identifiers. -/
def reserved : List (String × Kind) :=
  [("proc", wordProc), ("let", wordLet), ("if", wordIf), ("else", wordElse), ("const", wordConst),
    ("var", wordVar), ("entry", wordEntry), ("true", wordTrue), ("false", wordFalse)]

/-- The kind of a word: its own if it is reserved, else an identifier. -/
def ofWord (word : String) : Kind := (reserved.lookup word).getD identifier

end Kind

end RootedC
