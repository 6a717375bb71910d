import Munch.Rule

namespace Munch

inductive TokenKind where
  | ident
  | int
  | white
  | lineComment
  | blockComment
  | le
  | ge
  | eqEq
  | andAnd
  | orOr
  | angleGeneric
  | lParen
  | rParen
  | plus
  | minus
  | star
  | slash
  | assign
  | lt
  | gt
  | not
  | lBracket
  | rBracket
  | lBrace
  | rBrace
  | ampersand
  | pipe
  deriving DecidableEq

namespace TokenKind

def all : List TokenKind :=
  [ident, int, white, lineComment, blockComment, le, ge, eqEq, andAnd, orOr, angleGeneric, lParen,
    rParen, plus, minus, star, slash, assign, lt, gt, not, lBracket, rBracket, lBrace, rBrace,
    ampersand, pipe]

def ofRule? (rule : UInt32) : Option TokenKind := all[rule.toNat]?

def name : TokenKind → String
  | ident => "Ident"
  | int => "Int"
  | white => "White"
  | lineComment => "LineComment"
  | blockComment => "BlockComment"
  | le => "Le"
  | ge => "Ge"
  | eqEq => "EqEq"
  | andAnd => "AndAnd"
  | orOr => "OrOr"
  | angleGeneric => "AngleGeneric"
  | lParen => "LParen"
  | rParen => "RParen"
  | plus => "Plus"
  | minus => "Minus"
  | star => "Star"
  | slash => "Slash"
  | assign => "Assign"
  | lt => "Lt"
  | gt => "Gt"
  | not => "Not"
  | lBracket => "LBracket"
  | rBracket => "RBracket"
  | lBrace => "LBrace"
  | rBrace => "RBrace"
  | ampersand => "Ampersand"
  | pipe => "Pipe"

def isTrivia : TokenKind → Bool
  | white | lineComment | blockComment => true
  | _ => false

open Pattern in
def identStart : Pattern := alternate (alternate (range 'a' 'z') (range 'A' 'Z')) (literal '_')

open Pattern in
def pattern : TokenKind → Pattern
  | ident => concat identStart (Pattern.star (alternate identStart (range '0' '9')))
  | int => Pattern.plus (range '0' '9')
  | white => Pattern.plus ((oneOf? [' ', '\t', '\r', '\n']).get rfl)
  | lineComment => concat (word ['/', '/']) (Pattern.star ((noneOf? ['\n']).get rfl))
  | blockComment => sequence [
      word ['/', '*'],
      Pattern.star (alternate ((noneOf? ['*']).get rfl)
        (concat (Pattern.plus (literal '*')) ((noneOf? ['*', '/']).get rfl))),
      Pattern.plus (literal '*'),
      literal '/']
  | le => word ['<', '=']
  | ge => word ['>', '=']
  | eqEq => word ['=', '=']
  | andAnd => word ['&', '&']
  | orOr => word ['|', '|']
  | angleGeneric => word ['<', '>']
  | lParen => literal '('
  | rParen => literal ')'
  | plus => literal '+'
  | minus => literal '-'
  | star => literal '*'
  | slash => literal '/'
  | assign => literal '='
  | lt => literal '<'
  | gt => literal '>'
  | not => literal '!'
  | lBracket => literal '['
  | rBracket => literal ']'
  | lBrace => literal '{'
  | rBrace => literal '}'
  | ampersand => literal '&'
  | pipe => literal '|'

/-- The built-in grammar: rule number `i` is kind number `i`. -/
def rules : List Rule := all.map fun k => ⟨k.name, k.pattern⟩

end TokenKind

end Munch
