/-!
# Tokens

A token is a piece of program text with a meaning: a mark, a reserved word, a name, or a literal
with its value. It keeps its exact text, the *lexeme*, and the line on which it ends.

## Main definitions

* `Mark`, `Keyword`: the fixed tokens, with their spellings.
* `TokenKind`: what a token is.
* `Token`: a kind with a lexeme and a line.
* `TokenKind.sameCategory`: equality of kinds up to the value of a literal.
-/

namespace Treewalk

/-- The marks: brackets, separators and operators. -/
inductive Mark
  | leftParen | rightParen | leftBrace | rightBrace
  | comma | dot | minus | plus | semicolon | slash | star | question | colon
  | bang | bangEqual | equal | equalEqual | greater | greaterEqual | less | lessEqual
  deriving DecidableEq

namespace Mark

/-- The spelling of a mark. -/
def text : Mark → String
  | leftParen => "("
  | rightParen => ")"
  | leftBrace => "\x7b"
  | rightBrace => "\x7d"
  | comma => ","
  | dot => "."
  | minus => "-"
  | plus => "+"
  | semicolon => ";"
  | slash => "/"
  | star => "*"
  | question => "?"
  | colon => ":"
  | bang => "!"
  | bangEqual => "!="
  | equal => "="
  | equalEqual => "=="
  | greater => ">"
  | greaterEqual => ">="
  | less => "<"
  | lessEqual => "<="

/-- The name of a mark in a token listing. -/
def name : Mark → String
  | leftParen => "LEFT_PAREN"
  | rightParen => "RIGHT_PAREN"
  | leftBrace => "LEFT_BRACE"
  | rightBrace => "RIGHT_BRACE"
  | comma => "COMMA"
  | dot => "DOT"
  | minus => "MINUS"
  | plus => "PLUS"
  | semicolon => "SEMICOLON"
  | slash => "SLASH"
  | star => "STAR"
  | question => "QUESTION"
  | colon => "COLON"
  | bang => "BANG"
  | bangEqual => "BANG_EQUAL"
  | equal => "EQUAL"
  | equalEqual => "EQUAL_EQUAL"
  | greater => "GREATER"
  | greaterEqual => "GREATER_EQUAL"
  | less => "LESS"
  | lessEqual => "LESS_EQUAL"

/-- All marks. -/
def all : List Mark :=
  [leftParen, rightParen, leftBrace, rightBrace, comma, dot, minus, plus, semicolon, slash, star,
    question, colon, bang, bangEqual, equal, equalEqual, greater, greaterEqual, less, lessEqual]

end Mark

/-- The reserved words. -/
inductive Keyword
  | andWord | classWord | elseWord | falseWord | funWord | forWord | ifWord | nilWord | orWord
  | returnWord | superWord | thisWord | trueWord | varWord | whileWord
  deriving DecidableEq

namespace Keyword

/-- The spelling of a reserved word. -/
def text : Keyword → String
  | andWord => "and"
  | classWord => "class"
  | elseWord => "else"
  | falseWord => "false"
  | funWord => "fun"
  | forWord => "for"
  | ifWord => "if"
  | nilWord => "nil"
  | orWord => "or"
  | returnWord => "return"
  | superWord => "super"
  | thisWord => "this"
  | trueWord => "true"
  | varWord => "var"
  | whileWord => "while"

/-- The name of a reserved word in a token listing. -/
def name : Keyword → String
  | andWord => "AND"
  | classWord => "CLASS"
  | elseWord => "ELSE"
  | falseWord => "FALSE"
  | funWord => "FUN"
  | forWord => "FOR"
  | ifWord => "IF"
  | nilWord => "NIL"
  | orWord => "OR"
  | returnWord => "RETURN"
  | superWord => "SUPER"
  | thisWord => "THIS"
  | trueWord => "TRUE"
  | varWord => "VAR"
  | whileWord => "WHILE"

/-- All reserved words. -/
def all : List Keyword :=
  [andWord, classWord, elseWord, falseWord, funWord, forWord, ifWord, nilWord, orWord, returnWord,
    superWord, thisWord, trueWord, varWord, whileWord]

/-- The reserved word with a given spelling. -/
def ofText? (text : String) : Option Keyword :=
  all.find? fun k => k.text == text

/-- The words with which a statement can begin. -/
def opensStatement : Keyword → Bool
  | classWord | funWord | varWord | forWord | ifWord | whileWord | returnWord => true
  | _ => false

end Keyword

/-- What a token is. -/
inductive TokenKind
  /-- A mark. -/
  | mark (m : Mark)
  /-- A reserved word. -/
  | keyword (k : Keyword)
  /-- A name. -/
  | identifier
  /-- A text literal, with the text between the quotes. -/
  | string (text : String)
  /-- A number literal, with its value. -/
  | number (value : Float)
  /-- The end of the program text. -/
  | endOfText

namespace TokenKind

/-- The name of a kind in a token listing. -/
def name : TokenKind → String
  | mark m => m.name
  | keyword k => k.name
  | identifier => "IDENTIFIER"
  | string _ => "STRING"
  | number _ => "NUMBER"
  | endOfText => "EOF"

/-- Equality of kinds up to the value of a literal. -/
def sameCategory : TokenKind → TokenKind → Bool
  | mark m, mark m' => m == m'
  | keyword k, keyword k' => k == k'
  | identifier, identifier => true
  | string _, string _ => true
  | number _, number _ => true
  | endOfText, endOfText => true
  | _, _ => false

/-- Whether the kind is the end of the text. -/
def isEnd (kind : TokenKind) : Bool :=
  kind.sameCategory endOfText

end TokenKind

/-- A piece of program text with a meaning. -/
structure Token where
  /-- What the token is. -/
  kind : TokenKind
  /-- Its exact text. -/
  lexeme : String
  /-- The line, counted from one, on which it ends. -/
  line : Nat

namespace Token

/-- Whether a token has a given kind, whatever the value of a literal. -/
def is (t : Token) (kind : TokenKind) : Bool :=
  t.kind.sameCategory kind

/-- Equality of tokens up to the value of a literal. -/
def same (t u : Token) : Bool :=
  t.kind.sameCategory u.kind && t.lexeme == u.lexeme && t.line == u.line

end Token

end Treewalk
