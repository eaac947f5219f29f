import Reckoner.Number.Printer
import Reckoner.Source.Basic

/-!
# Tokens

A `Token` is a lexeme with its span. The operators and words that tokens stand for are here too.
-/

namespace Reckoner

/-- The words that begin a declaration. They mean the same. -/
inductive Keyword where
  | varKeyword
  | letKeyword
deriving DecidableEq, Repr

namespace Keyword

def word : Keyword → String
  | varKeyword => "var"
  | letKeyword => "let"

def ofWord? (w : String) : Option Keyword :=
  if w = "var" then some varKeyword else if w = "let" then some letKeyword else none

end Keyword

/-- The operators with one operand. -/
inductive Sign where
  | plus
  | minus
deriving DecidableEq, Repr

def Sign.symbol : Sign → String
  | plus => "+"
  | minus => "-"

/-- The operators with two operands. -/
inductive Op where
  | add
  | sub
  | mul
  | div
  | pow
deriving DecidableEq, Repr

def Op.symbol : Op → String
  | add => "+"
  | sub => "-"
  | mul => "*"
  | div => "/"
  | pow => "^"

namespace Token

inductive Kind where
  | number (n : Number)
  | identifier (name : String)
  | keyword (k : Keyword)
  | plus
  | minus
  | star
  | slash
  | caret
  | leftParen
  | rightParen
  | equal
  /-- The end of the text. -/
  | eof
deriving BEq, DecidableEq, Repr

namespace Kind

/-- The operator that the token is in front of an operand. -/
def sign? : Kind → Option Sign
  | plus => some .plus
  | minus => some .minus
  | _ => none

/-- The operator that the token is between two operands. -/
def op? : Kind → Option Op
  | plus => some .add
  | minus => some .sub
  | star => some .mul
  | slash => some .div
  | caret => some .pow
  | _ => none

def render : Kind → String
  | number n => n.render
  | identifier name => name
  | keyword k => k.word
  | plus => "+"
  | minus => "-"
  | star => "*"
  | slash => "/"
  | caret => "^"
  | leftParen => "("
  | rightParen => ")"
  | equal => "="
  | eof => "EOF"

end Kind

end Token

structure Token where
  kind : Token.Kind
  span : Span
deriving BEq, DecidableEq, Repr

namespace Token

def isEof (t : Token) : Bool :=
  match t.kind with
  | .eof => true
  | _ => false

def isKeyword (t : Token) (k : Keyword) : Bool :=
  match t.kind with
  | .keyword k' => k' = k
  | _ => false

end Token

end Reckoner
