import UntypedLambda.Name
import UntypedLambda.Text.Blank

namespace UntypedLambda

inductive Token where
  | ident (name : Name)
  | leftParen
  | rightParen
  | backslash
  | dot
  | equal
  deriving DecidableEq, Repr

inductive LexError where
  /-- The first such character, and how many bytes of UTF-8 stand before it. -/
  | invalidCharacter (ch : Char) (offset : Nat)
  deriving DecidableEq, Repr

def LexError.message : LexError → String
  | invalidCharacter ch _ => "Invalid character in string: '" ++ ch.toString ++ "'"

namespace Token

def text : Token → String
  | ident name => name.text
  | leftParen => "("
  | rightParen => ")"
  | backslash => "\\"
  | dot => "."
  | equal => "="

def isIdent : Token → Bool
  | ident _ => true
  | leftParen => false
  | rightParen => false
  | backslash => false
  | dot => false
  | equal => false

def ofChar? : Char → Option Token
  | '(' => some leftParen
  | ')' => some rightParen
  | '\\' => some backslash
  | '.' => some dot
  | '=' => some equal
  | _ => none

end Token

/-- A text that is being cut: the identifier at its end so far, the tokens before that one,
newest first, and the bytes read. -/
structure Lexer where
  word : String := ""
  done : List Token := []
  offset : Nat := 0

namespace Lexer

def tokens (l : Lexer) : List Token :=
  if l.word.isEmpty then l.done else .ident ⟨l.word⟩ :: l.done

def feed (l : Lexer) (c : Char) : Except LexError Lexer :=
  if isIdentifierChar c then
    .ok { l with word := l.word.push c, offset := l.offset + c.utf8Size }
  else
    match Token.ofChar? c with
    | some token => .ok { done := token :: l.tokens, offset := l.offset + c.utf8Size }
    | none =>
      if Text.isBlank c then .ok { done := l.tokens, offset := l.offset + c.utf8Size }
      else .error (.invalidCharacter c l.offset)

end Lexer

namespace Token

def scan (source : String) : Except LexError (List Token) :=
  (source.toList.foldlM Lexer.feed {}).map fun l => l.tokens.reverse

/-- Write tokens in order behind `text`; `spaced` tells whether an identifier stands there. -/
def spellOnto : List Token → String → Bool → String
  | [], text, _ => text
  | token :: tokens, text, spaced =>
    spellOnto tokens
      ((if token.isIdent && spaced then text ++ " " else text) ++ token.text) token.isIdent

def spell (tokens : List Token) : String :=
  spellOnto tokens "" false

end Token

end UntypedLambda
