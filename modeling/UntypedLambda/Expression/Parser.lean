import UntypedLambda.Binder
import UntypedLambda.Token

/-! Application associates to the left, and the body of a lambda reaches as far as it can.  The
parser keeps the constructs that are still open on a stack. -/
namespace UntypedLambda

inductive ParseError where
  | lex (error : LexError)
  | unexpectedToken (token : Token)
  /-- A token that stands in no expression. -/
  | invalidToken (token : Token)
  | unexpectedEnd
  | invalidNameSequence
  | expectedIdentifier
  | expectedEqual
  | trailingTokens
  deriving DecidableEq, Repr

def ParseError.message : ParseError → String
  | lex error => error.message
  | unexpectedToken token => "Unexpected token: '" ++ token.text ++ "'"
  | invalidToken token => "Invalid token: " ++ token.text
  | unexpectedEnd => "Unexpected end of input."
  | invalidNameSequence => "Invalid name sequence"
  | expectedIdentifier => "Expected identifier"
  | expectedEqual => "Expected ="
  | trailingTokens => "Unexpected additional tokens"

inductive Frame where
  | group
  | lambda (parameters : List Name)
  deriving DecidableEq, Repr

structure OpenFrame where
  frame : Frame
  outer : Option Expression
  deriving DecidableEq, Repr

/-- A text that is being read: the open constructs, innermost first, the application read so far
in the innermost one and, between a `\` and its `.`, the parameters so far, the last one first. -/
structure Parser where
  opened : List OpenFrame := []
  current : Option Expression := none
  header : Option (List Name) := none
  deriving DecidableEq, Repr

namespace Parser

def extend (current : Option Expression) (atom : Expression) : Option Expression :=
  match current with
  | some function => some (.app function atom)
  | none => some atom

def closeGroup : List OpenFrame → Option Expression → Except ParseError Parser
  | [], _ => .error (.unexpectedToken .rightParen)
  | _ :: _, none => .error (.unexpectedToken .rightParen)
  | ⟨.group, outer⟩ :: opened, some body => .ok { opened, current := extend outer body }
  | ⟨.lambda parameters, outer⟩ :: opened, some body =>
    closeGroup opened (extend outer (.lamsInward parameters body))

def feedHeader (p : Parser) (parameters : List Name) : Token → Except ParseError Parser
  | .ident name => .ok { p with header := some (name :: parameters) }
  | .dot =>
    if parameters.isEmpty then .error .invalidNameSequence
    else .ok { opened := ⟨.lambda parameters, p.current⟩ :: p.opened }
  | _ => .error .invalidNameSequence

def feed (p : Parser) (token : Token) : Except ParseError Parser :=
  match p.header with
  | some parameters => p.feedHeader parameters token
  | none =>
    match token with
    | .ident name => .ok { p with current := extend p.current (.var name) }
    | .leftParen => .ok { opened := ⟨.group, p.current⟩ :: p.opened }
    | .rightParen => closeGroup p.opened p.current
    | .backslash => .ok { p with header := some [] }
    | .dot => .error (.unexpectedToken .dot)
    | .equal => .error (.invalidToken .equal)

def closeAll : List OpenFrame → Option Expression → Except ParseError Expression
  | [], some e => .ok e
  | [], none => .error .unexpectedEnd
  | ⟨.group, _⟩ :: _, _ => .error .unexpectedEnd
  | ⟨.lambda _, _⟩ :: _, none => .error .unexpectedEnd
  | ⟨.lambda parameters, outer⟩ :: opened, some body =>
    closeAll opened (extend outer (.lamsInward parameters body))

def finish (p : Parser) : Except ParseError Expression :=
  match p.header with
  | some _ => .error .invalidNameSequence
  | none => closeAll p.opened p.current

end Parser

def Token.parse (source : String) : Except ParseError (List Token) :=
  (scan source).mapError .lex

def Expression.ofTokens (tokens : List Token) : Except ParseError Expression := do
  let p ← tokens.foldlM Parser.feed {}
  p.finish

def Expression.parse (source : String) : Except ParseError Expression := do
  Expression.ofTokens (← Token.parse source)

def Name.ofTokens : List Token → Except ParseError Name
  | [.ident name] => .ok name
  | .ident _ :: _ => .error .trailingTokens
  | _ => .error .expectedIdentifier

def Name.parse (source : String) : Except ParseError Name := do
  Name.ofTokens (← Token.parse source)

structure Definition where
  name : Name
  parameters : List Name
  body : Expression
  deriving DecidableEq, Repr

namespace Definition

def value (d : Definition) : Expression :=
  .lams d.parameters d.body

def readParameters : List Token → List Name → Except ParseError (List Name × List Token)
  | .ident parameter :: tokens, seen => readParameters tokens (parameter :: seen)
  | .equal :: tokens, seen => .ok (seen.reverse, tokens)
  | _, _ => .error .expectedEqual

def ofTokens : List Token → Except ParseError Definition
  | .ident name :: tokens => do
    let (parameters, tokens) ← readParameters tokens []
    let body ← Expression.ofTokens tokens
    .ok { name, parameters, body }
  | _ => .error .expectedIdentifier

def parse (source : String) : Except ParseError Definition := do
  ofTokens (← Token.parse source)

end Definition

end UntypedLambda
