import UntypedLambda.Display
import UntypedLambda.Expression.Parser
import UntypedLambda.Expression.Printer
import UntypedLambda.Reduction.Reducer
import UntypedLambda.Resolution

/-! A definition sees the definitions before it and keeps seeing them: giving a name a new meaning
later does not change it. -/
namespace UntypedLambda.Shell

inductive Command where
  | define (argument : String)
  | evaluate (argument : String)
  | inspect (argument : String)
  | help
  | exit
  | unknown (line : String)
  deriving DecidableEq, Repr

def Command.ofLine? (line : String) : Option Command :=
  let text := Text.trim (Text.cutAt '#' line.toList).1
  if text.isEmpty then
    none
  else
    let (keyword, rest) := Text.spanWhile isIdentifierChar text
    let argument := String.ofList (Text.trim rest)
    match String.ofList keyword with
    | "let" => some (.define argument)
    | "eval" => some (.evaluate argument)
    | "show" => some (.inspect argument)
    | "help" => some .help
    | "exit" => some .exit
    | _ => some (.unknown (String.ofList text))

inductive CommandError where
  | illFormed (error : ParseError)
  | unresolved (error : ResolutionError)
  | limitExceeded (limit : UInt64)
  | usage (form : String)
  | badName (piece : String)
  | unknownName (name : Name)
  | unknownCommand (line : String)
  deriving DecidableEq, Repr

def CommandError.message : CommandError → String
  | illFormed error => error.message
  | unresolved error => error.message
  | limitExceeded limit => "Step limit exceeded (" ++ toString limit.toNat ++ " steps)"
  | usage form => "Usage: " ++ form
  | badName piece => "Invalid name: '" ++ piece ++ "'"
  | unknownName name => "Undefined name: " ++ name.text
  | unknownCommand line => "*** Unknown syntax: " ++ line

structure Session where
  environment : Environment := .empty
  budget : Budget := .unbounded
  supply : Supply := {}

inductive Control where
  | proceed
  | exit
  deriving DecidableEq, Repr

structure Reply where
  session : Session
  output : String := ""
  control : Control := .proceed

def prompt : String :=
  "(church) "

def banner : String :=
  "Church lambda-calculus shell. Type 'help' for a list of commands."

def help : String :=
  "Commands:\n" ++
  "  let <name> <args> = <expr>   Define a name, e.g. let two f x = f(f x)\n" ++
  "  eval <expr>                  Reduce an expression to normal form\n" ++
  "  show <name>                  Show the definition of a name\n" ++
  "  help                         Show this message\n" ++
  "  exit                         Leave the shell"

def render (term : BoundTerm) (env : Environment) : String :=
  (term.display env.freeNames).source

namespace Session

def checkDefinition (argument : String) : Except CommandError Unit :=
  let (left, right) := Text.cutAt '=' argument.toList
  let left := Text.trim left
  if left.isEmpty || (Text.trim right).isEmpty then
    .error (.usage "let <name> <args> = <expr>")
  else
    match (Text.words left).find? fun piece => !isIdentifier (String.ofList piece) with
    | some piece => .error (.badName (String.ofList piece))
    | none => .ok ()

def readDefinition (argument : String) : Except CommandError Definition := do
  checkDefinition argument
  (Definition.parse argument).mapError .illFormed

def define (s : Session) (argument : String) : Session × Except CommandError Unit :=
  match readDefinition argument with
  | .error error => (s, .error error)
  | .ok definition =>
    match definition.value.resolve s.environment s.supply with
    | (.error error, supply) => ({ s with supply }, .error (.unresolved error))
    | (.ok term, supply) =>
      -- The term does not see the new binder: its own name in it means an older definition.
      let (binder, supply) := supply.fresh definition.name
      let environment := s.environment.extend binder (.thunk term s.environment)
      ({ s with environment, supply }, .ok ())

def evaluate (fuel : Nat) (s : Session) (argument : String) :
    Except Abort (Session × Except CommandError String) :=
  match Expression.parse argument with
  | .error error => .ok (s, .error (.illFormed error))
  | .ok e =>
    match e.resolve s.environment s.supply with
    | (.error error, supply) => .ok ({ s with supply }, .error (.unresolved error))
    | (.ok term, supply) =>
      let reduction := Reducer.normalize fuel { budget := s.budget } term s.environment supply
      let s := { s with supply := reduction.supply }
      match reduction.result with
      | .ok normal => .ok (s, .ok (render normal s.environment))
      | .error (.limitExceeded limit) => .ok (s, .error (.limitExceeded limit))
      | .error (.abort reason) => .error reason

def inspect (s : Session) (argument : String) : Except CommandError String :=
  match Name.parse argument with
  | .error _ => .error (.usage "show <identifier>")
  | .ok name =>
    match s.environment.lookupName? name with
    | some (_, .thunk term captured) => .ok (render term captured)
    | some (binder, .value _) => .ok binder.name.text
    | none => .error (.unknownName name)

def say (s : Session) : Except CommandError String → Reply
  | .ok text => { session := s, output := text ++ "\n" }
  | .error error => { session := s, output := error.message ++ "\n" }

def perform (fuel : Nat) (s : Session) : Command → Except Abort Reply
  | .define argument =>
    match s.define argument with
    | (s, .ok ()) => .ok { session := s }
    | (s, .error error) => .ok (s.say (.error error))
  | .evaluate argument => do
    let (s, result) ← s.evaluate fuel argument
    .ok (s.say result)
  | .inspect argument => .ok (s.say (s.inspect argument))
  | .help => .ok (s.say (.ok help))
  | .exit => .ok { session := s, control := .exit }
  | .unknown line => .ok (s.say (.error (.unknownCommand line)))

def execute (fuel : Nat) (s : Session) (line : String) : Except Abort Reply :=
  match Command.ofLine? line with
  | none => .ok { session := s }
  | some command => s.perform fuel command

end Session

end UntypedLambda.Shell
