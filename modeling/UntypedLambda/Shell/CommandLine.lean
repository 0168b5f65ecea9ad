import UntypedLambda.Reduction.Budget

namespace UntypedLambda.Shell

structure Options where
  budget : Budget := .unbounded
  quiet : Bool := false
  deriving DecidableEq, Repr

inductive Request where
  | run (options : Options)
  | help
  | version
  deriving DecidableEq, Repr

inductive ArgumentError where
  | unknownArgument (argument : String)
  | invalidMaxSteps (value : String)
  deriving DecidableEq, Repr

def ArgumentError.message : ArgumentError → String
  | unknownArgument argument => "unknown argument '" ++ argument ++ "'"
  | invalidMaxSteps value =>
    "--max-steps expects a non-negative integer, got '" ++ value ++ "'"

def readDigits? (digits : List Char) : Option UInt64 :=
  if !digits.isEmpty && digits.all Char.isDigit then
    let value := Nat.ofDigitChars 10 digits 0
    if value < UInt64.size then some (.ofNat value) else none
  else
    none

def readCount? : List Char → Option UInt64
  | '+' :: digits => readDigits? digits
  | digits => readDigits? digits

def maxStepsOption : List Char :=
  "--max-steps=".toList

/-- Go through the arguments with the options so far and the first request for a text.  Such a
request wins over running the shell, but an argument that is wrong wins over all. -/
def Request.ofArgumentsFrom :
    List String → Options → Option Request → Except ArgumentError Request
  | [], options, text? => .ok (text?.getD (.run options))
  | argument :: arguments, options, text? =>
    let chars := argument.toList
    if maxStepsOption.isPrefixOf chars then
      let value := chars.drop maxStepsOption.length
      match readCount? value with
      | some maxSteps =>
        ofArgumentsFrom arguments { options with budget := .limited maxSteps } text?
      | none => .error (.invalidMaxSteps (String.ofList value))
    else if argument = "--quiet" ∨ argument = "-q" then
      ofArgumentsFrom arguments { options with quiet := true } text?
    else if argument = "--help" ∨ argument = "-h" then
      ofArgumentsFrom arguments options (some (text?.getD .help))
    else if argument = "--version" ∨ argument = "-V" then
      ofArgumentsFrom arguments options (some (text?.getD .version))
    else
      .error (.unknownArgument argument)

def Request.ofArguments (arguments : List String) : Except ArgumentError Request :=
  ofArgumentsFrom arguments {} none

def usage : String :=
  "Church lambda-calculus shell\n" ++
  "\n" ++
  "Usage: church [options]\n" ++
  "\n" ++
  "Options:\n" ++
  "  --max-steps=<n>   Give up on an eval after <n> beta reductions\n" ++
  "  -q, --quiet       Do not print the banner or prompt\n" ++
  "  -h, --help        Show this help message\n" ++
  "  -V, --version     Show version information\n" ++
  "\n" ++
  "Set RUST_LOG (e.g. RUST_LOG=church_eval=debug) to trace evaluation on stderr."

def version : String :=
  "church 0.1.0"

end UntypedLambda.Shell
