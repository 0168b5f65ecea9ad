import UntypedLambda.Shell.CommandLine
import UntypedLambda.Shell.Session

namespace UntypedLambda.Shell

/-- Cut bytes after every line feed; `line` is the line being read and `done` the finished ones,
both newest first. -/
def cutLines : List UInt8 → List UInt8 → List (List UInt8) → List (List UInt8)
  | [], line, done => if line.isEmpty then done.reverse else (line :: done).reverse
  | 10 :: bytes, line, done => cutLines bytes [] ((10 :: line) :: done)
  | byte :: bytes, line, done => cutLines bytes (byte :: line) done

def dropLineEnd : List UInt8 → List UInt8
  | 10 :: 13 :: line => line
  | 10 :: line => line
  | line => line

/-- The text of a line whose bytes come last first; none if they are not UTF-8. -/
def decodeLine? (line : List UInt8) : Option String :=
  String.fromUTF8? ⟨(dropLineEnd line).reverse.toArray⟩

def linesOf (bytes : ByteArray) : List (Option String) :=
  (cutLines bytes.toList [] []).map decodeLine?

structure Transcript where
  session : Session
  output : String
  unreadable : Bool := false

def unreadableMessage : String :=
  "stream did not contain valid UTF-8"

def Session.runLines (fuel : Nat) (interactive : Bool) :
    List (Option String) → Session → String → Except Abort Transcript
  | [], session, output =>
    .ok { session, output := if interactive then output ++ prompt ++ "\n" else output }
  | none :: _, session, output =>
    .ok { session, output := if interactive then output ++ prompt else output, unreadable := true }
  | some line :: lines, session, output =>
    match session.execute fuel line with
    | .error reason => .error reason
    | .ok reply =>
      let output := (if interactive then output ++ prompt else output) ++ reply.output
      match reply.control with
      | .exit => .ok { session := reply.session, output }
      | .proceed => runLines fuel interactive lines reply.session output

def Session.run (fuel : Nat) (s : Session) (input : ByteArray) (interactive : Bool) :
    Except Abort Transcript :=
  runLines fuel interactive (linesOf input) s ""

structure Exit where
  code : UInt32 := 0
  stdout : String := ""
  stderr : String := ""
  deriving DecidableEq, Repr

def ArgumentError.exit (error : ArgumentError) : Exit where
  code := 1
  stderr := "error: " ++ error.message ++ "\n\n" ++ usage ++ "\n"

def Transcript.exit (t : Transcript) : Exit :=
  if t.unreadable then
    { code := 1, stdout := t.output, stderr := "error: " ++ unreadableMessage ++ "\n" }
  else
    { stdout := t.output }

def invoke (fuel : Nat) (arguments : List String) (input : ByteArray) : Except Abort Exit :=
  match Request.ofArguments arguments with
  | .error error => .ok error.exit
  | .ok .help => .ok { stdout := usage ++ "\n" }
  | .ok .version => .ok { stdout := version ++ "\n" }
  | .ok (.run options) => do
    let transcript ← Session.run fuel { budget := options.budget } input false
    .ok transcript.exit

end UntypedLambda.Shell
