import UntypedLambda.Shell.Program

namespace UntypedLambda

open Shell

/-- More steps than the machine can ever do. -/
def endlessFuel : Nat :=
  1 <<< 62

/-- Read up to and including the next line feed.  `line` holds the bytes of the line that were
read before, the last one first; the bytes behind the line are given back. -/
partial def readLine (stdin : IO.FS.Stream) (line : List UInt8) (ahead : List UInt8) :
    IO (List UInt8 × List UInt8) := do
  match ahead with
  | 10 :: ahead => return (10 :: line, ahead)
  | byte :: ahead => readLine stdin (byte :: line) ahead
  | [] =>
    let bytes ← stdin.read 65536
    if bytes.isEmpty then return (line, []) else readLine stdin line bytes.toList

/-- Run lines until the input ends or one of them is `exit`. -/
partial def serve (stdin stdout : IO.FS.Stream) (interactive : Bool) (session : Session)
    (ahead : List UInt8) : IO Unit := do
  if interactive then
    stdout.putStr prompt
    stdout.flush
  let (line, ahead) ← readLine stdin [] ahead
  if line.isEmpty then
    if interactive then
      stdout.putStrLn ""
  else
    match decodeLine? line with
    | none => throw (IO.userError unreadableMessage)
    | some text =>
      match session.execute endlessFuel text with
      | .error (.fault fault) => throw (IO.userError fault.message)
      | .error .outOfFuel => throw (IO.userError "reduction ran out of fuel")
      | .ok reply =>
        stdout.putStr reply.output
        stdout.flush
        match reply.control with
        | .exit => return
        | .proceed => serve stdin stdout interactive reply.session ahead

def shell (options : Options) : IO UInt32 := do
  let stdin ← IO.getStdin
  let stdout ← IO.getStdout
  let interactive := !options.quiet && (← stdin.isTty)
  try
    if interactive then
      stdout.putStrLn banner
    serve stdin stdout interactive { budget := options.budget } []
    return 0
  catch error =>
    IO.eprintln s!"error: {error}"
    return 1

end UntypedLambda

open UntypedLambda.Shell in
def main (arguments : List String) : IO UInt32 :=
  match Request.ofArguments arguments with
  | .ok (.run options) => UntypedLambda.shell options
  | .ok .help => do
    IO.println usage
    return 0
  | .ok .version => do
    IO.println version
    return 0
  | .error error => do
    IO.eprint error.exit.stderr
    return error.exit.code
