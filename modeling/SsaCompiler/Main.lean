import SsaCompiler.CommandLine

/-!
The program: reads the source file, runs, and prints or writes the result.
-/
namespace SsaCompiler.CommandLine

/-- The error of a file operation with the number that the system gave it. -/
def fileError : IO.Error → FileError
  | .noFileOrDirectory _ code details => .system details code.toNat
  | .permissionDenied _ code details => .system details code.toNat
  | .inappropriateType _ code details => .system details code.toNat
  | .alreadyExists _ code details => .system details code.toNat
  | .invalidArgument _ code details => .system details code.toNat
  | .resourceExhausted _ code details => .system details code.toNat
  | .noSuchThing _ code details => .system details code.toNat
  | .otherError code details => .system details code.toNat
  | .resourceBusy code details => .system details code.toNat
  | .unsupportedOperation code details => .system details code.toNat
  | .hardwareFault code details => .system details code.toNat
  | e => .system (toString e) 0

def attempt {α : Type} (action : IO α) : IO (Except FileError α) := do
  match ← action.toBaseIO with
  | .ok a => return .ok a
  | .error e => return .error (fileError e)

def fail (e : RunError) : IO UInt32 := do
  IO.eprint e.report
  return 1

def perform : Action → IO UInt32
  | .print text => do
    IO.print text
    return 0
  | .write path text => do
    match ← attempt (IO.FS.writeFile path text) with
    | .ok () => return 0
    | .error e => fail (.file e)

def readEnv : IO (String → Option String) := do
  let noDivCheck ← IO.getEnv Settings.noDivCheckVar
  let noOpt ← IO.getEnv Settings.noOptVar
  return fun name =>
    if name = Settings.noDivCheckVar then noDivCheck
    else if name = Settings.noOptVar then noOpt
    else none

/-- How the program is called. -/
def usage : String :=
  "usage: novum [--lex] [--parse] [--ir] [--cfg] [--no-opt] [--no-div-check] [--strict] " ++
    "[-o FILE] FILE.nv"

/-- Runs the program on its arguments and returns the exit status. -/
def start (args : List String) : IO UInt32 := do
  match Options.ofArgs? args with
  | none =>
    IO.eprintln usage
    return 1
  | some o =>
    let contents ← attempt (IO.FS.withFile o.path .read (·.readBinToEnd))
    match o.run (← readEnv) contents with
    | .ok action => perform action
    | .error e => fail e

end SsaCompiler.CommandLine

def main (args : List String) : IO UInt32 := SsaCompiler.CommandLine.start args
