import SsaCompiler.Compilation
import SsaCompiler.Ir.Dot
import SsaCompiler.Ir.Text
import SsaCompiler.Listing.Program

/-!
The command line. A run takes the name of a source file and options, and either ends with an error
or has a text to print or to write to a file.
-/
namespace SsaCompiler.CommandLine

structure Options where
  path : String
  /-- Prints the tokens and stops. -/
  lex : Bool := false
  /-- Prints the parsed items and stops. -/
  parse : Bool := false
  /-- Prints the module as it is before optimization and stops. -/
  ir : Bool := false
  /-- Prints the flow graph of each function and stops. -/
  cfg : Bool := false
  noOpt : Bool := false
  noDivCheck : Bool := false
  strict : Bool := false
  /-- Where the module goes instead of being printed. -/
  output : Option String := none
  deriving DecidableEq, Repr

/-- Reads arguments: switches, an output file, and the name of one source file, which is `path` if
it has been read before. -/
def Options.read (o : Options) (path : Option String) : List String → Option Options
  | [] => path.map fun path => { o with path }
  | "--lex" :: args => { o with lex := true }.read path args
  | "--parse" :: args => { o with parse := true }.read path args
  | "--ir" :: args => { o with ir := true }.read path args
  | "--cfg" :: args => { o with cfg := true }.read path args
  | "--no-opt" :: args => { o with noOpt := true }.read path args
  | "--no-div-check" :: args => { o with noDivCheck := true }.read path args
  | "--strict" :: args => { o with strict := true }.read path args
  | "-o" :: file :: args => { o with output := some file }.read path args
  | "--output" :: file :: args => { o with output := some file }.read path args
  | file :: args => if path.isNone ∧ !file.startsWith "-" then o.read (some file) args else none

/-- The options that arguments ask for. -/
def Options.ofArgs? (args : List String) : Option Options := Options.read { path := "" } none args

/-- How source files are named. -/
def extension : String := ".nv"

/-- The last name of a path, between slashes. A dot alone stands for no name. -/
def fileName? (path : String) : Option String :=
  ((path.splitOn "/").filter fun part => part ≠ "" ∧ part ≠ ".").getLast?

/-- The name of the module in a source file: its name without the extension. -/
def moduleName? (path : String) : Option String := do
  let file ← fileName? path
  let stem := file.toList.take (file.length - extension.length)
  if stem ≠ [] ∧ file.toList = stem ++ extension.toList then some (String.ofList stem) else none

/-- Why a file cannot be read or written. -/
inductive FileError
  | system (details : String) (code : Nat)
  | illFormed
  deriving DecidableEq, Repr

namespace FileError

def notFound : FileError := .system "No such file or directory" 2

def message : FileError → String
  | system details code => details ++ " (os error " ++ toString code ++ ")"
  | illFormed => "stream did not contain valid UTF-8"

end FileError

/-- Why a run fails. -/
inductive RunError
  | notSource (path : String)
  | file (e : FileError)
  | compile (e : CompileError)
  deriving DecidableEq, Repr

namespace RunError

def message : RunError → String
  | notSource path => path ++ " is not a " ++ extension ++ " source file"
  | file e => e.message
  | compile e => e.message

/-- What a failed run prints. -/
def report (e : RunError) : String := "novum: " ++ e.message ++ "\n"

end RunError

/-- What a successful run does. -/
inductive Action
  | print (text : String)
  | write (path text : String)
  deriving DecidableEq, Repr

/-- The settings of a run: options add to what the environment asks for. -/
def Options.settings (o : Options) (env : String → Option String) : Settings :=
  let s := Settings.ofEnv env
  { guardDivision := s.guardDivision && !o.noDivCheck
    optimize := s.optimize && !(o.noOpt || o.ir)
    strict := s.strict || o.strict }

/-- The tokens of a source text on one line. -/
def listTokens (lexer : Lexer) : Except RunError String :=
  match lexer.tokens with
  | .ok tokens => .ok ((Listing.list (tokens.map Token.listing)).compact ++ "\n")
  | .error e => .error (.compile (.parse (.lexical e)))

/-- The items of a source text, spread over lines. -/
def listItems (lexer : Lexer) : Except RunError String :=
  match (Parser.ofLexer lexer).parse with
  | .ok items => .ok ((Listing.list (items.map Item.listing)).spread "" ++ "\n")
  | .error e => .error (.compile (.parse e))

/-- The flow graphs of the functions that have a body. -/
def graphs (m : Ir.Module) : String :=
  String.join ((m.functions.filter (·.body.isSome)).map Ir.Function.dot)

/-- What becomes of a module. -/
def Options.deliver (o : Options) (m : Ir.Module) : Action :=
  if o.ir then .print m.text
  else if o.cfg then .print (graphs m)
  else
    match o.output with
    | some path => .write path m.text
    | none => .print m.text

/-- Runs on a source text. -/
def Options.process (o : Options) (settings : Settings) (name : String) (source : Source) :
    Except RunError Action := do
  let lexer := Lexer.ofSource source { strict := settings.strict }
  if o.lex then return .print (← listTokens lexer)
  else if o.parse then return .print (← listItems lexer)
  else
    match compile source name settings with
    | .ok m => return o.deliver m
    | .error e => throw (.compile e)

/-- The text of a file. -/
def decodeFile (contents : Except FileError ByteArray) : Except FileError String :=
  match contents with
  | .ok bytes => (String.fromUTF8? bytes).elim (.error .illFormed) .ok
  | .error e => .error e

/-- Runs on the contents of the source file. -/
def Options.run (o : Options) (env : String → Option String)
    (contents : Except FileError ByteArray) : Except RunError Action :=
  match moduleName? o.path with
  | none => .error (.notSource o.path)
  | some name =>
    match decodeFile contents with
    | .error e => .error (.file e)
    | .ok text => o.process (o.settings env) name (.ofString text)

end SsaCompiler.CommandLine
