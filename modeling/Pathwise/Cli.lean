import Pathwise.Program.Json
import Pathwise.Program.Listing
import Pathwise.Report.Json
import Pathwise.Report.Text
import Pathwise.Smt.Checker

/-!
# Pathwise.Cli

The command line as a function of its surroundings: load a program, list it if asked to, find a
solver, verify and report.

Everything that touches files, processes or the terminal is an operation of a `Console`, in a
monad that is a parameter. Only `Pathwise.Main` fixes the monad. Failures come in the order of the
steps, and the first one ends the run: nothing is verified if the listing cannot be written, and
no solver is looked for if the program is malformed.
-/

namespace Pathwise.Cli

inductive Format where
  | text
  | json
  deriving Repr, DecidableEq, Inhabited

/-- What the command line asks for. -/
structure Options where
  /-- The program file. -/
  source : String
  /-- Where to write the listing: a file, or `console`. -/
  printCfg : Option String := none
  solver : SolverKind := .z3
  /-- Time limit per query in milliseconds. -/
  timeoutMs : Option Nat := none
  /-- Go on after an unverified function. -/
  keepGoing : Bool := false
  format : Format := .text
  /-- Show the conditions that failed. -/
  verbose : Bool := false
  deriving Repr, Inhabited

/-- What keeps the command line from a verdict. -/
inductive Failure where
  /-- A file cannot be read. -/
  | read (path detail : String)
  /-- A file cannot be written. -/
  | write (path detail : String)
  /-- The program file is no program. -/
  | load (e : LoadError)
  /-- Verification cannot proceed. -/
  | verify (e : VerifyError)
  /-- There is no solver. -/
  | solver (e : SolverError)

def Failure.message : Failure → String
  | read path detail => "cannot read " ++ path ++ ": " ++ detail
  | write path detail => "cannot write " ++ path ++ ": " ++ detail
  | load .malformed => "malformed program"
  | load (.defect e) => e.message
  | verify e => e.message
  | solver e => e.message

/-- The surroundings of the command line. -/
structure Console (m : Type → Type) extends Machine m where
  /-- The content of a file, or why it cannot be read. -/
  fileText : String → m (Except String String)
  /-- Write a file; why it cannot be written, if so. -/
  saveFile : String → String → m (Except String Unit)
  /-- Write to standard output. -/
  print : String → m Unit

variable {m : Type → Type} [Monad m]

def load (c : Console m) (path : String) : ExceptT Failure m Program := do
  match ← c.fileText path with
  | .error detail => throw (.read path detail)
  | .ok text =>
    match Program.parse text with
    | .error e => throw (.load e)
    | .ok p => return p

/-- Write the listing, if it is asked for. -/
def list (c : Console m) (p : Program) : Option String → ExceptT Failure m Unit
  | none => return ()
  | some target => do
    if target = "console" then c.print p.listing
    else
      match ← c.saveFile target p.listing with
      | .error detail => throw (.write target detail)
      | .ok () => return ()

/-- The solver with its settings, once its program file is known to be there. -/
def solver (c : Console m) (o : Options) : ExceptT Failure m SolverConfig := do
  match ← c.findSolver o.solver with
  | .error e => throw (.solver e)
  | .ok config =>
    let config := { config with timeoutMs := o.timeoutMs.getD 0 }
    match ← c.validate config with
    | .error e => throw (.solver e)
    | .ok () => return config

def render (o : Options) (color : Bool) (r : ProgramReport) : String :=
  match o.format with
  | .text => r.text o.verbose color
  | .json => r.toJson.pretty ++ "\n"

/-- Load, list, verify and report. -/
def run (c : Console m) (color : Bool) (o : Options) : ExceptT Failure m Unit := do
  let p ← load c o.source
  list c p o.printCfg
  let config ← solver c o
  match ← ExceptT.lift (Smt.verify (c.backend config) p o.keepGoing) with
  | .error e => throw (.verify e)
  | .ok r => c.print (render o color r)

/-! ## Arguments

The arguments are read in one pass from left to right, with later ones taking precedence. An
unknown argument, a missing value and a value that is none all have the same outcome, which is
that the usage is shown. -/

/-- Read options from arguments, on top of the ones read so far. An option with a value
is followed by it or joined to it by an equals sign. -/
def parseArgs? (o : Options) : List String → Option Options
  | [] => some o
  | "--keep-going" :: rest => parseArgs? { o with keepGoing := true } rest
  | "--verbose" :: rest => parseArgs? { o with verbose := true } rest
  | "-v" :: rest => parseArgs? { o with verbose := true } rest
  | "--source" :: value :: rest => parseArgs? { o with source := value } rest
  | "--print-cfg" :: value :: rest => parseArgs? { o with printCfg := some value } rest
  | "--solver" :: value :: rest =>
    match value with
    | "z3" => parseArgs? { o with solver := .z3 } rest
    | "cvc5" => parseArgs? { o with solver := .cvc5 } rest
    | "yices" => parseArgs? { o with solver := .yices } rest
    | _ => none
  | "--timeout-ms" :: value :: rest =>
    match parseInt? value.toList with
    | some ms => if ms < 0 then none else parseArgs? { o with timeoutMs := some ms.toNat } rest
    | none => none
  | "--output-format" :: value :: rest =>
    match value with
    | "text" => parseArgs? { o with format := .text } rest
    | "json" => parseArgs? { o with format := .json } rest
    | _ => none
  | _ => none

/-- Separate options from values that are joined to them by an equals sign. -/
def separate (arg : String) : List String :=
  if "--".toList.isPrefixOf arg.toList then
    match Text.splitAt? (· = '=') arg.toList with
    | some (name, value) => [String.ofList name, String.ofList value]
    | none => [arg]
  else [arg]

/-- The options that a list of arguments asks for; a program file must be among them. -/
def Options.ofArgs? (args : List String) : Option Options := do
  let o ← parseArgs? { source := "" } (args.flatMap separate)
  if o.source.isEmpty then none else some o

end Pathwise.Cli
