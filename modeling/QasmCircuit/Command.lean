import QasmCircuit.Circuit.Declaration
import QasmCircuit.Command.Usage
import QasmCircuit.Files
import QasmCircuit.Library.OfDatum
import QasmCircuit.Library.Packaged
import QasmCircuit.Lowering
import QasmCircuit.Yaml.Node

/-!
# The command

The command reads a program and, if asked to, a gate library, turns the program into a circuit, inverts
it if asked to, and writes the circuit as a program. `run` is the whole command over a table of files: it
gives a `Report`, or an `Escape` for what the command does not handle.
-/

namespace QasmCircuit

def Library.ofFile (path text : String) : Except Fault Library := do
  Library.ofFileDatum path (← Yaml.read text)

namespace Command

/-- What a run leaves behind. -/
structure Report where
  exitCode : Nat
  output : String := ""
  /-- The lines for the standard error stream. -/
  messages : List String := []
  files : Files

/-- The text of the standard error stream. -/
def Report.errors (r : Report) : String := String.join r.messages

/-- What the command does not handle. -/
inductive Escape where
  | fault (fault : Fault)
  | file (failure : FileFailure)
deriving DecidableEq

/-- Why a run ends early: with a message, or without the command handling it. -/
inductive Halt where
  | message (line : String)
  | escape (escape : Escape)

/-- The line for a located problem; any other fault is not handled. -/
def Halt.ofFault : Fault → Halt
  | .problem what p _ =>
    .message ("Error " ++ what.code ++ " at line " ++ toString p.line ++ ", col " ++ toString p.col ++ ": " ++
      what.message)
  | f => .escape (.fault f)

/-- The end of a run that needs a path and has none. -/
def Halt.noPath : Halt := .escape (.fault .wrongKind)

def loadLibrary (files : Files) (gates : Option Value) : Except Halt Library :=
  match gates.bind Value.text? with
  | none => .ok Library.packaged
  | some name =>
    let path := Path.ofText name
    let invalid (why : String) := Halt.message ("Invalid gate library file '" ++ name ++ "': " ++ why)
    match files.read path with
    | .error .missing =>
      .error (.message ("Gate library file not found '" ++ name ++ "': " ++ FileFailure.missing.message path))
    | .error .nullCharacter => .error (invalid (FileFailure.nullCharacter.message path))
    | .error failure => .error (.escape (.file failure))
    | .ok text =>
      match Library.ofFile name text with
      | .ok lib => .ok lib
      | .error (.defect d) => .error (invalid d.message)
      | .error f => .error (.escape (.fault f))

def loadProgram (files : Files) (lib : Library) (input : String) : Except Halt Program :=
  let path := Path.ofText input
  match files.read path with
  | .error .missing =>
    .error (.message ("Failed to read input file '" ++ input ++ "': " ++ FileFailure.missing.message path))
  | .error .nullCharacter => .error (.escape (.file .nullCharacter))
  | .error failure =>
    .error (.message ("Error reading input file '" ++ input ++ "': " ++ failure.message path))
  | .ok text => (Program.parse lib text).mapError Halt.ofFault

/-- A converted program: its text, and how many instructions and qubits it has. -/
structure Converted where
  text : String
  instructions : Nat
  qubits : Nat

/-- Turns a program into a circuit and writes it. -/
def convert (options : Options) (lib : Library) (input : String) (p : Program) : Action Converted := do
  let c ← Action.lower lib (some (.text (Path.ofText input).stem)) p
  Action.note "Lowering complete."
  if options.inverse then
    Action.inverseCircuit c
    Action.note "Inverted program."
  let text ← if options.keepGates then do Action.lift (← Action.toProgram c).render else Action.circuitText c
  let x ← Action.circuit c
  pure ⟨text, x.data.length, x.qubits.length⟩

/-- The lines for notes, which only a verbose run has. -/
def notes (options : Options) (texts : List String) : List String :=
  if options.verbose then texts.map fun t => "DEBUG: " ++ t ++ "\n" else []

/-- The report of a run that ends early. -/
def Halt.report (files : Files) (messages : List String) : Halt → Except Escape Report
  | .message line => .ok { exitCode := 1, messages := messages ++ [line ++ "\n"], files }
  | .escape e => .error e

/-- Writes a converted program to the standard output or to a file. -/
def deliver (options : Options) (files : Files) (messages : List String) (c : Converted) : Except Escape Report :=
  let summary := s!"INFO: Wrote {c.instructions} instructions over {c.qubits} qubits\n"
  match options.output with
  | none => .ok { exitCode := 0, output := c.text, messages := messages ++ [summary], files }
  | some .nothing => Halt.noPath.report files messages
  | some (.text name) =>
    let path := Path.ofText name
    match files.write path c.text with
    | .ok files =>
      if Text.hasSurrogate c.text then .error (.file .halfCharacter)
      else .ok { exitCode := 0, messages := messages ++ [summary], files }
    | .error .nullCharacter => .error (.file .nullCharacter)
    | .error failure =>
      Halt.report files messages (.message ("Failed to write output file '" ++ name ++ "': " ++ failure.message path))

def outputTitle (options : Options) : String := (options.output.bind Value.text?).getD "<stdout>"

def runOptions (files : Files) (options : Options) : Except Escape Report :=
  let first := notes options ["Input file: " ++ options.input.shown, "Output file: " ++ outputTitle options]
  match loadLibrary files options.gates with
  | .error h => h.report files first
  | .ok lib =>
    let second := first ++ notes options [s!"Loaded {lib.families.length} gate families."]
    match options.input with
    | .nothing => Halt.noPath.report files second
    | .text input =>
      match loadProgram files lib input with
      | .error h => h.report files second
      | .ok p =>
        match (convert options lib input p).run.run {} with
        | (.error f, store) => (Halt.ofFault f).report files (second ++ notes options store.notes.reverse)
        | (.ok c, store) => deliver options files (second ++ notes options store.notes.reverse) c

def run (files : Files) (args : List String) : Except Escape Report :=
  match Options.read args with
  | .error .help => .ok { exitCode := 0, output := help, files }
  | .error .version => .ok { exitCode := 0, output := version, files }
  | .error (.misuse m) =>
    .ok { exitCode := 2, messages := [usage ++ program ++ ": error: " ++ m.message ++ "\n"], files }
  | .ok options => runOptions files options

end Command

end QasmCircuit
