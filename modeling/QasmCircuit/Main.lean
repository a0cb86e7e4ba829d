import QasmCircuit.Command

/-!
# The program

The program looks at the files that its arguments name, runs the command over them, and prints and
writes what the command leaves.
-/

namespace QasmCircuit.Command

def probe (p : Path) : IO (Option Entry) := do
  try pure (some (.file (← IO.FS.readFile p.text)))
  catch
    | .inappropriateType _ 21 _ => pure (some .directory)
    | _ => pure none

/-- The entries under a path and under the paths that it leads through. -/
def gather (files : Files) (p : Path) : IO Files := do
  let mut entries := files.entries
  for n in List.range (p.parts.length + 1) do
    let q : Path := { p with parts := p.parts.take n }
    if let some e ← probe q then entries := (q, e) :: entries
  pure ⟨entries⟩

def namedPaths (options : Options) : List Path :=
  ((some options.input :: [options.output, options.gates]).filterMap fun v => v.bind Value.text?).map Path.ofText

/-- Runs the command over the files on the disk, prints what it says and gives the exit code. -/
def execute (args : List String) : IO UInt32 := do
  let options := (Options.read args).toOption
  let files ← ((options.map namedPaths).getD []).foldlM gather {}
  match run files args with
  | .error _ =>
    IO.eprintln "qasm-circuit: the gate library file cannot be read"
    pure 1
  | .ok report =>
    IO.print report.output
    IO.eprint report.errors
    if report.exitCode = 0 then
      if let some name := options.bind fun o => o.output.bind Value.text? then
        let path := Path.ofText name
        if let some (.file text) := report.files.find? path then IO.FS.writeFile path.text text
    pure report.exitCode.toUInt32

end QasmCircuit.Command

/-- The program is the command run with the arguments that it is given. -/
def main (args : List String) : IO UInt32 := QasmCircuit.Command.execute args
