import QasmCircuit.Command.Options

/-!
# Usage and help texts
-/

namespace QasmCircuit.Command

def program : String := "qasm-circuit"

def version : String := program ++ " 0.1.0\n"

/-- How the program is called. -/
def usage : String :=
  "usage: qasm-circuit [-h] -i INPUT_PATH [-o OUTPUT_PATH] [-g GATES_PATH]\n" ++
  "                    [--inverse] [--keep-gates] [-v] [--version]\n"

/-- What the program does and how it is called. -/
def help : String :=
  usage ++
  "\n" ++
  "Load an OpenQASM 2 program into the circuit IR and write it back as canonical QASM.\n" ++
  "\n" ++
  "options:\n" ++
  "  -h, --help            show this help message and exit\n" ++
  "  -i INPUT_PATH, --in INPUT_PATH\n" ++
  "                        Path to the OpenQASM 2 source file that should be\n" ++
  "                        loaded.\n" ++
  "  -o OUTPUT_PATH, --out OUTPUT_PATH\n" ++
  "                        Destination path for the rendered program (defaults to\n" ++
  "                        stdout).\n" ++
  "  -g GATES_PATH, --gates GATES_PATH\n" ++
  "                        Path to a gates.yaml library file (defaults to the\n" ++
  "                        packaged resource).\n" ++
  "  --inverse             Write the inverse of the program.\n" ++
  "  --keep-gates          Emit user-defined gates as declarations instead of\n" ++
  "                        expanding them.\n" ++
  "  -v, --verbose         Emit verbose logging (debug level).\n" ++
  "  --version             show program's version number and exit\n" ++
  "\n" ++
  "Examples:\n" ++
  "  qasm-circuit --in circuit.qasm\n" ++
  "  qasm-circuit --in circuit.qasm --out inverse.qasm --inverse --keep-gates\n"

end QasmCircuit.Command
