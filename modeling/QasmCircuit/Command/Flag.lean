import QasmCircuit.Text.Blank

/-!
# Options of the command line
-/

namespace QasmCircuit.Command

/-- An option. -/
inductive Flag where
  | help
  | input
  | output
  | gates
  | inverse
  | keepGates
  | verbose
  | version
deriving DecidableEq, Repr

namespace Flag

/-- All options, in the order of the help text. -/
def all : List Flag := [.help, .input, .output, .gates, .inverse, .keepGates, .verbose, .version]

/-- How an option can be spelled. -/
def spellings : Flag → List String
  | .help => ["-h", "--help"]
  | .input => ["-i", "--in"]
  | .output => ["-o", "--out"]
  | .gates => ["-g", "--gates"]
  | .inverse => ["--inverse"]
  | .keepGates => ["--keep-gates"]
  | .verbose => ["-v", "--verbose"]
  | .version => ["--version"]

def takesValue : Flag → Bool
  | .input | .output | .gates => true
  | _ => false

/-- An option as messages give it. -/
def title (f : Flag) : String := Text.join "/" f.spellings

def table : List (String × Flag) := all.flatMap fun f => f.spellings.map fun s => (s, f)

def ofSpelling? (s : String) : Option Flag := table.lookup s

/-- The spellings that begin as a text does, with their options. -/
def beginning (start : List Char) : List (String × Flag) :=
  table.filter fun e => start.isPrefixOf e.1.toList

end Flag

end QasmCircuit.Command
