import QasmCircuit.Command.Flag
import QasmCircuit.Text.Digit
import QasmCircuit.Text.Quoted
import QasmCircuit.Text.Split

/-!
# Reading the arguments

Every argument is an option or a plain word. A long option may be cut short as long as no other one
begins so, and its value may follow an equals sign. Short options without a value may share one dash, also
over an equals sign, with the option behind them, and a value may follow a short option directly. Behind
`--` all arguments are plain words, of which the command takes none.
-/

namespace QasmCircuit.Command

open Text

/-- What is wrong with the arguments. -/
inductive Misuse where
  | ambiguous (arg : String) (matching : List String)
  | noValue (flag : Flag)
  | unusedValue (flag : Flag) (value : String)
  | noInput
  | unrecognized (args : List String)
deriving DecidableEq, Repr

def Misuse.message : Misuse → String
  | .ambiguous arg matching => "ambiguous option: " ++ arg ++ " could match " ++ join ", " matching
  | .noValue flag => "argument " ++ flag.title ++ ": expected one argument"
  | .unusedValue flag value => "argument " ++ flag.title ++ ": ignored explicit argument " ++ quoted value
  | .noInput => "the following arguments are required: " ++ Flag.input.title
  | .unrecognized args => "unrecognized arguments: " ++ join " " args

/-- Why there is nothing to run. -/
inductive Stop where
  | help
  | version
  | misuse (misuse : Misuse)
deriving DecidableEq, Repr

/-- The value of an option. Two dashes in the place of a value leave the option without one, though it
counts as given. -/
inductive Value where
  | text (text : String)
  | nothing
deriving DecidableEq, Repr

namespace Value

def ofText (s : String) : Value := if s = "--" then .nothing else .text s

def shown : Value → String
  | .text s => s
  | .nothing => "[]"

/-- The text of a value that says something. -/
def text? : Value → Option String
  | .text s => if s = "" then none else some s
  | .nothing => none

end Value

/-- What the arguments ask for. -/
structure Options where
  input : Value
  output : Option Value := none
  gates : Option Value := none
  inverse : Bool := false
  keepGates : Bool := false
  verbose : Bool := false
deriving DecidableEq, Repr

/-- What an argument is. -/
inductive Word where
  /-- An option, whether it is a short one, and the value that is written together with it. -/
  | flag (flag : Flag) (short : Bool) (attached : Option (List Char))
  /-- An option that there is none of. -/
  | unknown (arg : String)
  | plain (arg : String)
  /-- The two dashes behind which all arguments are plain. -/
  | divider
deriving DecidableEq, Repr

namespace Word

/-- A text up to its first equals sign, and what follows that. -/
def splitEquals (cs : List Char) : List Char × Option (List Char) :=
  match cs.dropWhile (· != '=') with
  | _ :: value => (cs.takeWhile (· != '='), some value)
  | [] => (cs, none)

/-- Whether an argument is a negative number: a minus sign, and digits with at most one point, which has
digits behind it. A newline at the end does not count. -/
def isNegative (cs : List Char) : Bool :=
  let cs := if cs.getLast? == some '\n' then cs.dropLast else cs
  match cs with
  | '-' :: digits =>
    match split '.' digits with
    | [whole] => isDigits whole && !whole.isEmpty
    | [whole, fraction] => isDigits whole && isDigits fraction && !fraction.isEmpty
    | _ => false
  | _ => false
where
  /-- Decimal digits of any script. -/
  isDigits (cs : List Char) : Bool := cs.all fun c => (digitValue c).isSome

/-- An argument with a dash that is spelled like no option. -/
def other (arg : String) (cs : List Char) : Word :=
  if isNegative cs || cs.contains ' ' then .plain arg else .unknown arg

/-- An argument with two dashes that is no full spelling of an option. -/
def long (arg : String) (cs : List Char) : Except Misuse Word :=
  let (name, value) := splitEquals cs
  match Flag.beginning name with
  | [] => .ok (other arg cs)
  | [(_, f)] => .ok (.flag f false value)
  | several => .error (.ambiguous arg (several.map (·.1)))

def ofText (arg : String) : Except Misuse Word :=
  match arg.toList with
  | '-' :: c :: cs =>
    let short := c != '-'
    match Flag.ofSpelling? arg with
    | some f => .ok (.flag f short none)
    | none =>
      let (name, value) := splitEquals ('-' :: c :: cs)
      match value, Flag.ofSpelling? (String.ofList name) with
      | some v, some f => .ok (.flag f short (some v))
      | _, _ =>
        if short then
          match Flag.ofSpelling? (String.ofList ['-', c]) with
          | some f => .ok (.flag f true (some cs))
          | none => .ok (other arg ('-' :: c :: cs))
        else long arg ('-' :: c :: cs)
  | _ => .ok (.plain arg)

def ofArgs : List String → Except Misuse (List Word)
  | [] => .ok []
  | arg :: args =>
    if arg = "--" then .ok (.divider :: args.map .plain)
    else do
      let w ← ofText arg
      pure (w :: (← ofArgs args))

end Word

/-- The options that share one argument. -/
structure Cluster where
  /-- Options without a value. -/
  flags : List Flag := []
  /-- The last option. -/
  last : Flag
  /-- The value that is written together with the last option. -/
  attached : Option String := none

namespace Cluster

def push (f : Flag) (c : Cluster) : Cluster := { c with flags := f :: c.flags }

/-- The options of an argument from one with attached text on. The text is the value of an option that
takes one; behind a short option that takes none it goes on with the next short option. -/
def ofAttached (short : Bool) (f : Flag) (text : List Char) : Except Misuse Cluster :=
  if f.takesValue then .ok { last := f, attached := some (String.ofList text) }
  else
    match text with
    | [] => .error (.unusedValue f "")
    | c :: rest =>
      match if short then Flag.ofSpelling? (String.ofList ['-', c]) else none, rest with
      | none, _ => .error (.unusedValue f (String.ofList text))
      | some g, [] => .ok { flags := [f], last := g }
      | some g, d :: rest => (ofAttached short g (d :: rest)).map (push f)
termination_by text.length

def ofFlag (f : Flag) (short : Bool) : Option (List Char) → Except Misuse Cluster
  | none => .ok { last := f }
  | some text => ofAttached short f text

end Cluster

namespace Options

/-- Options while they are read, when the input may still be missing, and the arguments that are none. -/
structure Partial where
  input : Option Value := none
  options : Options := { input := .nothing }
  extras : List String := []

def Partial.take (p : Partial) (f : Flag) (value : Value) : Except Stop Partial :=
  match f with
  | .help => .error .help
  | .version => .error .version
  | .input => .ok { p with input := some value }
  | .output => .ok { p with options := { p.options with output := some value } }
  | .gates => .ok { p with options := { p.options with gates := some value } }
  | .inverse => .ok { p with options := { p.options with inverse := true } }
  | .keepGates => .ok { p with options := { p.options with keepGates := true } }
  | .verbose => .ok { p with options := { p.options with verbose := true } }

/-- Takes options without a value into account. -/
def Partial.takeAll (p : Partial) : List Flag → Except Stop Partial
  | [] => .ok p
  | f :: fs => (p.take f .nothing).bind fun p => p.takeAll fs

def Partial.extra (p : Partial) (arg : String) : Partial := { p with extras := p.extras ++ [arg] }

/-- The value of the last option of an argument, which may be the next argument, and what follows. -/
def valueOf (f : Flag) (attached : Option String) (ws : List Word) : Except Misuse (Value × List Word) :=
  match attached with
  | some v => .ok (.ofText v, ws)
  | none =>
    if f.takesValue then
      match ws with
      | .plain v :: ws => .ok (.ofText v, ws)
      | _ => .error (.noValue f)
    else .ok (.nothing, ws)

theorem valueOf_length_le (f : Flag) (attached : Option String) (ws : List Word) (v : Value)
    (rest : List Word) (h : valueOf f attached ws = .ok (v, rest)) : rest.length ≤ ws.length := by
  unfold valueOf at h
  split at h
  · cases h; exact Nat.le_refl _
  · split at h
    · split at h
      · cases h; exact Nat.le_succ _
      · cases h
    · cases h; exact Nat.le_refl _

/-- Takes the words into account from left to right. -/
def readWords (p : Partial) : List Word → Except Stop Partial
  | [] => .ok p
  | .plain arg :: ws => readWords (p.extra arg) ws
  | .unknown arg :: ws => readWords (p.extra arg) ws
  | .divider :: ws => readWords (p.extra "--") ws
  | .flag f short attached :: ws =>
    match Cluster.ofFlag f short attached with
    | .error m => .error (.misuse m)
    | .ok c =>
      match h : valueOf c.last c.attached ws with
      | .error m => .error (.misuse m)
      | .ok (value, rest) =>
        have := valueOf_length_le c.last c.attached ws value rest h
        match (p.takeAll c.flags).bind fun p => p.take c.last value with
        | .error s => .error s
        | .ok p => readWords p rest
termination_by ws => ws.length

/-- What the words ask for. -/
def Partial.finish (p : Partial) : Except Stop Options :=
  match p.input, p.extras with
  | none, _ => .error (.misuse .noInput)
  | some input, [] => .ok { p.options with input }
  | some _, extras => .error (.misuse (.unrecognized extras))

/-- What the arguments ask for. -/
def read (args : List String) : Except Stop Options :=
  match Word.ofArgs args with
  | .error m => .error (.misuse m)
  | .ok ws => (readWords {} ws).bind Partial.finish

end Options

end QasmCircuit.Command
