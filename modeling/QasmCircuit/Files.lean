import QasmCircuit.Path
import QasmCircuit.Text.Quoted

/-!
# Files

A table of the files and directories that a command can see. Reading takes every line break as a
newline; writing creates a file or replaces it, and changes no other.
-/

namespace QasmCircuit

/-- What is found under a path. -/
inductive Entry where
  | file (text : String)
  | directory
  /-- A device that holds nothing and takes everything. -/
  | sink
deriving DecidableEq, Repr

/-- Files and directories by path. -/
structure Files where
  entries : List (Path × Entry) := []
deriving Repr

/-- Why a file cannot be read or written. -/
inductive FileFailure where
  | missing
  | notDirectory
  | isDirectory
  | longName
  /-- The path holds the character that ends a path. -/
  | nullCharacter
  /-- The text holds half of a pair, which no file can hold. -/
  | halfCharacter
deriving DecidableEq, Repr

namespace FileFailure

def message (path : Path) : FileFailure → String
  | .missing => "[Errno 2] No such file or directory: " ++ Text.quoted path.text
  | .notDirectory => "[Errno 20] Not a directory: " ++ Text.quoted path.text
  | .isDirectory => "[Errno 21] Is a directory: " ++ Text.quoted path.text
  | .longName => "[Errno 36] File name too long: " ++ Text.quoted path.text
  | .nullCharacter => "embedded null byte"
  | .halfCharacter => "surrogates not allowed"

end FileFailure

namespace Files

/-- The entry under a path without steps back. The working directory, the root and everything above the
working directory are directories, as is what holds another entry. -/
def find? (files : Files) (p : Path) : Option Entry :=
  match files.entries.find? fun e => e.1 == p with
  | some e => some e.2
  | none =>
    if p.parts.all (· == "..") || files.entries.any fun e => e.1.isInside p then some .directory else none

/-- Puts a file in the place of the entry under a path. -/
def put (files : Files) (p : Path) (text : String) : Files :=
  ⟨(p, .file text) :: files.entries.filter fun e => e.1 != p⟩

/-- One step along a path, from a directory. -/
def step (p : Path) (part : String) : Path :=
  if part = ".." then
    match p.root, p.parts.reverse with
    | "", [] => { p with parts := [".."] }
    | _, [] => p
    | _, last :: before => { p with parts := if last = ".." then p.parts ++ [".."] else before.reverse }
  else { p with parts := p.parts ++ [part] }

/-- The most bytes that a name in a directory can have. -/
def nameLimit : Nat := 255

/-- The number of bytes from which on a path is too long. -/
def pathLimit : Nat := 4096

/-- Follows the parts of a path from a place, every one but the last through a directory. -/
def follow (files : Files) (place : Path) : List String → Except FileFailure Path
  | [] => .ok place
  | part :: parts =>
    match files.find? place with
    | none => .error .missing
    | some (.file _) | some .sink => .error .notDirectory
    | some .directory =>
      if nameLimit < part.utf8ByteSize then .error .longName else files.follow (step place part) parts

def locate (files : Files) (p : Path) : Except FileFailure Path :=
  if p.text.toList.contains (Char.ofNat 0) then .error .nullCharacter
  else if pathLimit ≤ p.text.utf8ByteSize then .error .longName
  else files.follow ⟨p.root, []⟩ p.parts

def newlines : List Char → List Char
  | [] => []
  | '\r' :: '\n' :: cs => '\n' :: newlines cs
  | '\r' :: cs => '\n' :: newlines cs
  | c :: cs => c :: newlines cs

def read (files : Files) (p : Path) : Except FileFailure String := do
  match files.find? (← files.locate p) with
  | none => throw .missing
  | some .directory => throw .isDirectory
  | some .sink => pure ""
  | some (.file text) => pure (String.ofList (newlines text.toList))

def write (files : Files) (p : Path) (text : String) : Except FileFailure Files := do
  let place ← files.locate p
  match files.find? place with
  | some .directory => throw .isDirectory
  | some .sink => pure files
  | _ => pure (files.put place text)

/-- Whether a spelling can only lead to a directory: it ends in a slash or in a part that is a dot. -/
def namesDirectory (name : String) : Bool :=
  match (Text.split '/' name.toList).getLast? with
  | some part => !Path.isName (String.ofList part)
  | none => true

/-- What the file holds that a spelling leads to, if it leads to one. -/
def contents? (files : Files) (name : String) : Option String :=
  if namesDirectory name then none
  else match files.locate (Path.ofText name) with
    | .error _ => none
    | .ok place => match files.find? place with
      | some (.file text) => some text
      | _ => none

end Files

end QasmCircuit
