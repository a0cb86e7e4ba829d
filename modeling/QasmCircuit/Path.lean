import QasmCircuit.Text.Blank
import QasmCircuit.Text.Split

/-!
# Paths

A path is absolute or relative to the working directory, and its parts are names; empty parts and dots
of the spelling say nothing and are dropped.
-/

namespace QasmCircuit

/-- A path. -/
structure Path where
  /-- The slashes in front of an absolute path. -/
  root : String := ""
  parts : List String := []
deriving DecidableEq, Repr

namespace Path

/-- The slashes that an absolute path begins with: exactly two are kept, and any other number is one. -/
def rootOf : List Char → String
  | '/' :: '/' :: '/' :: _ => "/"
  | '/' :: '/' :: _ => "//"
  | '/' :: _ => "/"
  | _ => ""

/-- Whether a part says something. -/
def isName (part : String) : Bool := part != "" && part != "."

def ofText (s : String) : Path :=
  ⟨rootOf s.toList, ((Text.split '/' s.toList).map String.ofList).filter isName⟩

def text (p : Path) : String :=
  if p.root = "" && p.parts.isEmpty then "." else p.root ++ Text.join "/" p.parts

def name (p : Path) : String := p.parts.getLastD ""

/-- The last part of a path without its extension. A dot in front or at the end begins no extension. -/
def stem (p : Path) : String :=
  let cs := p.name.toList.reverse
  match cs.takeWhile (· != '.'), cs.dropWhile (· != '.') with
  | _ :: _, '.' :: c :: rest => String.ofList (c :: rest).reverse
  | _, _ => p.name

/-- Whether a path lies inside another one. -/
def isInside (p q : Path) : Bool :=
  p.root == q.root && q.parts.length < p.parts.length && q.parts.isPrefixOf p.parts

end Path

end QasmCircuit
