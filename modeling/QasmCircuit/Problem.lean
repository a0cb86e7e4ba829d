import QasmCircuit.Problem.Register
import QasmCircuit.Problem.Source
import QasmCircuit.Problem.Semantic
import QasmCircuit.Problem.Modifier
import QasmCircuit.Problem.Render

/-!
# Problems

Everything that can be wrong with a program or with a step in building one. A problem has a category, a
code of that category and an explanation.
-/

namespace QasmCircuit

/-- The families of problems. -/
inductive Category where
  | register
  | source
  | semantic
  | resolution
  | modifier
  | render
deriving Repr, DecidableEq

/-- The three characters that every code of a category starts with. -/
def Category.codeStart : Category → String
  | .register => "E10"
  | .source => "E20"
  | .semantic => "E30"
  | .resolution => "E40"
  | .modifier => "E50"
  | .render => "E60"

/-- How a category is called in messages. -/
def Category.title : Category → String
  | .register => "Register errors"
  | .source => "Syntax errors"
  | .semantic => "Semantic errors"
  | .resolution => "Resolution errors"
  | .modifier => "Modifier errors"
  | .render => "Render errors"

/-- A problem of any category. -/
inductive Problem where
  | register (problem : RegisterProblem)
  | source (problem : SourceProblem)
  | semantic (problem : SemanticProblem)
  | resolution (problem : ResolutionProblem)
  | modifier (problem : ModifierProblem)
  | render (problem : RenderProblem)
deriving Repr, DecidableEq

namespace Problem

/-- A problem with an expression. -/
def expression (problem : ExpressionProblem) : Problem := .semantic (.expression problem)

def category : Problem → Category
  | .register _ => .register
  | .source _ => .source
  | .semantic _ => .semantic
  | .resolution _ => .resolution
  | .modifier _ => .modifier
  | .render _ => .render

def number : Problem → Nat
  | .register p => p.number
  | .source p => p.number
  | .semantic p => p.number
  | .resolution p => p.number
  | .modifier p => p.number
  | .render p => p.number

/-- The error code of a problem: the start of its category, then its number there. -/
def code (p : Problem) : String := p.category.codeStart ++ toString p.number

def message : Problem → String
  | .register p => p.message
  | .source p => p.message
  | .semantic p => p.message
  | .resolution p => p.message
  | .modifier p => p.message
  | .render p => p.message

def cause? : Problem → Option String
  | .modifier p => p.reason?.map fun reason => (Problem.resolution reason).code
  | _ => none

end Problem

end QasmCircuit
