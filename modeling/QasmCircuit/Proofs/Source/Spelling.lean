import QasmCircuit.Source
import QasmCircuit.Program.Render
import QasmCircuit.Proofs.Expr.Printing

/-!
# Spelled programs

The canonical text of a source program, and what its words have to be for that text to mean it. Which names
are free depends on where they stand: the keywords in use at a point are a parameter of `Spelled`, as they
are of the reader.

A source without its places (`unplaced`) is what its text can tell.
-/

namespace QasmCircuit.Source

open Text (join)
open Lexeme (isWord isInteger)

/-- A name that is not read as one of the keywords in use. -/
def IsName (keywords : List Keyword) (s : String) : Prop :=
  isWord s ∧ Keyword.ofText? keywords s = none

/-- Joined texts as characters: every text but the first one has the separator in front. -/
theorem toList_join (s : String) (texts : List String) :
    (join "," (s :: texts)).toList = s.toList ++ texts.flatMap fun t => ',' :: t.toList := by
  induction texts generalizing s with
  | nil => simp
  | cons t texts ih =>
    show (s ++ "," ++ join "," (t :: texts)).toList = _
    rw [String.toList_append, ih, String.toList_append, List.flatMap_cons, List.append_assoc]
    rfl

def Word.unplaced (w : Word) : Word := ⟨w.text, .origin⟩

namespace Reference

def unplaced (r : Reference) : Reference := ⟨r.name.unplaced, r.index.map Word.unplaced⟩

def indexText (r : Reference) : String :=
  match r.index with
  | none => ""
  | some i => "[" ++ i.text ++ "]"

def text (r : Reference) : String := r.name.text ++ r.indexText

/-- A name, and an integer if there is an index. -/
def Spelled (r : Reference) : Prop :=
  isWord r.name.text ∧ ∀ i ∈ r.index, isInteger i.text

end Reference

def referencesText (rs : List Reference) : String := join "," (rs.map Reference.text)

/-- There are references, and they are spelled. -/
def ReferencesSpelled (rs : List Reference) : Prop := rs ≠ [] ∧ ∀ r ∈ rs, r.Spelled

/-- Parameters without their places. -/
def Params.unplaced (p : Params) : Params := ⟨.origin, p.exprs.map Expr.unplaced⟩

def Params.text (p : Params) : String := "(" ++ join "," (p.exprs.map Expr.text) ++ ")"

/-- Formal parameters without their places. -/
def Formals.unplaced (f : Formals) : Formals := ⟨.origin, f.names.map Word.unplaced⟩

/-- The text of parenthesised formal parameters. -/
def Formals.text (f : Formals) : String := "(" ++ join "," (f.names.map Word.text) ++ ")"

namespace Operation

def unplaced : Operation → Operation
  | .unitary _ theta phi lam target =>
    .unitary .origin theta.unplaced phi.unplaced lam.unplaced target.unplaced
  | .controlledNot _ control target => .controlledNot .origin control.unplaced target.unplaced
  | .call name params operands =>
    .call name.unplaced (params.map Params.unplaced) (operands.map Reference.unplaced)

def text : Operation → String
  | .unitary _ theta phi lam target =>
    "U(" ++ join "," [theta.text, phi.text, lam.text] ++ ") " ++ target.text
  | .controlledNot _ control target => "CX " ++ referencesText [control, target]
  | .call name params operands =>
    name.text ++ (params.map Params.text).getD "" ++ " " ++ referencesText operands

/-- The parts of an operation are spelled, where some keywords are in use. -/
def Spelled (keywords : List Keyword) : Operation → Prop
  | .unitary _ theta phi lam target =>
    theta.Spelled ∧ phi.Spelled ∧ lam.Spelled ∧ target.Spelled
  | .controlledNot _ control target => control.Spelled ∧ target.Spelled
  | .call name params operands =>
    IsName keywords name.text ∧ (∀ ps ∈ params, ∀ e ∈ ps.exprs, e.Spelled) ∧ ReferencesSpelled operands

end Operation

namespace Action

def unplaced : Action → Action
  | .operation op => .operation op.unplaced
  | .measure _ qubit clbit => .measure .origin qubit.unplaced clbit.unplaced

def text : Action → String
  | .operation op => op.text
  | .measure _ qubit clbit => "measure " ++ qubit.text ++ " -> " ++ clbit.text

/-- The parts of an action are spelled, where some keywords are in use. -/
def Spelled (keywords : List Keyword) : Action → Prop
  | .operation op => op.Spelled keywords
  | .measure _ qubit clbit => qubit.Spelled ∧ clbit.Spelled

end Action

namespace Statement

def unplaced : Statement → Statement
  | .action a => .action a.unplaced
  | .barrier _ operands => .barrier .origin (operands.map Reference.unplaced)
  | .guarded _ register value a => .guarded .origin register.unplaced value.unplaced a.unplaced

/-- The text of a statement without its semicolon. -/
def text : Statement → String
  | .action a => a.text
  | .barrier _ operands => "barrier " ++ referencesText operands
  | .guarded _ register value a => "if(" ++ register.text ++ "==" ++ value.text ++ ") " ++ a.text

/-- The parts of a statement are spelled, and the name of a guard stands at a place. -/
def Spelled : Statement → Prop
  | .action a => a.Spelled Keyword.statements
  | .barrier _ operands => ReferencesSpelled operands
  | .guarded _ register value a =>
    isWord register.text ∧ isInteger value.text ∧ a.Spelled Context.guarded.keywords ∧ register.position.isValid

end Statement

namespace BodyStatement

def unplaced : BodyStatement → BodyStatement
  | .operation op => .operation op.unplaced
  | .barrier _ operands => .barrier .origin (operands.map Reference.unplaced)

/-- The text of a statement of a gate without its semicolon. -/
def text : BodyStatement → String
  | .operation op => op.text
  | .barrier _ operands => "barrier " ++ referencesText operands

/-- The parts of a statement of a gate are spelled, where some keywords are in use. -/
def Spelled (keywords : List Keyword) : BodyStatement → Prop
  | .operation op => op.Spelled keywords
  | .barrier _ operands => ReferencesSpelled operands

end BodyStatement

/-- The statements of a gate are spelled. Fewer words are keywords in front of the first one. -/
def BodySpelled : List Keyword → List BodyStatement → Prop
  | _, [] => True
  | keywords, s :: rest => s.Spelled keywords ∧ BodySpelled Keyword.statements rest

/-- The indented lines of the body of a gate, each with a line break in front. -/
def bodyText : List BodyStatement → String
  | [] => ""
  | s :: rest => "\n  " ++ s.text ++ ";" ++ bodyText rest

namespace Declaration

def unplaced : Declaration → Declaration
  | .qreg _ name size => .qreg .origin name.unplaced size.unplaced
  | .creg _ name size => .creg .origin name.unplaced size.unplaced
  | .gate _ name params args _ body =>
    .gate .origin name.unplaced (params.map Formals.unplaced) (args.map Word.unplaced) .origin
      (body.map BodyStatement.unplaced)

def text : Declaration → String
  | .qreg _ name size => "qreg " ++ name.text ++ "[" ++ size.text ++ "];"
  | .creg _ name size => "creg " ++ name.text ++ "[" ++ size.text ++ "];"
  | .gate _ name params args _ body =>
    "gate " ++ name.text ++ (params.map Formals.text).getD "" ++ " " ++ join "," (args.map Word.text) ++
      "\n\x7b" ++ bodyText body ++ "\n\x7d"

/-- The parts of a declaration are spelled, and the name of a register stands at a place. -/
def Spelled : Declaration → Prop
  | .qreg _ name size | .creg _ name size =>
    isWord name.text ∧ isInteger size.text ∧ name.position.isValid
  | .gate _ name params args _ body =>
    isWord name.text ∧ (∀ ps ∈ params, ∀ w ∈ ps.names, isWord w.text) ∧
      (args ≠ [] ∧ ∀ w ∈ args, isWord w.text) ∧ BodySpelled Context.body.keywords body

end Declaration

namespace Item

def unplaced : Item → Item
  | .includes _ path => .includes .origin path.unplaced
  | .declaration d => .declaration d.unplaced
  | .statement s => .statement s.unplaced

def text : Item → String
  | .includes _ path => "include " ++ path.text ++ ";"
  | .declaration d => d.text
  | .statement s => s.text ++ ";"

def Spelled : Item → Prop
  | .includes _ path => ∃ s, Lexeme.isQuotable s ∧ path.text = "\"" ++ s ++ "\""
  | .declaration d => d.Spelled
  | .statement s => s.Spelled

end Item

def unplaced (s : Source) : Source := ⟨.origin, s.version.unplaced, s.items.map Item.unplaced⟩

/-- The items of a program, each on lines of its own. -/
def itemsText : List Item → String
  | [] => ""
  | i :: rest => "\n" ++ i.text ++ itemsText rest

def text (s : Source) : String := "OPENQASM " ++ s.version.text ++ ";" ++ itemsText s.items ++ "\n"

def Spelled (s : Source) : Prop := Lexeme.isNumber s.version.text ∧ ∀ i ∈ s.items, i.Spelled

end QasmCircuit.Source
