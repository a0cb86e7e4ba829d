import QasmCircuit.Yaml.Point

/-!
# Scalars without quotes

A scalar without quotes goes on until a mark of the format: a colon in front of a gap, a comment, a line
that is indented less than it must be, and inside brackets also a comma or a bracket.
-/

namespace QasmCircuit.Yaml

/-- The marks of collections in brackets. -/
def isFlowMark (c : Char) : Bool :=
  c == ',' || c == '[' || c == ']' || c == '\x7b' || c == '\x7d'

/-- The word of a scalar that a text begins with. -/
def plainWord (flow : Bool) : List Char → List Char
  | [] => []
  | c :: cs =>
    let beforeGap := atGap cs || (flow && cs.head?.any isFlowMark)
    if isGap c || (c == ':' && beforeGap) || (flow && (isFlowMark c || c == '?')) then []
    else c :: plainWord flow cs

/-- The breaks of the empty lines in front of the next word, or nothing if a mark between documents
stands among them. The first argument bounds the number of steps. -/
def emptyLines : Nat → Point → Option (List Char) × Point
  | 0, p => (none, p)
  | n + 1, p =>
    if p.at? ' ' then emptyLines n p.advance
    else match p.lineBreak? with
      | none => (some [], p)
      | some (c, p) =>
        if p.atMark then (none, p)
        else
          let (cs, p) := emptyLines n p
          (cs.map (c :: ·), p)

/-- The text between two words of a scalar, which is empty where the scalar ends, whether it holds a line
break, and the point behind it. -/
def plainGap (p : Point) : List Char × Bool × Point :=
  let (spaces, p) := p.span (· == ' ')
  match p.lineBreak? with
  | none => (spaces, false, p)
  | some (first, p) =>
    if p.atMark then ([], true, p)
    else match emptyLines (p.rest.length + 1) p with
      | (none, p) => ([], true, p)
      | (some others, p) => (folded first others, true, p)

/-- The rest of a scalar behind the text so far and the gap after it. The result tells whether the last
gap held a line break. -/
def plainRest (flow : Bool) (least : Nat) : Nat → List Char → List Char → Bool → Point → List Char × Bool × Point
  | 0, text, _, broken, p => (text, broken, p)
  | n + 1, text, gap, broken, p =>
    let word := if p.at? '#' then [] else plainWord flow p.rest
    if word.isEmpty then (text, broken, p)
    else
      let text := text ++ gap ++ word
      let (gap, broken, p) := plainGap (p.advanceBy word.length)
      if gap.isEmpty || (!flow && p.column < least) then (text, broken, p)
      else plainRest flow least n text gap broken p

/-- The scalar at a point: its text, whether a line break follows it, and the point behind it. Outside of
brackets its lines must begin at the column `least` or behind it. -/
def plainScalar (flow : Bool) (least : Nat) (p : Point) : String × Bool × Point :=
  let (text, broken, p) := plainRest flow least (p.rest.length + 1) [] [] false p
  (String.ofList text, broken, p)

end QasmCircuit.Yaml
