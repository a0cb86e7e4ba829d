import QasmCircuit.Fault
import QasmCircuit.Yaml.Point

/-!
# Scalars in quotes

In single quotes a quote is written twice, and nothing else is special. In double quotes a backslash
begins an escape. Line breaks are folded in both.
-/

namespace QasmCircuit.Yaml

/-- The breaks of the empty lines in front of the next word. A mark between documents is no part of a
scalar. -/
def quotedBreaks : Nat → Point → Except Fault (List Char × Point)
  | 0, _ => .error .malformedFile
  | n + 1, p =>
    if p.atMark then .error .malformedFile
    else
      let (_, p) := p.span fun c => c == ' ' || c == '\t'
      match p.lineBreak? with
      | none => .ok ([], p)
      | some (c, p) => (quotedBreaks n p).map fun (cs, p) => (c :: cs, p)

/-- The white space at a point as it counts inside a scalar. -/
def quotedGap (p : Point) : Except Fault (List Char × Point) :=
  let (spaces, p) := p.span fun c => c == ' ' || c == '\t'
  match p.lineBreak? with
  | none => if p.rest.isEmpty then .error .malformedFile else .ok (spaces, p)
  | some (first, p) => (quotedBreaks (p.rest.length + 1) p).map fun (others, p) => (folded first others, p)

/-- The character behind a backslash that stands for one other character. -/
def shortEscape? (c : Char) : Option Char :=
  match c with
  | '0' => some '\x00'
  | 'a' => some '\x07'
  | 'b' => some '\x08'
  | 't' => some '\t'
  | '\t' => some '\t'
  | 'n' => some '\n'
  | 'v' => some '\x0b'
  | 'f' => some '\x0c'
  | 'r' => some '\r'
  | 'e' => some '\x1b'
  | ' ' => some ' '
  | '"' => some '"'
  | '\\' => some '\\'
  | '/' => some '/'
  | 'N' => some '\x85'
  | '_' => some '\xa0'
  | 'L' => some '\u2028'
  | 'P' => some '\u2029'
  | _ => none

/-- How many hexadecimal digits follow a letter behind a backslash. -/
def longEscape? (c : Char) : Option Nat :=
  match c with
  | 'x' => some 2
  | 'u' => some 4
  | 'U' => some 8
  | _ => none

/-- The symbol with a code that is written in hexadecimal digits. -/
def coded (digits : List Char) : Except Fault Text.Symbol :=
  let code := Text.ofDigits 16 (digits.map Text.hexValue)
  if !digits.all Text.isHexDigit then .error .malformedFile
  else if code.isValidChar then .ok (.char (Char.ofNat code))
  else if Text.isSurrogate code then .ok (.half code)
  else if code < 0x80000000 then .error (.defect .noCharacter)
  else .error .tooLarge

/-- The characters that an escape stands for, and the point behind it. The point given is behind the
backslash. -/
def escape (p : Point) : Except Fault (List Char × Point) :=
  match p.rest with
  | [] => .error .malformedFile
  | c :: rest =>
    match shortEscape? c, longEscape? c with
    | some d, _ => .ok ([d], p.advance)
    | none, some n =>
      if (rest.take n).length = n then (coded (rest.take n)).map fun d => (d.written, p.advanceBy (n + 1))
      else .error .malformedFile
    | none, none =>
      match p.lineBreak? with
      | none => .error .malformedFile
      | some (_, p) => quotedBreaks (p.rest.length + 1) p

/-- The text up to the closing quote, behind the text so far, which is given in reverse. -/
def quotedRest (double : Bool) : Nat → List Char → Point → Except Fault (List Char × Point)
  | 0, _, _ => .error .malformedFile
  | n + 1, text, p =>
    match p.rest with
    | [] => .error .malformedFile
    | c :: rest =>
      if c == '\'' && !double then
        if rest.head? == some '\'' then quotedRest double n ('\'' :: text) (p.advanceBy 2)
        else .ok (text.reverse, p.advance)
      else if c == '"' && double then .ok (text.reverse, p.advance)
      else if c == '\\' && double then
        (escape p.advance).bind fun (cs, p) => quotedRest double n (cs.reverse ++ text) p
      else if isGap c then
        (quotedGap p).bind fun (cs, p) => quotedRest double n (cs.reverse ++ text) p
      else quotedRest double n (c :: text) p.advance

/-- The scalar whose opening quote stands at a point, and the point behind it. -/
def quotedScalar (double : Bool) (p : Point) : Except Fault (String × Point) :=
  (quotedRest double (p.rest.length + 1) [] p.advance).map fun (text, p) => (String.ofList text, p)

end QasmCircuit.Yaml
