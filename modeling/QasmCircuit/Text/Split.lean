/-!
# Splitting at a character
-/

namespace QasmCircuit.Text

/-- The parts of a text between the places where a character stands. -/
def split (separator : Char) : List Char → List (List Char)
  | [] => [[]]
  | c :: cs =>
    if c = separator then [] :: split separator cs
    else match split separator cs with
      | [] => [[c]]
      | part :: parts => (c :: part) :: parts

end QasmCircuit.Text
