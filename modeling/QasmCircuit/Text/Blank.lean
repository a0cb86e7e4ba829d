/-!
# White space and line breaks

Texts are cut at the white space and at the line breaks of the Unicode standard, which both are wider
than the ASCII classes of `Char`.
-/

namespace QasmCircuit.Text

/-- White space of the Unicode standard, together with the four ASCII separators. -/
def isBlank (c : Char) : Bool :=
  let n := c.toNat
  (9 ≤ n && n ≤ 13) || (28 ≤ n && n ≤ 32) || n == 0x85 || n == 0xA0 || n == 0x1680 ||
    (0x2000 ≤ n && n ≤ 0x200A) || n == 0x2028 || n == 0x2029 || n == 0x202F || n == 0x205F || n == 0x3000

/-- Drops the characters of a kind in front of and behind a list of characters. -/
def trimWhere (kind : Char → Bool) (cs : List Char) : List Char :=
  ((cs.dropWhile kind).reverse.dropWhile kind).reverse

/-- Drops the blanks in front of and behind a list of characters. -/
def trim (cs : List Char) : List Char := trimWhere isBlank cs

/-- The characters that end a line: the ASCII breaks and separators, and those of the Unicode standard. -/
def isLineBreak (c : Char) : Bool :=
  let n := c.toNat
  (10 ≤ n && n ≤ 13) || (28 ≤ n && n ≤ 30) || n == 0x85 || n == 0x2028 || n == 0x2029

/-- What stands before the first line break. -/
def firstLine (s : String) : String :=
  String.ofList (s.toList.takeWhile (fun c => !isLineBreak c))

/-- Joins texts with a separator between neighbours. -/
def join (separator : String) : List String → String
  | [] => ""
  | [s] => s
  | s :: rest => s ++ separator ++ join separator rest

@[simp] theorem join_singleton (separator s : String) : join separator [s] = s := rfl

end QasmCircuit.Text
