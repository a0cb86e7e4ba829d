import QasmCircuit.Fault

/-!
# Registers and bits

A register has a kind, a name and a positive size; a bit is one position of a register. Both can only be
made if they are well-formed. Two bits are the same if they name the same register and index, whatever
the sizes of their registers.
-/

namespace QasmCircuit

/-- Lower-case letters of the ASCII range. -/
def isLower (c : Char) : Bool := 'a' ≤ c && c ≤ 'z'

/-- Whether a text is an identifier that starts with a lower-case letter. A line feed behind it is let
through. -/
def isIdentifier (s : String) : Bool :=
  match s.toList with
  | [] => false
  | c :: cs =>
    let cs := if cs.getLast? = some '\n' then cs.dropLast else cs
    isLower c && cs.all fun d => d.isAlphanum || d = '_'

/-- The kinds of registers. The plain kind is good for neither qubits nor classical bits. -/
inductive RegisterKind where
  | quantum
  | classical
  | plain
deriving Repr, DecidableEq

namespace RegisterKind

def keyword : RegisterKind → String
  | .quantum => "qreg"
  | .classical => "creg"
  | .plain => "reg"

/-- The name of a kind inside messages. -/
def title : RegisterKind → String
  | .quantum => "QuantumRegister"
  | .classical => "ClassicalRegister"
  | .plain => "Register"

end RegisterKind

/-- A named register of a positive size. -/
structure Register where
  kind : RegisterKind
  name : String
  size : Nat
  name_valid : isIdentifier name = true
  size_pos : 0 < size
deriving DecidableEq

namespace Register

def isQuantum (r : Register) : Bool := r.kind == .quantum

/-- Whether a register holds classical bits. -/
def isClassical (r : Register) : Bool := r.kind == .classical

def text (r : Register) : String := s!"{r.kind.keyword} {r.name}[{r.size}];"

/-- The text of a register inside a message. -/
def shown (r : Register) : Except Fault String :=
  Text.showing (Text.isShort r.size) s!"{r.kind.title}(name={Text.quoted r.name}, size={r.size})"

/-- The largest number of bits that a list of them can be made for, plus one. -/
def lengthLimit : Nat := Nat.pow 2 63

/-- Whether a register can hold a value: the value is below two to the size. -/
def fits (r : Register) (value : Int) : Bool :=
  0 ≤ value && (value.toNat == 0 || value.toNat.log2 < r.size)

theorem fits_iff (r : Register) (value : Int) : r.fits value = true ↔ 0 ≤ value ∧ value.toNat < Nat.pow 2 r.size := by
  have two : 0 < Nat.pow 2 r.size := Nat.two_pow_pos r.size
  simp only [fits, Bool.and_eq_true, Bool.or_eq_true, beq_iff_eq, decide_eq_true_eq]
  refine and_congr Iff.rfl ⟨?_, ?_⟩
  · rintro (h | h)
    · omega
    · by_cases hz : value.toNat = 0
      · omega
      · exact (Nat.log2_lt hz).mp h
  · intro h
    by_cases hz : value.toNat = 0
    · exact .inl hz
    · exact .inr ((Nat.log2_lt hz).mpr h)

end Register

/-- One position of a register. -/
structure Bit where
  register : Register
  index : Nat
  index_lt : index < register.size
deriving DecidableEq

namespace Bit

/-- What two bits have in common if they are the same. -/
def key (b : Bit) : String × Nat := (b.register.name, b.index)

/-- Whether two bits name the same register and index. -/
def same (a b : Bit) : Bool := a.key == b.key

def text (b : Bit) : String := s!"{b.register.name}[{b.index}]"

/-- The text of a bit inside a message. -/
def shown (b : Bit) : String := s!"Bit({Text.quoted b.register.name}, {b.index})"

def among (b : Bit) (bits : List Bit) : Bool := bits.any b.same

/-- Whether no two of some bits are the same. -/
def distinct : List Bit → Bool
  | [] => true
  | b :: rest => !b.among rest && distinct rest

end Bit

namespace Register

/-- The bit at an index, which has to be an integer in range. -/
def bit (r : Register) (index : Datum) : Except Fault Bit :=
  match index with
  | .int i =>
    if h : 0 ≤ i ∧ i.toNat < r.size then .ok ⟨r, i.toNat, h.2⟩
    else fail (.register (.indexRange i r.name r.size))
  | _ => fail (.register (.indexKind r.name))

/-- All bits of a register in ascending order. -/
def bits (r : Register) : List Bit :=
  (List.range r.size).pmap (fun i h => ⟨r, i, h⟩) fun _ h => List.mem_range.mp h

theorem length_bits (r : Register) : r.bits.length = r.size := by simp [bits]

end Register

/-- A value given to an operation: a bit, a register, or something else, of which messages show the text. -/
inductive Argument where
  | bit (b : Bit)
  | register (r : Register)
  | datum (d : Datum)
  | object (shown : String)

namespace Argument

/-- The text of a value inside a message. -/
def shown : Argument → Except Fault String
  | .bit b => Text.showing (Text.isShort b.index) b.shown
  | .register r => r.shown
  | .datum d => Text.showing d.hasText d.shown
  | .object s => .ok s

/-- The fault of a problem that shows a value. A value that has no text cannot be shown. -/
def fault (a : Argument) (problem : String → Problem) : Fault :=
  match a.shown with
  | .ok text => .of (problem text)
  | .error e => e

def refuse {α : Type} (a : Argument) (problem : String → Problem) : Except Fault α := .error (a.fault problem)

/-- Whether a value is a register of any kind. -/
def isRegister : Argument → Bool
  | .register _ => true
  | _ => false

/-- The double that a value stands for. -/
def toReal : Argument → Except Fault Float
  | .datum d => d.toReal
  | _ => .error .wrongKind

/-- The members of a value that holds several: the items of a list, the characters of a text, the keys
of a mapping. -/
def items : Argument → Except Fault (List Argument)
  | .datum (.list xs) => .ok (xs.map .datum)
  | .datum (.text s) => .ok (s.toList.map fun c => .datum (.text (String.singleton c)))
  | .datum (.mapping es) => .ok (es.map fun e => .datum e.1)
  | .register r => .ok (r.bits.map .bit)
  | _ => .error .wrongKind

end Argument

namespace Register

/-- The register with a name and a size, if they are good for one. -/
def make (kind : RegisterKind) (name size : Argument) : Except Fault Register :=
  match name with
  | .datum (.text s) =>
    if hn : isIdentifier s = true then
      match size with
      | .datum (.int n) =>
        if hs : 0 < n.toNat then .ok ⟨kind, s, n.toNat, hn, hs⟩
        else size.refuse fun shown => .register (.invalidSize s shown)
      | _ => size.refuse fun shown => .register (.invalidSize s shown)
    else name.refuse fun shown => .register (.invalidName shown)
  | _ => name.refuse fun shown => .register (.invalidName shown)

end Register

end QasmCircuit
