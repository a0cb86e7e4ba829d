import QasmCircuit.Library

/-!
# The packaged library

The families of the standard include file that the program knows of itself.
-/

namespace QasmCircuit.Library

/-- A family without parameters that is its own inverse. -/
def involution (name : String) (arity : Nat) (controlled : Option String) : Family :=
  ⟨name, [], arity, name, [], controlled⟩

/-- A family without parameters whose inverse is another one. -/
def paired (name inverse : String) : Family := ⟨name, [], 1, inverse, [], none⟩

/-- A family with one angle, which the inverse negates. -/
def rotation (name param : String) (arity : Nat) (controlled : Option String) : Family :=
  ⟨name, [param], arity, name, [(0, -1)], controlled⟩

/-- A family with three Euler angles. The inverse negates them and swaps the last two. -/
def euler (name : String) (arity : Nat) (controlled : Option String) : Family :=
  ⟨name, ["theta", "phi", "lam"], arity, name, [(0, -1), (2, -1), (1, -1)], controlled⟩

/-- The library that is used where none is given. -/
def packaged : Library where
  families :=
    [involution "id" 1 none, involution "x" 1 (some "cx"), involution "y" 1 (some "cy"), involution "z" 1 (some "cz"),
      involution "h" 1 (some "ch"),
      paired "s" "sdg",
      paired "sdg" "s",
      paired "t" "tdg",
      paired "tdg" "t",
      paired "sx" "sxdg",
      paired "sxdg" "sx",
      rotation "rx" "theta" 1 (some "crx"),
      rotation "ry" "theta" 1 (some "cry"),
      rotation "rz" "phi" 1 (some "crz"),
      rotation "u1" "lam" 1 (some "cu1"),
      rotation "p" "lam" 1 (some "cp"),
      euler "u3" 1 (some "cu3"),
      involution "cx" 2 (some "ccx"),
      involution "cy" 2 none,
      involution "cz" 2 none,
      involution "ch" 2 none,
      involution "swap" 2 (some "cswap"),
      rotation "crx" "theta" 2 none,
      rotation "cry" "theta" 2 none,
      rotation "crz" "lam" 2 none,
      rotation "cu1" "lam" 2 none,
      rotation "cp" "lam" 2 none,
      euler "cu3" 2 none,
      involution "ccx" 3 (some "c3x"),
      involution "cswap" 3 none,
      involution "c3x" 4 (some "c4x"),
      involution "c4x" 5 none]

end QasmCircuit.Library
