/-!
# Numbers in slots

A table of slots holds numbers in an order of its own: a number goes to the slot of its remainder by the
number of slots, and while that one is taken, to a next one. Of several register sizes in one call the
first one in this order counts.

> `Slots.pick?_singleton`: a single number is the first one.
-/

namespace QasmCircuit

/-- A table of slots. -/
structure Slots where
  entries : List (Option Nat)
deriving Repr, DecidableEq

namespace Slots

def ofSize (size : Nat) : Slots := ⟨List.replicate size none⟩

def size (s : Slots) : Nat := s.entries.length

def isFree (s : Slots) (slot : Nat) : Bool := s.entries[slot]? == some none

/-- The slots that are tried at once: nine more behind one that is not near the end. -/
def run (s : Slots) (slot : Nat) : List Nat :=
  if slot + 9 < s.size then (List.range 10).map (slot + ·) else [slot]

/-- The free slot for a number, from a slot on. What is left of the number spreads the slots tried. The
first argument bounds the number of tries. -/
def seek (s : Slots) : Nat → Nat → Nat → Option Nat
  | 0, _, _ => none
  | n + 1, slot, rest =>
    match (s.run slot).find? s.isFree with
    | some free => some free
    | none => s.seek n ((5 * slot + 1 + rest / 32) % s.size) (rest / 32)

def put (s : Slots) (n : Nat) : Slots :=
  let code := n % (Nat.pow 2 61 - 1)
  match s.seek (s.size + 16) (code % s.size) code with
  | some slot => ⟨s.entries.set slot (some n)⟩
  | none => s

/-- The numbers in the order of their slots. -/
def toList (s : Slots) : List Nat := s.entries.filterMap id

/-- Puts a number into a table, which grows once three of five slots are taken. -/
def insert (s : Slots) (n : Nat) : Slots :=
  let s := s.put n
  let used := s.toList.length
  if used * 5 < (s.size - 1) * 3 then s
  else s.toList.foldl put (ofSize (max 8 (4 * used + 1).nextPowerOfTwo))

/-- The first of some different numbers in the order of a table. -/
def pick? (ns : List Nat) : Option Nat := (ns.foldl insert (ofSize 8)).toList.head?

theorem size_ofSize (size : Nat) : (ofSize size).size = size := List.length_replicate

theorem seek_ofSize (tries slot rest : Nat) (h : slot < 8) : (ofSize 8).seek (tries + 1) slot rest = some slot := by
  have free : (ofSize 8).isFree slot = true := by
    unfold isFree ofSize
    rw [List.getElem?_replicate, if_pos h]
    rfl
  have near : ¬ slot + 9 < (ofSize 8).size := by
    rw [size_ofSize]
    omega
  simp only [seek, run, if_neg near, List.find?_cons, free]

theorem put_ofSize (n : Nat) : ∃ slot, slot < 8 ∧ (ofSize 8).put n = ⟨(ofSize 8).entries.set slot (some n)⟩ := by
  have h : n % (Nat.pow 2 61 - 1) % 8 < 8 := Nat.mod_lt _ (by decide)
  refine ⟨_, h, ?_⟩
  simp only [put, size_ofSize]
  rw [seek_ofSize 23 _ _ h]

theorem pick?_singleton (n : Nat) : pick? [n] = some n := by
  obtain ⟨slot, h, hp⟩ := put_ofSize n
  have hi : pick? [n] = ((ofSize 8).insert n).toList.head? := rfl
  rw [hi, insert, hp]
  have one : slot = 0 ∨ slot = 1 ∨ slot = 2 ∨ slot = 3 ∨ slot = 4 ∨ slot = 5 ∨ slot = 6 ∨ slot = 7 := by
    omega
  rcases one with rfl | rfl | rfl | rfl | rfl | rfl | rfl | rfl <;> rfl

end Slots

end QasmCircuit
