import QasmCircuit.Library

/-!
# Libraries from data

A library comes from a mapping of names to entries. Every entry is checked on its own first; then every
link to an inverse or to a controlled form has to lead to a family of the right signature.
-/

namespace QasmCircuit.Library

/-- Reports a defect of a value. -/
def refuse {α : Type} (d : Defect) : Except Fault α := .error (.defect d)

/-- The names in a list of texts, or nothing if it holds anything else. -/
def texts? : List Datum → Option (List String)
  | [] => some []
  | .text s :: rest => (texts? rest).map (s :: ·)
  | _ :: _ => none

def paramNames (gate : String) : Option Datum → Except Fault (List String)
  | none => .ok []
  | some (.list items) =>
    match texts? items with
    | some names => .ok names
    | none => refuse (.paramsKind gate)
  | some _ => refuse (.paramsKind gate)

def arityOf (gate : String) : Option Datum → Except Fault Int
  | some (.int n) => if 1 ≤ n then .ok n else refuse (.arityKind gate)
  | _ => refuse (.arityKind gate)

def controlledOf (gate : String) : Option Datum → Except Fault (Option String)
  | none | some .null => .ok none
  | some (.text s) => .ok (some s)
  | some _ => refuse (.controlledKind gate)

/-- One parameter of an inverse: the name of a parameter, with a minus sign in front of a negated one. -/
def template (gate : String) (params : List String) : Datum → Except Fault (Int × Int)
  | .text s => do
    let (factor, name) := match Text.trim s.toList with
      | '-' :: rest => ((-1 : Int), String.ofList (Text.trim rest))
      | cs => (1, String.ofList cs)
    match params.findIdx? (· == name) with
    | some i => .ok ((i : Int), factor)
    | none => refuse (.templateName gate name)
  | d => refuse (.templateKind gate d.shown)

def inverseParamsOf (gate : String) (params : List String) : Option Datum → Except Fault (List (Int × Int))
  | none | some .null => .ok (Family.keepAll params.length)
  | some (.list items) =>
    if items.length = params.length then items.mapM (template gate params)
    else refuse (.inverseParams gate)
  | some _ => refuse (.inverseParams gate)

def inverseNameOf (gate : String) : Option Datum → Except Fault String
  | none => .ok gate
  | some (.text s) => .ok s
  | some _ => refuse (.inverseNameKind gate)

def family (gate : String) : Datum → Except Fault Family
  | .mapping entry => do
    let params ← paramNames gate (Datum.field? entry "params")
    let arity ← arityOf gate (Datum.field? entry "arity")
    let controlled ← controlledOf gate (Datum.field? entry "controlled")
    match Datum.field? entry "inverse" with
    | none | some (.text "self") =>
      pure ⟨gate, params, arity, gate, Family.keepAll params.length, controlled⟩
    | some (.mapping inverse) =>
      let inverseName ← inverseNameOf gate (Datum.field? inverse "name")
      let inverseParams ← inverseParamsOf gate params (Datum.field? inverse "params")
      pure ⟨gate, params, arity, inverseName, inverseParams, controlled⟩
    | some _ => refuse (.inverseKind gate)
  | _ => refuse (.entryKind gate)

/-- Checks where the link to the inverse of a family leads. -/
def checkInverse (lib : Library) (f : Family) : Except Fault Unit :=
  match lib.find? f.inverseName with
  | none => refuse (.inverseUnknown f.name f.inverseName)
  | some g =>
    if g.arity = f.arity && g.params.length = f.params.length then .ok ()
    else refuse (.inverseSignature f.name g.name)

/-- Checks where the link to the controlled form of a family leads. -/
def checkControlled (lib : Library) (f : Family) : Except Fault Unit :=
  match f.controlled with
  | none => .ok ()
  | some name =>
    match lib.find? name with
    | none => refuse (.controlledUnknown f.name name)
    | some g =>
      if g.arity = f.arity + 1 && g.params.length = f.params.length then .ok ()
      else refuse (.controlledSignature g.name f.name)

def checkLinks (lib : Library) (f : Family) : Except Fault Unit := do
  checkInverse lib f
  checkControlled lib f

/-- The library that a value describes. -/
def ofDatum : Datum → Except Fault Library
  | .mapping data =>
    match Datum.field? data "families" with
    | some (.mapping (first :: rest)) => do
      let families ← (first :: rest).mapM fun (key, entry) => family key.asName entry
      let lib := ofFamilies families
      lib.families.forM (checkLinks lib)
      pure lib
    | _ => refuse .noFamilies
  | _ => refuse .libraryNotMapping

/-- The library that the contents of a data file describe. -/
def ofFileDatum (path : String) : Datum → Except Fault Library
  | .mapping data => ofDatum (.mapping data)
  | _ => refuse (.libraryFile path)

end QasmCircuit.Library
