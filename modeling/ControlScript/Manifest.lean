import ControlScript.Workspace

/-!
# Manifests

A manifest lists groups, variables and methods by name.  Building it gives the workspace in which
control scripts are read, or the first fault in the order of the lists.
-/

namespace ControlScript

namespace Manifest

/-! ## 1. Entries -/

/-- A variable and its group. -/
structure VariableEntry where
  name : String
  group : String
deriving DecidableEq

/-- A keyword, its kind, and its default as a literal. -/
structure KeywordEntry where
  name : String
  kind : String
  default : Option String
deriving DecidableEq

/-- A specialization: the slots for one group.  Without keywords of its own it has those of the
    method that it specializes. -/
structure SpecializationEntry where
  group : String
  outputs : List String
  inputs : List String
  keywords : Option (List KeywordEntry)
deriving DecidableEq

/-- A method with its specializations. -/
structure MethodEntry where
  name : String
  outputs : List String
  inputs : List String
  keywords : List KeywordEntry
  agenda : Bool
  specializations : List SpecializationEntry
deriving DecidableEq

end Manifest

/-- A list of groups, of variables and of methods. -/
structure Manifest where
  groups : List String
  vars : List Manifest.VariableEntry
  methods : List Manifest.MethodEntry
deriving DecidableEq

/-! ## 2. Faults -/

/-- Why a manifest gives no workspace. -/
inductive ManifestError where
  | unreadable (path reason : String)
  | malformed
  | unknownGroup (context group : String)
  | unknownKind (method keyword kind : String)
  | refused (error : RegistryError)
deriving DecidableEq

namespace ManifestError

/-- The text of a fault. -/
def message : ManifestError → String
  | unreadable path reason => s!"cannot read registry manifest `{path}`: {reason}"
  | malformed => "invalid registry manifest: not a manifest in JSON form"
  | unknownGroup context group => s!"{context} refers to undeclared group `{group}`"
  | unknownKind method keyword kind =>
      s!"keyword `{keyword}` of method `{method}` has unknown kind `{kind}`"
  | refused error => error.message

end ManifestError

/-! ## 3. Building -/

namespace Manifest

/-- What stands for a slot that takes every group. -/
def anyGroup : String := "*"

/-- A declared group. -/
def group (declared : List String) (context name : String) : Except ManifestError Group :=
  if name ∈ declared then .ok ⟨name⟩ else .error (.unknownGroup context name)

/-- A slot for a declared group, or for every group. -/
def slot (declared : List String) (context name : String) : Except ManifestError Slot :=
  if name = anyGroup then .ok .anyGroup
  else (group declared context name).map .only

/-- The keywords that are declared for a method. -/
def keywords (method : String) (entries : List KeywordEntry) : Except ManifestError (List Keyword) :=
  entries.mapM fun entry =>
    match ValueKind.ofName? entry.kind with
    | some kind => .ok ⟨entry.name, kind, entry.default⟩
    | none => .error (.unknownKind method entry.name entry.kind)

/-- How messages refer to a method. -/
def methodContext (name : String) : String := s!"method `{name}`"

/-- How messages refer to a variable. -/
def variableContext (name : String) : String := s!"variable `{name}`"

/-- A registration, whose refusal is a fault of the manifest. -/
def registered {α : Type} (result : Except RegistryError α) : Except ManifestError α :=
  result.mapError .refused

/-- Registers a variable. -/
def addVariable (declared : List String) (r : VariableRegistry) (entry : VariableEntry) :
    Except ManifestError VariableRegistry := do
  let group ← group declared (variableContext entry.name) entry.group
  let (_, r) ← registered (r.insert ⟨entry.name, group⟩)
  return r

/-- Registers a specialization of the method `base`. -/
def addSpecialization (declared : List String) (entry : MethodEntry) (inherited : List Keyword)
    (base : MethodId) (r : MethodRegistry) (own : SpecializationEntry) :
    Except ManifestError MethodRegistry := do
  let target ← group declared (methodContext entry.name) own.group
  let name := Method.specializedName entry.name target
  let outputs ← own.outputs.mapM (slot declared (methodContext name))
  let inputs ← own.inputs.mapM (slot declared (methodContext name))
  let keywords ← match own.keywords with
    | some entries => keywords name entries
    | none => pure inherited
  let (_, r) ← registered
    (r.insertSpecialization base target ⟨name, outputs, inputs, keywords, entry.agenda⟩)
  return r

/-- Registers a method and then its specializations. -/
def addMethod (declared : List String) (r : MethodRegistry) (entry : MethodEntry) :
    Except ManifestError MethodRegistry := do
  let keywords ← keywords entry.name entry.keywords
  let outputs ← entry.outputs.mapM (slot declared (methodContext entry.name))
  let inputs ← entry.inputs.mapM (slot declared (methodContext entry.name))
  let (base, r) ← registered (r.insert ⟨entry.name, outputs, inputs, keywords, entry.agenda⟩)
  entry.specializations.foldlM (addSpecialization declared entry keywords base) r

/-- The workspace of a manifest: its variables and methods in the order of the lists. -/
def build (m : Manifest) : Except ManifestError Workspace := do
  let vars ← m.vars.foldlM (addVariable m.groups) {}
  let methods ← m.methods.foldlM (addMethod m.groups) {}
  return ⟨methods, vars⟩

end Manifest

end ControlScript
