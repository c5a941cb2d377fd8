import ControlScript.RegistryError

/-!
# The method registry

Methods in the order of their registration; the place of a method is its id.  Every entry is either
an ordinary method, found by its name, or a specialization, found by the generic method and the
group that it stands for.  The two ways of finding a method never cross: the name of a
specialization is not looked up, whatever it is.
-/

namespace ControlScript

/-- The id of a registered method: its place in the registry. -/
structure MethodId where
  index : Nat
deriving DecidableEq

/-- What a specialization specializes: a generic method, for one group. -/
structure Origin where
  base : MethodId
  group : Group
deriving DecidableEq

/-- A registered method; ordinary methods have no origin. -/
structure RegisteredMethod where
  method : Method
  origin : Option Origin
deriving DecidableEq

/-- The registered methods, in the order of their ids. -/
structure MethodRegistry where
  entries : List RegisteredMethod := []
deriving DecidableEq

/-! ## 1. Declarations that can be registered -/

/-- The first name that occurs in a list for the second time, or among the names `seen` before. -/
def firstRepeated? (seen : List String) : List String → Option String
  | [] => none
  | name :: rest => if name ∈ seen then some name else firstRepeated? (name :: seen) rest

/-- A method with an agenda body has no keywords, and the names of its keywords are distinct.  That a
    generic method has a slot is not checked: it is generic because of a slot, so there is no method
    that such a check would refuse. -/
def Method.check (m : Method) : Except RegistryError Unit :=
  if m.takesAgenda && !m.keywords.isEmpty then .error (.agendaWithKeywords m.name)
  else
    match firstRepeated? [] (m.keywords.map (·.name)) with
    | some keyword => .error (.keywordRepeated m.name keyword)
    | none => .ok ()

namespace MethodRegistry

/-! ## 2. Finding methods -/

/-- The number of registered methods, specializations included. -/
def size (r : MethodRegistry) : Nat := r.entries.length

/-- The method of a given id. -/
def get? (r : MethodRegistry) (id : MethodId) : Option Method :=
  r.entries[id.index]?.map (·.method)

/-- The method of a given id; an id that is not in use stands for a method without name, slots and
    keywords. -/
def get (r : MethodRegistry) (id : MethodId) : Method := (r.get? id).getD {}

/-- The id of the first entry with a given property. -/
def findFirst? (r : MethodRegistry) (p : RegisteredMethod → Bool) : Option MethodId :=
  (r.entries.findIdx? p).map .mk

/-- The ordinary method of a given name. -/
def find? (r : MethodRegistry) (name : String) : Option MethodId :=
  r.findFirst? fun e => e.origin.isNone && e.method.name = name

/-- The specialization of a generic method for a group. -/
def resolve? (r : MethodRegistry) (base : MethodId) (group : Group) : Option MethodId :=
  r.findFirst? fun e => e.origin = some ⟨base, group⟩

/-- The generic method that a specialization specializes. -/
def baseOf? (r : MethodRegistry) (id : MethodId) : Option MethodId :=
  (r.entries[id.index]?.bind (·.origin)).map (·.base)

/-- The method by whose name a method is called: the generic one for a specialization. -/
def calledAs (r : MethodRegistry) (id : MethodId) : Method := r.get ((r.baseOf? id).getD id)

/-- All ids in use, in order. -/
def ids (r : MethodRegistry) : List MethodId := (List.range r.size).map .mk

/-! ## 3. Registration -/

/-- The registry with one more entry, and the id of that entry. -/
def push (r : MethodRegistry) (entry : RegisteredMethod) : MethodId × MethodRegistry :=
  (⟨r.size⟩, ⟨r.entries ++ [entry]⟩)

/-- Registers an ordinary method under its name. -/
def insert (r : MethodRegistry) (m : Method) : Except RegistryError (MethodId × MethodRegistry) := do
  m.check
  if (r.find? m.name).isSome then
    throw (.methodExists m.name)
  return r.push ⟨m, none⟩

/-- Registers a specialization of a generic method for one group: a concrete method with as many
    outputs and inputs as the generic one. -/
def insertSpecialization (r : MethodRegistry) (base : MethodId) (group : Group) (m : Method) :
    Except RegistryError (MethodId × MethodRegistry) := do
  m.check
  let generic := r.get base
  if !generic.isGeneric then
    throw (.notGeneric generic.name)
  if m.isGeneric then
    throw (.notConcrete m.name)
  if m.outputs.length ≠ generic.outputs.length ∨ m.inputs.length ≠ generic.inputs.length then
    throw (.slotCountDiffers generic.name m.name)
  if (r.resolve? base group).isSome then
    throw (.specializationExists generic.name group)
  return r.push ⟨m, some ⟨base, group⟩⟩

end MethodRegistry

end ControlScript
