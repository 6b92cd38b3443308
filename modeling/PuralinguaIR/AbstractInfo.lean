import PuralinguaIR.TypeDef

/-!
# Abstract information about types

What the compilers tell each other about a type: its identifier, its parent, the interfaces it implements, and
its methods and fields with their identifiers. `CompilerService` is the service the compiler asks: for the
types other compilers and this one know, for the name of the assembly that is built, and for the contents of
files.
-/

namespace PuralinguaIR

structure FieldInformation where
  name : String
  id : UInt32
  attr : FieldAttr
  ty : TypeReference
deriving DecidableEq, Repr

structure ParameterInformation where
  attr : ParameterAttr
  name : Option String
  ty : TypeReference
deriving DecidableEq, Repr

structure MethodInformation where
  name : String
  id : UInt32
  attr : MethodAttr TypeReference
  parameters : List ParameterInformation
  returnType : TypeReference
deriving DecidableEq, Repr

def MethodInformation.isStatic (m : MethodInformation) : Bool := m.attr.static

structure TypeInformation where
  assemblyName : String
  name : String
  id : UInt32
  attr : TypeAttr
  genericCount : GenericCountRequirement
  parent : Option TypeReference
  implementedInterfaces : List TypeReference
  fields : List FieldInformation
  methods : List MethodInformation
  providerName : String
deriving DecidableEq, Repr

/-- What a query for types asks for. -/
structure TypeQueryOptions where
  langId : Option String := none
  assemblyName : Option String := none
  index : Option UInt32 := none
  genericCount : Option UInt32 := none
  typeName : Option String := none
  tryDecorate : Bool
  exact : Bool
  implementedInterface : Option TypeReference := none
deriving DecidableEq, Repr

/-- The service of the compilers. -/
class CompilerService where
  FilePath : Type
  Error : Type
  readPath : FilePath → Except Error ByteArray
  assemblyName : String
  query : TypeQueryOptions → List TypeInformation
  /-- The name of a type as it is written with its number of generics. -/
  decorate : GenericCountRequirement → String → String

export CompilerService (FilePath readPath)

/-- A service of an assembly `A` that knows the given types and no files. -/
@[reducible] def serviceOf (types : List TypeInformation) : CompilerService where
  FilePath := Empty
  Error := Empty
  readPath path := path.elim
  assemblyName := "A"
  query options := types.filter fun t =>
    options.assemblyName.all (· == t.assemblyName) && options.typeName.all (· == t.name) &&
      options.index.all (· == t.id)
  decorate _ s := s

def COMPILER_ID : String := "PuralinguaIR"

/-! ### Own types -/

def Field.toAbstract (f : Field) : FieldInformation :=
    { name := f.name.var, id := f.index, attr := f.attr, ty := f.ty }

def Parameter.toAbstract (p : Parameter) : ParameterInformation := { attr := p.attr, name := none, ty := p.ty }

def Method.toAbstract (m : Method) : MethodInformation :=
  { name := m.name.var, id := m.index, attr := m.attr, parameters := m.args.map Parameter.toAbstract,
    returnType := m.returnType }

/-- The interfaces for which some method has an `impl` clause, each once. -/
def collectImplementedInterfaces (methods : List Method) : List TypeReference :=
  methods.foldl (fun result m =>
    match m.impl with
    | some (ty, _) => if result.contains ty then result else result ++ [ty]
    | none => result) []

variable [CompilerService]

def ClassDef.toAbstract (d : ClassDef) : TypeInformation :=
  let genericCount := genericCountRequirement d.generics d.isGenericInfinite
  { assemblyName := "", name := CompilerService.decorate genericCount d.name.var, id := d.index, attr := d.attr,
    genericCount, parent := d.parent, implementedInterfaces := collectImplementedInterfaces d.methods,
    fields := d.fields.map Field.toAbstract, methods := d.methods.map Method.toAbstract,
    providerName := COMPILER_ID }

def StructDef.toAbstract (d : StructDef) : TypeInformation :=
  let genericCount := genericCountRequirement d.generics d.isGenericInfinite
  { assemblyName := "", name := CompilerService.decorate genericCount d.name.var, id := d.index, attr := d.attr,
    genericCount, parent := none, implementedInterfaces := collectImplementedInterfaces d.methods,
    fields := d.fields.map Field.toAbstract, methods := d.methods.map Method.toAbstract,
    providerName := COMPILER_ID }

def InterfaceDef.toAbstract (d : InterfaceDef) : TypeInformation :=
  let genericCount := genericCountRequirement d.generics d.isGenericInfinite
  { assemblyName := "", name := CompilerService.decorate genericCount d.name.var, id := d.index, attr := d.attr,
    genericCount, parent := none, implementedInterfaces := d.requiredInterfaces, fields := [],
    methods := d.methods.map Method.toAbstract, providerName := COMPILER_ID }

def TypeDef.toAbstract : TypeDef → TypeInformation
  | .class d => d.toAbstract
  | .struct d => d.toAbstract
  | .interface d => d.toAbstract

end PuralinguaIR
