import Ciel.Types.Ty
import Mathlib.Data.String.Basic

/-!
# Names of type instances

The checker, the monomorphizer and the code generator keep their struct and enum
tables under an instance name: the nominal name of the definition, joined by
underscores with the mangled type arguments. Mangling writes the words of a type
in prefix order. It never writes how many arguments follow and does not escape the
separator.

`ResolvedProgram` has what names depend on: the definitions in the order of their
ids, and the export path of the module each belongs to. `generics` is the number of
type parameters that the template of a definition declares.
-/

namespace Ciel.Types

inductive DefKind
  | typeAlias | struct | enum | enumVariant | interface | interfaceAlias | function
  | externFunction | opaqueStruct
  deriving DecidableEq, Repr

/-- `is_nominal_type_def_kind`. -/
def DefKind.isNominal : DefKind → Bool
  | struct | enum => true
  | _ => false

structure Def where
  name : String
  kind : DefKind
  module : Nat
  generics : Nat

/-- How many arguments a definition takes as a dynamic interface: all parameters of an
alias, and all but the receiver of an interface. -/
def Def.dynamicArity? (definition : Def) : Option Nat :=
  match definition.kind with
  | .interface => some (definition.generics - 1)
  | .interfaceAlias => some definition.generics
  | _ => none

structure ResolvedProgram where
  defs : List Def
  stdExports : List (Option String)

namespace ResolvedProgram

/-- Another struct or enum has the name of the definition `defId`. -/
def hasSameNamedNominal (resolved : ResolvedProgram) (defId : DefId) (definition : Def) : Bool :=
  resolved.defs.zipIdx.any fun (other, id) =>
    id != defId && other.name == definition.name && other.kind.isNominal

/-- `nominal_type_name` of a definition that exists. -/
def nominalName (resolved : ResolvedProgram) (defId : DefId) (definition : Def) : String :=
  if resolved.stdExports[definition.module]? = some (some "/std/meta") then
    definition.name
  else if resolved.hasSameNamedNominal defId definition then
    definition.name ++ "__def" ++ toString defId
  else
    definition.name

/-- `nominal_type_name`, for any id. -/
def nominalTypeName (resolved : ResolvedProgram) (defId : DefId) : Option String :=
  (resolved.defs[defId]?).map (resolved.nominalName defId)

end ResolvedProgram

/-- Both `sanitize_mangle_fragment` and `mangle_abi_fragment` write ASCII letters in
lower case and anything else than letters and digits as an underscore. -/
def sanitized (value : String) : String :=
  String.ofList (value.toList.map fun ch => if ch.isAlphanum then ch.toLower else '_')

def sanitizeMangleFragment (value : String) : String :=
  if value = "" then "type" else sanitized value

def mangleAbiFragment : Option String → String
  | none => "ciel"
  | some abi => if abi = "" then "abi" else sanitized abi

def pointerWord : Bool → ViewMutability → String
  | false, .writable => "ptr"
  | false, .readOnly => "cptr"
  | true, .writable => "qptr"
  | true, .readOnly => "qcptr"

def sliceWord : ViewMutability → String
  | .writable => "slice"
  | .readOnly => "cslice"

def primitiveWord : PrimitiveType → String
  | .bool => "bool"
  | .char => "char"
  | .i8 => "i8"
  | .i16 => "i16"
  | .i32 => "i32"
  | .i64 => "i64"
  | .u8 => "u8"
  | .u16 => "u16"
  | .u32 => "u32"
  | .u64 => "u64"
  | .usize => "usize"
  | .f32 => "f32"
  | .f64 => "f64"

/-- `Display` of a closure instance id. -/
def ClosureInstanceId.display (id : ClosureInstanceId) : String :=
  let owner := match id.owner with
    | .function defId => "function_" ++ toString defId
    | .genericInstance template id => "generic_" ++ toString template ++ "_" ++ toString id
  owner ++ "_closure_" ++ toString id.origin

/-- Fragments joined by underscores, or a word that stands for none. -/
def joinOr (empty : String) (fragments : List String) : String :=
  if fragments = [] then empty else String.intercalate "_" fragments

/-- `aggregate_instance_name`, from the mangled arguments. -/
def instanceName (name : String) (args : List String) : String :=
  if args = [] then name else name ++ "_" ++ String.intercalate "_" args

/-! The format strings of the longer forms, applied to fragments. -/

def futureName (affineState : Bool) (name output : String) : String :=
  (if affineState then "generated_affine_future" else "generated_future") ++ "_" ++ name ++ "_" ++
    output

def dynamicInterfaceName (defId : DefId) (name : String) (args : List String) : String :=
  instanceName ("dyn_" ++ name ++ "_def" ++ toString defId) args

def opaqueReturnName (defId : DefId) (args : List String) (bounds : String) : String :=
  "opaque_ret_def" ++ toString defId ++ "_args_" ++ joinOr "void" args ++ "_caps_" ++ bounds

def functionName (isUnsafe : Bool) (abi : Option String) (ret : String) (params : List String) :
    String :=
  "fn_" ++ (if isUnsafe then "unsafe" else "safe") ++ "_" ++ mangleAbiFragment abi ++ "_ret_" ++
    ret ++ "_args_" ++ joinOr "void" params

def closureName (ret : String) (params : List String) (constraints : String) : String :=
  "closure_ret_" ++ ret ++ "_args_" ++ joinOr "void" params ++ "_caps_" ++ constraints

def closureInstanceName (id : ClosureInstanceId) (ret : String) (params captures : List String) :
    String :=
  "closure_inst" ++ id.display ++ "_ret_" ++ ret ++ "_args_" ++ joinOr "void" params ++
    "_caps_" ++ joinOr "empty" captures

mutual

def mangleTyFragment : Ty → String
  | .hole _ => "hole"
  | .never => "never"
  | .void => "void"
  | .primitive primitive => primitiveWord primitive
  | .cSpelling defId abi spelling =>
    "c_def" ++ toString defId ++ "_" ++ mangleAbiFragment (some abi) ++ "_" ++
      sanitizeMangleFragment spelling
  | .pointer nullable mutability inner =>
    pointerWord nullable mutability ++ "_" ++ mangleTyFragment inner
  | .array len elem => "arr" ++ toString len ++ "_" ++ mangleTyFragment elem
  | .slice mutability elem => sliceWord mutability ++ "_" ++ mangleTyFragment elem
  | .named _ name args => instanceName name (mangleTys args)
  | .generatedFuture name output _ _ affineState _ =>
    futureName affineState name (mangleTyFragment output)
  | .opaqueState base _ => mangleTyFragment base
  | .generic name => "gen_" ++ name
  | .dynamicInterface defId name args => dynamicInterfaceName defId name (mangleTys args)
  | .opaqueReturn defId args bounds =>
    opaqueReturnName defId (mangleTys args) (mangleConstraintBounds bounds)
  | .function isUnsafe abi ret params =>
    functionName isUnsafe abi (mangleTyFragment ret) (mangleTys params)
  | .closure ret params constraints =>
    closureName (mangleTyFragment ret) (mangleTys params) (mangleConstraintBounds constraints)
  | .closureInstance id ret params captures =>
    closureInstanceName id (mangleTyFragment ret) (mangleTys params) (mangleTys captures)
  | .unknown => "unknown"

def mangleTys : List Ty → List String
  | [] => []
  | ty :: tys => mangleTyFragment ty :: mangleTys tys

def mangleConstraintRef : ConstraintRef → String
  | .mk defId name args =>
    instanceName (sanitizeMangleFragment name ++ "_def" ++ toString defId) (mangleTys args)

def mangleConstraintRefs (sign : String) : List ConstraintRef → List String
  | [] => []
  | entry :: entries =>
    (sign ++ mangleConstraintRef entry) :: mangleConstraintRefs sign entries

def mangleConstraintBounds : ConstraintBounds → String
  | .mk positive negative =>
    joinOr "none" (mangleConstraintRefs "pos_" positive ++ mangleConstraintRefs "neg_" negative)

end

/-- `aggregate_instance_name`. -/
def aggregateInstanceName (name : String) (args : List Ty) : String :=
  instanceName name (mangleTys args)

theorem mangleTys_eq_map (tys : List Ty) : mangleTys tys = tys.map mangleTyFragment := by
  induction tys with
  | nil => rfl
  | cons ty tys ih => simp [mangleTys, ih]

end Ciel.Types
