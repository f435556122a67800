import ServiceReach.Text.Part

/-
  What a program is made of: types, their methods, the instructions of a method body and the calls
  in an instruction. Types are named by their binary names (`com.acme.Outer$Inner`), methods by
  their signatures (`<com.acme.Outer: int size(java.lang.String)>`): two methods are the same
  method if their signatures are equal.
-/

namespace ServiceReach

/-- The types that are not classes; `void` is one of them. -/
def primitiveTypes : List String :=
  ["boolean", "byte", "char", "short", "int", "long", "float", "double", "void"]

/-- Whether the name is that of a class or interface: not empty, primitive or an array. -/
def isReferenceName (name : String) : Bool :=
  !name.isEmpty && !primitiveTypes.contains name && !Text.endsWith "[]" name

/-- Whether a type is known and is a class or interface. -/
def isReference (name : Option String) : Bool :=
  match name with
  | none => false
  | some name => isReferenceName name

/-- The name, if there is one and it is not empty. -/
def present? (name : Option String) : Option String :=
  name.filter fun n => !n.isEmpty

/-- The part of a binary name after its package and its enclosing types. -/
def simpleName (name : String) : String :=
  Text.afterLast '$' (Text.afterLast '.' name)

/-- A method without its declaring type: `void onReceive(a.Context,a.Intent)`. -/
def subsignature (returnType name : String) (params : List String) : String :=
  returnType ++ " " ++ name ++ "(" ++ ",".intercalate params ++ ")"

/-- An actual argument of a call. -/
structure Argument where
  text : String
  /-- The static type, if it could be found. -/
  type : Option String
  /-- Whether the argument is the literal `null`. -/
  isNull : Bool := false
deriving DecidableEq, Repr

/-- Whether the argument is known to be an object. -/
def Argument.isReference (a : Argument) : Bool :=
  ServiceReach.isReference a.type

/-- How the target of a call is chosen. -/
inductive Dispatch where
  /-- By the class of the receiver at run time. -/
  | virtual
  /-- A static method. -/
  | static
  /-- A constructor or a method of the superclass. -/
  | special
  /-- Any other name for a manner of dispatch; it is treated as virtual. -/
  | other (name : String)
deriving DecidableEq, Repr

/-- The manner of dispatch with a given name. -/
def Dispatch.ofName (name : String) : Dispatch :=
  match name with
  | "virtual" => .virtual
  | "static" => .static
  | "special" => .special
  | name => .other name

/-- The name of a manner of dispatch. -/
def Dispatch.name : Dispatch → String
  | .virtual => "virtual"
  | .static => "static"
  | .special => "special"
  | .other name => name

/-- A call inside an instruction. -/
structure CallSite where
  /-- The signature of the method that contains the call. -/
  caller : Option String
  /-- The index of the instruction in the body of the caller. -/
  position : Int
  /-- The rank of the call in the instruction, in order of evaluation. -/
  ordinal : Int
  /-- The name of the method called, `<init>` for a constructor. -/
  name : String
  args : List Argument
  /-- The static type on which the call is dispatched. -/
  receiver : Option String
  dispatch : Dispatch
  /-- The signature of the method called, as declared. -/
  target : String
  line : Int := 0
deriving DecidableEq, Repr

/-- What an instruction does with control. -/
inductive InstructionKind where
  | statement
  /-- The header of a control-flow statement. -/
  | branch
  | return
deriving DecidableEq, Repr

/-- The name of a kind of instruction. -/
def InstructionKind.name : InstructionKind → String
  | .statement => "statement"
  | .branch => "branch"
  | .return => "return"

/-- One entry of a method body. -/
structure Instruction where
  /-- The index of the instruction in the body. -/
  position : Int
  text : String
  kind : InstructionKind := .statement
  calls : List CallSite := []
  line : Int := 0
deriving DecidableEq, Repr

/-- Whether the instruction ends the method. -/
def Instruction.isReturn (i : Instruction) : Bool :=
  i.kind == .return

/-- A method or constructor. -/
structure Method where
  /-- The name of the type that declares the method. -/
  owner : String
  name : String
  params : List String := []
  returnType : String := "void"
  /-- The keyword modifiers, each once. -/
  modifiers : List String := []
  hasBody : Bool := false
  code : List Instruction := []
  varargs : Bool := false
  line : Int := 0
  col : Int := 0
deriving DecidableEq, Repr

namespace Method

/-- The method without its declaring type. -/
def subsignature (m : Method) : String :=
  ServiceReach.subsignature m.returnType m.name m.params

/-- The name of the method in the whole program. -/
def signature (m : Method) : String :=
  "<" ++ m.owner ++ ": " ++ m.subsignature ++ ">"

/-- Whether the method has nothing to run: declared abstract, or without body and not native. -/
def isAbstract (m : Method) : Bool :=
  m.modifiers.contains "abstract" || (!m.hasBody && !m.modifiers.contains "native")

/-- Whether the method belongs to the type and not to its instances. -/
def isStatic (m : Method) : Bool :=
  m.modifiers.contains "static"

/-- Whether the method is a constructor. -/
def isConstructor (m : Method) : Bool :=
  m.name == "<init>"

/-- Whether two methods are the same. -/
def same (m n : Method) : Bool :=
  m.signature == n.signature

/-- The instructions to walk through: none without a body. -/
def instructions (m : Method) : List Instruction :=
  if m.hasBody then m.code else []

/-- The calls of the body, in order. -/
def sites (m : Method) : List CallSite :=
  m.instructions.flatMap Instruction.calls

/-- Whether the method can be called with `count` arguments. -/
def accepts (m : Method) (count : Int) : Bool :=
  if m.varargs then m.params.length ≤ count + 1 else count == m.params.length

/-- The number of places where the type of the argument is known and is that of the parameter. -/
def score (m : Method) (args : List (Option String)) : Nat :=
  ((m.params.zip args).filter fun (param, arg) => arg == some param).length

/-- The method, as shown in a debugger. -/
def describe (m : Method) : String :=
  "JavaMethod(" ++ m.signature ++ ")"

/-- The methods with `m` after them, unless it is among them. -/
def insertNew (methods : List Method) (m : Method) : List Method :=
  if methods.any (·.same m) then methods else methods ++ [m]

end Method

/-- A class or interface. -/
structure TypeDecl where
  /-- The binary name. -/
  name : String
  superclass : Option String := none
  interfaces : List String := []
  isInterface : Bool := false
  isAbstract : Bool := false
  /-- Whether the type belongs to the application and not to a library. -/
  isApplication : Bool := false
  /-- Whether the type is only referred to and never declared. -/
  isPhantom : Bool := false
  methods : List Method := []
  /-- The types of the fields, by name. -/
  fields : List (String × String) := []
  file : Option String := none
  line : Int := 0
  col : Int := 0
deriving DecidableEq, Repr

namespace TypeDecl

/-- The type that stands for a name nobody declares. -/
def phantom (name : String) : TypeDecl :=
  { name, isPhantom := true }

/-- The package of the type. -/
def package (t : TypeDecl) : String :=
  Text.beforeLast '.' t.name

/-- The superclass and the interfaces, as named by the declaration. -/
def parents (t : TypeDecl) : List String :=
  (present? t.superclass).toList ++ t.interfaces

/-- The parents that can be looked up. -/
def supers (t : TypeDecl) : List String :=
  t.parents.filter isReferenceName

/-- The first method of the type with a given subsignature. -/
def declared? (t : TypeDecl) (sub : String) : Option Method :=
  t.methods.find? fun m => m.subsignature == sub

/-- Whether instances of exactly this type can exist. -/
def isConcrete (t : TypeDecl) : Bool :=
  !t.isInterface && !t.isAbstract

/-- Whether the type is a class that somebody declares. -/
def isRealClass (t : TypeDecl) : Bool :=
  !t.isInterface && !t.isPhantom

/-- The type, as shown in a debugger. -/
def describe (t : TypeDecl) : String :=
  "JavaType(" ++ t.name ++ ")"

end TypeDecl
end ServiceReach
