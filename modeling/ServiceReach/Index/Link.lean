import ServiceReach.Index.Declaration

/-
  From declarations to types. Linking resolves the names in the head of a declaration and in the
  heads of its members. Method bodies are only set aside: what is to become of a body is known
  when all types are linked. A class without constructor gets an implicit one, and the static
  initialisers of a type are one method.
-/

namespace ServiceReach.Index

open Source

/-- A linked method, and the statements of its body if it is to be lowered. -/
structure LinkedMethod where
  method : Method
  /-- The parameters by name, with their types. -/
  params : List (String × String) := []
  body : Option (List Tree) := none

/-- A linked type: its methods have no code yet. -/
structure LinkedType where
  declaration : Declaration
  type : TypeDecl
  methods : List LinkedMethod

/-- The list with a word added at the end, unless it is there. -/
def addWord (words : List String) (word : String) : List String :=
  if words.contains word then words else words ++ [word]

/-- The type a written type means inside a declaration. -/
def Declaration.resolve (d : Declaration) (scopes : Scopes) (raw : String) : Option String :=
  scopes.resolve d.entry.header (some d.name) raw

/-- The type that a node writes. -/
def Declaration.resolveNode (d : Declaration) (scopes : Scopes) (t : Option Tree) :
    Option String :=
  d.resolve scopes (d.entry.textOf? t)

/-- The types of a clause such as `implements`, each once. -/
def Declaration.typeList (d : Declaration) (scopes : Scopes) (clause : Option Tree) :
    List String :=
  match clause with
  | none => []
  | some clause =>
    let nodes := ((clause.child? [.typeList]).getD clause).constructs
    (nodes.filterMap fun t => present? (d.resolveNode scopes (some t))).foldl addWord []

/-- The superclass of a class that names none. -/
def defaultSuperclass (kind : DeclKind) : String :=
  match kind with
  | .enum => "java.lang.Enum"
  | .record => "java.lang.Record"
  | _ => "java.lang.Object"

/-- The superclass that a declaration of a class names, or has by default. -/
def Declaration.superclass (d : Declaration) (scopes : Scopes) : Option String :=
  match d.node.child? [.superclass] with
  | some clause =>
    match clause.constructs with
    | [] => none
    | t :: _ => d.resolveNode scopes (some t)
  | none => if d.name == "java.lang.Object" then none else some (defaultSuperclass d.kind)

/-- The type of a declaration, without its members. -/
def Declaration.head (d : Declaration) (c : Catalog) (scopes : Scopes) : TypeDecl :=
  let bare : TypeDecl :=
    { name := d.name
      isApplication := d.entry.application
      file := some d.entry.path
      line := lineOf d.entry.text d.node
      col := columnOf d.entry.text d.node }
  match d.kind with
  | .interface =>
    { bare with
      isInterface := true
      isAbstract := true
      interfaces := d.typeList scopes (d.node.child? [.extendsInterfaces]) }
  | .anonymous =>
    let base := d.resolveNode scopes (d.node.field? .type)
    match base, (base.bind c.find?).map Declaration.kind with
    | some base, some .interface =>
      { bare with superclass := some "java.lang.Object", interfaces := [base] }
    | _, _ => { bare with superclass := base }
  | _ =>
    { bare with
      isAbstract := d.node.modifiers.contains "abstract"
      superclass := d.superclass scopes
      interfaces := d.typeList scopes (d.node.child? [.superInterfaces]) }

/-- The members of a declaration. -/
def Declaration.members (d : Declaration) : List Tree :=
  let body := if d.kind == .anonymous then d.node.child? [.classBody] else d.node.field? .body
  match body with
  | none => []
  | some body => body.constructs.flatMap fun t =>
      if t.kind == .enumBodyDeclarations then t.constructs else [t]

/-- The fields that a member declares, with their type. -/
def Declaration.fieldsOf (d : Declaration) (scopes : Scopes) (member : Tree) :
    List (String × String) :=
  match present? (d.resolveNode scopes (member.field? .type)) with
  | none => []
  | some type =>
    (member.fields .declarator).filterMap fun t =>
      (t.field? .name).map fun name => (d.entry.textOf name, type)

/-- A parameter of a method: its name, if it has one, its type, and whether it takes many. -/
structure Parameter where
  name : Option String
  type : String
  many : Bool

/-- The parameter that a node declares. -/
def Declaration.parameter? (d : Declaration) (scopes : Scopes) (t : Tree) : Option Parameter :=
  match t.kind with
  | .formalParameter =>
    some ⟨(t.field? .name).map d.entry.textOf,
      (present? (d.resolveNode scopes (t.field? .type))).getD "?", false⟩
  | .spreadParameter =>
    let type := t.constructs.find? fun c => c.kind != .modifiers && c.kind != .variableDeclarator
    let name := (t.child? [.variableDeclarator]).bind (·.field? .name)
    some ⟨name.map d.entry.textOf,
      (present? (d.resolveNode scopes type)).getD "?" ++ "[]", true⟩
  | _ => none

/-- The parameters by name; one without a name is named after its place. -/
def nameParameters (params : List Parameter) : List (String × String) :=
  params.zipIdx.map fun (p, i) => (p.name.getD ("p" ++ toString i), p.type)

/-- The modifiers of a method, with those that a method of an interface has by itself. -/
def methodModifiers (inInterface : Bool) (node : Tree) : List String :=
  if inInterface then
    let words := addWord node.modifiers "public"
    if (node.field? .body).isNone && !words.contains "static" then addWord words "abstract"
    else words
  else node.modifiers

/-- The method or constructor that a member declares. -/
def Declaration.method (d : Declaration) (scopes : Scopes) (node : Tree) : LinkedMethod :=
  let params := match node.field? .parameters with
    | none => []
    | some list => list.constructs.filterMap (d.parameter? scopes)
  let isConstructor := node.kind == .constructorDeclaration
  let body := node.field? .body
  { method :=
      { owner := d.name
        name := if isConstructor then "<init>" else d.entry.textOf? (node.field? .name)
        params := params.map Parameter.type
        returnType :=
          if isConstructor then "void"
          else (present? (d.resolveNode scopes (node.field? .type))).getD "void"
        modifiers := methodModifiers (d.kind == .interface) node
        hasBody := body.isSome
        varargs := params.any Parameter.many
        line := lineOf d.entry.text node
        col := columnOf d.entry.text node }
    params := nameParameters params
    body := body.map ([·]) }

/-- The methods that the members of a type declare. -/
def Declaration.declaredMethods (d : Declaration) (scopes : Scopes) : List LinkedMethod :=
  (d.members.filter fun t =>
    t.kind == .methodDeclaration || t.kind == .constructorDeclaration).map (d.method scopes)

/-- The blocks of the static initialisers. -/
def Declaration.staticBlocks (d : Declaration) : List Tree :=
  (d.members.filter fun t => t.kind == .staticInitializer).filterMap (·.child? [.block])

/-- The method that runs the static initialisers, if there are any. -/
def Declaration.staticMethod (d : Declaration) : List LinkedMethod :=
  match d.staticBlocks with
  | [] => []
  | block :: blocks =>
    [{ method :=
        { owner := d.name
          name := "<clinit>"
          modifiers := ["static"]
          hasBody := true
          line := lineOf d.entry.text block }
       body := some (block :: blocks) }]

/-- The implicit constructor of a type without one; interfaces have none. -/
def Declaration.implicitConstructor (d : Declaration) (declared : List LinkedMethod) :
    List LinkedMethod :=
  if d.kind == .interface || declared.any fun m => m.method.isConstructor then []
  else
    [{ method :=
        { owner := d.name
          name := "<init>"
          modifiers := ["public"]
          hasBody := true
          line := lineOf d.entry.text d.node
          col := columnOf d.entry.text d.node }
       body := some [] }]

/-- Bodies of library types are not lowered. -/
def LinkedMethod.inEntry (e : Entry) (m : LinkedMethod) : LinkedMethod :=
  if e.application then m else { m with body := none }

/-- The fields of a type by name; the last declaration of a name gives its type. -/
def Declaration.allFields (d : Declaration) (scopes : Scopes) : List (String × String) :=
  let members := d.members.filter fun t =>
    t.kind == .fieldDeclaration || t.kind == .constantDeclaration
  (members.flatMap (d.fieldsOf scopes)).foldl (fun fs f => Json.setMember f.1 f.2 fs) []

/-- The type of a declaration. -/
def Declaration.link (d : Declaration) (c : Catalog) (scopes : Scopes) : LinkedType :=
  let declared := d.declaredMethods scopes
  let methods := (declared ++ d.staticMethod ++ d.implicitConstructor declared).map
    (LinkedMethod.inEntry d.entry)
  { declaration := d
    type :=
      { d.head c scopes with
        fields := d.allFields scopes
        methods := methods.map LinkedMethod.method }
    methods }

/-- All declared types, in order. -/
def Catalog.link (c : Catalog) : List LinkedType :=
  c.declarations.map fun d => d.link c c.scopes

end ServiceReach.Index
