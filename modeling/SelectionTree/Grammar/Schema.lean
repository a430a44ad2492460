import SelectionTree.Grammar.Literal
import SelectionTree.Schema
/-!
Schema documents. The whole text has to match first; then its definitions are looked at one by one,
and the first that holds a number beyond the range of the format, or names root types wrongly, is
the fault of the document.
-/
set_option autoImplicit false

namespace SelectionTree

inductive SchemaError where
  | malformed
  | repeatedRoot (kind : OperationKind)
  | noQueryRoot
  deriving DecidableEq, Repr

def SchemaError.message : SchemaError → String
  | malformed => "Failed parsing schema document: document does not match the grammar"
  | repeatedRoot kind =>
    "Failed parsing schema document: multiple " ++ kind.word ++ " roots in schema definition"
  | noQueryRoot => "Failed parsing schema document: schema definition is missing query root"

namespace Roots

def ofEntries : List (OperationKind × String) → Roots → Except SchemaError Roots
  | [], roots => .ok roots
  | (kind, name) :: rest, roots =>
    if (roots.get kind).isSome then .error (.repeatedRoot kind)
    else ofEntries rest (roots.set name kind)

/-- The roots of a definition. One that is not an extension has to name the query root. -/
def ofDefinition (extension : Bool) (entries : List (OperationKind × String)) :
    Except SchemaError Roots := do
  let roots ← ofEntries entries {}
  if !extension && roots.query.isNone then .error .noQueryRoot else .ok roots

end Roots

namespace Grammar

structure SchemaItem where
  definition : Except SchemaError Definition
  literals : List Literal

def SchemaItem.check (item : SchemaItem) : Except SchemaError Definition :=
  if item.literals.all Literal.isFinite then item.definition else .error .malformed

def directiveLiterals (ds : List Directive) : List Literal :=
  ds.flatMap fun d => d.arguments.map Prod.snd

def anyDirectives (cs : List Char) : List Literal × List Char :=
  let (ds, cs) := Reader.many (directive true) cs
  (directiveLiterals ds, cs)

def someDirectives : Reader (List Literal) :=
  Reader.map directiveLiterals (Reader.some1 (directive true))

def skipDescription (cs : List Char) : List Char := (Reader.optional string cs).2

def inputValue : Reader (List Literal) := fun cs => do
  let (_, cs) ← name (skipDescription cs)
  let cs ← after ":" cs
  let (_, cs) ← typeRef cs
  let (l, cs) := Reader.optional defaultValue cs
  let (ls, cs) := anyDirectives cs
  some (l.toList ++ ls, cs)

def declaredArguments : Reader (List Literal) :=
  Reader.map List.flatten (between1 "(" ")" inputValue)

def fieldDeclaration : Reader (FieldDeclaration × List Literal) := fun cs => do
  let (name, cs) ← name (skipDescription cs)
  let (args, cs) := Reader.optional declaredArguments cs
  let cs ← after ":" cs
  let (type, cs) ← typeRef cs
  let (ls, cs) := anyDirectives cs
  some ((⟨name, type⟩, args.getD [] ++ ls), cs)

/-- A name that is no word for a truth value or null, nor starts with one. -/
def enumName : Reader String := fun cs =>
  if (after "true" cs).isSome || (after "false" cs).isSome || (after "null" cs).isSome then none
  else name cs

def enumValue : Reader (List Literal) := fun cs => do
  let (_, cs) ← enumName (skipDescription cs)
  some (anyDirectives cs)

/-- Names with a mark between them, and before the first one if it is written there. -/
def names (mark : String) : Reader (List String) := fun cs => do
  let (_, cs) := Reader.optional (word mark ()) cs
  let (first, cs) ← name cs
  let (more, cs) := Reader.many (fun cs => (after mark cs).bind name) cs
  some (first :: more, cs)

def interfaces : Reader (List String) := fun cs => (after "implements" cs).bind (names "&")

abbrev BodyReader := Reader (TypeBody × List Literal)

def declaredFields (body : List FieldDeclaration → TypeBody) : BodyReader :=
  Reader.map (fun fs => (body (fs.map Prod.fst), fs.flatMap Prod.snd))
    (between1 "\x7b" "\x7d" fieldDeclaration)

def unionMembers : BodyReader := fun cs => do
  let cs ← after "=" cs
  let (_, cs) ← names "|" cs
  some ((.union, []), cs)

def enumValues : BodyReader :=
  Reader.map (fun ls => (.enumeration, ls.flatten)) (between1 "\x7b" "\x7d" enumValue)

def inputFields : BodyReader :=
  Reader.map (fun ls => (.inputObject, ls.flatten)) (between1 "\x7b" "\x7d" inputValue)

def definitionBody (empty : TypeBody) (body : BodyReader) : BodyReader := fun cs =>
  let (ls, cs) := anyDirectives cs
  match Reader.optional body cs with
  | (some (b, more), cs) => some ((b, ls ++ more), cs)
  | (none, cs) => some ((empty, ls), cs)

def extensionBody (empty : TypeBody) (body : BodyReader) : BodyReader :=
  Reader.orElse
    (fun cs => do
      let (ls, cs) := anyDirectives cs
      let ((b, more), cs) ← body cs
      some ((b, ls ++ more), cs))
    (Reader.map (fun ls => (empty, ls)) someDirectives)

def afterInterfaces (body : BodyReader) : BodyReader := fun cs =>
  body (Reader.optional interfaces cs).2

def typeNamed (extension : Bool) (body : BodyReader) : Reader SchemaItem := fun cs => do
  let (name, cs) ← name cs
  let ((b, ls), cs) ← body cs
  some (⟨.ok (.type extension name b), ls⟩, cs)

def typeDefinition (keyword : String) (whole extended : BodyReader) : Reader SchemaItem :=
  Reader.orElse
    (fun cs => (after keyword (skipDescription cs)).bind (typeNamed false whole))
    (fun cs => ((after "extend" cs).bind (after keyword)).bind (typeNamed true extended))

def scalarType : Reader SchemaItem :=
  let nothing : BodyReader := fun _ => none
  typeDefinition "scalar" (definitionBody .scalar nothing) (extensionBody .scalar nothing)

def objectType : Reader SchemaItem :=
  let fields := declaredFields .object
  typeDefinition "type" (afterInterfaces (definitionBody (.object []) fields))
    (Reader.orElse (afterInterfaces (extensionBody (.object []) fields))
      (Reader.map (fun _ => (.object [], [])) interfaces))

def interfaceType : Reader SchemaItem :=
  let fields := declaredFields .interface
  typeDefinition "interface" (afterInterfaces (definitionBody (.interface []) fields))
    (afterInterfaces (extensionBody (.interface []) fields))

def unionType : Reader SchemaItem :=
  typeDefinition "union" (definitionBody .union unionMembers) (extensionBody .union unionMembers)

def enumType : Reader SchemaItem :=
  typeDefinition "enum" (definitionBody .enumeration enumValues)
    (extensionBody .enumeration enumValues)

def inputType : Reader SchemaItem :=
  typeDefinition "input" (definitionBody .inputObject inputFields)
    (extensionBody .inputObject inputFields)

def rootEntry : Reader (OperationKind × String) := fun cs => do
  let (kind, cs) ← operationKind cs
  let cs ← after ":" cs
  let (name, cs) ← name cs
  some ((kind, name), cs)

def rootsItem (extension : Bool) (ls : List Literal) (entries : List (OperationKind × String)) :
    SchemaItem :=
  ⟨(Roots.ofDefinition extension entries).map (Definition.schema extension), ls⟩

def rootBlock (extension : Bool) : Reader SchemaItem := fun cs => do
  let (ls, cs) := anyDirectives cs
  let (entries, cs) ← between1 "\x7b" "\x7d" rootEntry cs
  some (rootsItem extension ls entries, cs)

def schemaDefinition : Reader SchemaItem :=
  Reader.orElse (fun cs => (after "schema" cs).bind (rootBlock false))
    (fun cs => ((after "extend" cs).bind (after "schema")).bind
      (Reader.orElse (rootBlock true)
        (Reader.map (fun ls => rootsItem true ls []) someDirectives)))

/-- The places where a directive may stand. A word that starts another comes behind it. -/
def locations : List String :=
  ["QUERY", "MUTATION", "SUBSCRIPTION", "FIELD_DEFINITION", "FIELD", "FRAGMENT_DEFINITION",
    "FRAGMENT_SPREAD", "INLINE_FRAGMENT", "VARIABLE_DEFINITION", "SCHEMA", "SCALAR", "OBJECT",
    "ARGUMENT_DEFINITION", "INTERFACE", "UNION", "ENUM_VALUE", "ENUM", "INPUT_OBJECT",
    "INPUT_FIELD_DEFINITION"]

def location : Reader String := fun cs => locations.findSome? fun l => word l l cs

def directiveDefinition : Reader SchemaItem := fun cs => do
  let cs ← after "directive" (skipDescription cs)
  let cs ← after "@" cs
  let (name, cs) ← name cs
  let (args, cs) := Reader.optional declaredArguments cs
  let cs ← after "on" cs
  let (_, cs) := Reader.optional (word "|" ()) cs
  let (_, cs) ← location cs
  let (_, cs) := Reader.many (fun cs => (after "|" cs).bind location) cs
  some (⟨.ok (.directive name), args.getD []⟩, cs)

def schemaItem : Reader SchemaItem :=
  Reader.orElse schemaDefinition <|
  Reader.orElse scalarType <|
  Reader.orElse objectType <|
  Reader.orElse interfaceType <|
  Reader.orElse unionType <|
  Reader.orElse enumType <|
  Reader.orElse inputType directiveDefinition

def schemaItems? (cs : List Char) : Option (List SchemaItem) := do
  let (items, cs) ← Reader.some1 schemaItem cs
  if (skip cs).isEmpty then some items else none

end Grammar

def Schema.definitions (s : String) : Except SchemaError (List Definition) :=
  match Grammar.schemaItems? s.toList with
  | none => .error .malformed
  | some items => items.mapM Grammar.SchemaItem.check

end SelectionTree
