import SelectionTree.Event
import SelectionTree.Log.Filter
import SelectionTree.Log.Unseen
import SelectionTree.Node.Text
/-!
The log of a run, a function of its events. Events and spans that the filter does not let through
leave no line; an event carries the name and the fields of the innermost logged span around it. In
quoted text a character that would not be seen as itself is written by a letter or by its number.
-/
set_option autoImplicit false

namespace SelectionTree

namespace Quoted

def isNumbered (c : Char) : Bool := c.toNat < 32 || Unseen.contains c

def escape (c : Char) : List Char :=
  if c = '\x00' then ['\\', '0']
  else if c = '\t' then ['\\', 't']
  else if c = '\r' then ['\\', 'r']
  else if c = '\n' then ['\\', 'n']
  else if c = '"' then ['\\', '"']
  else if c = '\\' then ['\\', '\\']
  else if isNumbered c then '\\' :: 'u' :: '\x7b' :: Nat.toDigits 16 c.toNat ++ ['\x7d']
  else [c]

def text (s : String) : String := String.ofList ('"' :: s.toList.flatMap escape ++ ['"'])

def option : Option String → String
  | some s => "Some(" ++ text s ++ ")"
  | none => "None"

end Quoted

structure Line where
  level : Level
  target : String
  message : String
  fields : List (String × Json)

def Line.toJson (name : String) (l : Line) : Json :=
  .obj ([("v", .num (.int 0)), ("name", .str name), ("msg", .str l.message),
    ("level", .num (.int l.level.number)), ("target", .str l.target)] ++ l.fields)

namespace Log

def conversionTarget : String := "operation_fields::field_selection::converter"

def valuesTarget : String := "operation_fields::field_selection::values"

def schemaTarget : String := "operation_fields::schema::sdl"

end Log

namespace Span

def title : Span → String
  | conversion _ => "CONVERT"
  | rendering => "CONVERT_TO_JSON"

def fields : Span → List (String × Json)
  | conversion kind => [("operation", .str kind.word)]
  | rendering => []

def line (s : Span) (mark : String) : Line :=
  ⟨.info, Log.conversionTarget, "[" ++ s.title ++ " - " ++ mark ++ "]", s.fields⟩

end Span

namespace Event

/-- The line of an event as it is outside all spans; spans have lines of their own. -/
def line? : Event → Option Line
  | opened _ => none
  | closed _ => none
  | inlineExpanded condition =>
    some ⟨.trace, Log.conversionTarget, "Expanding inline fragment.",
      [("type_condition", .str (Quoted.option condition))]⟩
  | spreadExpanded fragment condition =>
    some ⟨.trace, Log.conversionTarget, "Expanding fragment spread.",
      [("fragment", .str fragment), ("type_condition", .str condition)]⟩
  | unboundVariable name =>
    some ⟨.debug, Log.valuesTarget, "Extracted unbound variable as null.",
      [("variable", .str name)]⟩
  | selectionsDiscarded field =>
    some ⟨.debug, Log.conversionTarget, "Discarded nested selections of a leaf field.",
      [("field", .str field)]⟩
  | treeConverted tree =>
    some ⟨.debug, Log.conversionTarget, "Converted operation selections.",
      [("selections", .str tree.text)]⟩
  | schemaLoaded types =>
    some ⟨.debug, Log.schemaTarget, "Loaded composite types from schema document.",
      [("types", .num (.int types))]⟩
  | variablesIgnored value =>
    some ⟨.warn, Log.valuesTarget, "Variable values must be an object, ignoring them.",
      [("value", .str value.text)]⟩

end Event

namespace Line

def passes (f : Filter) (l : Line) : Bool := f.enables l.target l.level

def inside (spans : List Span) (l : Line) : Line :=
  match spans with
  | [] => l
  | s :: _ =>
    { l with
      message := "[" ++ s.title ++ " - EVENT] " ++ l.message
      fields := l.fields ++ s.fields }

end Line

namespace Log

inductive InstallError where
  | taken
  deriving DecidableEq, Repr

def InstallError.message : InstallError → String
  | taken =>
    "Failed to redirect log records to tracing: attempted to set a logger after the logging system "
      ++ "was already initialized"

/-- A process sends its log somewhere once; the answer is whether it does from now on. -/
def install (installed : Bool) : Except InstallError Bool :=
  if installed then .error .taken else .ok true

def linesWithin (f : Filter) (spans : List Span) : List Event → List Line
  | [] => []
  | .opened s :: rest =>
    if (s.line "START").passes f then s.line "START" :: linesWithin f (s :: spans) rest
    else linesWithin f spans rest
  | .closed s :: rest =>
    if (s.line "END").passes f then s.line "END" :: linesWithin f spans.tail rest
    else linesWithin f spans rest
  | e :: rest =>
    match e.line? with
    | some l =>
      if l.passes f then l.inside spans :: linesWithin f spans rest else linesWithin f spans rest
    | none => linesWithin f spans rest

def lines (f : Filter) (events : List Event) : List Line := linesWithin f [] events

end Log

end SelectionTree
