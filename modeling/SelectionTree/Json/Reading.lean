import SelectionTree.Json.Outline
import SelectionTree.Reader
/-!
Reading JSON text. The reader is strict about the form: nothing may follow the value, and there is
one way to write each thing. Whether what is written stands for a value is left to the outline.
-/
set_option autoImplicit false

namespace SelectionTree.Json

def isBlank (c : Char) : Bool := c = ' ' || c = '\t' || c = '\n' || c = '\r'

def skip (cs : List Char) : List Char := cs.dropWhile isBlank

def isLeading (n : Nat) : Bool := 0xD800 ≤ n && n < 0xDC00

def isTrailing (n : Nat) : Bool := 0xDC00 ≤ n && n < 0xE000

def trailingUnit : Reader Nat := fun cs => do
  let cs ← Reader.after ['\\', 'u'] cs
  let (n, cs) ← Escape.unit cs
  if isTrailing n then some (n, cs) else none

/-- The character of one unit, or of a pair of units. A half alone is no character. -/
def unitChar : Reader (Option Char) := fun cs => do
  let (high, cs) ← Escape.unit cs
  if isLeading high then
    match trailingUnit cs with
    | some (low, cs) =>
      some (some (Char.ofNat (0x10000 + (high - 0xD800) * 0x400 + (low - 0xDC00))), cs)
    | none => some (none, cs)
  else if isTrailing high then some (none, cs)
  else some (some (Char.ofNat high), cs)

def stringPiece : Reader (Option Char)
  | '\\' :: 'u' :: rest => unitChar rest
  | '\\' :: c :: rest => (Escape.letter? c).map fun c => (some c, rest)
  | c :: rest => if c = '"' || c = '\\' || c.toNat < 32 then none else some (some c, rest)
  | [] => none

/-- A string between quotes. It is without value if one of its pieces is no character. -/
def string : Reader (Option String)
  | '"' :: rest =>
    match Reader.many stringPiece rest with
    | (pieces, '"' :: rest) => some ((pieces.mapM id).map String.ofList, rest)
    | _ => none
  | _ => none

def items {α : Type} (item : Reader α) (close : Char) : Reader (List α) := fun cs =>
  match skip cs with
  | [] => none
  | c :: rest =>
    if c = close then some ([], rest)
    else do
      let (x, cs) ← item (c :: rest)
      let (xs, cs) := Reader.many (fun cs => Reader.after [','] (skip cs) >>= item) cs
      let cs ← Reader.after [close] (skip cs)
      some (x :: xs, cs)

def member {α : Type} (p : Reader α) : Reader (Option String × α) := fun cs => do
  let (name, cs) ← string (skip cs)
  let cs ← Reader.after [':'] (skip cs)
  let (x, cs) ← p cs
  some ((name, x), cs)

def word (w : String) (j : Json) : Reader Outline := fun cs =>
  (Reader.after w.toList cs).map fun rest => (.leaf (some j), rest)

def leaf : Reader Outline := fun cs =>
  word "null" .null cs
  <|> word "true" (.bool true) cs
  <|> word "false" (.bool false) cs
  <|> Reader.map (fun s => .leaf (s.map .str)) string cs
  <|> Reader.map (fun n => .leaf (if n.isFinite then some (.num n) else none)) Number.read cs

def outlineWithin : Nat → Reader Outline
  | 0, _ => none
  | depth + 1, cs =>
    match skip cs with
    | '[' :: rest => Reader.map .arr (items (outlineWithin depth) ']') rest
    | '\x7b' :: rest =>
      Reader.map Outline.ofMembers (items (member (outlineWithin depth)) '\x7d') rest
    | cs => leaf cs

def Outline.ofText? (s : String) : Option Outline :=
  let cs := s.toList
  match outlineWithin (cs.length + 1) cs with
  | some (o, rest) => if (skip rest).isEmpty then some o else none
  | none => none

def ofText? (s : String) : Option Json := (Outline.ofText? s).bind Outline.value?

end SelectionTree.Json
