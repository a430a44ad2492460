import SelectionTree.Reader
import SelectionTree.TypeRef
/-!
The words of documents. Blanks, commas and comments may stand before any word and separate nothing:
a keyword needs no boundary behind it. Inside a name, a number, a string or a type reference
nothing is skipped.
-/
set_option autoImplicit false

namespace SelectionTree.Grammar

def isNewline (c : Char) : Bool := c = '\n' || c = '\r'

def isBlank (c : Char) : Bool := c = ' ' || c = ',' || c = '\t' || c = '\ufeff' || isNewline c

mutual

def skip : List Char → List Char
  | [] => []
  | c :: rest => if isBlank c then skip rest else if c = '#' then skipComment rest else c :: rest

def skipComment : List Char → List Char
  | [] => []
  | c :: rest => if isNewline c then skip rest else skipComment rest

end

def after (word : String) (cs : List Char) : Option (List Char) :=
  Reader.after word.toList (skip cs)

def word {α : Type} (w : String) (x : α) : Reader α := fun cs =>
  (after w cs).map fun rest => (x, rest)

def isNameStart (c : Char) : Bool := c.isAlpha || c = '_'

def isNameChar (c : Char) : Bool := c.isAlpha || c.isDigit || c = '_'

def nameHere : Reader String
  | c :: rest =>
    if isNameStart c then
      some (String.ofList (c :: rest.takeWhile isNameChar), rest.dropWhile isNameChar)
    else none
  | [] => none

def name : Reader String := fun cs => nameHere (skip cs)

/-- A character of a string on one line. An escape may not name half of a pair of units. -/
def stringChar : Reader Char
  | '\\' :: 'u' :: rest => do
    let (n, rest) ← Escape.unit rest
    if 0xD800 ≤ n && n < 0xE000 then none else some (Char.ofNat n, rest)
  | '\\' :: c :: rest => (Escape.letter? c).map fun c => (c, rest)
  | c :: rest => if c = '"' || c = '\\' || isNewline c then none else some (c, rest)
  | [] => none

/-- A piece of a block string: a character, or three quotes behind a backslash, which stay as they
are written. -/
def blockPiece : Reader (List Char)
  | '"' :: '"' :: '"' :: _ => none
  | '\\' :: '"' :: '"' :: '"' :: rest => some (['\\', '"', '"', '"'], rest)
  | c :: rest => some ([c], rest)
  | [] => none

def lines : List Char → List (List Char)
  | [] => [[]]
  | '\r' :: '\n' :: rest => [] :: lines rest
  | c :: rest =>
    if isNewline c then [] :: lines rest
    else
      match lines rest with
      | [] => [[c]]
      | line :: more => (c :: line) :: more

def isIndent (c : Char) : Bool := c = ' ' || c = '\t'

def hasContent (line : List Char) : Bool := line.any fun c => !isIndent c

def commonIndent (ls : List (List Char)) : Nat :=
  (((ls.filter hasContent).map fun l => (l.takeWhile isIndent).length).min?).getD 0

def unindent (n : Nat) (line : List Char) : List Char :=
  if n ≤ line.length then line.drop n else line

def joinLines : List (List Char) → List Char
  | [] => []
  | [l] => l
  | l :: rest => l ++ '\n' :: joinLines rest

/-- The text of a block string: every line but the first loses the common indentation, and lines
without content at either end are left out. -/
def blockText (raw : List Char) : List Char :=
  match lines raw with
  | [] => []
  | first :: rest =>
    let all := first :: rest.map (unindent (commonIndent rest))
    let tail := all.dropWhile fun l => !hasContent l
    joinLines (tail.reverse.dropWhile fun l => !hasContent l).reverse

def blockHere : Reader String := fun cs => do
  let cs ← Reader.after ['"', '"', '"'] cs
  let (pieces, cs) := Reader.many blockPiece cs
  let cs ← Reader.after ['"', '"', '"'] cs
  some (String.ofList (blockText pieces.flatten), cs)

def quotedHere : Reader String := fun cs => do
  let cs ← Reader.after ['"'] cs
  let (s, cs) := Reader.many stringChar cs
  let cs ← Reader.after ['"'] cs
  some (String.ofList s, cs)

/-- The string that stands next. What does not end as a block is read as an empty string. -/
def string : Reader String := fun cs => Reader.orElse blockHere quotedHere (skip cs)

/-- A reference right at the start of a text, with as many brackets as the given depth at most. -/
def typeHere : Nat → Reader TypeRef
  | 0, _ => none
  | depth + 1, cs => do
    let (t, cs) ← Reader.orElse (Reader.map TypeRef.named nameHere)
      (fun cs => do
        let cs ← Reader.after ['['] cs
        let (item, cs) ← typeHere depth cs
        let cs ← Reader.after [']'] cs
        some (TypeRef.list item, cs)) cs
    match cs with
    | '!' :: rest => some (t false, rest)
    | _ => some (t true, cs)

def typeRef : Reader TypeRef := fun cs => typeHere (cs.length + 1) (skip cs)

end SelectionTree.Grammar
