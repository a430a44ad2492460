import SelectionTree.Dict
import SelectionTree.Number
/-!
JSON values. The members of an object stay in the order in which they were written, repeated names
included; `Json.sorted` is the form in which that order no longer counts.
-/
set_option autoImplicit false

namespace SelectionTree

inductive Json where
  | null
  | bool (b : Bool)
  | num (n : Number)
  | str (s : String)
  | arr (items : List Json)
  | obj (members : List (String × Json))
  deriving Inhabited

namespace Json

def insertSorted (name : String) (j : Json) : List (String × Json) → List (String × Json)
  | [] => [(name, j)]
  | (k, v) :: rest =>
    if name = k then (name, j) :: rest
    else if name < k then (name, j) :: (k, v) :: rest
    else (k, v) :: insertSorted name j rest

mutual

/-- Objects at every level with their names in order, each name once with its last value. -/
def sorted : Json → Json
  | .arr items => .arr (sortedItems items)
  | .obj members => .obj (sortedMembers members [])
  | .null => .null
  | .bool b => .bool b
  | .num n => .num n
  | .str s => .str s

def sortedItems : List Json → List Json
  | [] => []
  | j :: rest => j.sorted :: sortedItems rest

def sortedMembers : List (String × Json) → List (String × Json) → List (String × Json)
  | [], done => done
  | (k, j) :: rest, done => sortedMembers rest (insertSorted k j.sorted done)

end

/-- The value of a member, the last one of its name. -/
def member? (name : String) : Json → Option Json
  | .obj members => Dict.find? name members.reverse
  | _ => none

def hexDigit (n : Nat) : Char := if n < 10 then Char.ofNat (48 + n) else Char.ofNat (87 + n)

def escape (c : Char) : List Char :=
  if c = '"' then ['\\', '"']
  else if c = '\\' then ['\\', '\\']
  else if c = '\x08' then ['\\', 'b']
  else if c = '\x0c' then ['\\', 'f']
  else if c = '\n' then ['\\', 'n']
  else if c = '\r' then ['\\', 'r']
  else if c = '\t' then ['\\', 't']
  else if c.toNat < 32 then ['\\', 'u', '0', '0', hexDigit (c.toNat / 16), hexDigit (c.toNat % 16)]
  else [c]

def quoted (s : String) : List Char := '"' :: s.toList.flatMap escape ++ ['"']

mutual

def chars : Json → List Char
  | .null => "null".toList
  | .bool true => "true".toList
  | .bool false => "false".toList
  | .num n => n.chars
  | .str s => quoted s
  | .arr [] => ['[', ']']
  | .arr (j :: rest) => '[' :: j.chars ++ itemChars rest ++ [']']
  | .obj [] => ['\x7b', '\x7d']
  | .obj ((k, j) :: rest) => '\x7b' :: quoted k ++ ':' :: j.chars ++ memberChars rest ++ ['\x7d']

def itemChars : List Json → List Char
  | [] => []
  | j :: rest => ',' :: j.chars ++ itemChars rest

def memberChars : List (String × Json) → List Char
  | [] => []
  | (k, j) :: rest => ',' :: quoted k ++ ':' :: j.chars ++ memberChars rest

end

def text (j : Json) : String := String.ofList j.chars

end Json

end SelectionTree
