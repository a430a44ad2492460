import SelectionTree.Json
/-!
Values: what arguments and variables hold when an operation runs. `Value.text` is the notation of
the query language, `Value.toJson` the JSON of a result.
-/
set_option autoImplicit false

namespace SelectionTree

inductive Value where
  | null
  | bool (b : Bool)
  | num (n : Number)
  | str (s : String)
  | enum (name : String)
  | bin (bytes : List UInt8)
  | list (items : List Value)
  | obj (fields : List (String × Value))

abbrev Bindings := Dict Value

abbrev Arguments := Dict Value

abbrev Directives := Dict Arguments

namespace Value

mutual

def toJson : Value → Json
  | .null => .null
  | .bool b => .bool b
  | .num n => .num n
  | .str s => .str s
  | .enum name => .str name
  | .bin bytes => .arr (bytes.map fun b => .num (.int b.toNat))
  | .list items => .arr (itemsToJson items)
  | .obj fields => .obj (fieldsToJson fields)

def itemsToJson : List Value → List Json
  | [] => []
  | v :: rest => v.toJson :: itemsToJson rest

def fieldsToJson : List (String × Value) → List (String × Json)
  | [] => []
  | (k, v) :: rest => (k, v.toJson) :: fieldsToJson rest

end

mutual

/-- The value that JSON denotes. A name that is repeated in an object keeps its first place and
takes its last value. -/
def ofJson : Json → Value
  | .null => .null
  | .bool b => .bool b
  | .num n => .num n
  | .str s => .str s
  | .arr items => .list (itemsOfJson items)
  | .obj members => .obj (Dict.ofList (fieldsOfJson members))

def itemsOfJson : List Json → List Value
  | [] => []
  | j :: rest => ofJson j :: itemsOfJson rest

def fieldsOfJson : List (String × Json) → List (String × Value)
  | [] => []
  | (k, j) :: rest => (k, ofJson j) :: fieldsOfJson rest

end

theorem itemsToJson_eq (items : List Value) : itemsToJson items = items.map toJson := by
  induction items with
  | nil => rfl
  | cons v rest ih => rw [itemsToJson, ih, List.map_cons]

theorem fieldsToJson_eq (fields : List (String × Value)) :
    fieldsToJson fields = fields.map fun e => (e.1, e.2.toJson) := by
  induction fields with
  | nil => rfl
  | cons e rest ih => rw [fieldsToJson, ih, List.map_cons]

theorem itemsOfJson_eq (items : List Json) : itemsOfJson items = items.map ofJson := by
  induction items with
  | nil => rfl
  | cons j rest ih => rw [itemsOfJson, ih, List.map_cons]

theorem fieldsOfJson_eq (members : List (String × Json)) :
    fieldsOfJson members = members.map fun m => (m.1, ofJson m.2) := by
  induction members with
  | nil => rfl
  | cons m rest ih => rw [fieldsOfJson, ih, List.map_cons]

def isControl (c : Char) : Bool := c.toNat < 32 || (127 ≤ c.toNat && c.toNat < 160)

def fourDigits (n : Nat) : List Char :=
  let ds := Nat.toDigits 10 n
  List.replicate (4 - ds.length) '0' ++ ds

/-- A character inside quotes. A control character without a letter of its own is written by its
decimal number. -/
def escape (c : Char) : List Char :=
  if c = '\r' then ['\\', 'r']
  else if c = '\n' then ['\\', 'n']
  else if c = '\t' then ['\\', 't']
  else if c = '"' then ['\\', '"']
  else if c = '\\' then ['\\', '\\']
  else if isControl c then '\\' :: 'u' :: fourDigits c.toNat
  else [c]

def quoted (s : String) : List Char := '"' :: s.toList.flatMap escape ++ ['"']

def joinComma : List (List Char) → List Char
  | [] => []
  | [x] => x
  | x :: rest => x ++ ',' :: joinComma rest

theorem joinComma_eq : (xs : List (List Char)) → joinComma xs = [','].intercalate xs
  | [] => rfl
  | [x] => by simp [joinComma]
  | x :: y :: rest => by
    have first : joinComma (x :: y :: rest) = x ++ ',' :: joinComma (y :: rest) := rfl
    rw [first, joinComma_eq (y :: rest), List.intercalate_cons_cons]
    simp

mutual

def chars : Value → List Char
  | .null => "null".toList
  | .bool true => "true".toList
  | .bool false => "false".toList
  | .num n => n.chars
  | .str s => quoted s
  | .enum name => name.toList
  | .bin bytes => '[' :: joinComma (bytes.map fun b => Nat.toDigits 10 b.toNat) ++ [']']
  | .list items => '[' :: joinComma (itemChars items) ++ [']']
  | .obj fields => '\x7b' :: joinComma (fieldChars fields) ++ ['\x7d']

def itemChars : List Value → List (List Char)
  | [] => []
  | v :: rest => v.chars :: itemChars rest

def fieldChars : List (String × Value) → List (List Char)
  | [] => []
  | (k, v) :: rest => (k.toList ++ ':' :: ' ' :: v.chars) :: fieldChars rest

end

theorem itemChars_eq (items : List Value) : itemChars items = items.map chars := by
  induction items with
  | nil => rfl
  | cons v rest ih => rw [itemChars, ih, List.map_cons]

theorem fieldChars_eq (fields : List (String × Value)) :
    fieldChars fields = fields.map fun e => e.1.toList ++ ':' :: ' ' :: e.2.chars := by
  induction fields with
  | nil => rfl
  | cons e rest ih => rw [fieldChars, ih, List.map_cons]

def text (v : Value) : String := String.ofList v.chars

end Value

end SelectionTree
