import SelectionTree.Number.Binary64
/-!
Numbers as they are written in documents and in JSON. A token without fraction and exponent that
fits a 64-bit integer is an integer; every other token, and a negative zero, is a 64-bit
floating-point number.
-/
set_option autoImplicit false

namespace SelectionTree

/-- An exact integer or a floating-point number: `1` and `1.0` differ. -/
inductive Number where
  | int (n : Int)
  | float (x : Binary64)
  deriving DecidableEq, Repr

namespace Number

/-- A token may lie beyond the range of the format. -/
def isFinite : Number → Bool
  | .int _ => true
  | .float x => x.isFinite

/-- Numeric equality within one kind: the two floating zeros are equal. -/
def same : Number → Number → Bool
  | .int m, .int n => m = n
  | .float x, .float y => x = y || (x.rank = 0 && y.rank = 0)
  | _, _ => false

structure Token where
  negative : Bool
  whole : List Char
  fraction : List Char
  exponent : Option (Bool × List Char)

def ofDigits (ds : List Char) : Nat :=
  ds.foldl (fun n d => 10 * n + (d.toNat - '0'.toNat)) 0

def readWhole : List Char → Option (List Char × List Char)
  | [] => none
  | c :: rest =>
    if c = '0' then some (['0'], rest)
    else if c.isDigit then some (c :: rest.takeWhile Char.isDigit, rest.dropWhile Char.isDigit)
    else none

def readFraction : List Char → List Char × List Char
  | '.' :: rest =>
    match rest.takeWhile Char.isDigit with
    | [] => ([], '.' :: rest)
    | ds => (ds, rest.dropWhile Char.isDigit)
  | cs => ([], cs)

def readSign : List Char → Bool × List Char
  | '-' :: rest => (true, rest)
  | '+' :: rest => (false, rest)
  | cs => (false, cs)

def readExponent : List Char → Option (Bool × List Char) × List Char
  | [] => (none, [])
  | c :: rest =>
    if c = 'e' || c = 'E' then
      let (minus, ds) := readSign rest
      match ds.takeWhile Char.isDigit with
      | [] => (none, c :: rest)
      | e => (some (minus, e), ds.dropWhile Char.isDigit)
    else (none, c :: rest)

def Token.read (cs : List Char) : Option (Token × List Char) := do
  let (negative, cs) := match cs with
    | '-' :: rest => (true, rest)
    | _ => (false, cs)
  let (whole, cs) ← readWhole cs
  let (fraction, cs) := readFraction cs
  let (exponent, cs) := readExponent cs
  some (⟨negative, whole, fraction, exponent⟩, cs)

/-- Whether an integer fits 64 bits, unsigned when positive and signed when negative. -/
def fits (n : Int) : Bool := -9223372036854775808 ≤ n && n < 18446744073709551616

def Token.scale : Option (Bool × List Char) → Int
  | none => 0
  | some (minus, ds) => if minus then -(ofDigits ds : Int) else ofDigits ds

def append? (n : Nat) (d : Char) : Option Nat :=
  let next := 10 * n + (d.toNat - '0'.toNat)
  if next < 18446744073709551616 then some next else none

/-- Gathers the digits before the point. From the first one that does not fit, each digit only
counts in the exponent. -/
def gatherWhole (n : Nat) : List Char → Nat × Int
  | [] => (n, 0)
  | d :: ds =>
    match append? n d with
    | some next => gatherWhole next ds
    | none => (n, (d :: ds).length)

def gatherFraction (n : Nat) : List Char → Nat × Int
  | [] => (n, 0)
  | d :: ds =>
    match append? n d with
    | some next =>
      let (m, e) := gatherFraction next ds
      (m, e - 1)
    | none => (n, 0)

/-- The floating-point number of a token: its digits are gathered in an integer of 64 bits, and the
integer is multiplied by the power of ten that its place and the exponent give. -/
def Token.toBinary64 (t : Token) : Binary64 :=
  let (n, places) := gatherWhole 0 t.whole
  let (significand, fraction) := gatherFraction n t.fraction
  ⟨t.negative, Binary64.rankOfDecimal significand (places + fraction + Token.scale t.exponent)⟩

def ofToken (t : Token) : Number :=
  let n : Int := if t.negative then -(ofDigits t.whole : Int) else ofDigits t.whole
  if t.fraction.isEmpty && t.exponent.isNone && fits n && !(t.negative && n = 0) then .int n
  else .float t.toBinary64

/-- The number at the start of a text. It need not be finite. -/
def read (cs : List Char) : Option (Number × List Char) :=
  (Token.read cs).map fun (t, rest) => (ofToken t, rest)

def ofText? (s : String) : Option Number :=
  match read s.toList with
  | some (n, []) => if n.isFinite then some n else none
  | _ => none

/-- The first digit's exponents between which a floating-point number is written without one. -/
def plainExponents : Int × Int := (-5, 15)

def trimZeros (ds : List Char) : List Char × Nat :=
  let kept := (ds.reverse.dropWhile (· = '0')).reverse
  (kept, ds.length - kept.length)

def plain (ds : List Char) (last : Int) : List Char :=
  let point := (ds.length : Int) + last
  if 0 ≤ last then ds ++ List.replicate last.toNat '0' ++ ['.', '0']
  else if 0 < point then ds.take point.toNat ++ '.' :: ds.drop point.toNat
  else '0' :: '.' :: List.replicate (-point).toNat '0' ++ ds

def scientific (ds : List Char) (first : Int) : List Char :=
  let mantissa := if ds.length ≤ 1 then ds else ds.take 1 ++ '.' :: ds.drop 1
  let sign := if first < 0 then '-' else '+'
  mantissa ++ 'e' :: sign :: Nat.toDigits 10 first.natAbs

def rankText (rank : Nat) : List Char :=
  if rank = 0 then ['0', '.', '0']
  else
    let d := Binary64.shortest rank
    let (ds, zeros) := trimZeros (Nat.toDigits 10 d.digits)
    let last := d.exponent + zeros
    let first := last + ds.length - 1
    if plainExponents.1 ≤ first && first ≤ plainExponents.2 then plain ds last
    else scientific ds first

def chars : Number → List Char
  | .int n => if n < 0 then '-' :: Nat.toDigits 10 n.natAbs else Nat.toDigits 10 n.natAbs
  | .float x => if x.negative then '-' :: rankText x.rank else rankText x.rank

/-- The text of a number: the fewest digits that read back, with a point or an exponent for a
floating-point number. -/
def text (n : Number) : String := String.ofList n.chars

end Number

end SelectionTree
