/-!
Binary floating-point numbers of 64 bits, in exact natural-number arithmetic: rounding of ratios,
products and quotients, an integer times a power of ten, and the shortest decimal fraction that
rounds to a given number.

A magnitude is stored as its rank, its place when the non-negative numbers of the format are
counted from zero in order of size. The rank is the exponent field followed by the fraction field,
read as one number, so rounding that carries into the next exponent needs no case of its own.
-/
set_option autoImplicit false

namespace SelectionTree

structure Binary64 where
  negative : Bool
  rank : Nat
  deriving DecidableEq, Repr

namespace Binary64

def twoTo (n : Nat) : Nat := Nat.pow 2 n

def tenTo (n : Nat) : Nat := Nat.pow 10 n

def hidden : Nat := twoTo 52

/-- The rank of infinity: every magnitude below it is finite. -/
def infinity : Nat := 2047 * hidden

def isFinite (x : Binary64) : Bool := x.rank < infinity

/-- The magnitude as a significand and an exponent of two. In the lowest ranks the exponent stays at
its least. -/
def parts (rank : Nat) : Nat × Int :=
  if rank < hidden then (rank, -1074)
  else (hidden + rank % hidden, (rank / hidden : Nat) - 1075)

def roundHalfEven (num den : Nat) : Nat :=
  let q := num / den
  let r := num % den
  if 2 * r < den then q else if den < 2 * r then q + 1 else q + q % 2

def scale (num den : Nat) (e : Int) : Nat × Nat :=
  if 0 ≤ e then (num, den * twoTo e.toNat) else (num * twoTo (-e).toNat, den)

/-- The exponent that leaves 53 binary digits before the point, or the least one there is. -/
def lastPlace (num den : Nat) : Int :=
  let guess : Int := (num.log2 : Int) - den.log2 - 52
  let (n, d) := scale num den guess
  max (if n < hidden * d then guess - 1 else guess) (-1074)

/-- The rank nearest to `num / den`, a tie to the even significand. -/
def rankOfRatio (num den : Nat) : Nat :=
  if num = 0 then 0
  else
    let e := lastPlace num den
    let (n, d) := scale num den e
    min infinity ((e + 1074).toNat * hidden + roundHalfEven n d)

def rankOfScaled (num den : Nat) (e : Int) : Nat :=
  if 0 ≤ e then rankOfRatio (num * twoTo e.toNat) den
  else rankOfRatio num (den * twoTo (-e).toNat)

def product (x y : Nat) : Nat :=
  let (m, e) := parts x
  let (n, f) := parts y
  rankOfScaled (m * n) 1 (e + f)

def quotient (x y : Nat) : Nat :=
  let (m, e) := parts x
  let (n, f) := parts y
  rankOfScaled m n (e - f)

def maxPower : Nat := 308

def powerOfTen (n : Nat) : Nat := rankOfRatio (tenTo n) 1

/-- A magnitude divided by a power of ten. A power that is not finite is divided off in steps, each
of them rounded, until the rest is finite or nothing is left. -/
def dividePower (x n : Nat) : Nat :=
  if n ≤ maxPower then quotient x (powerOfTen n)
  else if x = 0 then 0
  else dividePower (quotient x (powerOfTen maxPower)) (n - maxPower)
termination_by n
decreasing_by simp [maxPower] at *; omega

/-- The magnitude of an integer times a power of ten: the integer and the power are rounded, and
then their product or quotient. -/
def rankOfDecimal (significand : Nat) (exponent : Int) : Nat :=
  let x := rankOfRatio significand 1
  if exponent < 0 then dividePower x (-exponent).toNat
  else if exponent ≤ maxPower then product x (powerOfTen exponent.toNat)
  else if x = 0 then 0
  else infinity

def width (n : Nat) : Nat := (Nat.toDigits 10 n).length

structure Decimal where
  digits : Nat
  exponent : Int
  deriving DecidableEq, Repr

/-- The reals that round to a magnitude, as numerators over one denominator. The ends belong to
it exactly when the significand is even. -/
structure Interval where
  low : Nat
  mid : Nat
  high : Nat
  den : Nat
  closed : Bool

/-- Half the way to either neighbour; below a power of two the lower one is twice as near. -/
def interval (rank : Nat) : Interval :=
  let (m, e) := parts rank
  let low := if m = hidden ∧ -1074 < e then 4 * m - 1 else 4 * m - 2
  let up := twoTo (e - 2).toNat
  ⟨low * up, 4 * m * up, (4 * m + 2) * up, twoTo (2 - e).toNat, m % 2 = 0⟩

def Interval.contains (i : Interval) (num den : Nat) : Bool :=
  if i.closed then i.low * den ≤ num * i.den && num * i.den ≤ i.high * den
  else i.low * den < num * i.den && num * i.den < i.high * den

def Interval.magnitude (i : Interval) : Int :=
  (width (i.mid * tenTo 400 / i.den) : Int) - 401

/-- The decimal of a given last place that lies in the interval, the nearer one if both neighbours
of the magnitude do, the even one if they are equally near. -/
def Interval.onGrid? (i : Interval) (place : Int) : Option Decimal :=
  let (up, down) := (tenTo place.toNat, tenTo (-place).toNat)
  let d := i.mid * down / (i.den * up)
  let below := i.contains (d * up) down
  let above := i.contains ((d + 1) * up) down
  let twice := 2 * (i.mid * down)
  let middle := (2 * d + 1) * (i.den * up)
  if below && above then
    let pick := if twice < middle then d else if middle < twice then d + 1 else d + d % 2
    some ⟨pick, place⟩
  else if below then some ⟨d, place⟩
  else if above then some ⟨d + 1, place⟩
  else none

/-- The decimal with the fewest digits that rounds to a positive magnitude. Seventeen digits
always suffice. -/
def shortest (rank : Nat) : Decimal :=
  let i := interval rank
  let first := i.magnitude
  ((List.range 17).findSome? fun n : Nat => i.onGrid? (first - n)).getD ⟨0, 0⟩

end Binary64

end SelectionTree
