import SequentSearch.Cost.Basic

/-!
# Binary floating-point numbers

Coefficients of costs are numbers of the IEEE format binary64. A finite number stands for its value,
an exact rational; every operation computes the exact result and **rounds** it to the nearest number
of the format, ties to the even one. Where all values involved are small multiples of powers of two,
rounding does nothing, and the operations are those of the rationals. Zero has no sign here: nothing
that is computed from costs can tell the two zeros of the format apart.
-/

namespace SequentSearch

/-- A number of the format binary64. -/
inductive Binary64 where
  /-- a finite number, by its value -/
  | finite (value : Rat)
  /-- an infinity -/
  | infinite (negative : Bool)
  /-- the result of an operation that has none -/
  | undefined
deriving DecidableEq

namespace Binary64

/-- The natural number nearest to `n / d`, ties to the even one. -/
def nearest (n d : Nat) : Nat :=
  let q := n / d
  let r := 2 * (n % d)
  if r < d ∨ (r = d ∧ q % 2 = 0) then q else q + 1

/-- The two numbers whose quotient is `n / (d * 2 ^ e)`. -/
def scaled (n d : Nat) (e : Int) : Nat × Nat :=
  if e < 0 then (n * Nat.pow 2 (-e).toNat, d) else (n, d * Nat.pow 2 e.toNat)

/-- The exponent of the last of the 53 places of `n / d`; it is not below that of the format. -/
def lastPlace (n d : Nat) : Int :=
  let e : Int := (n.log2 : Int) - d.log2 - 53
  let (m, k) := scaled n d e
  max (if Nat.pow 2 53 * k ≤ m then e + 1 else e) (-1074)

/-- The number `m * 2 ^ e`. -/
def places (m : Nat) (e : Int) : Rat :=
  if e < 0 then mkRat m (Nat.pow 2 (-e).toNat) else ((m * Nat.pow 2 e.toNat : Nat) : Rat)

/-- The nearest number of the format to `n / d`. -/
def roundMagnitude (n d : Nat) : Rat :=
  let e := lastPlace n d
  let (m, k) := scaled n d e
  places (nearest m k) e

/-- The nearest number of the format to a rational; infinite from the end of the format on. -/
def round (q : Rat) : Binary64 :=
  let r := roundMagnitude q.num.natAbs q.den
  if (Nat.pow 2 1024 : Rat) ≤ r then infinite (q < 0)
  else finite (if q < 0 then -r else r)

/-- The nearest number to an integer. -/
def ofInt (n : Int) : Binary64 := round n

/-- Whether a number is below zero. -/
def isNegative : Binary64 → Bool
  | finite q => q < 0
  | infinite negative => negative
  | undefined => false

/-- Whether a number is zero. -/
def isZero : Binary64 → Bool
  | finite q => q == 0
  | _ => false

/-- The number with the other sign. -/
def neg : Binary64 → Binary64
  | finite q => finite (-q)
  | infinite negative => infinite !negative
  | undefined => undefined

/-- The sum of two numbers. -/
def add : Binary64 → Binary64 → Binary64
  | undefined, _ | _, undefined => undefined
  | infinite a, infinite b => if a == b then infinite a else undefined
  | infinite a, finite _ | finite _, infinite a => infinite a
  | finite a, finite b => round (a + b)

/-- The difference of two numbers. -/
def sub (a b : Binary64) : Binary64 := a.add b.neg

/-- The product of two numbers. -/
def mul (a b : Binary64) : Binary64 :=
  match a, b with
  | undefined, _ | _, undefined => undefined
  | finite p, finite q => round (p * q)
  | _, _ => if a.isZero || b.isZero then undefined else infinite (a.isNegative != b.isNegative)

/-- The quotient of two numbers. -/
def div (a b : Binary64) : Binary64 :=
  match a, b with
  | undefined, _ | _, undefined => undefined
  | infinite _, infinite _ => undefined
  | infinite x, finite q => infinite (x != decide (q < 0))
  | finite _, infinite _ => finite 0
  | finite p, finite q =>
    if q = 0 then (if p = 0 then undefined else infinite (p < 0)) else round (p / q)

/-- The number as the number of a cost, made an integer by `f`; zero if it is undefined. -/
def toNumber (f : Rat → Int) : Binary64 → Int
  | finite q => saturate (f q)
  | infinite true => leastNumber
  | infinite false => greatestNumber
  | undefined => 0

/-- The greatest number of a cost that is not above. -/
def floor (x : Binary64) : Int := x.toNumber Rat.floor

/-- The number of a cost that is left without the fraction. -/
def truncate (x : Binary64) : Int := x.toNumber fun q => q.num.tdiv q.den

/-- Whether the magnitude of a number is below that of a finite one. -/
def isWithin (x : Binary64) (bound : Binary64) : Bool :=
  match x, bound with
  | finite q, finite b => -b < q && q < b
  | _, _ => false

end Binary64

end SequentSearch
