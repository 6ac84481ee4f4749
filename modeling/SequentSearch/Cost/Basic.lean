/-!
# Costs

The cost of an application is a number, or `top`, which rejects the application and is greater than
every number. Numbers are signed 64-bit integers, and arithmetic on them stops at the ends of that
range.
-/

namespace SequentSearch

/-- The smallest number of a cost. -/
def leastNumber : Int := -9223372036854775808

/-- The greatest number of a cost. -/
def greatestNumber : Int := 9223372036854775807

/-- The nearest number of the range. -/
def saturate (n : Int) : Int := max leastNumber (min n greatestNumber)

/-- Whether a number is in the range. -/
def inRange (n : Int) : Bool := leastNumber ≤ n && n ≤ greatestNumber

/-- What an application costs. -/
inductive Cost where
  /-- a number; the smaller, the sooner -/
  | number (n : Int)
  /-- never to be chosen -/
  | top
deriving DecidableEq

namespace Cost

/-- The cost zero. -/
def zero : Cost := number 0

/-- Whether a cost rejects the application. -/
def isTop : Cost → Bool
  | top => true
  | number _ => false

/-- The sum of two costs; `top` absorbs. -/
def add : Cost → Cost → Cost
  | number a, number b => number (saturate (a + b))
  | _, _ => top

/-- The sum of costs, from left to right. -/
def sum (costs : List Cost) : Cost := costs.foldl add zero

/-- Numbers are in their order, and below `top`. -/
def compare : Cost → Cost → Ordering
  | number a, number b => Ord.compare a b
  | number _, top => .lt
  | top, number _ => .gt
  | top, top => .eq

/-- Whether a cost is not greater than another. -/
def le : Cost → Cost → Bool
  | number a, number b => a ≤ b
  | _, top => true
  | top, number _ => false

/-- The written form of a cost. -/
def render : Cost → String
  | number n => toString n
  | top => "Top"

end Cost

end SequentSearch
