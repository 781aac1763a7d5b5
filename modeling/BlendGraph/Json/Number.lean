import BlendGraph.Number.Decimal

/-!
# Numbers of JSON documents

A number is an integer of 64 bits or a float. Floats are read fast rather than exactly: the digits
that fit into 64 bits are rounded to a float, which is then multiplied or divided by a rounded
power of ten. A numeral with a fraction may so be read as a neighbour of the nearest float.
-/

set_option autoImplicit false

namespace BlendGraph

open Number

/-- The formats of floats. -/
inductive FloatFormat where
  | single
  | double
  deriving DecidableEq, Repr

namespace FloatFormat

def grid : FloatFormat → Grid
  | single => .single
  | double => .double

/-- How many places in front of the first digit, and how many behind it, the point may stand for a
text without an exponent. -/
def reach : FloatFormat → Nat × Nat
  | single => (5, 13)
  | double => (4, 16)

end FloatFormat

/-- A number of a document. The magnitude of a float lies on the grid of its format. -/
inductive JsonNumber where
  | integer (n : Int)
  | float (format : FloatFormat) (negative : Bool) (magnitude : Point)
  deriving DecidableEq, Repr

namespace JsonNumber

/-! ### Reading -/

/-- Numbers of this many bits are kept as integers. -/
def wordBits : Nat := 64

/-- Appends digits to a significand as long as it remains a word; also how many digits are left. -/
def absorb (significand : Nat) : List Char → Nat × Nat
  | [] => (significand, 0)
  | c :: cs =>
    let next := significand * 10 + (c.toNat - '0'.toNat)
    if next < Nat.pow 2 wordBits then absorb next cs else (significand, cs.length + 1)

def maxDecade : Nat := 308

def decade? (k : Nat) : Option Point :=
  if k ≤ maxDecade then Grid.double.round (Nat.pow 10 k) 1 else none

/-- Divides by the greatest power of ten so many times, unless nothing is left before. -/
def sink : (times : Nat) → Point → Option Point
  | 0, x => some x
  | times + 1, x =>
    if x.significand = 0 then some x
    else do sink times (← Grid.double.div x (← decade? maxDecade))

/-- A 64-bit float times a power of ten, rounded at every step; nothing beyond the greatest
float. -/
def timesTen? (x : Point) (exponent : Int) : Option Point :=
  if 0 ≤ exponent then
    if x.significand = 0 then some x
    else do Grid.double.mul x (← decade? exponent.toNat)
  else do
    let k := exponent.natAbs
    let times := (k - 1) / maxDecade
    Grid.double.div (← sink times x) (← decade? (k - times * maxDecade))

/-- The 64-bit float for a significand of a word and an exponent. -/
def double? (negative : Bool) (significand : Nat) (exponent : Int) : Option JsonNumber := do
  let x ← Grid.double.round significand 1
  return float .double negative (← timesTen? x exponent)

/-- The number of a numeral: the digits in front of the point, those behind it, and the exponent.
Without the latter two it is an integer if it is one of 64 bits, with the sign or without. Minus
zero is a float. -/
def ofParts? (negative : Bool) (whole : List Char) (places : Option (List Char))
    (exponent : Option Int) : Option JsonNumber :=
  let (n, left) := absorb 0 whole
  match places, exponent with
  | none, none =>
    if left ≠ 0 then double? negative n left
    else if !negative then some (integer n)
    else if 0 < n ∧ n ≤ Nat.pow 2 (wordBits - 1) then some (integer (-n))
    else double? true n 0
  | _, _ =>
    let digits := places.getD []
    let (m, unread) := absorb n digits
    double? negative m (left - (digits.length - unread : Nat) + exponent.getD 0)

def toSingle : JsonNumber → Float32
  | integer n => (Numeral.ofInt n).toSingle
  | float _ negative x => ofMagnitude negative (Grid.single.round x.quotient.1 x.quotient.2)

def toNat? (bound : Nat) : JsonNumber → Option Nat
  | integer n => if 0 ≤ n ∧ n ≤ bound then some n.toNat else none
  | float .. => none

/-! ### Writing -/

def ofSingle? (x : Float32) : Option JsonNumber :=
  (magnitude? x).map (float .single (isNegative x))

/-- The text of a magnitude: a point always where there is no exponent, and a sign of the
exponent. -/
def decimalText (reach : Nat × Nat) (d : Decimal) : String :=
  let digits := Nat.toDigits 10 d.digits
  let point : Int := digits.length + d.exponent
  if 0 ≤ d.exponent ∧ point ≤ reach.2 then d.positional ++ ".0"
  else if -(reach.1 : Int) ≤ point ∧ point ≤ reach.2 then d.positional
  else
    let head := String.ofList (digits.take 1)
    let tail := String.ofList (digits.drop 1)
    let e := point - 1
    (if tail.isEmpty then head else head ++ "." ++ tail) ++ "e" ++ (if 0 ≤ e then "+" else "")
      ++ toString e

/-- The text of a number, in the fewest digits that its format needs. -/
def text : JsonNumber → String
  | integer n => toString n
  | float format negative x =>
    signText negative ++
      if x.significand = 0 then "0.0"
      else decimalText format.reach (.shortest format.grid .toEven x)

end JsonNumber

end BlendGraph
