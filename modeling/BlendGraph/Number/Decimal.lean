import BlendGraph.Number.Rounding

/-!
# Decimal numbers

Unsigned numbers `digits * 10 ^ exponent`, their quotients and their positional text. Among the
decimals that round to a given point of a binary grid, the shortest ones have the fewest digits, and
of them the nearest to the point is taken. A numeral is a signed decimal as it is written in a
document, with the mark of an integer, and the floats that it is read as.
-/

set_option autoImplicit false

namespace BlendGraph

/-- The number `digits * 10 ^ exponent`. -/
structure Decimal where
  digits : Nat
  exponent : Int
  deriving DecidableEq, Repr

namespace Decimal

def quotient (d : Decimal) : Nat × Nat :=
  if 0 ≤ d.exponent then (d.digits * Nat.pow 10 d.exponent.toNat, 1)
  else (d.digits, Nat.pow 10 (-d.exponent).toNat)

/-- The decimal expansion of a point of a binary grid, which always ends. -/
def ofPoint (d : Number.Point) : Decimal :=
  if 0 ≤ d.exponent then ⟨d.significand * Nat.pow 2 d.exponent.toNat, 0⟩
  else ⟨d.significand * Nat.pow 5 (-d.exponent).toNat, d.exponent⟩

/-- Drops at most `n` final zeros. -/
def dropZeros : Nat → Decimal → Decimal
  | 0, d => d
  | n + 1, d =>
    if d.digits % 10 = 0 ∧ d.digits ≠ 0 then dropZeros n ⟨d.digits / 10, d.exponent + 1⟩ else d

def normalize (d : Decimal) : Decimal :=
  if d.digits = 0 then ⟨0, 0⟩ else dropZeros d.digits.log2 d

/-- The digits with a point in front of the last `places` of them, and at least one before it. -/
def insertPoint (digits : List Char) (places : Nat) : List Char :=
  let padded := List.replicate (places + 1 - digits.length) '0' ++ digits
  if places = 0 then padded
  else padded.take (padded.length - places) ++ '.' :: padded.drop (padded.length - places)

def positional (d : Decimal) : String :=
  let digits := Nat.toDigits 10 d.digits
  if 0 ≤ d.exponent then String.ofList (digits ++ List.replicate d.exponent.toNat '0')
  else String.ofList (insertPoint digits (-d.exponent).toNat)

end Decimal

end BlendGraph

/-! ### The shortest decimal that reads back -/

namespace BlendGraph.Decimal

open Number

/-- Which of two equally near candidates is taken. -/
inductive Tie where
  | up
  | toEven
  deriving DecidableEq, Repr

/-- The exponent of the greatest power of ten that is at most `num / den`. -/
def decimalOrder (num den : Nat) : Int :=
  let k : Int := ((Nat.toDigits 10 num).length : Int) - ((Nat.toDigits 10 den).length : Int)
  let (n, d) := scale 10 num den k
  if d ≤ n then k else k - 1

def ReadsBack (g : Grid) (d : Point) (c : Decimal) : Prop :=
  g.round c.quotient.1 c.quotient.2 = some d

instance (g : Grid) (d : Point) (c : Decimal) : Decidable (ReadsBack g d c) :=
  inferInstanceAs (Decidable (_ = _))

/-- The nearer of the two neighbours of `d` on the grid of multiples of `10 ^ e` that read back. -/
def neighbour? (g : Grid) (tie : Tie) (d : Point) (e : Int) : Option Decimal :=
  let (num, den) := scale 10 d.quotient.1 d.quotient.2 e
  let low : Decimal := ⟨num / den, e⟩
  let high : Decimal := ⟨num / den + 1, e⟩
  if ReadsBack g d low then
    if ReadsBack g d high then
      match compare (2 * (num % den)) den, tie with
      | .lt, _ => some low
      | .gt, _ => some high
      | .eq, .up => some high
      | .eq, .toEven => if low.digits % 2 = 0 then some low else some high
    else some low
  else if ReadsBack g d high then some high
  else none

/-- The shortest decimal that reads back as `d`; the whole expansion where no short one does. -/
def shortest (g : Grid) (tie : Tie) (d : Point) : Decimal :=
  let order := decimalOrder d.quotient.1 d.quotient.2
  let found := (List.range 17).findSome? fun (n : Nat) => neighbour? g tie d (order - n)
  (found.getD (ofPoint d)).normalize

end BlendGraph.Decimal

namespace BlendGraph.Number

def signText (negative : Bool) : String :=
  if negative then "-" else ""

/-- The float without an exponent, in the fewest digits that read back. -/
def text (x : Float32) : String :=
  match magnitude? x with
  | some d => signText (isNegative x) ++ (Decimal.shortest .single .up d).positional
  | none => if x.isNaN then "NaN" else signText (isNegative x) ++ "inf"

end BlendGraph.Number

/-! ### A fixed number of decimal places -/

namespace BlendGraph.Decimal

open Number

/-- `num / den` with exactly `places` places, a half going to the even neighbour. -/
def fixed (places num den : Nat) : String :=
  String.ofList (insertPoint (Nat.toDigits 10 (roundDiv (num * Nat.pow 10 places) den)) places)

end BlendGraph.Decimal

namespace BlendGraph.Number

/-- The float with exactly `places` decimal places, rounded from its exact value. -/
def fixedText (places : Nat) (x : Float32) : String :=
  match magnitude? x with
  | some d => signText (isNegative x) ++ Decimal.fixed places d.quotient.1 d.quotient.2
  | none => text x

end BlendGraph.Number

/-! ### Numerals -/

namespace BlendGraph

open Number

/-- A written number; `integral` if it has neither a point nor an exponent. -/
structure Numeral where
  negative : Bool
  magnitude : Decimal
  integral : Bool
  deriving DecidableEq, Repr

namespace Numeral

def ofInt (n : Int) : Numeral :=
  ⟨decide (n < 0), ⟨n.natAbs, 0⟩, true⟩

/-- The point of the grid nearest to the magnitude, or nothing beyond the greatest one. The order
of magnitude is looked at first, so that no great power of ten is formed for a hopeless exponent. -/
def round (g : Grid) (n : Numeral) : Option Point :=
  let order := n.magnitude.exponent + (Nat.toDigits 10 n.magnitude.digits).length
  if n.magnitude.digits = 0 then some ⟨0, g.bottom⟩
  else if 400 < order then none
  else if order < -400 then some ⟨0, g.bottom⟩
  else g.round n.magnitude.quotient.1 n.magnitude.quotient.2

def toSingle (n : Numeral) : Float32 :=
  ofMagnitude n.negative (n.round .single)

def fitsDouble (n : Numeral) : Bool :=
  (n.round .double).isSome

def toSingleByDouble (n : Numeral) : Float32 :=
  ofMagnitude n.negative <| (n.round .double).bind fun d =>
    Grid.single.round d.quotient.1 d.quotient.2

/-- The natural number up to `bound` that an integer numeral without a sign stands for. -/
def toNat? (bound : Nat) (n : Numeral) : Option Nat :=
  if n.integral && !n.negative && n.magnitude.digits ≤ bound then some n.magnitude.digits else none

end Numeral

end BlendGraph
