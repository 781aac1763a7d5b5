import BlendGraph.Number.Decimal

/-!
# The numbers of a graph

Thresholds, weights, defaults and key values are numbers of one type. The class lists what the rest
of the library does with them. Its instances are the 32-bit floats, with which graphs are stored and
stepped, and the rationals, in which the same definitions compute exactly.
-/

set_option autoImplicit false

namespace BlendGraph

/-- A number type. The order may leave elements incomparable with themselves. -/
class Scalar (α : Type) extends Zero α, One α, Add α, Sub α, Mul α, Div α, Neg α, LE α where
  decLe : DecidableLE α
  ofNat : Nat → α
  abs : α → α
  isFinite : α → Bool
  text : α → String

namespace Scalar

variable {α : Type} [Scalar α]

instance : DecidableLE α := decLe

/-- Each is at most the other; so no incomparable element equals itself. -/
def same (a b : α) : Bool := decide (a ≤ b) && decide (b ≤ a)

def ratio (num den : Nat) : α := ofNat num / ofNat den

def isUnit (a : α) : Bool := isFinite a && decide (0 ≤ a) && decide (a ≤ 1)

end Scalar

instance : Scalar Float32 where
  zero := Float32.ofNat 0
  one := Float32.ofNat 1
  decLe a b := Float32.decLe a b
  ofNat := Float32.ofNat
  abs := Float32.abs
  isFinite := Float32.isFinite
  text := Number.text

/-- A rational is written as the 32-bit float nearest to it. -/
instance : Scalar Rat where
  zero := 0
  one := 1
  decLe a b := inferInstanceAs (Decidable (a ≤ b))
  ofNat n := (n : Rat)
  abs := Rat.abs
  isFinite _ := true
  text q := Number.text (Number.nearest (decide (q < 0)) q.num.natAbs q.den)

end BlendGraph
