/-!
# Rounding exact quotients

Quotients of natural numbers are rounded to the nearest natural number, and to the nearest point of
a binary floating-point grid. A half goes to the even neighbour in both cases. A 32-bit float is
taken apart into its sign and its exact magnitude by the bit fields, and put together from them.
-/

set_option autoImplicit false

namespace BlendGraph.Number

/-- The natural number nearest to `num / den`; a half goes to the even neighbour. -/
def roundDiv (num den : Nat) : Nat :=
  let q := num / den
  match compare (2 * (num % den)) den with
  | .lt => q
  | .eq => q + q % 2
  | .gt => q + 1

@[simp] theorem roundDiv_one (n : Nat) : roundDiv n 1 = n := by
  simp [roundDiv, Nat.mod_one, compare, compareOfLessAndEq]

/-- `num / den` divided by `base ^ e`, as a quotient of natural numbers. -/
def scale (base num den : Nat) (e : Int) : Nat × Nat :=
  if 0 ≤ e then (num, den * Nat.pow base e.toNat) else (num * Nat.pow base (-e).toNat, den)

/-- The number `significand * 2 ^ exponent`. -/
structure Point where
  significand : Nat
  exponent : Int
  deriving DecidableEq, Repr

def Point.quotient (d : Point) : Nat × Nat :=
  if 0 ≤ d.exponent then (d.significand * Nat.pow 2 d.exponent.toNat, 1)
  else (d.significand, Nat.pow 2 (-d.exponent).toNat)

/-- The finite numbers of a binary format: significands below `2 ^ precision`, and exponents from
`bottom` (where the significand may be short) to `top`. -/
structure Grid where
  precision : Nat
  bottom : Int
  top : Int
  deriving DecidableEq, Repr

def Grid.single : Grid := ⟨24, -149, 104⟩

def Grid.double : Grid := ⟨53, -1074, 971⟩

/-- The exponent of the greatest power of two that is at most `num / den`. -/
def binaryOrder (num den : Nat) : Int :=
  let k : Int := (num.log2 : Int) - (den.log2 : Int)
  let (n, d) := scale 2 num den k
  if d ≤ n then k else k - 1

/-- The point of the grid nearest to `num / den`, or nothing if that is beyond the greatest one. -/
def Grid.round (g : Grid) (num den : Nat) : Option Point :=
  if num = 0 then some ⟨0, g.bottom⟩
  else
    let e := max (binaryOrder num den - ((g.precision : Int) - 1)) g.bottom
    let (n, d) := scale 2 num den e
    let m := roundDiv n d
    let r : Point := if m = Nat.pow 2 g.precision then ⟨m / 2, e + 1⟩ else ⟨m, e⟩
    if r.exponent ≤ g.top then some r else none

@[simp] theorem Grid.round_zero (g : Grid) (den : Nat) : g.round 0 den = some ⟨0, g.bottom⟩ := rfl

def Grid.mul (g : Grid) (a b : Point) : Option Point :=
  g.round (a.quotient.1 * b.quotient.1) (a.quotient.2 * b.quotient.2)

def Grid.div (g : Grid) (a b : Point) : Option Point :=
  g.round (a.quotient.1 * b.quotient.2) (a.quotient.2 * b.quotient.1)

/-! ### The parts of a 32-bit float -/

def isNegative (x : Float32) : Bool :=
  Nat.pow 2 31 ≤ x.toBits.toNat

def magnitude? (x : Float32) : Option Point :=
  let bits : Nat := x.toBits.toNat % Nat.pow 2 31
  let field : Nat := bits / Nat.pow 2 23
  let fraction : Nat := bits % Nat.pow 2 23
  if field = 255 then none
  else if field = 0 then some ⟨fraction, -149⟩
  else some ⟨Nat.pow 2 23 + fraction, (field : Int) - 150⟩

/-- The float of a magnitude that lies on the grid; infinite without one. -/
def ofMagnitude (negative : Bool) (magnitude : Option Point) : Float32 :=
  let bits : Nat := match magnitude with
    | none => 255 * Nat.pow 2 23
    | some d =>
      if d.significand < Nat.pow 2 23 then d.significand
      else (d.exponent + 150).toNat * Nat.pow 2 23 + (d.significand - Nat.pow 2 23)
  Float32.ofBits (UInt32.ofNat (bits + if negative then Nat.pow 2 31 else 0))

def nearest (negative : Bool) (num den : Nat) : Float32 :=
  ofMagnitude negative (Grid.single.round num den)

end BlendGraph.Number
