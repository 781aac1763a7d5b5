import BlendGraph.Number.Decimal

/-!
# TOML values

Floats are kept as they were written, and dates and times as their text.
-/

set_option autoImplicit false

namespace BlendGraph

open Number

/-- A TOML float. -/
inductive TomlFloat where
  | finite (n : Numeral)
  | infinite (negative : Bool)
  | nan
  deriving DecidableEq, Repr

/-- A TOML value. -/
inductive Toml where
  | string (s : String)
  | integer (n : Int)
  | float (x : TomlFloat)
  | boolean (b : Bool)
  | datetime (text : String)
  | array (items : List Toml)
  | table (entries : List (String × Toml))

namespace TomlFloat

/-- A 32-bit float as the shortest decimal of the same value in the 64-bit format. -/
def ofSingle (x : Float32) : TomlFloat :=
  match magnitude? x with
  | none => if x.isNaN then nan else infinite (isNegative x)
  | some d =>
    let wide := (Grid.double.round d.quotient.1 d.quotient.2).getD d
    finite ⟨isNegative x, if d.significand = 0 then ⟨0, 0⟩ else .shortest .double .up wide, false⟩

def toSingle : TomlFloat → Float32
  | finite n => n.toSingleByDouble
  | infinite negative => ofMagnitude negative none
  | nan => Float32.ofBits 0x7FC00000

end TomlFloat

namespace Toml

instance : Inhabited Toml := ⟨table []⟩

def string? : Toml → Option String
  | string s => some s
  | _ => none

def boolean? : Toml → Option Bool
  | boolean b => some b
  | _ => none

def array? : Toml → Option (List Toml)
  | array items => some items
  | _ => none

def nat? (bound : Nat) : Toml → Option Nat
  | integer n => if 0 ≤ n ∧ n ≤ bound then some n.toNat else none
  | _ => none

/-- A float or an integer as a 32-bit float. An integer is rounded at once. -/
def single? : Toml → Option Float32
  | float x => some x.toSingle
  | integer n => some (Numeral.ofInt n).toSingle
  | _ => none

/-- The fields of a record, which is a table or the array of its first fields in order. Other
entries are passed over. -/
def record? (names : List String) : Toml → Option (List (Option Toml))
  | table entries => some (names.map fun name => entries.lookup name)
  | array items => some ((List.range names.length).map (items[·]?))
  | _ => none

def withDefault {β : Type} (default : β) (read : Toml → Option β) : Option Toml → Option β
  | none => some default
  | some t => read t

def optional {β : Type} (read : Toml → Option β) : Option Toml → Option (Option β)
  | none => some none
  | some t => (read t).map some

end Toml

end BlendGraph
