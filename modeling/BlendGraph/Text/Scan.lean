import BlendGraph.Text.Basic

/-!
# Scanning text

A scanner takes something off the front of a list of characters and leaves the rest, or fails.
Repetition ends when a step fails or takes nothing, so that the length of the input bounds it.
-/

set_option autoImplicit false

namespace BlendGraph.Text

/-- A scanner of characters. -/
abbrev Scan := StateT (List Char) Option

namespace Scan

variable {β : Type}

def next : Scan Char
  | [] => none
  | c :: cs => some (c, cs)

def peek : Scan (Option Char) := fun cs => some (cs.head?, cs)

def word (text : String) : Scan Unit := fun cs => (after? text.toList cs).map ((), ·)

def one (test : Char → Bool) : Scan Char
  | [] => none
  | c :: cs => if test c then some (c, cs) else none

def run (test : Char → Bool) : Scan (List Char) := fun cs =>
  some (cs.takeWhile test, cs.dropWhile test)

def run1 (test : Char → Bool) : Scan (List Char) := do
  let cs ← run test
  if cs.isEmpty then failure else return cs

def skip (test : Char → Bool) : Scan Unit := do
  let _ ← run test

def done : Scan Unit
  | [] => some ((), [])
  | _ :: _ => none

/-- The scanner's result, or nothing and the input as it was. -/
def optional (p : Scan β) : Scan (Option β) := fun cs =>
  match p cs with
  | some (x, rest) => some (some x, rest)
  | none => some (none, cs)

/-- Repeats `p` at most as often as the fuel says, as long as it takes something. -/
def repeatFrom (p : Scan β) : (fuel : Nat) → Scan (List β)
  | 0, cs => some ([], cs)
  | fuel + 1, cs =>
    match p cs with
    | none => some ([], cs)
    | some (x, rest) =>
      if rest.length < cs.length then
        (repeatFrom p fuel rest).map fun r => (x :: r.1, r.2)
      else some ([], cs)

/-- Repeats `p` until it fails or takes nothing. -/
def many (p : Scan β) : Scan (List β) := fun cs => repeatFrom p cs.length cs

def parse? (p : Scan β) (text : String) : Option β :=
  match p text.toList with
  | some (x, []) => some x
  | _ => none

end Scan

def hexValue? (c : Char) : Option Nat :=
  if '0' ≤ c ∧ c ≤ '9' then some (c.toNat - '0'.toNat)
  else if 'a' ≤ c ∧ c ≤ 'f' then some (c.toNat - 'a'.toNat + 10)
  else if 'A' ≤ c ∧ c ≤ 'F' then some (c.toNat - 'A'.toNat + 10)
  else none

def ofDigits (base : Nat) (digits : List Char) : Nat :=
  digits.foldl (fun n c => n * base + (hexValue? c).getD 0) 0

def scalar? (n : Nat) : Option Char :=
  if n.isValidChar then some (Char.ofNat n) else none

end BlendGraph.Text
