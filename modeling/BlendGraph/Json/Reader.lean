import BlendGraph.Json.Basic
import BlendGraph.Text.Scan

/-!
# Reading JSON

The strict grammar: one value, no comments, no commas too many. What keeps to the grammar but is no
value is marked as unreadable, such as arrays and objects deeper than `nesting`. A string is taken
off the text in pieces, for which the grammar alone counts. Only then are the pieces put together,
which fails where half of a surrogate pair stands alone.
-/

set_option autoImplicit false

namespace BlendGraph.Json

open Text (Scan)
open Text.Scan

/-! ### Strings -/

/-- A part of a string: a character, or a code unit that was written with four digits. -/
inductive Piece where
  | char (c : Char)
  | unit (n : Nat)
  deriving DecidableEq, Repr

def codeUnit? (a b c d : Char) : Option Nat := do
  return (((← Text.hexValue? a) * 16 + (← Text.hexValue? b)) * 16 + (← Text.hexValue? c)) * 16
    + (← Text.hexValue? d)

def escape? : Char → Option Char
  | '"' => some '"'
  | '\\' => some '\\'
  | '/' => some '/'
  | 'b' => some '\x08'
  | 'f' => some '\x0c'
  | 'n' => some '\n'
  | 'r' => some '\r'
  | 't' => some '\t'
  | _ => none

def pieces : List Char → Option (List Piece × List Char)
  | [] => none
  | '"' :: cs => some ([], cs)
  | '\\' :: 'u' :: a :: b :: c :: d :: cs =>
    (codeUnit? a b c d).bind fun n => (pieces cs).map fun r => (.unit n :: r.1, r.2)
  | '\\' :: e :: cs => (escape? e).bind fun x => (pieces cs).map fun r => (.char x :: r.1, r.2)
  | c :: cs => if c.toNat < 0x20 then none else (pieces cs).map fun r => (.char c :: r.1, r.2)

def isHighSurrogate (n : Nat) : Bool := 0xD800 ≤ n && n ≤ 0xDBFF

def isLowSurrogate (n : Nat) : Bool := 0xDC00 ≤ n && n ≤ 0xDFFF

def pairedChar (high low : Nat) : Char :=
  Char.ofNat (0x10000 + (high - 0xD800) * 0x400 + (low - 0xDC00))

/-- The characters of the pieces. Two code units next to each other may make one character. -/
def spell? : List Piece → Option (List Char)
  | [] => some []
  | .char c :: ps => (spell? ps).map (c :: ·)
  | .unit high :: .unit low :: ps =>
    if isHighSurrogate high && isLowSurrogate low then
      (spell? ps).map (pairedChar high low :: ·)
    else do return (← Text.scalar? high) :: (← spell? (.unit low :: ps))
  | .unit n :: ps => do return (← Text.scalar? n) :: (← spell? ps)

/-- A string behind its opening quote, or nothing where its pieces make no characters. -/
def stringTail : Scan (Option String) := do
  return (spell? (← pieces)).map String.ofList

/-! ### Values -/

def nesting : Nat := 127

def isBlank (c : Char) : Bool := c == ' ' || c == '\n' || c == '\r' || c == '\t'

def blanks : Scan Unit := skip isBlank

def orUnreadable (value : Option Json) : Json := value.getD unreadable

def exponent : Scan Int := do
  let _ ← one fun c => c == 'e' || c == 'E'
  let sign ← Text.Scan.optional (one fun c => c == '+' || c == '-')
  let n : Int := Text.ofDigits 10 (← run1 Char.isDigit)
  return if sign = some '-' then -n else n

/-- A number: no zero in front of other digits, and digits on both sides of a point. -/
def numeral : Scan Json := do
  let sign ← Text.Scan.optional (word "-")
  let whole ← run1 Char.isDigit
  if whole.head? = some '0' ∧ whole.length ≠ 1 then failure
  let places ← Text.Scan.optional (do word "."; run1 Char.isDigit)
  let e ← Text.Scan.optional exponent
  return orUnreadable ((JsonNumber.ofParts? sign.isSome whole places e).map number)

def scalar : Scan Json := do
  match ← peek with
  | some '"' => next *> (fun s => orUnreadable (s.map string)) <$> stringTail
  | some 'n' => word "null" *> pure null
  | some 't' => word "true" *> pure (bool true)
  | some 'f' => word "false" *> pure (bool false)
  | _ => numeral

def memberName : Scan (Option String) := do
  blanks
  word "\""
  let name ← stringTail
  blanks
  word ":"
  return name

def closer? : Char → Option Char
  | '[' => some ']'
  | '\x7b' => some '\x7d'
  | _ => none

/-- Passes over values, each at the start or behind one that has just ended, until all the open
containers are closed. The closing characters stand with the innermost container first. -/
def passOver : (fuel : Nat) → (ended : Bool) → (closers : List Char) → Scan Unit
  | 0, _, _ => failure
  | _ + 1, true, [] => return
  | fuel + 1, true, close :: closers => do
    blanks
    let c ← next
    if c = close then passOver fuel true closers
    else if c = ',' then
      if close = '\x7d' then let _ ← memberName
      passOver fuel false (close :: closers)
    else failure
  | fuel + 1, false, closers => do
    blanks
    match (← peek).bind closer? with
    | none =>
      let _ ← scalar
      passOver fuel true closers
    | some close =>
      let _ ← next
      blanks
      if (← peek) = some close then
        let _ ← next
        passOver fuel true closers
      else
        if close = '\x7d' then let _ ← memberName
        passOver fuel false (close :: closers)

/-- Items, separated by commas, up to and including the closing character. -/
def items {β : Type} (item : Scan β) (close : Char) : (fuel : Nat) → Scan (List β)
  | 0 => failure
  | fuel + 1 => do
    let x ← item
    blanks
    let c ← next
    if c = ',' then return x :: (← items item close fuel)
    else if c = close then return [x]
    else failure

def container {β : Type} (item : Scan β) (close : Char) : Scan (List β) := do
  blanks
  if (← peek) = some close then
    let _ ← next
    return []
  else items item close ((← get).length)

def ofMembers (members : List (Option String × Json)) : Json :=
  orUnreadable <| do return object (← members.mapM fun m => do return (← m.1, m.2))

/-- A value with containers at most `depth` deep; deeper ones are unreadable. -/
def value : (depth : Nat) → Scan Json
  | 0 => do
    blanks
    match (← peek).bind closer? with
    | none => scalar
    | some _ => passOver ((← get).length + 1) false [] *> pure unreadable
  | depth + 1 => do
    blanks
    match ← peek with
    | some '[' => next *> array <$> container (value depth) ']'
    | some '\x7b' =>
      next *> ofMembers <$> container (do return (← memberName, ← value depth)) '\x7d'
    | _ => scalar

def parse? (text : String) : Option Json :=
  (do let j ← value nesting; blanks; return j : Scan Json).parse? text

def parseWhole? (text : String) : Option Json :=
  (parse? text).filter isReadable

end BlendGraph.Json
