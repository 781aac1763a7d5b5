import BlendGraph.Toml.Quoted
import BlendGraph.Toml.Slot

/-!
# Reading TOML

The text of a document is read as a list of statements, one a line. Values are nested at most
`nesting` deep, and a key has at most `nesting` parts.
-/

set_option autoImplicit false

namespace BlendGraph.Toml

open Text (Scan)
open Text.Scan

/-- The deepest nesting of values, and the greatest number of parts of a key. -/
def nesting : Nat := 79

def blanks : Scan Unit := skip isBlank

def comment : Scan Unit := word "#" *> skip fun c => !isControl c

def gaps : Scan Unit := do
  let _ ← many ((do let _ ← run1 isBlank) <|> newline <|> (comment *> newline))

/-- The end of a statement: blanks, perhaps a comment, and the end of the line or the text. -/
def lineEnd : Scan Unit := do
  blanks
  let _ ← Text.Scan.optional comment
  newline <|> done

/-! ### Keys -/

def keyPart : Scan String := do
  blanks
  let part ← shortString <|> String.ofList <$> run1 isBare
  blanks
  return part

def key : Scan Key := do
  let first ← keyPart
  let rest ← many (word "." *> keyPart)
  if rest.length < nesting then return .ofParts first rest else failure

/-! ### Numbers -/

def digits (test : Char → Bool) : Scan (List Char) := do
  let first ← run1 test
  let more ← many (word "_" *> run1 test)
  return first ++ more.flatten

def isHexDigit (c : Char) : Bool := (Text.hexValue? c).isSome

def isOctalDigit (c : Char) : Bool := '0' ≤ c && c ≤ '7'

def isBinaryDigit (c : Char) : Bool := c == '0' || c == '1'

/-- Whether a minus sign stands here; a plus sign is taken too. -/
def sign : Scan Bool := do
  return (← Text.Scan.optional (one fun c => c == '+' || c == '-')) = some '-'

/-- The digits of a decimal integer, which start with zero only if that is all. -/
def wholeDigits : Scan (List Char) := do
  let cs ← digits Char.isDigit
  if cs.head? = some '0' ∧ cs.length ≠ 1 then failure else return cs

def exponent : Scan Int := do
  let _ ← one fun c => c == 'e' || c == 'E'
  let negative ← sign
  let n : Int := Text.ofDigits 10 (← digits Char.isDigit)
  return if negative then -n else n

/-- A float. A positive one beyond the 64-bit format is none. -/
def floatLiteral : Scan TomlFloat := do
  let negative ← sign
  (word "inf" *> pure (.infinite negative)) <|> (word "nan" *> pure .nan) <|> do
    let whole ← wholeDigits
    let fraction ← Text.Scan.optional (word "." *> digits Char.isDigit)
    let e ← Text.Scan.optional exponent
    if fraction.isNone && e.isNone then failure
    let places := fraction.getD []
    let n : Numeral :=
      ⟨negative, ⟨Text.ofDigits 10 (whole ++ places), e.getD 0 - places.length⟩, false⟩
    if n.negative || n.fitsDouble then return .finite n else failure

def basedInteger (mark : String) (base : Nat) (test : Char → Bool) : Scan Int := do
  word mark
  return (Text.ofDigits base (← digits test) : Nat)

def decimalInteger : Scan Int := do
  let negative ← sign
  let n : Int := Text.ofDigits 10 (← wholeDigits)
  return if negative then -n else n

def wordBound : Nat := Nat.pow 2 63

def integerLiteral : Scan Int := do
  let n ← basedInteger "0x" 16 isHexDigit <|> basedInteger "0o" 8 isOctalDigit
    <|> basedInteger "0b" 2 isBinaryDigit <|> decimalInteger
  if -(wordBound : Int) ≤ n ∧ n < wordBound then return n else failure

/-! ### Dates and times -/

def exactDigits (count : Nat) : Scan (List Char) :=
  (List.replicate count (one Char.isDigit)).mapM id

def twoDigits (low high : Nat) : Scan (List Char) := do
  let cs ← exactDigits 2
  let n := Text.ofDigits 10 cs
  if low ≤ n ∧ n ≤ high then return cs else failure

def isLeapYear (year : Nat) : Bool :=
  year % 4 == 0 && (year % 100 != 0 || year % 400 == 0)

def daysOfMonth (year month : Nat) : Nat :=
  if month = 2 then (if isLeapYear year then 29 else 28)
  else if month ∈ [4, 6, 9, 11] then 30 else 31

def date : Scan (List Char) := do
  let year ← exactDigits 4
  word "-"
  let month ← twoDigits 1 12
  word "-"
  let day ← twoDigits 1 (daysOfMonth (Text.ofDigits 10 year) (Text.ofDigits 10 month))
  return year ++ '-' :: month ++ '-' :: day

def time : Scan (List Char) := do
  let hour ← twoDigits 0 23
  word ":"
  let minute ← twoDigits 0 59
  word ":"
  let second ← twoDigits 0 60
  let fraction ← Text.Scan.optional (word "." *> run1 Char.isDigit)
  return hour ++ ':' :: minute ++ ':' :: second ++ (fraction.map ('.' :: ·)).getD []

def offset : Scan (List Char) :=
  (do let c ← one fun c => c == 'Z' || c == 'z'; return [c]) <|> do
    let c ← one fun c => c == '+' || c == '-'
    let hour ← twoDigits 0 23
    word ":"
    let minute ← twoDigits 0 59
    return c :: hour ++ ':' :: minute

def dateTime : Scan (List Char) := do
  let day ← date
  let clock ← Text.Scan.optional do
    let c ← one fun c => c == 'T' || c == 't' || c == ' '
    let clock ← time
    return c :: clock ++ (← Text.Scan.optional offset).getD []
  return day ++ clock.getD []

def datetimeLiteral : Scan String := String.ofList <$> (dateTime <|> time)

/-! ### Values -/

def scalar : Scan Toml :=
  (string <$> longString) <|> (string <$> shortString)
    <|> (word "true" *> pure (boolean true)) <|> (word "false" *> pure (boolean false))
    <|> (datetime <$> datetimeLiteral) <|> (float <$> floatLiteral) <|> (integer <$> integerLiteral)

/-- The items of an array behind its opening bracket. A comma may stand behind the last one. -/
def arrayRest (item : Scan Toml) : (fuel : Nat) → Scan (List Toml)
  | 0 => failure
  | fuel + 1 => do
    gaps
    if (← peek) = some ']' then
      let _ ← next
      return []
    let x ← item
    gaps
    match ← next with
    | ',' => return x :: (← arrayRest item fuel)
    | ']' => return [x]
    | _ => failure

def pair (value : Scan Toml) : Scan (Key × Toml) := do
  let k ← key
  word "="
  blanks
  return (k, ← value)

def pairsRest (value : Scan Toml) : (fuel : Nat) → Scan (List (Key × Toml))
  | 0 => failure
  | fuel + 1 => do
    let p ← pair value
    blanks
    match ← next with
    | ',' => return p :: (← pairsRest value fuel)
    | '\x7d' => return [p]
    | _ => failure

def tableRest (value : Scan Toml) : Scan Toml := do
  blanks
  if (← peek) = some '\x7d' then
    let _ ← next
    return table []
  else
    let pairs ← pairsRest value (← get).length
    match ofPairs? pairs with
    | some t => return t
    | none => failure

def value : (depth : Nat) → Scan Toml
  | 0 => scalar
  | depth + 1 => do
    match ← peek with
    | some '[' => next *> array <$> arrayRest (value depth) (← get).length
    | some '\x7b' => next *> tableRest (value depth)
    | _ => scalar

/-! ### Documents -/

def header : Scan Statement := do
  word "["
  let doubled ← Text.Scan.optional (word "[")
  let k ← key
  word "]"
  match doubled with
  | none => return .header k
  | some _ =>
    word "]"
    return .item k

def line : Scan (Option Statement) := do
  blanks
  match ← peek with
  | none => failure
  | some '#' | some '\n' | some '\r' => lineEnd *> pure none
  | some '[' => some <$> header <* lineEnd
  | some _ =>
    let p ← pair (value nesting)
    lineEnd
    return some (.pair p.1 p.2)

/-- The statements of a document. A byte order mark may stand in front. -/
def document : Scan (List Statement) := do
  let _ ← Text.Scan.optional (word "\uFEFF")
  let lines ← many line
  blanks
  return lines.filterMap id

def statements? (text : String) : Option (List Statement) := document.parse? text

def parse? (text : String) : Option Toml := (statements? text).bind ofStatements?

end BlendGraph.Toml
