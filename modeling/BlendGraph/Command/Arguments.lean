import BlendGraph.Number.Decimal
import BlendGraph.Text.Scan

/-!
# Command line arguments

The words behind the name of a command are options, written long (`--name`, `--name=value`) or
short (`-n`, `-nvalue`, `-n=value`, and several switches in one word), and operands. A word `--`
ends the options. Every option is given at most once. A word is a number as a whole or not at all.
-/

set_option autoImplicit false

namespace BlendGraph.Command

/-- What an option looks like. -/
structure OptionRule where
  long : String
  short : Option Char
  /-- Whether a value follows; without one the option is a switch. -/
  hasValue : Bool
  anyValue : Bool
  deriving DecidableEq, Repr

namespace OptionRule

def switch (long : String) (short : Option Char) : OptionRule := ⟨long, short, false, false⟩

def valued (long : String) (short : Option Char) : OptionRule := ⟨long, short, true, false⟩

end OptionRule

/-- The options that were given, with their values, and the operands. -/
structure Arguments where
  options : List (String × String)
  operands : List String
  deriving DecidableEq, Repr

namespace Arguments

def empty : Arguments := ⟨[], []⟩

def isGiven (a : Arguments) (long : String) : Bool := a.options.any fun o => o.1 == long

def value? (a : Arguments) (long : String) : Option String := a.options.lookup long

def record (a : Arguments) (rule : OptionRule) (value : String) : Option Arguments :=
  if a.isGiven rule.long then none
  else some { a with options := a.options ++ [(rule.long, value)] }

def looksLikeOption (word : String) : Bool :=
  Text.startsWith word "-" && word != "-"

def splitValue (cs : List Char) : String × Option String :=
  let name := cs.takeWhile (· != '=')
  match cs.drop name.length with
  | [] => (String.ofList name, none)
  | _ :: value => (String.ofList name, some (String.ofList value))

/-- A long option behind its dashes; the rule is given back if its value has to follow. -/
def readLong (rules : List OptionRule) (a : Arguments) (cs : List Char) :
    Option (Arguments × Option OptionRule) := do
  let rule ← rules.find? fun r => r.long == (splitValue cs).1
  match (splitValue cs).2, rule.hasValue with
  | none, true => return (a, some rule)
  | none, false => return (← a.record rule "", none)
  | some value, true => return (← a.record rule value, none)
  | some _, false => none

/-- The short options of one word behind its dash. The first one with a value takes the rest. -/
def readShort (rules : List OptionRule) (a : Arguments) :
    List Char → Option (Arguments × Option OptionRule)
  | [] => some (a, none)
  | c :: cs =>
    match rules.find? fun r => r.short == some c with
    | none => none
    | some rule =>
      if rule.hasValue then
        match cs with
        | [] => some (a, some rule)
        | '=' :: value => (a.record rule (String.ofList value)).map (·, none)
        | value => (a.record rule (String.ofList value)).map (·, none)
      else (a.record rule "").bind fun a => readShort rules a cs

/-- Reads words; `pending` is an option whose value has to follow. -/
def readFrom (rules : List OptionRule) (a : Arguments) :
    (pending : Option OptionRule) → List String → Option Arguments
  | none, [] => some a
  | some _, [] => none
  | some rule, word :: words =>
    if looksLikeOption word && !rule.anyValue then none
    else (a.record rule word).bind fun a => readFrom rules a none words
  | none, word :: words =>
    match word.toList with
    | ['-', '-'] => some { a with operands := a.operands ++ words }
    | '-' :: '-' :: cs => (readLong rules a cs).bind fun r => readFrom rules r.1 r.2 words
    | '-' :: c :: cs => (readShort rules a (c :: cs)).bind fun r => readFrom rules r.1 r.2 words
    | _ => readFrom rules { a with operands := a.operands ++ [word] } none words

def read? (rules : List OptionRule) (words : List String) : Option Arguments :=
  readFrom rules .empty none words

def optional {β : Type} (a : Arguments) (long : String) (read : String → Option β) :
    Option (Option β) :=
  match a.value? long with
  | none => some none
  | some word => (read word).map some

def required {β : Type} (a : Arguments) (long : String) (read : String → Option β) : Option β :=
  (a.value? long).bind read

def withDefault {β : Type} (a : Arguments) (long : String) (default : β)
    (read : String → Option β) : Option β :=
  (a.optional long read).map (·.getD default)

end Arguments

end BlendGraph.Command

/-! ### Numbers in words -/

namespace BlendGraph.Number

open Text (Scan)
open Text.Scan

def sign : Scan Bool := do
  return (← Text.Scan.optional (one fun c => c == '+' || c == '-')) = some '-'

def signedWord : Scan Int := do
  let negative ← sign
  let n : Int := Text.ofDigits 10 (← run1 Char.isDigit)
  return if negative then -n else n

def boundedInt? (bound : Nat) (text : String) : Option Nat :=
  (signedWord.parse? text).bind fun n => if 0 ≤ n ∧ n ≤ bound then some n.toNat else none

/-- A natural number up to `bound`, which may have a plus sign. -/
def boundedNat? (bound : Nat) (text : String) : Option Nat :=
  if Text.startsWith text "-" then none else boundedInt? bound text

def letter (c : Char) : Scan Unit := do
  let _ ← one fun x => x.toLower == c

def anyCase (text : String) : Scan Unit := text.toList.forM letter

/-- Digits with a point anywhere among, before or behind them, and perhaps an exponent. -/
def magnitude : Scan Decimal := do
  let whole ← run Char.isDigit
  let places := (← Text.Scan.optional (word "." *> run Char.isDigit)).getD []
  if whole.isEmpty && places.isEmpty then failure
  let e ← Text.Scan.optional (anyCase "e" *> signedWord)
  return ⟨Text.ofDigits 10 (whole ++ places), e.getD 0 - places.length⟩

/-- The float nearest to a number in text, which may also be infinite or no number. -/
def single : Scan Float32 := do
  let negative ← sign
  (anyCase "infinity" <|> anyCase "inf") *> pure (ofMagnitude negative none)
    <|> anyCase "nan" *> pure (Float32.ofBits 0x7FC00000)
    <|> (fun m => (Numeral.mk negative m false).toSingle) <$> magnitude

def single? (text : String) : Option Float32 := single.parse? text

end BlendGraph.Number
