import BlendGraph.Text.Scan

/-!
# TOML strings

A string is written between double quotes, where a backslash starts an escape, or between single
quotes, where every character stands for itself; in both cases on one line or, between triple
quotes, over several. `quote` picks the first form that fits the text.
-/

set_option autoImplicit false

namespace BlendGraph.Toml

open Text (Scan)
open Text.Scan

/-- The characters that no string holds as they are, except for the newlines of a long one. -/
def isControl (c : Char) : Bool :=
  (c.toNat < 0x20 && c != '\t') || c.toNat == 0x7F

def isBare (c : Char) : Bool := c.isAlphanum || c == '-' || c == '_'

/-! ### Reading -/

def escape? : Char → Option Char
  | '"' => some '"'
  | '\\' => some '\\'
  | 'b' => some '\x08'
  | 'f' => some '\x0c'
  | 'n' => some '\n'
  | 'r' => some '\r'
  | 't' => some '\t'
  | _ => none

def codePoint? (digits : List Char) : Option Char :=
  if digits.all fun c => (Text.hexValue? c).isSome then Text.scalar? (Text.ofDigits 16 digits)
  else none

def push (c : Option Char) (rest : Option (List Char × List Char)) :
    Option (List Char × List Char) :=
  c.bind fun c => rest.map fun r => (c :: r.1, r.2)

def basicRest : List Char → Option (List Char × List Char)
  | [] => none
  | '"' :: cs => some ([], cs)
  | '\\' :: 'u' :: a :: b :: c :: d :: cs => push (codePoint? [a, b, c, d]) (basicRest cs)
  | '\\' :: 'U' :: a :: b :: c :: d :: e :: f :: g :: h :: cs =>
    push (codePoint? [a, b, c, d, e, f, g, h]) (basicRest cs)
  | '\\' :: e :: cs => push (escape? e) (basicRest cs)
  | c :: cs => if isControl c then none else push (some c) (basicRest cs)

def isBlank (c : Char) : Bool := c == ' ' || c == '\t'

def atLineEnd (cs : List Char) : Bool :=
  match cs.dropWhile isBlank with
  | '\n' :: _ | '\r' :: '\n' :: _ => true
  | _ => false

/-- A long string with escapes, up to its closing quotes. A backslash at the end of a line takes
away all blanks and line ends that follow; `trim` says that this goes on. -/
def longBasicRest : (trim : Bool) → List Char → Option (List Char × List Char)
  | _, [] => none
  | _, '"' :: '"' :: '"' :: '"' :: '"' :: cs => some (['"', '"'], cs)
  | _, '"' :: '"' :: '"' :: '"' :: cs => some (['"'], cs)
  | _, '"' :: '"' :: '"' :: cs => some ([], cs)
  | _, '\\' :: 'u' :: a :: b :: c :: d :: cs =>
    push (codePoint? [a, b, c, d]) (longBasicRest false cs)
  | _, '\\' :: 'U' :: a :: b :: c :: d :: e :: f :: g :: h :: cs =>
    push (codePoint? [a, b, c, d, e, f, g, h]) (longBasicRest false cs)
  | _, '\\' :: e :: cs =>
    if atLineEnd (e :: cs) then longBasicRest true (e :: cs)
    else push (escape? e) (longBasicRest false cs)
  | trim, '\r' :: '\n' :: cs =>
    if trim then longBasicRest true cs else push (some '\n') (longBasicRest false cs)
  | trim, c :: cs =>
    if trim && (isBlank c || c == '\n') then longBasicRest true cs
    else if isControl c && c != '\n' then none
    else push (some c) (longBasicRest false cs)

def literalRest : List Char → Option (List Char × List Char)
  | [] => none
  | '\'' :: cs => some ([], cs)
  | c :: cs => if isControl c then none else push (some c) (literalRest cs)

def longLiteralRest : List Char → Option (List Char × List Char)
  | [] => none
  | '\'' :: '\'' :: '\'' :: '\'' :: '\'' :: cs => some (['\'', '\''], cs)
  | '\'' :: '\'' :: '\'' :: '\'' :: cs => some (['\''], cs)
  | '\'' :: '\'' :: '\'' :: cs => some ([], cs)
  | '\r' :: '\n' :: cs => push (some '\n') (longLiteralRest cs)
  | c :: cs => if isControl c && c != '\n' then none else push (some c) (longLiteralRest cs)

def newline : Scan Unit := word "\n" <|> word "\r\n"

def shortString : Scan String := do
  match ← next with
  | '"' => return String.ofList (← basicRest)
  | '\'' => return String.ofList (← literalRest)
  | _ => failure

/-- A string between triple quotes. A line end right behind the opening ones does not count. -/
def longString : Scan String := do
  let escapes ← (word "\"\"\"" *> pure true) <|> (word "'''" *> pure false)
  let _ ← Text.Scan.optional newline
  if escapes then return String.ofList (← longBasicRest false)
  else return String.ofList (← longLiteralRest)

/-! ### Writing -/

/-- How a string is written. -/
structure QuoteForm where
  escapes : Bool
  long : Bool
  deriving DecidableEq, Repr

def QuoteForm.of (cs : List Char) : QuoteForm :=
  let plain := cs.all fun c => c == '\n' || !isControl c
  let newline := cs.contains '\n'
  let backslash := cs.contains '\\'
  if plain && !backslash && !cs.contains '"' && !newline then ⟨true, false⟩
  else if plain && !cs.contains '\'' && !newline then ⟨false, false⟩
  else if plain && !backslash && !Text.occursIn ['"', '"', '"'] cs then ⟨true, true⟩
  else if plain && !Text.occursIn ['\'', '\'', '\''] cs then ⟨false, true⟩
  else ⟨true, newline⟩

/-- A character between double quotes; quotes and line ends are dealt with before. -/
def escape (c : Char) : List Char :=
  match c with
  | '\x08' => ['\\', 'b']
  | '\t' => ['\\', 't']
  | '\n' => ['\\', 'n']
  | '\x0c' => ['\\', 'f']
  | '\r' => ['\\', 'r']
  | '\\' => ['\\', '\\']
  | c =>
    if isControl c then
      ['\\', 'u', '0', '0', (Nat.digitChar (c.toNat / 16)).toUpper,
        (Nat.digitChar (c.toNat % 16)).toUpper]
    else [c]

/-- The text between double quotes. In a long one line ends stand as they are, and only the third
of three quotes in a row is escaped; `quotes` counts those before. -/
def escaped (long : Bool) : (quotes : Nat) → List Char → List Char
  | _, [] => []
  | quotes, '"' :: cs =>
    if long && quotes < 2 then '"' :: escaped long (quotes + 1) cs
    else '\\' :: '"' :: escaped long 0 cs
  | _, '\n' :: cs => if long then '\n' :: escaped long 0 cs else '\\' :: 'n' :: escaped long 0 cs
  | _, c :: cs => escape c ++ escaped long 0 cs

/-- The string between quotes. A long one that has several lines begins with a line of its own. -/
def quote (s : String) : String :=
  let form := QuoteForm.of s.toList
  let mark := if form.escapes then "\"" else "'"
  let delimiter := if form.long then mark ++ mark ++ mark else mark
  let start := if form.long && s.toList.contains '\n' then "\n" else ""
  let body := if form.escapes then String.ofList (escaped form.long 0 s.toList) else s
  delimiter ++ start ++ body ++ delimiter

end BlendGraph.Toml
