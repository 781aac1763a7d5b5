import BlendGraph.Json.Basic

/-!
# Writing JSON

A value is written on one line, or over several lines with an indentation of two blanks.
-/

set_option autoImplicit false

namespace BlendGraph.Json

/-- A character of a string: quote, backslash and control characters are escaped. -/
def escape (c : Char) : List Char :=
  match c with
  | '"' => ['\\', '"']
  | '\\' => ['\\', '\\']
  | '\x08' => ['\\', 'b']
  | '\x0c' => ['\\', 'f']
  | '\n' => ['\\', 'n']
  | '\r' => ['\\', 'r']
  | '\t' => ['\\', 't']
  | c =>
    if c.toNat < 0x20 then
      ['\\', 'u', '0', '0', Nat.digitChar (c.toNat / 16), Nat.digitChar (c.toNat % 16)]
    else [c]

def quote (s : String) : String :=
  "\"" ++ String.ofList (s.toList.flatMap escape) ++ "\""

mutual

def compress : Json → String
  | null | unreadable => "null"
  | bool b => if b then "true" else "false"
  | number n => n.text
  | string s => quote s
  | array items => "[" ++ ",".intercalate (compressItems items) ++ "]"
  | object members => "\x7b" ++ ",".intercalate (compressMembers members) ++ "\x7d"

def compressItems : List Json → List String
  | [] => []
  | j :: js => compress j :: compressItems js

def compressMembers : List (String × Json) → List String
  | [] => []
  | (name, j) :: js => (quote name ++ ":" ++ compress j) :: compressMembers js

end

def block (opening closing indent : String) (lines : List String) : String :=
  if lines.isEmpty then opening ++ closing
  else opening ++ "\n" ++ (",\n".intercalate (lines.map (indent ++ "  " ++ ·))) ++ "\n" ++ indent
    ++ closing

mutual

/-- The value over several lines; `indent` stands in front of all but the first. -/
def pretty (indent : String) : Json → String
  | null | unreadable => "null"
  | bool b => if b then "true" else "false"
  | number n => n.text
  | string s => quote s
  | array items => block "[" "]" indent (prettyItems (indent ++ "  ") items)
  | object members => block "\x7b" "\x7d" indent (prettyMembers (indent ++ "  ") members)

def prettyItems (indent : String) : List Json → List String
  | [] => []
  | j :: js => pretty indent j :: prettyItems indent js

def prettyMembers (indent : String) : List (String × Json) → List String
  | [] => []
  | (name, j) :: js => (quote name ++ ": " ++ pretty indent j) :: prettyMembers indent js

end

end BlendGraph.Json
