import BlendGraph.Toml.Quoted
import BlendGraph.Toml.Slot

/-!
# Writing TOML
-/

set_option autoImplicit false

namespace BlendGraph

/-- A float, with a point always, and never with an exponent. -/
def TomlFloat.text : TomlFloat → String
  | finite n =>
    Number.signText n.negative ++ n.magnitude.positional
      ++ if 0 ≤ n.magnitude.exponent then ".0" else ""
  | infinite negative => Number.signText negative ++ "inf"
  | nan => "nan"

namespace Toml

def keyPartText (part : String) : String :=
  if !part.isEmpty && part.toList.all isBare then part
  else "\"" ++ String.ofList (escaped false 0 part.toList) ++ "\""

def Key.text (key : Key) : String := ".".intercalate (key.parts.map keyPartText)

mutual

def text : Toml → String
  | string s => quote s
  | integer n => toString n
  | float x => x.text
  | boolean b => if b then "true" else "false"
  | datetime text => text
  | array items => "[" ++ ", ".intercalate (itemTexts items) ++ "]"
  | table entries => "\x7b" ++ ", ".intercalate (entryTexts entries) ++ "\x7d"

def itemTexts : List Toml → List String
  | [] => []
  | v :: vs => text v :: itemTexts vs

def entryTexts : List (String × Toml) → List String
  | [] => []
  | (key, v) :: es => (keyPartText key ++ " = " ++ text v) :: entryTexts es

end

/-- A statement with its line end. An empty line stands before a header. -/
def Statement.text : Statement → String
  | header key => "\n[" ++ key.text ++ "]\n"
  | item key => "\n[[" ++ key.text ++ "]]\n"
  | pair key value => key.text ++ " = " ++ value.text ++ "\n"

def documentText (statements : List Statement) : String :=
  String.join (statements.map Statement.text)

end Toml

end BlendGraph
