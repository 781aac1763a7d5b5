import BlendGraph.Parameter.Document
import BlendGraph.Setup.Basic

/-!
# Setups as TOML documents
-/

set_option autoImplicit false

namespace BlendGraph

open Toml

namespace Setup

def capacityBound : Nat := Nat.pow 2 32 - 1

def fieldNames : List String :=
  ["name", "description", "namespace", "obfuscate_bits", "capacity", "parameters"]

def parameters? (t : Toml) : Option (List (Parameter Float32)) := do
  (← t.array?).mapM Parameter.ofToml?

/-- The setup of a table; only the name has to be there. -/
def ofToml? (t : Toml) : Option (Setup Float32) := do
  match ← t.record? fieldNames with
  | [name, description, root, hideBits, capacity, parameters] =>
    return {
      name := ← name.bind string?
      description := ← optional string? description
      root := ← withDefault Namespace.defaultRoot string? root
      hideBits := ← withDefault false boolean? hideBits
      capacity := ← optional (nat? capacityBound) capacity
      parameters := ← withDefault [] parameters? parameters }
  | _ => none

/-- The statements of a setup: what all parameters share, then a table for each of them. -/
def statements (s : Setup Float32) : List Statement :=
  [.pair (.single "name") (.string s.name)]
    ++ s.description.toList.map (fun d => .pair (.single "description") (.string d))
    ++ [.pair (.single "namespace") (.string s.root),
      .pair (.single "obfuscate_bits") (.boolean s.hideBits)]
    ++ s.capacity.toList.map (fun c => .pair (.single "capacity") (.integer c))
    ++ if s.parameters.isEmpty then [.pair (.single "parameters") (.array [])]
      else s.parameters.flatMap fun p => .item (.single "parameters") :: p.statements

def parse? (text : String) : Option (Setup Float32) := (Toml.parse? text).bind ofToml?

def text (s : Setup Float32) : String := documentText s.statements

end Setup

end BlendGraph
