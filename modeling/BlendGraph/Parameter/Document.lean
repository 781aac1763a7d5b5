import BlendGraph.Json.Basic
import BlendGraph.Parameter.Basic
import BlendGraph.Toml.Reader
import BlendGraph.Toml.Writer

/-!
# Parameters as documents

A parameter is a JSON object or a TOML table with the same field names. Every field but the name may
be missing and has its default then.
-/

set_option autoImplicit false

namespace BlendGraph.Parameter

def fieldNames : List String :=
  ["name", "local_smoothness", "remote_smoothness", "quantization_bits", "use_sign_bit",
    "use_proxy_rename"]

def bitsBound : Nat := 255

/-! ### JSON -/

/-- The parameter of a document, with `read` for its numbers. -/
def ofJson? (read : Json → Option Float32) (j : Json) : Option (Parameter Float32) := do
  match ← j.record? fieldNames with
  | [name, owner, remote, bits, signBit, redirect] =>
    return {
      name := ← Json.required Json.string? name
      ownerSmoothness := ← Json.withDefault defaultOwnerSmoothness read owner
      remoteSmoothness := ← Json.withDefault defaultRemoteSmoothness read remote
      bits := ← Json.withDefault 0 (Json.nat? bitsBound) bits
      signBit := ← Json.withDefault false Json.bool? signBit
      redirect := ← Json.withDefault true Json.bool? redirect }
  | _ => none

/-- The document of a parameter, with `write` for its numbers. -/
def toJson (write : Float32 → Json) (p : Parameter Float32) : Json :=
  .object <| fieldNames.zip [.string p.name, write p.ownerSmoothness, write p.remoteSmoothness,
    .ofNat p.bits, .bool p.signBit, .bool p.redirect]

/-! ### TOML -/

open Toml

/-- The parameter of a record; fields that are missing have their defaults. -/
def ofToml? (t : Toml) : Option (Parameter Float32) := do
  match ← t.record? fieldNames with
  | [name, owner, remote, bits, signBit, redirect] =>
    return {
      name := ← name.bind string?
      ownerSmoothness := ← withDefault defaultOwnerSmoothness single? owner
      remoteSmoothness := ← withDefault defaultRemoteSmoothness single? remote
      bits := ← withDefault 0 (nat? bitsBound) bits
      signBit := ← withDefault false boolean? signBit
      redirect := ← withDefault true boolean? redirect }
  | _ => none

def statements (p : Parameter Float32) : List Statement :=
  (fieldNames.zip [.string p.name, .float (.ofSingle p.ownerSmoothness),
    .float (.ofSingle p.remoteSmoothness), .integer p.bits, .boolean p.signBit,
    .boolean p.redirect]).map fun f => .pair (.single f.1) f.2

end BlendGraph.Parameter
