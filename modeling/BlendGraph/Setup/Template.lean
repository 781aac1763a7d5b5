import BlendGraph.Setup.Basic

/-!
# Built-in setups
-/

set_option autoImplicit false

namespace BlendGraph

/-- The built-in setups. -/
inductive Template where
  | sample
  | face
  | locomotion
  deriving DecidableEq, Repr

namespace Template

def all : List Template := [sample, face, locomotion]

def name : Template → String
  | sample => "example"
  | face => "face"
  | locomotion => "locomotion"

/-- The template of a name, where capital letters of ASCII stand for small ones. -/
def ofName? (name : String) : Option Template :=
  all.find? fun t => t.name == String.ofList (name.toList.map Char.toLower)

variable {α : Type} [Scalar α]

open Scalar (ratio)

def setup : Template → Setup α
  | sample => { (Setup.ofName "Example" : Setup α) with
      description := some "One smoothed float and one quantized parameter"
      parameters := [
        (Parameter.ofName "Smile").withSmoothness (ratio 4 5) (ratio 1 2),
        ((Parameter.ofName "Jump").withSmoothness (ratio 3 5) (ratio 4 5)).withBits 3 true] }
  | face => { (Setup.ofName "Face" : Setup α) with
      description := some "Light local smoothing for facial tracking"
      parameters := [
        (Parameter.ofName "FT/EyeLidLeft").withSmoothness (ratio 1 2) (ratio 7 10),
        (Parameter.ofName "FT/EyeLidRight").withSmoothness (ratio 1 2) (ratio 7 10),
        (Parameter.ofName "FT/JawOpen").withBits 4 false,
        (Parameter.ofName "FT/MouthSmile").withBits 4 true] }
  | locomotion => { (Setup.ofName "Locomotion" : Setup α) with
      description := some "Heavy remote smoothing to hide transport jitter"
      hideBits := true
      parameters := [
        (Parameter.ofName "VelocityX").withSmoothness (ratio 1 5) (ratio 9 10),
        (Parameter.ofName "VelocityZ").withSmoothness (ratio 1 5) (ratio 9 10)] }

end Template

end BlendGraph
