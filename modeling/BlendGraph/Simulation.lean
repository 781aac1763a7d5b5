import BlendGraph.Playback
import BlendGraph.Setup.Basic

/-!
# Simulation

A setup is compiled into a host, and one of its parameters is driven: a quantized one by the pattern
of its bits, any other one by its value. Then the graph is played, and the raw and the smoothed
value of the parameter are read after each frame.
-/

set_option autoImplicit false

namespace BlendGraph

variable {α : Type} [Scalar α]

/-- How a parameter is driven. -/
structure Drive (α : Type) where
  observer : Observer
  input : Option α
  pattern : Option Nat
  negative : Bool

/-- Why a simulation does not start. -/
inductive SimulationError (α : Type) where
  | compile (error : CompileError α)
  | needsPattern (parameter : String)
  | patternTooWide (pattern bits : Nat)
  | noSignBit (parameter : String)
  | needsInput (parameter : String)
  deriving DecidableEq

def SimulationError.message : SimulationError α → String
  | compile error => error.message
  | needsPattern parameter => s!"'{parameter}' is quantized; drive it with --bits"
  | patternTooWide pattern bits => s!"--bits {pattern} does not fit in {bits} bits"
  | noSignBit parameter => s!"'{parameter}' has no sign bit"
  | needsInput parameter => s!"'{parameter}' is not quantized; drive it with --input"

namespace Simulation

def level (on : Bool) : α := if on then 1 else 0

/-- The channels that drive a parameter, with their values. Bit channels have the names that the
setup gives them. -/
def settings (s : Setup α) (p : Parameter α) (d : Drive α) :
    Except (SimulationError α) (List (String × α)) :=
  let given (name : String) : String := if s.hideBits then Text.hide name else name
  if p.isQuantized then
    match d.pattern with
    | none => .error (.needsPattern p.name)
    | some pattern =>
      if Nat.pow 2 p.bits ≤ pattern then .error (.patternTooWide pattern p.bits)
      else if d.negative && !p.signBit then .error (.noSignBit p.name)
      else
        let bits := (List.range p.bits).map fun i =>
          (given (s.names.bit p.name i), level (pattern.testBit i))
        .ok (bits ++ if p.signBit then [(given (s.names.sign p.name), level d.negative)] else [])
  else
    match d.input with
    | none => .error (.needsInput p.name)
    | some x => .ok [(p.name, x)]

/-- The compiled host with the driven channels set, before the first frame. The capacity is the one
of the setup, or what the host leaves. -/
def start (s : Setup α) (p : Parameter α) (h : Host α) (d : Drive α) :
    Except (SimulationError α) (Playback α) :=
  let available := Compile.availableCapacity h s.parameters s.names
  match Compile.compile h s.parameters (s.compileOptions available) with
  | .error e => .error (.compile e)
  | .ok done => do
    let selected := (Playback.start done.1).set Namespace.selectorChannel d.observer.threshold
    return (← settings s p d).foldl (fun q w => q.set w.1 w.2) selected

/-- The raw and the smoothed value of a parameter. -/
structure Frame (α : Type) where
  raw : α
  smoothed : α

/-- The values after each of a number of frames, and what ended them early. -/
def frames (ns : Namespace) (parameter : String) (p : Playback α) :
    Nat → List (Frame α) × Option Unbracketed
  | 0 => ([], none)
  | n + 1 =>
    match p.step with
    | .error e => ([], some e)
    | .ok (_, q) =>
      let rest := frames ns parameter q n
      (⟨q.get parameter, q.get (ns.proxy parameter)⟩ :: rest.1, rest.2)

end Simulation

end BlendGraph
