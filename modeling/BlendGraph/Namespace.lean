import BlendGraph.Parameter.Basic
import BlendGraph.Text.Shift

/-!
# Names of generated things

Everything generated carries the root of its namespace in its name, so that a later run finds it
again and a removal knows it. Bit channels may be registered under a shifted name. A generated clip
is named after its parameter, without separators, and the identifier of its host.
-/

set_option autoImplicit false

namespace BlendGraph

/-- The namespace of generated names below a root. -/
structure Namespace where
  root : String
  deriving DecidableEq, Repr

namespace Namespace

def defaultRoot : String := "OSCm"

/-- The channel of the host that is one for the owner. -/
def selectorChannel : String := "IsLocal"

def stateName : String := "OSCmooth"

/-- Whether the name carries the root. An empty root marks nothing. -/
def tags (ns : Namespace) (name : String) : Bool :=
  !ns.root.isEmpty && Text.contains name ns.root

/-- Whether a channel is generated, by its plain or its revealed name. -/
def generates (ns : Namespace) (channel : String) : Bool :=
  ns.tags channel || ns.tags (Text.reveal channel)

def channel (ns : Namespace) (segment rest : String) : String :=
  ns.root ++ "/" ++ segment ++ "/" ++ rest

def start (ns : Namespace) (segment : String) : String :=
  ns.channel segment ""

/-- Whether a channel is a bit or a sign, by its plain or its revealed name. -/
def carriesBit (ns : Namespace) (channel : String) : Bool :=
  !ns.root.isEmpty && (Text.startsWith channel (ns.start "Binary")
    || Text.startsWith (Text.reveal channel) (ns.start "Binary"))

def coefficient (ns : Namespace) (o : Observer) (parameter : String) : String :=
  ns.channel o.segment parameter

/-- The smoothed value of a parameter, which is also its feedback. -/
def proxy (ns : Namespace) (parameter : String) : String :=
  ns.channel "Proxy" parameter

def bit (ns : Namespace) (parameter : String) (i : Nat) : String :=
  ns.channel "Binary" (parameter ++ toString (Nat.pow 2 i))

def sign (ns : Namespace) (parameter : String) : String :=
  ns.channel "Binary" (parameter ++ "Negative")

/-- The constant one that weighs the branches of sums. -/
def blendSet (ns : Namespace) : String :=
  ns.root ++ "/BlendSet"

/-- The beginnings that are taken off when references are turned back, in order of preference. -/
def starts (ns : Namespace) : List String :=
  [ns.start "Proxy", ns.start Observer.owner.segment, ns.start Observer.remote.segment,
    ns.start "Binary"]

def layer (ns : Namespace) : String := "_" ++ ns.root ++ "_Gen"

def rootNode (ns : Namespace) : String := ns.root ++ "_Root"

def smootherRoot (ns : Namespace) : String := ns.root ++ "_Smoother_Root"

def observerRoot (ns : Namespace) (o : Observer) : String := ns.root ++ "_" ++ o.segment

def filterRoot (ns : Namespace) (parameter : String) : String :=
  ns.root ++ "_" ++ parameter ++ " Root"

def filterInput (ns : Namespace) (parameter : String) : String :=
  ns.root ++ "_" ++ parameter ++ " Input"

def filterDriver (ns : Namespace) (parameter : String) : String :=
  ns.root ++ "_" ++ parameter ++ " Driver"

def binaryRoot (ns : Namespace) : String := ns.root ++ "_Binary_Root"

def decoderRoot (ns : Namespace) (parameter : String) : String :=
  ns.root ++ "_Binary_" ++ parameter ++ "_Root"

def decoderSum (ns : Namespace) (parameter : String) (negative : Bool) : String :=
  ns.root ++ "_Binary_" ++ parameter ++ (if negative then "_Negative" else "_Positive")

def decoderBit (ns : Namespace) (parameter : String) (i : Nat) (negative : Bool) : String :=
  ns.root ++ "_Binary_" ++ parameter ++ "_Decode_" ++ (if negative then "-" else "+")
    ++ toString (Nat.pow 2 i)

end Namespace

end BlendGraph

/-! ### Clips -/

namespace BlendGraph.ClipName

variable {α : Type} [Scalar α]

def withoutSeparators (name : String) : String :=
  String.ofList (name.toList.filter (· ≠ '/'))

def smootherEnd (host : String) : String := "-Smoother-" ++ host ++ ".anim"

def decoderEnd (host : String) : String := "+" ++ host ++ ".anim"

/-- The clip that a filter plays at one bound of its input. -/
def smoother (parameter : String) (bound : α) (host : String) : String :=
  withoutSeparators parameter ++ "-" ++ (if bound ≤ 0 ∧ ¬ 0 ≤ bound then "-" else "+")
    ++ Scalar.text (Scalar.abs bound) ++ smootherEnd host

/-- The clip that a decoder plays for one state of a bit. -/
def decoder (parameter : String) (set : Bool) (i : Nat) (weight : α) (host : String) : String :=
  withoutSeparators parameter ++ (if set then "+True+" else "+False+") ++ toString i ++ "+"
    ++ Scalar.text weight ++ decoderEnd host

/-- Whether the name is that of a clip generated for the host. A host without an identifier has
none. -/
def isGenerated (name host : String) : Bool :=
  !host.isEmpty && (Text.endsWith name (smootherEnd host)
    || Text.endsWith name (decoderEnd host)
      && (Text.contains name "+True+" || Text.contains name "+False+"))

end BlendGraph.ClipName
