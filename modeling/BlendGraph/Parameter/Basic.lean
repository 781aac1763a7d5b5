import BlendGraph.Channel
import BlendGraph.Curve
import BlendGraph.Text.Basic

/-!
# Parameters

A parameter names one scalar channel of the host and says how it is smoothed for each observer and,
if at all, quantized for transport. What is wrong with a parameter or with a list of them is told by
the error of its compilation.
-/

set_option autoImplicit false

namespace BlendGraph

/-- Who looks at the graph: the one who owns the parameters, or somebody else. -/
inductive Observer where
  | remote
  | owner
  deriving DecidableEq, Repr

namespace Observer

def all : List Observer := [remote, owner]

/-- The part of channel and node names that stands for the observer. -/
def segment : Observer → String
  | remote => "Remote"
  | owner => "Local"

/-- The value of the selecting channel at which the observer's subgraph plays alone. -/
def threshold {α : Type} [Scalar α] : Observer → α
  | remote => 0
  | owner => 1

end Observer

/-- How one channel is smoothed and transmitted. -/
structure Parameter (α : Type) where
  name : String
  /-- Smoothing coefficient for the owner, between zero and one. -/
  ownerSmoothness : α
  /-- Smoothing coefficient for every other observer, between zero and one. -/
  remoteSmoothness : α
  /-- Number of transmitted bits; zero for a continuous channel. -/
  bits : Nat
  signBit : Bool
  redirect : Bool
  deriving DecidableEq

/-- Why a parameter list is not compiled. -/
inductive CompileError (α : Type) where
  | overBudget (used capacity : Nat)
  | width (parameter : String) (bits : Nat)
  | smoothness (parameter : String) (value : α)
  | emptyName
  | emptyNamespace
  | reservedName (parameter tag : String)
  | duplicateParameter (parameter : String)
  | duplicateChannel (channel : String)
  | curve (clip : String) (fault : CurveError)
  deriving DecidableEq

def overBudgetText (used capacity : Nat) : String :=
  s!"parameters use {used} units of synced capacity but only {capacity} are available"

def CompileError.message {α : Type} [Scalar α] : CompileError α → String
  | overBudget used capacity => overBudgetText used capacity
  | width parameter bits =>
    s!"parameter '{parameter}' requests {bits} quantization bits (maximum is {maxBits})"
  | smoothness parameter value =>
    s!"parameter '{parameter}' has smoothness " ++ Scalar.text value ++ " outside [0, 1]"
  | emptyName => "parameter name must not be empty"
  | emptyNamespace => "namespace must not be empty"
  | reservedName parameter tag => s!"parameter '{parameter}' contains the reserved tag '{tag}'"
  | duplicateParameter parameter => s!"parameter '{parameter}' is listed more than once"
  | duplicateChannel channel => s!"channel '{channel}' already exists"
  | curve clip fault => s!"invalid curve for '{clip}': " ++ fault.message

namespace Parameter

variable {α : Type}

section

variable [Scalar α]

def defaultOwnerSmoothness : α := Scalar.ratio 1 2

def defaultRemoteSmoothness : α := Scalar.ratio 7 10

/-- The default parameter of a name: smoothed, not quantized, redirected. -/
def ofName (name : String) : Parameter α where
  name := name
  ownerSmoothness := defaultOwnerSmoothness
  remoteSmoothness := defaultRemoteSmoothness
  bits := 0
  signBit := false
  redirect := true

end

def withSmoothness (p : Parameter α) (owner remote : α) : Parameter α :=
  { p with ownerSmoothness := owner, remoteSmoothness := remote }

def withBits (p : Parameter α) (bits : Nat) (signBit : Bool) : Parameter α :=
  { p with bits := bits, signBit := signBit }

def withRedirect (p : Parameter α) (redirect : Bool) : Parameter α :=
  { p with redirect := redirect }

def isQuantized (p : Parameter α) : Bool := decide (0 < p.bits)

def smoothness (p : Parameter α) : Observer → α
  | .owner => p.ownerSmoothness
  | .remote => p.remoteSmoothness

/-- Units of capacity that the parameter takes: its bits, or one continuous channel. -/
def cost (p : Parameter α) : Nat :=
  if p.isQuantized then (p.bits + p.signBit.toNat) * ChannelKind.discrete.cost
  else ChannelKind.continuous.cost

variable [Scalar α]

/-- Field by field equality, in which an incomparable number differs from itself. -/
def same (p q : Parameter α) : Bool :=
  p.name == q.name && Scalar.same p.ownerSmoothness q.ownerSmoothness
    && Scalar.same p.remoteSmoothness q.remoteSmoothness
    && p.bits == q.bits && p.signBit == q.signBit && p.redirect == q.redirect

/-- The first fault of the parameter alone. -/
def fault? (p : Parameter α) : Option (CompileError α) :=
  if Text.isBlank p.name then some .emptyName
  else match Observer.all.find? fun o => !Scalar.isUnit (p.smoothness o) with
    | some o => some (.smoothness p.name (p.smoothness o))
    | none => if maxBits < p.bits then some (.width p.name p.bits) else none

end Parameter

end BlendGraph
