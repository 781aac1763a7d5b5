import BlendGraph.Scalar

/-!
# Channels

Named scalar slots of a host graph, their kinds, and what a transmitted one costs.
-/

set_option autoImplicit false

namespace BlendGraph

/-- What a channel carries: a number, or zero and one only. -/
inductive ChannelKind where
  | continuous
  | discrete
  deriving DecidableEq, Repr

namespace ChannelKind

def name : ChannelKind → String
  | continuous => "continuous"
  | discrete => "discrete"

def label : ChannelKind → String
  | continuous => "float"
  | discrete => "bool"

def ofName? : String → Option ChannelKind
  | "continuous" => some continuous
  | "discrete" => some discrete
  | _ => none

@[simp] theorem ofName?_name (k : ChannelKind) : ofName? k.name = some k := by
  cases k <;> rfl

/-- Units of capacity that a transmitted channel takes. -/
def cost : ChannelKind → Nat
  | continuous => 8
  | discrete => 1

end ChannelKind

/-- Units of capacity of a host without transmitted channels. -/
def fullCapacity : Nat := 256

/-- The widest quantization; one bit more would cost as much as a continuous channel. -/
def maxBits : Nat := 7

theorem maxBits_cost :
    maxBits * ChannelKind.discrete.cost < ChannelKind.continuous.cost ∧
      ChannelKind.continuous.cost ≤ (maxBits + 1) * ChannelKind.discrete.cost := by
  decide

/-- A channel of a host graph. -/
structure Channel (α : Type) where
  name : String
  kind : ChannelKind
  /-- The value before anything writes the channel. -/
  default : α
  synced : Bool
  deriving DecidableEq

def Channel.syncedCost {α : Type} (c : Channel α) : Nat :=
  if c.synced then c.kind.cost else 0

end BlendGraph
