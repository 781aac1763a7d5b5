import BlendGraph.Namespace
import BlendGraph.Node.Threshold
import BlendGraph.Synthesis

/-!
# Smoothing filters

The smoothed value of a parameter is a mixture of its raw value and of its own value one frame
before, and the coefficient of the observer is the part of the latter. Both are fed through an
interpolation between a clip at minus one and a clip at one.
-/

set_option autoImplicit false

namespace BlendGraph

variable {α : Type} [Scalar α]

/-- The channels of one parameter's filters. -/
structure FilterChannels where
  raw : String
  proxy : String
  remote : String
  owner : String
  deriving DecidableEq, Repr

def FilterChannels.coefficient (c : FilterChannels) : Observer → String
  | .remote => c.remote
  | .owner => c.owner

namespace Filter

open Synthesis

def registerCoefficient (p : Parameter α) (o : Observer) : SynthesisM α String := do
  let ns := (← get).names
  channel (ns.coefficient o p.name) .continuous
    { ChannelOptions.plain α with default := p.smoothness o }

/-- Requests the channels of a parameter's filters. The raw channel is transmitted unless the
parameter is quantized. -/
def register (p : Parameter α) : SynthesisM α FilterChannels := do
  let ns := (← get).names
  let raw ← forcedChannel p.name .continuous
    { ChannelOptions.plain α with synced := !p.isQuantized }
  let proxy ← channel (ns.proxy p.name) .continuous (.plain α)
  let owner ← registerCoefficient p .owner
  let remote ← registerCoefficient p .remote
  return ⟨raw, proxy, remote, owner⟩

def build (parameter : String) (o : Observer) (channels : FilterChannels) :
    SynthesisM α (Node α) := do
  let s ← get
  let low : α := -1
  let high : α := 1
  let lowLeaf ← clip (ClipName.smoother parameter low s.host) channels.proxy low
  let highLeaf ← clip (ClipName.smoother parameter high s.host) channels.proxy high
  let blend (name key : String) : Node α :=
    ((Node.interp name key []).withThreshold low lowLeaf).withThreshold high highLeaf
  let input := blend (s.names.filterInput parameter) channels.raw
  let driver := blend (s.names.filterDriver parameter) channels.proxy
  return ((Node.interp (s.names.filterRoot parameter) (channels.coefficient o) []).withThreshold 0
    input).withThreshold 1 driver

def buildSum (filters : List (String × FilterChannels)) (blendSet : String) (o : Observer) :
    SynthesisM α (Node α) := do
  let ns := (← get).names
  let branches ← filters.mapM fun f => build f.1 o f.2
  return branches.foldl (fun sum b => sum.withWeight blendSet b) (.sum (ns.observerRoot o) [])

/-- The filters of all parameters, below a selector of the observer. -/
def buildAll (filters : List (String × FilterChannels)) (blendSet : String) :
    SynthesisM α (Node α) := do
  let ns := (← get).names
  let selector ← channel Namespace.selectorChannel .discrete (.plain α)
  let branches ← Observer.all.mapM fun o => return (o, ← buildSum filters blendSet o)
  return branches.foldl (fun root b => root.withThreshold b.1.threshold b.2)
    (.interp ns.smootherRoot selector [])

end Filter

end BlendGraph
