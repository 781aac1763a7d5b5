import BlendGraph.Host.Basic

/-!
# References to channels

Every place of a host graph that names a channel, in the order of layers, states and nodes, and the
replacement of the names.
-/

set_option autoImplicit false

namespace BlendGraph

variable {α : Type}

/-- A place of the graph that names a channel. -/
structure Reference where
  layer : String
  state : String
  site : Site
  channel : String
  deriving DecidableEq, Repr

namespace State

/-- The channels that the state names: its own, then those of its motion. -/
def references (s : State α) : List (Site × String) :=
  let own := [(Site.time, s.timeChannel), (.speed, s.speedChannel), (.cycle, s.cycleChannel),
    (.mirror, s.mirrorChannel)]
  own.filterMap (fun f => f.2.map (f.1, ·)) ++ (s.motion.map Node.references).getD []

def mapChannels (f : String → String) (s : State α) : State α where
  name := s.name
  motion := s.motion.map (Node.mapChannels f)
  timeChannel := s.timeChannel.map f
  speedChannel := s.speedChannel.map f
  cycleChannel := s.cycleChannel.map f
  mirrorChannel := s.mirrorChannel.map f

def countChannels (test : String → Bool) (s : State α) : Nat :=
  let own := [s.timeChannel, s.speedChannel, s.cycleChannel, s.mirrorChannel]
  own.countP (·.any test) + ((s.motion.map (Node.countChannels test)).getD 0)

end State

namespace Layer

def mapChannels (f : String → String) (l : Layer α) : Layer α :=
  { l with states := l.states.map (State.mapChannels f) }

def references (l : Layer α) : List Reference :=
  l.states.flatMap fun s => s.references.map fun r => ⟨l.name, s.name, r.1, r.2⟩

end Layer

namespace Host

variable [Scalar α]

def references (h : Host α) : List Reference := h.layers.flatMap Layer.references

def referencedChannels (h : Host α) : NameSet :=
  .ofList (h.references.map fun r => (r.channel, ()))

/-- Replaces the names for which there is a new one, and counts the places. -/
def redirect (h : Host α) (f : String → Option String) : Host α × Nat :=
  ({ h with layers := h.layers.map (Layer.mapChannels fun n => (f n).getD n) },
    tally (State.countChannels fun n => (f n).isSome) h.states)

def rename (h : Host α) (old new : String) : Host α × Nat :=
  h.redirect fun n => if n = old then some new else none

end Host

end BlendGraph
