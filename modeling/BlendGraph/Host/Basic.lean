import BlendGraph.Channel
import BlendGraph.Curve
import BlendGraph.Node.Prune
import BlendGraph.Node.References
import BlendGraph.Table

/-!
# Host graphs

The document that generated layers are written into: channels, layers of states that play motions,
the clips that leaves name, and the transmission flags that compilations have changed.
-/

set_option autoImplicit false

namespace BlendGraph

/-- A curve that drives one channel. -/
structure Clip (α : Type) [Scalar α] where
  name : String
  target : String
  curve : Curve α

/-- A state of a layer: a motion, and the channels that its playback reads. -/
structure State (α : Type) where
  name : String
  motion : Option (Node α)
  timeChannel : Option String
  speedChannel : Option String
  cycleChannel : Option String
  mirrorChannel : Option String

/-- The first state of a layer is the one that plays. -/
structure Layer (α : Type) where
  name : String
  states : List (State α)

/-- A host graph. -/
structure Host (α : Type) [Scalar α] where
  id : String
  channels : List (Channel α)
  layers : List (Layer α)
  /-- The clips by the names that leaves use, which may differ from their own. -/
  clips : Table (Clip α)
  /-- The flags from before the first compilation that changed them, by root and channel. -/
  overrides : Table (Table Bool)

variable {α : Type}

/-- A state that plays a motion and reads no channel of its own. -/
def State.playing (name : String) (motion : Node α) : State α :=
  ⟨name, some motion, none, none, none, none⟩

namespace Host

variable [Scalar α]

def empty (id : String) : Host α := ⟨id, [], [], .empty, .empty⟩

def states (h : Host α) : List (State α) := h.layers.flatMap Layer.states

def motions (h : Host α) : List (Node α) := h.states.filterMap State.motion

/-! ### Channels -/

def channelNames (h : Host α) : List String := h.channels.map Channel.name

def channel? (h : Host α) (name : String) : Option (Channel α) :=
  h.channels.find? fun c => c.name == name

def hasChannel (h : Host α) (name : String) : Bool := (h.channel? name).isSome

def addChannel (h : Host α) (c : Channel α) : Host α :=
  { h with channels := h.channels ++ [c] }

/-- Sets the flag of the first channel of the name in a list. -/
def setSyncedIn (name : String) (synced : Bool) : List (Channel α) → List (Channel α)
  | [] => []
  | c :: cs =>
    if c.name == name then { c with synced := synced } :: cs
    else c :: setSyncedIn name synced cs

/-- Sets the flag of the first channel of the name. -/
def setSynced (h : Host α) (name : String) (synced : Bool) : Host α :=
  { h with channels := setSyncedIn name synced h.channels }

/-- Takes out the channels that pass the test. -/
def removeChannels (h : Host α) (test : Channel α → Bool) : Host α × List (Channel α) :=
  ({ h with channels := h.channels.filter fun c => !test c }, h.channels.filter test)

/-- The cost of the channels that do not pass the test. -/
def syncedCost (h : Host α) (skip : Channel α → Bool) : Nat :=
  tally Channel.syncedCost (h.channels.filter fun c => !skip c)

/-! ### Changed flags -/

/-- Records the flag that a channel had under a root. The first record of a channel stays. -/
def recordOverride (h : Host α) (root channel : String) (synced : Bool) : Host α :=
  let flags := (h.overrides.get? root).getD .empty
  let flags := if flags.contains channel then flags else flags.insert channel synced
  { h with overrides := h.overrides.insert root flags }

def overridesOf (h : Host α) (root : String) : Table Bool :=
  (h.overrides.get? root).getD .empty

def dropOverrides (h : Host α) (root : String) : Host α :=
  { h with overrides := h.overrides.erase root }

/-! ### Layers -/

def layer? (h : Host α) (name : String) : Option (Layer α) :=
  h.layers.find? fun l => l.name == name

def addLayer (h : Host α) (l : Layer α) : Host α :=
  { h with layers := h.layers ++ [l] }

/-- Takes out the layers that pass the test and counts them. -/
def removeLayers (h : Host α) (test : Layer α → Bool) : Host α × Nat :=
  ({ h with layers := h.layers.filter fun l => !test l }, h.layers.countP test)

def nodeCount (h : Host α) : Nat := tally Node.nodeCount h.motions

end Host

/-- The state without the subtrees that pass the test; without a motion if its root does. -/
def State.prune (cut : Node α → Bool) (s : State α) : State α :=
  { s with motion := s.motion.bind fun m => if cut m then none else some (m.prune cut) }

/-- The number of subtrees that pruning cuts off the motion. -/
def State.pruneCount (cut : Node α → Bool) (s : State α) : Nat :=
  match s.motion with
  | none => 0
  | some m => if cut m then 1 else m.pruneCount cut

namespace Host

variable [Scalar α]

/-- Cuts the subtrees that pass the test off every motion and counts them. -/
def pruneNodes (h : Host α) (cut : Node α → Bool) : Host α × Nat :=
  ({ h with layers := h.layers.map fun l => { l with states := l.states.map (State.prune cut) } },
    tally (State.pruneCount cut) h.states)

/-! ### Clips -/

/-- The clip that a leaf of this name plays. -/
def resolve? (h : Host α) (clip : String) : Option (Clip α) := h.clips.get? clip

def putClip (h : Host α) (c : Clip α) : Host α :=
  { h with clips := h.clips.insert c.name c }

/-- The names that leaves use. -/
def referencedClips (h : Host α) : NameSet :=
  .ofList ((h.motions.flatMap Node.clips).map fun c => (c, ()))

def removeClips (h : Host α) (test : Clip α → Bool) : Host α × Nat :=
  ({ h with clips := h.clips.filter fun c => !test c }, h.clips.values.countP test)

end Host

end BlendGraph
