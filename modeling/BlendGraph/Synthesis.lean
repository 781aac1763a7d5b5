import BlendGraph.Host.References
import BlendGraph.Registry

/-!
# Synthesis

The edits that one compilation wants to make, collected without touching the host and committed
together: requested channels, clips and renamed references.
-/

set_option autoImplicit false

namespace BlendGraph

variable {α : Type} [Scalar α]

/-- Pending edits of a host graph. -/
structure Synthesis (α : Type) [Scalar α] where
  names : Namespace
  host : String
  registry : Registry α
  clips : Table (Clip α)
  /-- Old and new channel names, in the order of their replacement. -/
  renames : List (String × String)

/-- What a commit changed. -/
structure Commit where
  created : List String
  reused : List String
  redirected : Nat
  reusedClips : Nat
  replaced : Bool
  deriving DecidableEq, Repr

/-- A computation that collects edits and may fail. -/
abbrev SynthesisM (α : Type) [Scalar α] := StateT (Synthesis α) (Except (CompileError α))

namespace Synthesis

def ofHost (h : Host α) (ns : Namespace) : Synthesis α :=
  ⟨ns, h.id, .ofHost h, .empty, []⟩

def channel (name : String) (kind : ChannelKind) (options : ChannelOptions α) :
    SynthesisM α String := do
  let s ← get
  let (name, registry) ← s.registry.request name kind options
  set { s with registry := registry }
  return name

def setSynced (name : String) (synced : Bool) : SynthesisM α Unit :=
  modify fun s => { s with registry := s.registry.setSynced name synced }

/-- Requests a channel and sets its flag as requested, also if the channel is there already. -/
def forcedChannel (name : String) (kind : ChannelKind) (options : ChannelOptions α) :
    SynthesisM α String := do
  let name ← channel name kind options
  setSynced name options.synced
  return name

/-- Puts down a clip that holds a value, instead of one with the same name, and gives a leaf that
plays it. -/
def clip (name target : String) (value : α) : SynthesisM α (Node α) := do
  match Curve.constant? value with
  | .error e => throw (.curve name e)
  | .ok curve =>
    modify fun s => { s with clips := s.clips.insert name ⟨name, target, curve⟩ }
    return .leaf name

def rename (old new : String) : SynthesisM α Unit :=
  modify fun s => { s with renames := s.renames ++ [(old, new)] }

def applyRenames (h : Host α) : List (String × String) → Host α × Nat
  | [] => (h, 0)
  | r :: rs =>
    let first := h.rename r.1 r.2
    let rest := applyRenames first.1 rs
    (rest.1, first.2 + rest.2)

def storeClips (h : Host α) : List (Clip α) → Host α × Nat
  | [] => (h, 0)
  | c :: cs =>
    let rest := storeClips (h.putClip c) cs
    (rest.1, (h.clips.contains c.name).toNat + rest.2)

/-- Makes the edits: the layers named like the new one go, what remains is renamed, channels and
clips are added, and the new layer comes last. So a rename never reaches the new layer. -/
def commit (s : Synthesis α) (layer : Layer α) (h : Host α) : Host α × Commit :=
  let cleared := h.removeLayers fun l => l.name == layer.name
  let renamed := applyRenames cleared.1 s.renames
  let stored := storeClips (s.registry.apply s.names renamed.1) s.clips.values
  (stored.1.addLayer layer, {
    created := s.registry.created.map Channel.name
    reused := s.registry.reused.keys
    redirected := renamed.2
    reusedClips := stored.2
    replaced := decide (0 < cleared.2) })

end Synthesis

end BlendGraph
