import BlendGraph.Host.References
import BlendGraph.Namespace

/-!
# Removal

Everything that compilations under a root have left in a host is taken out again, by the names it
carries: layers, nodes, channels and clips go, references are turned back to the raw channels, and
changed flags are set as they were. What is gone already counts as removed.
-/

set_option autoImplicit false

namespace BlendGraph

variable {α : Type} [Scalar α]

/-- What a removal changed. -/
structure RemovalReport where
  prunedNodes : Nat
  removedLayers : Nat
  reverted : Nat
  removedChannels : List String
  removedClips : Nat
  restored : Nat
  deriving DecidableEq, Repr

namespace RemovalReport

def nothing : RemovalReport := ⟨0, 0, 0, [], 0, 0⟩

def isClean (r : RemovalReport) : Bool :=
  r.prunedNodes == 0 && r.removedLayers == 0 && r.reverted == 0 && r.removedChannels.isEmpty
    && r.removedClips == 0 && r.restored == 0

theorem isClean_iff (r : RemovalReport) : r.isClean = true ↔ r = nothing := by
  cases r
  simp [isClean, nothing, and_assoc]

end RemovalReport

namespace Removal

def removeArtifacts (h : Host α) (ns : Namespace) : Host α × RemovalReport :=
  let layers := h.removeLayers fun l => ns.tags l.name
  let nodes := layers.1.pruneNodes fun n => ns.tags n.name
  let channels := nodes.1.removeChannels fun c => ns.generates c.name
  (channels.1, { RemovalReport.nothing with
    removedLayers := layers.2
    prunedNodes := nodes.2
    removedChannels := channels.2.map Channel.name })

/-- The name without the first of the starts that it has. -/
def rawName? (ns : Namespace) (channel : String) : Option String :=
  ns.starts.findSome? fun start => Text.strip? start channel

/-- Turns references to generated channels back to the raw ones, and counts them. -/
def revertReferences (h : Host α) (ns : Namespace) : Host α × Nat :=
  h.redirect (rawName? ns)

/-- Sets recorded flags again where the channel is still there, and counts them. -/
def restoreFlags (h : Host α) : List (String × Bool) → Host α × Nat
  | [] => (h, 0)
  | flag :: flags =>
    let rest := restoreFlags (h.setSynced flag.1 flag.2) flags
    (rest.1, (h.hasChannel flag.1).toNat + rest.2)

/-- Sets the flags recorded under the root again and forgets them; counts the channels. -/
def restoreSync (h : Host α) (ns : Namespace) : Host α × Nat :=
  restoreFlags (h.dropOverrides ns.root) (h.overridesOf ns.root).entries

/-- Takes out the generated clips that no leaf plays, and counts them. -/
def removeOrphans (h : Host α) : Host α × Nat :=
  let played := h.referencedClips
  h.removeClips fun c => !played.contains c.name && ClipName.isGenerated c.name h.id

/-- Takes out everything that compilations under the root have left. An empty root matches
nothing. -/
def removeAll (h : Host α) (root : String) : Host α × RemovalReport :=
  if root.isEmpty then (h, .nothing)
  else
    let ns : Namespace := ⟨root⟩
    let artifacts := removeArtifacts h ns
    let reverted := revertReferences artifacts.1 ns
    let restored := restoreSync reverted.1 ns
    let clips := removeOrphans restored.1
    (clips.1, { artifacts.2 with
      reverted := reverted.2, restored := restored.2, removedClips := clips.2 })

end Removal

end BlendGraph
