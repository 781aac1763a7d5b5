import BlendGraph.Host.Document
import BlendGraph.Host.References
import BlendGraph.Namespace
import BlendGraph.Number.Decimal
import BlendGraph.Text.Basic

/-!
# Summaries of hosts

What a host graph holds, for a reader: its channels, and its layers with the channels that they
name.
-/

set_option autoImplicit false

namespace BlendGraph

variable {α : Type}

/-- A layer with the number of its states and the references of all layers of its name. -/
structure LayerSummary where
  name : String
  states : Nat
  references : List Reference
  deriving DecidableEq, Repr

/-- The contents of a host graph. -/
structure Summary (α : Type) where
  id : String
  syncedCost : Nat
  channels : List (Channel α)
  layers : List LayerSummary
  clips : Nat

def Reference.text (r : Reference) : String :=
  r.state ++ ":" ++ r.site.label ++ ":" ++ r.channel

def Host.summary [Scalar α] (h : Host α) : Summary α where
  id := h.id
  syncedCost := h.syncedCost fun _ => false
  channels := h.channels
  layers := h.layers.map fun l =>
    ⟨l.name, l.states.length, h.references.filter fun r => r.layer == l.name⟩
  clips := h.clips.size

namespace Summary

def toJson (write : Float32 → Json) (s : Summary Float32) : Json :=
  .object [("id", .string s.id), ("synced_cost", .ofNat s.syncedCost),
    ("channels", .array (s.channels.map fun c => .object [("name", .string c.name),
      ("kind", .string c.kind.label), ("default", write c.default), ("synced", .bool c.synced)])),
    ("layers", .array (s.layers.map fun l => .object [("name", .string l.name),
      ("states", .ofNat l.states),
      ("references", .array (l.references.map fun r => .string r.text))])),
    ("clips", .ofNat s.clips)]

/-- The plain name behind a hidden one, where only the plain one carries the root. -/
def alias? (ns : Namespace) (channel : String) : Option String :=
  if ns.tags (Text.reveal channel) && !ns.tags channel then some (Text.reveal channel) else none

def channelLine (ns : Namespace) (c : Channel Float32) : String :=
  "  " ++ Text.alignLeft 32 c.name ++ " " ++ Text.alignLeft 5 c.kind.label ++ " "
    ++ Text.alignRight 6 (Number.fixedText 3 c.default) ++ "  "
    ++ Text.alignLeft 6 (if c.synced then "synced" else "")
    ++ ((alias? ns c.name).map fun name => "  (" ++ name ++ ")").getD ""

def layerLines (l : LayerSummary) : List String :=
  s!"  {l.name} ({l.states} states)" :: l.references.map fun r => "    " ++ r.text

/-- The lines of a summary, which shows hidden names under the given root. -/
def lines (ns : Namespace) (s : Summary Float32) : List String :=
  [s!"Graph:       {s.id}", s!"Synced cost: {s.syncedCost}", s!"Clips:       {s.clips}", "",
    s!"Channels ({s.channels.length}):"] ++ s.channels.map (channelLine ns)
    ++ ["", s!"Layers ({s.layers.length}):"] ++ s.layers.flatMap layerLines

end Summary

end BlendGraph
