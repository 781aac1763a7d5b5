import BlendGraph.Host.Basic
import BlendGraph.Json.Basic

/-!
# Host graphs as documents

The JSON form of a host graph and of its parts. Floats are written by a function that the caller
gives; it decides what stands for a number that is not finite.
-/

set_option autoImplicit false

namespace BlendGraph

open Json (required withDefault nullable)

def Json.list? {β : Type} (read : Json → Option β) (j : Json) : Option (List β) := do
  (← j.array?).mapM read

/-- A table, where the last of several members of one name counts. -/
def Json.table? {β : Type} (read : Json → Option β) (j : Json) : Option (Table β) := do
  return .ofList (← (← j.object?).mapM fun m => do return (m.1, ← read m.2))

def Json.ofTable {β : Type} (write : β → Json) (t : Table β) : Json :=
  .object (t.entries.map fun e => (e.1, write e.2))

/-- A kind of channel: its name, or an object with the name alone and null. -/
def ChannelKind.ofJson? : Json → Option ChannelKind
  | .string s => ofName? s
  | .object [(s, .null)] => ofName? s
  | _ => none

namespace Channel

def ofJson? (j : Json) : Option (Channel Float32) := do
  match ← j.record? ["name", "kind", "default", "synced"] with
  | [name, kind, default, synced] =>
    return ⟨← required Json.string? name, ← required ChannelKind.ofJson? kind,
      ← withDefault 0 Json.single? default, ← withDefault false Json.bool? synced⟩
  | _ => none

def toJson (write : Float32 → Json) (c : Channel Float32) : Json :=
  .object [("name", .string c.name), ("kind", .string c.kind.name), ("default", write c.default),
    ("synced", .bool c.synced)]

end Channel

namespace Node

def typeNames : List String := ["leaf", "interp_1d", "direct_sum"]

/-- The name of a type. Below the root of a tree its number among the types does as well. -/
def typeName? (below : Bool) : Json → Option String
  | .string name => some name
  | .number n => if below then (n.toNat? typeNames.length).bind (typeNames[·]?) else none
  | _ => none

/-- The type of a node and the record of its fields. An array begins with the type. -/
def tagged? (below : Bool) : Json → Option (String × Json)
  | .object members => do
    match ← (Json.object members).record? ["type"] with
    | [type] => return (← required (typeName? below) type, .object members)
    | _ => none
  | .array (type :: items) => do return (← typeName? below type, .array items)
  | _ => none

/-- The child of a node: a label and a node, both required. -/
def childOfJson? {β : Type} (label : String) (readLabel : Json → Option β)
    (read : Json → Option (Node Float32)) (j : Json) : Option (β × Node Float32) := do
  match ← j.record? [label, "node"] with
  | [l, node] => return (← required readLabel l, ← required read node)
  | _ => none

/-- The node of a document whose nodes are nested at most `fuel` deep. -/
def ofJsonWithin? : (fuel : Nat) → (below : Bool) → Json → Option (Node Float32)
  | 0, _, _ => none
  | fuel + 1, below, j => do
    let (type, fields) ← tagged? below j
    match type with
    | "leaf" =>
      match ← fields.record? ["clip"] with
      | [clip] => return leaf (← required Json.string? clip)
      | _ => none
    | "interp_1d" =>
      match ← fields.record? ["name", "channel", "children"] with
      | [name, channel, children] =>
        let child := childOfJson? "threshold" Json.single? (ofJsonWithin? fuel true)
        return interp (← required Json.string? name) (← required Json.string? channel)
          (← required (Json.list? child) children)
      | _ => none
    | "direct_sum" =>
      match ← fields.record? ["name", "children"] with
      | [name, children] =>
        let child := childOfJson? "weight" Json.string? (ofJsonWithin? fuel true)
        return sum (← required Json.string? name) (← required (Json.list? child) children)
      | _ => none
    | _ => none

/-- The node of a document, all parts of which have to be readable, even those that are passed
over. -/
def ofJson? (j : Json) : Option (Node Float32) :=
  if j.isReadable then ofJsonWithin? (j.depth + 1) false j else none

mutual

def toJson (write : Float32 → Json) : Node Float32 → Json
  | leaf clip => .object [("type", .string "leaf"), ("clip", .string clip)]
  | interp name channel cs => .object [("type", .string "interp_1d"), ("name", .string name),
      ("channel", .string channel), ("children", .array (toJsonInterp write cs))]
  | sum name cs => .object [("type", .string "direct_sum"), ("name", .string name),
      ("children", .array (toJsonSum write cs))]

def toJsonInterp (write : Float32 → Json) : List (Float32 × Node Float32) → List Json
  | [] => []
  | (threshold, n) :: cs =>
    .object [("threshold", write threshold), ("node", toJson write n)] :: toJsonInterp write cs

def toJsonSum (write : Float32 → Json) : List (String × Node Float32) → List Json
  | [] => []
  | (weight, n) :: cs =>
    .object [("weight", .string weight), ("node", toJson write n)] :: toJsonSum write cs

end

end Node

namespace State

/-- The fields that may be missing, besides the motion. -/
def channelFields : List String :=
  ["time_channel", "speed_channel", "cycle_offset_channel", "mirror_channel"]

def ofJson? (j : Json) : Option (State Float32) := do
  match ← j.record? ("name" :: "motion" :: channelFields) with
  | [name, motion, time, speed, cycle, mirror] =>
    return ⟨← required Json.string? name, ← nullable Node.ofJson? motion,
      ← nullable Json.string? time, ← nullable Json.string? speed,
      ← nullable Json.string? cycle, ← nullable Json.string? mirror⟩
  | _ => none

def toJson (write : Float32 → Json) (s : State Float32) : Json :=
  let channels := channelFields.zip [s.timeChannel, s.speedChannel, s.cycleChannel, s.mirrorChannel]
  .object <| ("name", .string s.name)
    :: (s.motion.map fun m => ("motion", m.toJson write)).toList
    ++ channels.filterMap fun f => f.2.map fun c => (f.1, .string c)

end State

namespace Layer

def ofJson? (j : Json) : Option (Layer Float32) := do
  match ← j.record? ["name", "states"] with
  | [name, states] =>
    return ⟨← required Json.string? name, ← withDefault [] (Json.list? State.ofJson?) states⟩
  | _ => none

def toJson (write : Float32 → Json) (l : Layer Float32) : Json :=
  .object [("name", .string l.name), ("states", .array (l.states.map (State.toJson write)))]

end Layer

namespace Keyframe

def ofJson? (j : Json) : Option (Keyframe Float32) := do
  match ← j.record? ["time", "value"] with
  | [time, value] => return ⟨← required Json.single? time, ← required Json.single? value⟩
  | _ => none

def toJson (write : Float32 → Json) (k : Keyframe Float32) : Json :=
  .object [("time", write k.time), ("value", write k.value)]

end Keyframe

namespace Curve

def ofJson? (j : Json) : Option (Curve Float32) := do
  (ofKeys? (← j.list? Keyframe.ofJson?)).toOption

def toJson (write : Float32 → Json) (c : Curve Float32) : Json :=
  .array (c.keys.map (Keyframe.toJson write))

end Curve

namespace Clip

def ofJson? (j : Json) : Option (Clip Float32) := do
  match ← j.record? ["name", "target", "curve"] with
  | [name, target, curve] =>
    return ⟨← required Json.string? name, ← required Json.string? target,
      ← required Curve.ofJson? curve⟩
  | _ => none

def toJson (write : Float32 → Json) (c : Clip Float32) : Json :=
  .object [("name", .string c.name), ("target", .string c.target), ("curve", c.curve.toJson write)]

end Clip

namespace Host

def ofJson? (j : Json) : Option (Host Float32) := do
  match ← j.record? ["id", "channels", "layers", "clips", "sync_overrides"] with
  | [id, channels, layers, clips, overrides] =>
    return ⟨← withDefault "" Json.string? id,
      ← withDefault [] (Json.list? Channel.ofJson?) channels,
      ← withDefault [] (Json.list? Layer.ofJson?) layers,
      ← withDefault .empty (Json.table? Clip.ofJson?) clips,
      ← withDefault .empty (Json.table? (Json.table? Json.bool?)) overrides⟩
  | _ => none

/-- The document of a graph. Without changed flags their field is left out. -/
def toJson (write : Float32 → Json) (h : Host Float32) : Json :=
  .object <| [("id", .string h.id), ("channels", .array (h.channels.map (Channel.toJson write))),
    ("layers", .array (h.layers.map (Layer.toJson write))),
    ("clips", Json.ofTable (Clip.toJson write) h.clips)]
    ++ if h.overrides.isEmpty then []
      else [("sync_overrides", Json.ofTable (Json.ofTable .bool) h.overrides)]

end Host

end BlendGraph
