import BlendGraph.Decoder
import BlendGraph.Filter

/-!
# Compilation

A parameter list is checked as a whole, its transmitted cost against a capacity, then turned into
one generated layer and committed to the host. The motion of that layer is a sum of two branches:
the decoders of the quantized parameters, if there are any, and the filters of all parameters.
-/

set_option autoImplicit false

namespace BlendGraph

variable {α : Type}

/-! ### Budgets -/

/-- A capacity and the part of it that a parameter list takes. -/
structure Budget where
  capacity : Nat
  used : Nat
  used_le : used ≤ capacity
  deriving DecidableEq

def Budget.remaining (b : Budget) : Nat := b.capacity - b.used

def totalCost (ps : List (Parameter α)) : Nat :=
  tally Parameter.cost ps

/-- Admits the list as a whole or not at all. -/
def checkBudget (ps : List (Parameter α)) (capacity : Nat) : Except (CompileError α) Budget :=
  if h : totalCost ps ≤ capacity then .ok ⟨capacity, totalCost ps, h⟩
  else .error (.overBudget (totalCost ps) capacity)

/-! ### Compilations -/

variable [Scalar α]

/-- What all parameters of a compilation share. -/
structure CompileOptions where
  names : Namespace
  hideBits : Bool
  capacity : Nat
  deriving DecidableEq, Repr

/-- The outcome of a compilation. -/
structure CompileReport where
  budget : Budget
  layer : String
  created : List String
  reused : List String
  /-- Bits of an earlier compilation that are no longer requested. They stay, but are not
  transmitted any more. -/
  unsynced : List String
  redirected : Nat
  nodes : Nat
  clips : Nat
  replaced : Bool
  deriving DecidableEq

namespace Compile

open Synthesis

omit [Scalar α] in
/-- The fault of a parameter's name among those before it. -/
def nameFault? (ns : Namespace) (seen : List String) (p : Parameter α) : Option (CompileError α) :=
  if ns.tags p.name then some (.reservedName p.name ns.root)
  else if seen.contains p.name then some (.duplicateParameter p.name)
  else none

/-- The first fault of a list, where the names in `seen` came before. -/
def listFault? (ns : Namespace) (seen : List String) :
    List (Parameter α) → Option (CompileError α)
  | [] => none
  | p :: ps =>
    (p.fault?.or (nameFault? ns seen p)).or (listFault? ns (p.name :: seen) ps)

/-- Checks everything that a compilation needs. Removal goes by the root in names, so that no
parameter may carry it. -/
def validate (ps : List (Parameter α)) (options : CompileOptions) :
    Except (CompileError α) Budget :=
  if Text.isBlank options.names.root then .error .emptyNamespace
  else match listFault? options.names [] ps with
    | some e => .error e
    | none => checkBudget ps options.capacity

/-- The capacity that the host leaves for the parameters. Generated channels and the channels of
the parameters themselves are not counted, so that compiling again costs nothing. -/
def availableCapacity (h : Host α) (ps : List (Parameter α)) (ns : Namespace) : Nat :=
  let compiled := ps.map Parameter.name
  fullCapacity - h.syncedCost fun c => ns.generates c.name || compiled.contains c.name

/-- Requests the channels of one parameter and builds its decoder, if it has one. -/
def prepare (options : CompileOptions) (blendSet : String) (p : Parameter α) :
    SynthesisM α ((String × FilterChannels) × Option (Node α)) := do
  let channels ← Filter.register p
  let decoder ← if p.isQuantized then do
      let bits ← Decoder.register p options.hideBits
      some <$> Decoder.build p channels.raw bits blendSet
    else pure none
  if p.redirect then rename p.name channels.proxy
  return ((p.name, channels), decoder)

/-- The transmitted bit channels of the host that were not requested. -/
def staleBits (ns : Namespace) (h : Host α) (r : Registry α) : List String :=
  (h.channels.filter fun c =>
    c.synced && ns.carriesBit c.name && !r.isRequested c.name).map Channel.name

/-- Collects all edits; gives the motion of the generated layer and the stale bits. -/
def synthesize (h : Host α) (ps : List (Parameter α)) (options : CompileOptions) :
    SynthesisM α (Node α × List String) := do
  let ns := options.names
  let blendSet ← channel ns.blendSet .continuous { ChannelOptions.plain α with default := 1 }
  let parts ← ps.mapM (prepare options blendSet)
  let stale := staleBits ns h (← get).registry
  stale.forM fun name => setSynced name false
  let decoders := parts.filterMap Prod.snd
  let root := Node.sum ns.rootNode []
  let root := if decoders.isEmpty then root
    else root.withWeight blendSet
      (decoders.foldl (fun sum d => sum.withWeight blendSet d) (Node.sum ns.binaryRoot []))
  let smoother ← Filter.buildAll (parts.map Prod.fst) blendSet
  return (root.withWeight blendSet smoother, stale)

/-- Compiles the parameters into the host. A layer of the same name is replaced, and channels that
are there are used again. -/
def compile (h : Host α) (ps : List (Parameter α)) (options : CompileOptions) :
    Except (CompileError α) (Host α × CompileReport) := do
  let budget ← validate ps options
  let built ← (synthesize h ps options).run (.ofHost h options.names)
  let motion := built.1.1
  let layer : Layer α := ⟨options.names.layer, [.playing Namespace.stateName motion]⟩
  let done := built.2.commit layer h
  return (done.1, {
    budget := budget
    layer := layer.name
    created := done.2.created
    reused := done.2.reused
    unsynced := built.1.2
    redirected := done.2.redirected
    nodes := motion.nodeCount
    clips := built.2.clips.size
    replaced := done.2.replaced })

/-- What a compilation tells while it runs. -/
inductive Progress where
  | start (total : Nat)
  | parameter (name : String)
  | finish
  deriving DecidableEq, Repr

/-- What a compilation tells about a list: nothing if the list is rejected. -/
def progress (ps : List (Parameter α)) (options : CompileOptions) : List Progress :=
  match validate ps options with
  | .error _ => []
  | .ok _ => .start ps.length :: ps.map (.parameter ·.name) ++ [.finish]

end Compile

end BlendGraph
