import BlendGraph.Command.Invocation
import BlendGraph.Command.Shell
import BlendGraph.Host.Summary
import BlendGraph.Removal

/-!
# The commands
-/

set_option autoImplicit false

namespace BlendGraph.Command

variable {m : Type → Type} [Monad m] [Shell m]

/-! ### Texts -/

def compileLines (r : CompileReport) (output : String) : List String :=
  ["", s!"Layer:      {r.layer}", s!"Nodes:      {r.nodes}", s!"Clips:      {r.clips}",
    s!"Channels:   {r.created.length} created, {r.reused.length} reused",
    s!"Rewritten:  {r.redirected} references"]
    ++ (if r.unsynced.isEmpty then [] else ["Unsynced:   " ++ ", ".intercalate r.unsynced])
    ++ [s!"Budget:     {r.budget.used}/{r.budget.capacity} ({r.budget.remaining} remaining)"]
    ++ (if r.replaced then ["Replaced the previously generated layer."] else [])
    ++ [s!"Wrote {output}"]

def removalLines (root : String) (r : RemovalReport) (output : String) : List String :=
  if r.isClean then [s!"Nothing tagged '{root}' found; graph already clean."]
  else
    [s!"Removed {r.removedLayers} layer(s)", s!"Pruned {r.prunedNodes} node(s)",
      s!"Removed {r.removedChannels.length} channel(s)"]
      ++ r.removedChannels.map ("  " ++ ·)
      ++ [s!"Removed {r.removedClips} clip(s)", s!"Reverted {r.reverted} reference(s)",
        s!"Restored {r.restored} sync flag(s)", s!"Wrote {output}"]

def costRow (name cost saved : String) : String :=
  Text.alignLeft 28 name ++ " " ++ Text.alignRight 6 cost ++ "  " ++ Text.alignRight 6 saved ++ "  "

def representation (p : Parameter Float32) : String :=
  if p.isQuantized then s!"{p.bits} bits" ++ if p.signBit then " + sign" else ""
  else "float"

/-- What a parameter saves over a continuous channel; negative if it takes more. -/
def saved (p : Parameter Float32) : Int :=
  (ChannelKind.continuous.cost : Int) - (p.cost : Int)

def ruler : String := String.ofList (List.replicate 64 '-')

def costLines (s : Setup Float32) : List String :=
  [costRow "Parameter" "Cost" "Saved" ++ "Representation", ruler]
    ++ s.parameters.map (fun p =>
      costRow p.name (toString p.cost) (toString (saved p)) ++ representation p)
    ++ [ruler, Text.alignLeft 28 "Total" ++ " "
      ++ Text.alignRight 6 (toString (totalCost s.parameters))]

def simulationHead (p : Parameter Float32) (o : Observer) : List String :=
  let observer := match o with
    | .remote => "remote"
    | .owner => "local"
  [s!"Simulating '{p.name}' as {observer} observer (smoothness "
      ++ Number.fixedText 3 (p.smoothness o) ++ ")",
    Text.alignRight 5 "frame" ++ "  " ++ Text.alignRight 10 "raw" ++ "  "
      ++ Text.alignRight 10 "smoothed"]

/-- The line of a frame, which are counted from one. -/
def frameLine (f : Simulation.Frame Float32) (index : Nat) : String :=
  Text.alignRight 5 (toString (index + 1)) ++ "  "
    ++ Text.alignRight 10 (Number.fixedText 6 f.raw) ++ "  "
    ++ Text.alignRight 10 (Number.fixedText 6 f.smoothed)

/-! ### Commands -/

/-- The capacity of the setup comes before what the host leaves, and the given one before both. -/
def apply (setup graph : String) (capacity : Option Nat) (output : Option String) :
    Task m Unit := do
  let s ← loadSetup setup
  let h ← loadGraph graph
  let options := s.compileOptions (Compile.availableCapacity h s.parameters s.names)
  let options := { options with capacity := capacity.getD options.capacity }
  printLines [s!"Compiling '{s.name}' ({s.parameters.length} parameters) into '{graph}'..."]
  match Compile.compile h s.parameters options with
  | .error e => throw (.compile e)
  | .ok done =>
    let output := output.getD graph
    saveGraph done.1 output
    printLines (compileLines done.2 output)

/-- The graph is written also if there was nothing to remove. -/
def remove (graph root : String) (output : Option String) : Task m Unit := do
  ensure .emptyRoot (root ≠ "")
  let done := Removal.removeAll (← loadGraph graph) root
  let output := output.getD graph
  saveGraph done.1 output
  printLines (removalLines root done.2 output)

/-- The table comes before the capacity is known. -/
def cost (setup : String) (graph : Option String) : Task m Unit := do
  let s ← loadSetup setup
  printLines (costLines s)
  let capacity ← match s.capacity, graph with
    | some capacity, _ => do
      printLines ["", s!"Capacity (fixed by setup): {capacity}"]
      pure capacity
    | none, some path => do
      let h ← loadGraph path
      let capacity := Compile.availableCapacity h s.parameters s.names
      printLines ["", s!"Capacity left in '{path}': {capacity} of {fullCapacity}"]
      pure capacity
    | none, none => do
      printLines ["", s!"Capacity (empty host): {fullCapacity}"]
      pure fullCapacity
  match checkBudget s.parameters capacity with
  | .error e => throw (.compile e)
  | .ok budget => printLines [s!"Fits: {budget.remaining} remaining"]

def inspect (graph root : String) (json : Bool) : Task m Unit := do
  let summary := (← loadGraph graph).summary
  if json then printLines [(summary.toJson Json.ofSingle).pretty ""]
  else printLines (summary.lines ⟨root⟩)

def simulationHost : String := "simulate"

def simulate (setup parameter : String) (graph : Option String) (frames : Nat)
    (drive : Drive Float32) : Task m Unit := do
  let s ← loadSetup setup
  let p ← match s.parameter parameter with
    | .ok p => pure p
    | .error e => throw (.parameterNotFound e)
  let h ← match graph with
    | some path => loadGraph path
    | none => pure (.empty simulationHost)
  match Simulation.start s p h drive with
  | .error e => throw (.simulate e)
  | .ok playback =>
    printLines (simulationHead p drive.observer)
    let played := Simulation.frames s.names p.name playback frames
    printLines (played.1.mapIdx fun i f => frameLine f i)
    match played.2 with
    | some e => throw (.stopped e)
    | none => return

def init (path template : String) (force : Bool) : Task m Unit := do
  let t ← orFail (.unknownTemplate template) (Template.ofName? template)
  let s : Setup Float32 := t.setup
  unless force do
    ensure (.alreadyExists path) (!(← liftM (Shell.isPresent path : m Bool)))
  saveSetup s path
  printLines [s!"Wrote '{s.name}' setup with {s.parameters.length} parameters to {path}"]

def Invocation.run : Invocation → Task m Unit
  | .apply setup graph capacity output => Command.apply setup graph capacity output
  | .remove graph root output => Command.remove graph root output
  | .cost setup graph => Command.cost setup graph
  | .inspect graph root json => Command.inspect graph root json
  | .simulate setup parameter graph frames drive =>
    Command.simulate setup parameter graph frames drive
  | .init path template force => Command.init path template force

end BlendGraph.Command
