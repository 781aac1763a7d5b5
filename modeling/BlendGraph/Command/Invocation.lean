import BlendGraph.Command.Arguments
import BlendGraph.Setup.Template
import BlendGraph.Simulation

/-!
# Invocations

What a command line asks for: one of six commands with its options. A command line that does not fit
is rejected before anything is done.
-/

set_option autoImplicit false

namespace BlendGraph.Command

open OptionRule

/-- A command with what it needs. Setups are named by a path or as a template, graphs by a path. -/
inductive Invocation where
  | apply (setup graph : String) (capacity : Option Nat) (output : Option String)
  | remove (graph root : String) (output : Option String)
  | cost (setup : String) (graph : Option String)
  | inspect (graph root : String) (json : Bool)
  | simulate (setup parameter : String) (graph : Option String) (frames : Nat)
    (drive : Drive Float32)
  | init (path template : String) (force : Bool)

namespace Invocation

def path? (word : String) : Option String := if word = "" then none else some word

def word32? : String → Option Nat := Number.boundedInt? (Nat.pow 2 32 - 1)

def word64? : String → Option Nat := Number.boundedNat? (Nat.pow 2 64 - 1)

def defaultFrames : Nat := 10

def defaultPath : String := "oscmooth.toml"

def options? (rules : List OptionRule) (words : List String) : Option Arguments :=
  (Arguments.read? rules words).filter fun a => a.operands.isEmpty

def applyRules : List OptionRule :=
  [valued "setup" 's', valued "graph" 'g', valued "capacity" none, valued "output" 'o']

def readApply (words : List String) : Option Invocation := do
  let a ← options? applyRules words
  return apply (← a.required "setup" path?) (← a.required "graph" path?)
    (← a.optional "capacity" word32?) (← a.optional "output" path?)

def removeRules : List OptionRule := [valued "graph" 'g', valued "tag" 't', valued "output" 'o']

def readRemove (words : List String) : Option Invocation := do
  let a ← options? removeRules words
  return remove (← a.required "graph" path?) (← a.withDefault "tag" Namespace.defaultRoot some)
    (← a.optional "output" path?)

def costRules : List OptionRule := [valued "setup" 's', valued "graph" 'g']

def readCost (words : List String) : Option Invocation := do
  let a ← options? costRules words
  return cost (← a.required "setup" path?) (← a.optional "graph" path?)

def inspectRules : List OptionRule :=
  [valued "graph" 'g', valued "tag" 't', switch "json" none]

def readInspect (words : List String) : Option Invocation := do
  let a ← options? inspectRules words
  return inspect (← a.required "graph" path?) (← a.withDefault "tag" Namespace.defaultRoot some)
    (a.isGiven "json")

def simulateRules : List OptionRule :=
  [valued "setup" 's', valued "parameter" 'p', valued "graph" 'g', switch "remote" none,
    valued "frames" 'f', ⟨"input", 'i', true, true⟩, valued "bits" 'b', switch "negative" 'n']

/-- A parameter is driven by its value or by its bits, not by both. A sign goes with bits, and says
nothing beside a value. -/
def readSimulate (words : List String) : Option Invocation := do
  let a ← options? simulateRules words
  let drive : Drive Float32 := {
    observer := if a.isGiven "remote" then .remote else .owner
    input := ← a.optional "input" Number.single?
    pattern := ← a.optional "bits" word32?
    negative := a.isGiven "negative" }
  if drive.input.isSome && drive.pattern.isSome then failure
  if drive.negative && drive.input.isNone && drive.pattern.isNone then failure
  return simulate (← a.required "setup" path?) (← a.required "parameter" some)
    (← a.optional "graph" path?) (← a.withDefault "frames" defaultFrames word64?) drive

def initRules : List OptionRule := [valued "template" 't', switch "force" none]

def readInit (words : List String) : Option Invocation := do
  let a ← Arguments.read? initRules words
  let path ← match a.operands with
    | [] => some defaultPath
    | [word] => path? word
    | _ => none
  return init path (← a.withDefault "template" Template.sample.name some) (a.isGiven "force")

/-- The invocation of a command line: the name of a command, then its arguments. -/
def parse? : List String → Option Invocation
  | "apply" :: words => readApply words
  | "remove" :: words => readRemove words
  | "cost" :: words => readCost words
  | "inspect" :: words => readInspect words
  | "simulate" :: words => readSimulate words
  | "init" :: words => readInit words
  | _ => none

end Invocation

end BlendGraph.Command
