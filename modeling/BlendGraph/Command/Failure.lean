import BlendGraph.Setup.Fault
import BlendGraph.Setup.Template
import BlendGraph.Simulation

/-!
# Failures of commands
-/

set_option autoImplicit false

namespace BlendGraph.Command

/-- Why a command did not do what it was asked for. -/
inductive Failure where
  | readFile (path : String)
  | writeFile (path : String)
  | makeDirectory (path : String)
  | setupSyntax
  | setupNotFound (name : String)
  | invalidSetup (name : String) (error : SetupError Float32)
  | parameterNotFound (error : ParameterNotFound)
  | readGraph (path : String)
  | parseGraph (path : String)
  | writeGraph (path : String)
  | compile (error : CompileError Float32)
  | simulate (error : SimulationError Float32)
  | stopped (error : Unbracketed)
  | emptyRoot
  | unknownTemplate (name : String)
  | alreadyExists (path : String)

namespace Failure

def message : Failure → String
  | readFile path => s!"failed to read file '{path}'"
  | writeFile path => s!"failed to write file '{path}'"
  | makeDirectory path => s!"failed to create directory '{path}'"
  | setupSyntax => "failed to parse TOML"
  | setupNotFound name => s!"Setup '{name}' not found. Use 'oscmooth init' to create one."
  | invalidSetup name _ => s!"invalid setup '{name}'"
  | parameterNotFound error => error.message
  | readGraph path => s!"failed to read graph '{path}'"
  | parseGraph path => s!"failed to parse graph '{path}'"
  | writeGraph path => s!"failed to write graph '{path}'"
  | compile error => error.message
  | simulate error => error.message
  | stopped error => s!"channel '{error.channel}' has no value to interpolate at"
  | emptyRoot => "Tag must not be empty (it would match every name)"
  | unknownTemplate name =>
    s!"Unknown template '{name}'. Available: " ++ ", ".intercalate (Template.all.map Template.name)
  | alreadyExists path => s!"'{path}' already exists. Use --force to overwrite."

/-- What the failure goes back to, where that is of the program's own making. -/
def causes : Failure → List String
  | invalidSetup _ error => [error.message]
  | _ => []

/-- The status that the program ends with: a playback that cannot go on is not an ordinary
failure. -/
def status : Failure → Nat
  | stopped _ => 101
  | _ => 1

end Failure

def rejected : Nat := 2

end BlendGraph.Command
