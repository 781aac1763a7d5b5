import BlendGraph.Command.Failure
import BlendGraph.Host.Document
import BlendGraph.Json.Reader
import BlendGraph.Json.Writer
import BlendGraph.Setup.Document
import BlendGraph.Text.Basic

/-!
# The surroundings of commands

Commands are written for any monad that has files and a place to print to. The files they share are
setups and graphs.
-/

set_option autoImplicit false

namespace BlendGraph.Command

/-- What a command does to its surroundings. -/
class Shell (m : Type → Type) where
  isPresent (path : String) : m Bool
  readText (path : String) : m (Option String)
  /-- Puts a text into a file; false if that fails. -/
  writeText (path text : String) : m Bool
  /-- Makes a directory and those above it; false if that fails. -/
  makeDirectory (path : String) : m Bool
  print (text : String) : m Unit

/-- A command that is running. -/
abbrev Task (m : Type → Type) := ExceptT Failure m

variable {m : Type → Type} [Monad m] [Shell m]

def printLines (lines : List String) : Task m Unit :=
  liftM (Shell.print (String.join (lines.map (· ++ "\n"))) : m Unit)

def orFail {β : Type} (failure : Failure) (value : Option β) : Task m β :=
  match value with
  | some x => return x
  | none => throw failure

def ensure (failure : Failure) (succeeded : Bool) : Task m Unit :=
  if succeeded then return else throw failure

/-- The setup of a file, or the template of that name where there is no such file. -/
def findSetup (name : String) : Task m (Setup Float32) := do
  if ← liftM (Shell.isPresent name : m Bool) then
    let text ← orFail (.readFile name) (← liftM (Shell.readText name : m (Option String)))
    orFail .setupSyntax (Setup.parse? text)
  else
    let template ← orFail (.setupNotFound name) (Template.ofName? name)
    return template.setup

def loadSetup (name : String) : Task m (Setup Float32) := do
  let s ← findSetup name
  match s.validate with
  | .ok _ => return s
  | .error e => throw (.invalidSetup name e)

def loadGraph (path : String) : Task m (Host Float32) := do
  let text ← orFail (.readGraph path) (← liftM (Shell.readText path : m (Option String)))
  orFail (.parseGraph path) ((Json.parse? text).bind Host.ofJson?)

def graphText (h : Host Float32) : String := (h.toJson Json.ofSingle).pretty "" ++ "\n"

def saveGraph (h : Host Float32) (path : String) : Task m Unit := do
  ensure (.writeGraph path) (← liftM (Shell.writeText path (graphText h) : m Bool))

def saveSetup (s : Setup Float32) (path : String) : Task m Unit := do
  let parent := Text.parentPath path
  if parent ≠ "" then
    unless ← liftM (Shell.isPresent parent : m Bool) do
      ensure (.makeDirectory parent) (← liftM (Shell.makeDirectory parent : m Bool))
  ensure (.writeFile path) (← liftM (Shell.writeText path s.text : m Bool))

end BlendGraph.Command
