import BlendGraph.Command.Run

/-!
# The program

Runs one command on the files of the machine. What went wrong goes to the error stream.
-/

set_option autoImplicit false

namespace BlendGraph.Command

def succeeds (action : IO Unit) : IO Bool := do
  try
    action
    return true
  catch _ => return false

instance : Shell IO where
  isPresent path := succeeds do let _ ← IO.FS.realPath path
  readText path := do
    try
      return some (← IO.FS.readFile path)
    catch _ => return none
  writeText path text := succeeds (IO.FS.writeFile path text)
  makeDirectory path := succeeds (IO.FS.createDirAll path)
  print text := do (← IO.getStdout).putStr text

def Failure.report (e : Failure) : String :=
  "Error: " ++ e.message
    ++ if e.causes.isEmpty then ""
      else "\n\nCaused by:" ++ String.join (e.causes.map ("\n    " ++ ·))

end BlendGraph.Command

open BlendGraph.Command in
def main (words : List String) : IO UInt32 := do
  match Invocation.parse? words with
  | none =>
    IO.eprintln "Usage: oscmooth <apply|remove|cost|inspect|simulate|init> [OPTIONS]"
    return UInt32.ofNat rejected
  | some invocation =>
    match ← (invocation.run : Task IO Unit).run with
    | .ok _ => return 0
    | .error e =>
      IO.eprintln e.report
      return UInt32.ofNat e.status
