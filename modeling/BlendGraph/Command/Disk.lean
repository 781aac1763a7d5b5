import BlendGraph.Command.Shell
import BlendGraph.Table

/-!
# Files in memory

A tree of files as a value, in which commands run as functions on it. Paths are followed part by
part, so that a part in front of two dots has to be there too.
-/

set_option autoImplicit false

namespace BlendGraph.Command

/-- What stands at a place of the tree. -/
inductive Entry where
  | directory
  | file (text : String)
  /-- Takes every text and holds none. -/
  | sink
  | printer
  | full
  deriving DecidableEq, Repr

/-- Why nothing was found or made at a place. -/
inductive Obstacle where
  | missing
  /-- A file in the way, or a name that is too long. -/
  | blocked
  | present
  deriving DecidableEq, Repr

/-- The parts that lead to a place from the root directly. -/
abbrev Place := List String

/-- Everything below the root, by the path that leads there directly. -/
structure Disk where
  entries : Table Entry

namespace Disk

def pathOf (place : Place) : String := "/".intercalate place

/-- What stands at a place; the root is always there. -/
def look? (d : Disk) (place : Place) : Option Entry :=
  if place.isEmpty then some .directory else d.entries.get? (pathOf place)

def isDirectory (d : Disk) (place : Place) : Bool := d.look? place = some .directory

def put (d : Disk) (place : Place) (e : Entry) : Disk :=
  ⟨d.entries.insert (pathOf place) e⟩

def home : Place := ["tmp", "work"]

def empty : Disk :=
  let directories := ["bin", "boot", "dev", "etc", "home", "lib", "media", "mnt", "opt", "proc",
    "root", "run", "sbin", "srv", "sys", "tmp", "usr", "var"].map fun name => [name]
  let d := (home :: directories).foldl (fun d place => put d place .directory) ⟨.empty⟩
  let d := ["null", "stdin", "stderr"].foldl (fun d name => put d ["dev", name] .sink) d
  (d.put ["dev", "stdout"] .printer).put ["dev", "full"] .full

/-! ### Following paths -/

def enter (d : Disk) (place : Place) (part : String) : Except Obstacle Place :=
  if !d.isDirectory place then .error .blocked
  else if Text.isIdle part then .ok place
  else if part = ".." then .ok place.dropLast
  else if Text.maxPartSize < part.utf8ByteSize then .error .blocked
  else if (d.look? (place ++ [part])).isSome then .ok (place ++ [part])
  else .error .missing

def follow (d : Disk) (path : String) (parts : List String) : Except Obstacle Place :=
  if Text.maxPathSize < path.utf8ByteSize then .error .blocked
  else parts.foldlM d.enter (if Text.startsWith path "/" then [] else home)

def find (d : Disk) (path : String) : Except Obstacle Place := d.follow path (Text.pathParts path)

def isPresent (d : Disk) (path : String) : Bool := (d.find path).isOk

def leadsIn (d : Disk) (path : String) : Bool :=
  match d.find path with
  | .ok place => d.isDirectory place
  | .error _ => false

def read? (d : Disk) (path : String) : Option String := do
  match d.look? (← (d.find path).toOption) with
  | some (.file text) => some text
  | some .sink => some ""
  | _ => none

/-- The place that the last part of a path names in a directory that is there. -/
def target (d : Disk) (path : String) : Except Obstacle Place := do
  let parts := Text.pathParts path
  let place ← d.follow path parts.dropLast
  let name := parts.getLast?.getD ""
  if !d.isDirectory place then .error .blocked
  else if Text.isIdle name || name = ".." then .error .present
  else if Text.maxPartSize < name.utf8ByteSize then .error .blocked
  else .ok (place ++ [name])

/-! ### Changes -/

/-- Puts a text into a file, new or not, of a directory that is there; also what is printed. -/
def write? (d : Disk) (path text : String) : Option (Disk × String) := do
  let place ← (d.target path).toOption
  match d.look? place with
  | none | some (.file _) => some (d.put place (.file text), "")
  | some .sink => some (d, "")
  | some .printer => some (d, text)
  | some .directory | some .full => none

def make (d : Disk) (path : String) : Except Obstacle Disk := do
  let place ← d.target path
  if (d.look? place).isSome then .error .present else .ok (d.put place .directory)

/-- Makes a directory and those above it that are missing; false if it is not there afterwards. -/
def makeAll (d : Disk) : (fuel : Nat) → (path : String) → Disk × Bool
  | 0, _ => (d, false)
  | fuel + 1, path =>
    match d.make path with
    | .ok e => (e, true)
    | .error .missing =>
      let (e, made) := makeAll d fuel (Text.parentPath path)
      if !made then (e, false)
      else match e.make path with
        | .ok e => (e, true)
        | .error _ => (e, e.leadsIn path)
    | .error _ => (d, d.leadsIn path)

/-- Each step up takes a character off the path at least. -/
def makeDirectory (d : Disk) (path : String) : Disk × Bool := d.makeAll (path.length + 1) path

def ofFiles (files : List (String × String)) : Disk :=
  files.foldl (fun d f =>
    let d := (d.makeDirectory (Text.parentPath f.1)).1
    ((d.write? f.1 f.2).map Prod.fst).getD d) .empty

/-! ### Laws -/

@[simp] theorem look?_put_self (d : Disk) {place : Place} (h : place ≠ []) (e : Entry) :
    (d.put place e).look? place = some e := by
  simp [look?, put, h]

theorem look?_put_of_ne (d : Disk) {place other : Place} (h : pathOf other ≠ pathOf place)
    (e : Entry) : (d.put place e).look? other = d.look? other := by
  simp [look?, put, Table.get?_insert_of_ne _ _ h]

/-- A file in a place that is no directory does not block the way to another place. -/
theorem enter_put_file {d : Disk} {place : Place} (h : d.isDirectory place = false) (text : String)
    {start : Place} {part : String} {there : Place} (ok : d.enter start part = .ok there) :
    (d.put place (.file text)).enter start part = .ok there := by
  have hne : place ≠ [] := by
    rintro rfl
    simp [isDirectory, look?] at h
  have same (p : Place) : (d.put place (.file text)).isDirectory p = d.isDirectory p := by
    by_cases hp : p = []
    · simp [isDirectory, look?, hp]
    · by_cases key : pathOf p = pathOf place
      · simp_all [isDirectory, look?, put]
      · simp [isDirectory, look?_put_of_ne d key]
  have stays (p : Place) (hp : (d.look? p).isSome) :
      ((d.put place (.file text)).look? p).isSome := by
    by_cases key : pathOf p = pathOf place
    · by_cases hp : p = []
      · simp [look?, hp]
      · simp [look?, put, hp, key]
    · rwa [look?_put_of_ne d key]
  simp only [enter, same] at ok ⊢
  grind

theorem follow_put_file {d : Disk} {place : Place} (h : d.isDirectory place = false)
    (text path : String) {parts : List String} {there : Place}
    (ok : d.follow path parts = .ok there) :
    (d.put place (.file text)).follow path parts = .ok there := by
  unfold follow at ok ⊢
  split at ok
  · cases ok
  · next short =>
    rw [if_neg short]
    generalize (if Text.startsWith path "/" then [] else home) = start at ok ⊢
    induction parts generalizing start with
    | nil => exact ok
    | cons part parts ih =>
      simp only [List.foldlM_cons] at ok ⊢
      cases first : d.enter start part with
      | error o => rw [first] at ok; cases ok
      | ok next =>
        rw [first] at ok
        rw [enter_put_file h text first]
        exact ih next ok

theorem follow_append_one (d : Disk) (path : String) (parts : List String) (part : String) :
    d.follow path (parts ++ [part]) = d.follow path parts >>= fun place => d.enter place part := by
  unfold follow
  split
  · rfl
  · simp [List.foldlM_append]

/-- A place that a path names is where the path leads to as soon as a file stands there. -/
theorem find_put_file {d : Disk} {path : String} {place : Place} (found : d.target path = .ok place)
    (free : d.isDirectory place = false) (text : String) :
    (d.put place (.file text)).find path = .ok place ∧ place ≠ [] := by
  unfold target at found
  cases within : d.follow path (Text.pathParts path).dropLast with
  | error o => simp [within, bind, Except.bind] at found
  | ok start =>
    simp only [within, bind, Except.bind] at found
    generalize hlast : (Text.pathParts path).getLast?.getD "" = name at found
    split at found
    · cases found
    · next inside =>
      split at found
      · cases found
      · next named =>
        split at found
        · cases found
        · next short =>
          obtain rfl := Except.ok.inj found
          have parts : Text.pathParts path = (Text.pathParts path).dropLast ++ [name] := by
            cases hp : (Text.pathParts path).getLast? with
            | none =>
              rw [hp] at hlast
              subst hlast
              simp [Text.isIdle] at named
            | some last =>
              rw [hp] at hlast
              obtain rfl : last = name := hlast
              obtain ⟨front, whole⟩ := List.getLast?_eq_some_iff.mp hp
              simp [whole]
          refine ⟨?_, by simp⟩
          have entered : (d.put (start ++ [name]) (.file text)).enter start name
              = .ok (start ++ [name]) := by
            have there : (d.put (start ++ [name]) (.file text)).isDirectory start = true := by
              have outer : d.enter start "" = .ok start := by
                simpa [enter, Text.isIdle] using inside
              simpa [enter, Text.isIdle] using enter_put_file free text outer
            simp only [enter, there]
            simp only [Bool.or_eq_true, decide_eq_true_eq, not_or] at named
            simp [named, short]
          rw [find, parts, follow_append_one, follow_put_file free text path within]
          exact entered

/-- A file holds what was put into it. -/
theorem read?_of_write? {d e : Disk} {path text output : String}
    (h : d.write? path text = some (e, output)) (changed : e ≠ d) : e.read? path = some text := by
  unfold write? at h
  cases found : d.target path with
  | error o => simp [found, Except.toOption] at h
  | ok place =>
    simp only [found, Except.toOption, Option.bind_eq_bind, Option.bind_some] at h
    have put (free : d.isDirectory place = false) (he : d.put place (.file text) = e) :
        e.read? path = some text := by
      obtain ⟨leads, inside⟩ := find_put_file found free text
      rw [← he]
      simp [read?, leads, Except.toOption, inside]
    split at h
    · next none =>
      exact put (by simp [isDirectory, none]) (Prod.mk.inj (Option.some.inj h)).1
    · next old =>
      exact put (by simp [isDirectory, old]) (Prod.mk.inj (Option.some.inj h)).1
    · exact absurd (Prod.mk.inj (Option.some.inj h)).1.symm changed
    · exact absurd (Prod.mk.inj (Option.some.inj h)).1.symm changed
    · cases h
    · cases h

end Disk

/-- A disk, and what was printed. -/
structure Terminal where
  disk : Disk
  printed : String

instance : Shell (StateM Terminal) where
  isPresent path := return (← get).disk.isPresent path
  readText path := return (← get).disk.read? path
  writeText path text := do
    let t ← get
    match t.disk.write? path text with
    | none => return false
    | some (d, output) =>
      set (Terminal.mk d (t.printed ++ output))
      return true
  makeDirectory path := modifyGet fun t =>
    let (d, made) := t.disk.makeDirectory path
    (made, { t with disk := d })
  print text := modify fun t => { t with printed := t.printed ++ text }

end BlendGraph.Command
