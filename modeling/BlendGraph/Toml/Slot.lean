import BlendGraph.Toml.Basic

/-!
# TOML documents from statements

A document is a list of statements: headers, which open a table, and pairs, which put a value at a
dotted key of the open table. Each key holds a slot, which says how its table was defined, because
a table is defined only once.
-/

set_option autoImplicit false

namespace BlendGraph.Toml

/-- A dotted key: the path to a table, and a key of that table. -/
structure Key where
  path : List String
  last : String
  deriving DecidableEq, Repr

namespace Key

def single (name : String) : Key := ⟨[], name⟩

def ofParts (first : String) (rest : List String) : Key :=
  ⟨(first :: rest).dropLast, (first :: rest).getLast (List.cons_ne_nil _ _)⟩

def parts (k : Key) : List String := k.path ++ [k.last]

end Key

/-- A statement of a document. -/
inductive Statement where
  | header (key : Key)
  | item (key : Key)
  | pair (key : Key) (value : Toml)

/-- How a table was defined. -/
inductive Origin where
  | header
  | implied
  | dotted
  deriving DecidableEq, Repr

/-- What a key holds while a document is put together. -/
inductive Slot where
  | value (v : Toml)
  | table (origin : Origin) (slots : List (String × Slot))
  /-- The tables of an array, of which only the last one can still grow. -/
  | items (earlier : List Slot) (last : List (String × Slot))

/-- The slots of a table, by key. -/
abbrev Slots := List (String × Slot)

namespace Slots

/-- Puts a slot in the place of the one at its key, or behind all others. -/
def put (key : String) (slot : Slot) : Slots → Slots
  | [] => [(key, slot)]
  | s :: slots => if s.1 = key then (key, slot) :: slots else s :: put key slot slots

/-- Changes the table at the end of a path. Tables on the way are made where there are none; the
path of an array leads to its last table. -/
def change (f : Slots → Option Slots) : (path : List String) → Slots → Option Slots
  | [], slots => f slots
  | key :: path, slots =>
    match slots.lookup key with
    | none => (change f path []).map fun t => slots.put key (.table .implied t)
    | some (.table origin t) => (change f path t).map fun t => slots.put key (.table origin t)
    | some (.items earlier last) =>
      (change f path last).map fun t => slots.put key (.items earlier t)
    | some (.value _) => none

/-- Defines a table. Only one that was implied so far may be there. -/
def define (key : String) (slots : Slots) : Option Slots :=
  match slots.lookup key with
  | none => some (slots.put key (.table .header []))
  | some (.table .implied t) => some (slots.put key (.table .header t))
  | _ => none

def extend (key : String) (slots : Slots) : Option Slots :=
  match slots.lookup key with
  | none => some (slots.put key (.items [] []))
  | some (.items earlier last) =>
    some (slots.put key (.items (earlier ++ [.table .header last]) []))
  | _ => none

/-- Puts a value at a dotted key. The table that gets it is this one or one of dotted keys; further
up there may also be implied tables and arrays. -/
def assign (v : Toml) : (path : List String) → (key : String) → Slots → Option Slots
  | [], key, slots =>
    match slots.lookup key with
    | none => some (slots.put key (.value v))
    | some _ => none
  | first :: path, key, slots =>
    match slots.lookup first with
    | none => (assign v path key []).map fun t => slots.put first (.table .dotted t)
    | some (.table .dotted t) =>
      (assign v path key t).map fun t => slots.put first (.table .dotted t)
    | some (.table .implied t) =>
      if path = [] then none
      else (assign v path key t).map fun t => slots.put first (.table .implied t)
    | some (.items earlier last) =>
      if path = [] then none
      else (assign v path key last).map fun t => slots.put first (.items earlier t)
    | _ => none

end Slots

namespace Slot

mutual

def toToml : Slot → Toml
  | value v => v
  | table _ slots => .table (tableToml slots)
  | items earlier last => .array (itemsToml earlier ++ [.table (tableToml last)])

def tableToml : List (String × Slot) → List (String × Toml)
  | [] => []
  | (key, slot) :: slots => (key, toToml slot) :: tableToml slots

def itemsToml : List Slot → List Toml
  | [] => []
  | slot :: slots => toToml slot :: itemsToml slots

end

end Slot

/-- A document that is being put together: all slots, and the path of the open table. -/
structure Draft where
  slots : Slots
  current : List String

namespace Draft

def empty : Draft := ⟨[], []⟩

def add (d : Draft) : Statement → Option Draft
  | .header key => (Slots.change (Slots.define key.last) key.path d.slots).map (⟨·, key.parts⟩)
  | .item key => (Slots.change (Slots.extend key.last) key.path d.slots).map (⟨·, key.parts⟩)
  | .pair key v =>
    (Slots.change (Slots.assign v key.path key.last) d.current d.slots).map (⟨·, d.current⟩)

end Draft

def ofStatements? (statements : List Statement) : Option Toml :=
  (statements.foldlM Draft.add .empty).map fun d => .table (Slot.tableToml d.slots)

def ofPairs? (pairs : List (Key × Toml)) : Option Toml :=
  ofStatements? (pairs.map fun p => .pair p.1 p.2)

end BlendGraph.Toml
