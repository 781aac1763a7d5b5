import BlendGraph.Json.Number

/-!
# JSON values

The members of an object stay in order, also where a name repeats. A part of a document may keep to
the grammar and yet stand for no value; whoever passes over that part does not mind.
-/

set_option autoImplicit false

namespace BlendGraph

/-- A JSON value. -/
inductive Json where
  | null
  | bool (b : Bool)
  | number (n : JsonNumber)
  | string (s : String)
  | array (items : List Json)
  | object (members : List (String × Json))
  /-- Grammatical, but no value: a number beyond all floats, half of a surrogate pair, or too deeply
  nested. -/
  | unreadable

namespace Json

instance : Inhabited Json := ⟨null⟩

mutual

def depth : Json → Nat
  | null | bool _ | number _ | string _ | unreadable => 0
  | array items => 1 + depthItems items
  | object members => 1 + depthMembers members

def depthItems : List Json → Nat
  | [] => 0
  | j :: js => max (depth j) (depthItems js)

def depthMembers : List (String × Json) → Nat
  | [] => 0
  | (_, j) :: js => max (depth j) (depthMembers js)

end

mutual

def isReadable : Json → Bool
  | null | bool _ | number _ | string _ => true
  | array items => areReadable items
  | object members => haveReadable members
  | unreadable => false

def areReadable : List Json → Bool
  | [] => true
  | j :: js => isReadable j && areReadable js

def haveReadable : List (String × Json) → Bool
  | [] => true
  | (_, j) :: js => isReadable j && haveReadable js

end

def ofNat (n : Nat) : Json := number (.integer n)

/-- A float as a number; null if it is not finite. -/
def ofSingle (x : Float32) : Json := ((JsonNumber.ofSingle? x).map number).getD null

/-- A float as a text; null if it is not finite. -/
def ofSingleText (x : Float32) : Json :=
  if x.isFinite then string (Number.text x) else null

def bool? : Json → Option Bool
  | bool b => some b
  | _ => none

def string? : Json → Option String
  | string s => some s
  | _ => none

def array? : Json → Option (List Json)
  | array items => some items
  | _ => none

def object? : Json → Option (List (String × Json))
  | object members => some members
  | _ => none

def nat? (bound : Nat) : Json → Option Nat
  | number n => n.toNat? bound
  | _ => none

def single? : Json → Option Float32
  | number n => some n.toSingle
  | _ => none

def member? (name : String) : Json → Option Json
  | object members => members.lookup name
  | _ => none

/-- The fields of a record, which is an object or the array of its fields in order. Other members
are passed over. A field that repeats, or an array with too many items, is no record. -/
def record? (names : List String) : Json → Option (List (Option Json))
  | object members => names.mapM fun name =>
    match members.filter fun m => m.1 == name with
    | [] => some none
    | [m] => some (some m.2)
    | _ => none
  | array items =>
    if items.length ≤ names.length then some ((List.range names.length).map (items[·]?))
    else none
  | _ => none

def required {β : Type} (read : Json → Option β) (field : Option Json) : Option β :=
  field.bind read

def withDefault {β : Type} (default : β) (read : Json → Option β) : Option Json → Option β
  | none => some default
  | some j => read j

def nullable {β : Type} (read : Json → Option β) : Option Json → Option (Option β)
  | none | some null => some none
  | some j => (read j).map some

end Json

end BlendGraph
