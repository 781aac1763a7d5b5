import BlendGraph.Compile

/-!
# Setups

A setup is what a user keeps in a file: the parameters of one compilation, in order, and what they
share.
-/

set_option autoImplicit false

namespace BlendGraph

/-- A named parameter list with its options. -/
structure Setup (α : Type) where
  name : String
  description : Option String
  root : String
  hideBits : Bool
  /-- The capacity to compile for; without one, what the host leaves. -/
  capacity : Option Nat
  parameters : List (Parameter α)
  deriving DecidableEq

/-- A setup has no parameter of the name. -/
structure ParameterNotFound where
  name : String
  deriving DecidableEq, Repr

def ParameterNotFound.message (e : ParameterNotFound) : String :=
  "parameter not found in setup: " ++ e.name

namespace Setup

variable {α : Type}

def untitled : String := "Untitled"

def ofName (name : String) : Setup α where
  name := name
  description := none
  root := Namespace.defaultRoot
  hideBits := false
  capacity := none
  parameters := []

def push (s : Setup α) (p : Parameter α) : Setup α :=
  { s with parameters := s.parameters ++ [p] }

def parameter (s : Setup α) (name : String) : Except ParameterNotFound (Parameter α) :=
  match s.parameters.find? fun p => p.name == name with
  | some p => .ok p
  | none => .error ⟨name⟩

def names (s : Setup α) : Namespace := ⟨s.root⟩

/-- The options of the compilation, where the host leaves the given capacity. -/
def compileOptions (s : Setup α) (available : Nat) : CompileOptions :=
  ⟨s.names, s.hideBits, s.capacity.getD available⟩

variable [Scalar α]

/-- Field by field equality, in which an incomparable number differs from itself. -/
def same (s t : Setup α) : Bool :=
  s.name == t.name && s.description == t.description && s.root == t.root
    && s.hideBits == t.hideBits && s.capacity == t.capacity
    && s.parameters.length == t.parameters.length
    && (s.parameters.zip t.parameters).all fun pq => pq.1.same pq.2

end Setup

end BlendGraph
