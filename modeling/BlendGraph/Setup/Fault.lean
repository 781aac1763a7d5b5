import BlendGraph.Setup.Basic

/-!
# Faults of setups

A setup is checked as a compilation would check it, except that all faults are listed, so that they
can be mended at once. The list is `Setup.faults`; `Setup.validate` says how it is reported.
-/

set_option autoImplicit false

namespace BlendGraph

variable {α : Type}

/-- One thing wrong with a setup. -/
inductive SetupFault (α : Type) where
  | emptyNamespace
  | namespaceSeparator (root : String)
  | emptyName (index : Nat)
  | duplicateParameter (parameter : String)
  | reservedName (parameter root : String)
  | outOfRange (parameter : String) (observer : Observer) (value : α)
  | width (parameter : String) (bits : Nat)
  | overBudget (used capacity : Nat)
  deriving DecidableEq

/-- The faults of a setup as they are reported: one alone, or several together. -/
inductive SetupError (α : Type) where
  | single (fault : SetupFault α)
  | multiple (faults : List (SetupFault α))
  deriving DecidableEq

def Observer.smoothnessField : Observer → String
  | .owner => "local_smoothness"
  | .remote => "remote_smoothness"

def SetupFault.message [Scalar α] : SetupFault α → String
  | emptyNamespace => "namespace must not be empty"
  | namespaceSeparator root => s!"namespace '{root}' must not contain '/'"
  | emptyName index => s!"parameter #{index} has an empty name"
  | duplicateParameter parameter => s!"parameter '{parameter}' is listed more than once"
  | reservedName parameter root => s!"parameter '{parameter}' contains the namespace '{root}'"
  | outOfRange parameter observer value =>
    s!"parameter '{parameter}' {observer.smoothnessField} " ++ Scalar.text value
      ++ " out of range [0, 1]"
  | width parameter bits =>
    s!"parameter '{parameter}' requests {bits} quantization bits (maximum is {maxBits})"
  | overBudget used capacity => overBudgetText used capacity

namespace SetupError

/-- The report of a list of faults: nothing for none. -/
def ofFaults? : List (SetupFault α) → Option (SetupError α)
  | [] => none
  | [fault] => some (single fault)
  | faults => some (multiple faults)

/-- The faults of a report, one after another. -/
def faults : SetupError α → List (SetupFault α)
  | single fault => [fault]
  | multiple faults => faults

def message [Scalar α] : SetupError α → String
  | single fault => fault.message
  | multiple faults =>
    "multiple validation errors: " ++ "; ".intercalate (faults.map SetupFault.message)

def fullMessage [Scalar α] (e : SetupError α) : String :=
  "validation failed: " ++ e.message

theorem faults_ofFaults? {fs : List (SetupFault α)} {e : SetupError α} (h : ofFaults? fs = some e) :
    e.faults = fs := by
  match fs, h with
  | [f], h => cases h; rfl
  | f :: g :: fs, h => cases h; rfl

@[simp] theorem ofFaults?_eq_none_iff {fs : List (SetupFault α)} :
    ofFaults? fs = none ↔ fs = [] := by
  match fs with
  | [] | [_] | _ :: _ :: _ => simp [ofFaults?]

end SetupError

/-- The faults of a parameter alone, which stands at the given place of its list. -/
def Parameter.faults [Scalar α] (index : Nat) (p : Parameter α) : List (SetupFault α) :=
  (if Text.isBlank p.name then [.emptyName index] else [])
    ++ ([Observer.owner, Observer.remote].filter fun o => !Scalar.isUnit (p.smoothness o)).map
      (fun o => .outOfRange p.name o (p.smoothness o))
    ++ (if maxBits < p.bits then [.width p.name p.bits] else [])

def Parameter.validate [Scalar α] (index : Nat) (p : Parameter α) : Except (SetupError α) Unit :=
  match SetupError.ofFaults? (p.faults index) with
  | none => .ok ()
  | some e => .error e

namespace Setup

def rootFaults (root : String) : List (SetupFault α) :=
  if root = "" then [.emptyNamespace]
  else if root.toList.contains '/' then [.namespaceSeparator root]
  else []

/-- The faults of a name: it was seen before, or carries the root. -/
def nameFaults (root : String) (seen : List String) (name : String) : List (SetupFault α) :=
  (if name ≠ "" ∧ name ∈ seen then [.duplicateParameter name] else [])
    ++ (if root ≠ "" ∧ Text.contains name root then [.reservedName name root] else [])

/-- The faults of parameters that stand from `index` on, behind those with the names in `seen`. -/
def parameterFaults [Scalar α] (root : String) (index : Nat) (seen : List String) :
    List (Parameter α) → List (SetupFault α)
  | [] => []
  | p :: ps =>
    p.faults index ++ nameFaults root seen p.name
      ++ parameterFaults root (index + 1) (p.name :: seen) ps

def budgetFaults (ps : List (Parameter α)) : Option Nat → List (SetupFault α)
  | none => []
  | some capacity =>
    if capacity < totalCost ps then [.overBudget (totalCost ps) capacity] else []

/-- All faults. The capacity is looked at only where the setup fixes one. -/
def faults [Scalar α] (s : Setup α) : List (SetupFault α) :=
  rootFaults s.root ++ parameterFaults s.root 0 [] s.parameters
    ++ budgetFaults s.parameters s.capacity

def validate [Scalar α] (s : Setup α) : Except (SetupError α) Unit :=
  match SetupError.ofFaults? s.faults with
  | none => .ok ()
  | some e => .error e

end Setup

end BlendGraph
