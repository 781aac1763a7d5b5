import BlendGraph.Setup.Fault

/-!
# How faults are gathered

The check of a setup walks over the parameters once and puts together what the check of each of them
reports, which may itself be several faults in one report.
-/

set_option autoImplicit false

namespace BlendGraph

variable {α : Type}

/-- What a check reports: one fault, or several reports in one. -/
inductive FaultReport (α : Type) where
  | single (fault : SetupFault α)
  | multiple (reports : List (FaultReport α))

namespace FaultReport

/-- The outcome of a check that has made these reports. -/
def gather : List (FaultReport α) → Except (FaultReport α) Unit
  | [] => .ok ()
  | [report] => .error report
  | reports => .error (multiple reports)

mutual

/-- The faults of a report, however deep they are. -/
def faults : FaultReport α → List (SetupFault α)
  | single fault => [fault]
  | multiple reports => faultsAll reports

def faultsAll : List (FaultReport α) → List (SetupFault α)
  | [] => []
  | report :: reports => faults report ++ faultsAll reports

end

/-- The faults that the outcome of a check tells of. -/
def faultsOf : Except (FaultReport α) Unit → List (SetupFault α)
  | .ok () => []
  | .error report => report.faults

end FaultReport

/-- The report of an error, in which no report holds several. -/
def SetupError.report : SetupError α → FaultReport α
  | single fault => .single fault
  | multiple faults => .multiple (faults.map .single)

open FaultReport

/-- The check of a parameter alone. -/
def Parameter.check [Scalar α] (index : Nat) (p : Parameter α) : Except (FaultReport α) Unit :=
  gather ((p.faults index).map .single)

/-- What a walk has found so far: reports, and the names it has come by. -/
structure Findings (α : Type) where
  reports : List (FaultReport α)
  seen : List String

namespace Findings

def add (w : Findings α) (report : FaultReport α) : Findings α :=
  { w with reports := w.reports ++ [report] }

/-- Takes in the outcome of another check. Several reports in one are taken out of it. -/
def merge (w : Findings α) : Except (FaultReport α) Unit → Findings α
  | .ok () => w
  | .error (.multiple reports) => { w with reports := w.reports ++ reports }
  | .error report => w.add report

/-- Comes by a name, unless it is empty. -/
def meet (w : Findings α) (name : String) : Findings α :=
  if name = "" then w
  else if name ∈ w.seen then w.add (.single (.duplicateParameter name))
  else { w with seen := name :: w.seen }

def reserve (root name : String) (w : Findings α) : Findings α :=
  if root ≠ "" ∧ Text.contains name root then w.add (.single (.reservedName name root)) else w

/-- One step of the walk: a parameter with its place in the list. -/
def enter [Scalar α] (root : String) (w : Findings α) (p : Parameter α × Nat) : Findings α :=
  ((w.merge (p.1.check p.2)).meet p.1.name).reserve root p.1.name

end Findings

/-- The check of a setup in one walk over its parameters. -/
def Setup.check [Scalar α] (s : Setup α) : Except (FaultReport α) Unit :=
  let start : Findings α := ⟨(rootFaults s.root).map .single, []⟩
  let found := s.parameters.zipIdx.foldl (Findings.enter s.root) start
  gather (found.reports ++ (budgetFaults s.parameters s.capacity).map .single)

end BlendGraph
