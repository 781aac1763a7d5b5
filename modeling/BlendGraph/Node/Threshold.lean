import BlendGraph.Node.Basic

/-!
# Children in the order of their thresholds

Children of an interpolation are put in and looked up by bisection. On a list whose thresholds do
not ascend the bisection still has a definite answer, which depends only on the tests it makes.
-/

set_option autoImplicit false

namespace BlendGraph

/-- Halves a stretch of `size` positions from `base` on until one is left. The middle position
becomes the new base where the test holds; `fuel` bounds the number of halvings. -/
def bisect (test : Nat → Bool) : (fuel base size : Nat) → Nat
  | 0, base, _ => base
  | fuel + 1, base, size =>
    if size ≤ 1 then base
    else if test (base + size / 2) then bisect test fuel (base + size / 2) (size - size / 2)
    else bisect test fuel base (size - size / 2)

/-- The position behind the elements that pass the test, in a list where these come first. -/
def partitionPoint {β : Type} (test : β → Bool) (xs : List β) : Nat :=
  if xs.isEmpty then 0
  else
    let passes (i : Nat) : Bool := (xs[i]?).any test
    let base := bisect passes xs.length 0 xs.length
    if passes base then base + 1 else base

/-- Puts an element in at a position; at the end if the list is shorter. -/
def insertAt {β : Type} (x : β) : Nat → List β → List β
  | 0, xs => x :: xs
  | _ + 1, [] => [x]
  | i + 1, y :: ys => y :: insertAt x i ys

namespace Node

variable {α : Type} [Scalar α]

/-- Puts a child into the list behind those whose threshold is at most its own. -/
def insertThreshold (threshold : α) (child : Node α) (cs : List (α × Node α)) :
    List (α × Node α) :=
  insertAt (threshold, child) (partitionPoint (fun c => decide (c.1 ≤ threshold)) cs) cs

/-- Adds a child to an interpolation; any other node stays as it is. -/
def withThreshold (n : Node α) (threshold : α) (child : Node α) : Node α :=
  match n with
  | interp name channel cs => interp name channel (insertThreshold threshold child cs)
  | other => other

omit [Scalar α] in
/-- Adds a child at the end of a sum; any other node stays as it is. -/
def withWeight (n : Node α) (weight : String) (child : Node α) : Node α :=
  match n with
  | sum name cs => sum name (cs ++ [(weight, child)])
  | other => other

end Node

end BlendGraph
