import BlendGraph.Scalar

/-!
# Curves

Piecewise linear functions of time, given by keyframes that advance in time. Before the first and
after the last keyframe a curve holds its value.
-/

set_option autoImplicit false

namespace BlendGraph

variable {α : Type}

structure Keyframe (α : Type) where
  time : α
  value : α
  deriving DecidableEq

/-- Why a list of keyframes is no curve. -/
inductive CurveError where
  | empty
  | nonFinite (index : Nat)
  | notMonotonic (index : Nat)
  deriving DecidableEq, Repr

def CurveError.message : CurveError → String
  | empty => "curve has no keyframes"
  | nonFinite index => s!"keyframe {index} is not finite"
  | notMonotonic index => s!"keyframe {index} does not advance in time"

variable [Scalar α]

namespace Curve

/-- The first fault of keyframes that follow one at `before`, the next of them numbered `index`. -/
def faultFrom? : (before : Option α) → (index : Nat) → List (Keyframe α) → Option CurveError
  | _, _, [] => none
  | before, index, k :: ks =>
    if !(Scalar.isFinite k.time && Scalar.isFinite k.value) then some (.nonFinite index)
    else if before.any fun b => decide (k.time ≤ b) then some (.notMonotonic index)
    else faultFrom? (some k.time) (index + 1) ks

def fault? : List (Keyframe α) → Option CurveError
  | [] => some .empty
  | k :: ks => faultFrom? none 0 (k :: ks)

end Curve

/-- At least one keyframe, all finite, each later than the one before it. -/
structure Curve (α : Type) [Scalar α] where
  first : Keyframe α
  rest : List (Keyframe α)
  sound : Curve.fault? (first :: rest) = none

namespace Curve

def keys (c : Curve α) : List (Keyframe α) := c.first :: c.rest

def ofKeys? : List (Keyframe α) → Except CurveError (Curve α)
  | [] => .error .empty
  | k :: ks =>
    match h : fault? (k :: ks) with
    | none => .ok ⟨k, ks, h⟩
    | some e => .error e

def constant? (value : α) : Except CurveError (Curve α) :=
  ofKeys? [⟨0, value⟩]

/-- The value at a time after `a`, which the keyframes follow. -/
def sampleFrom (time : α) : Keyframe α → List (Keyframe α) → α
  | a, [] => a.value
  | a, b :: ks =>
    if time ≤ b.time then
      a.value + (b.value - a.value) * ((time - a.time) / (b.time - a.time))
    else sampleFrom time b ks

def sample (c : Curve α) (time : α) : α :=
  if time ≤ c.first.time then c.first.value else sampleFrom time c.first c.rest

theorem ofKeys?_eq_error_iff {ks : List (Keyframe α)} {e : CurveError} :
    ofKeys? ks = .error e ↔ fault? ks = some e := by
  cases ks with
  | nil => simp [ofKeys?, fault?]
  | cons k ks => simp only [ofKeys?]; split <;> simp_all

theorem keys_of_ofKeys? {ks : List (Keyframe α)} {c : Curve α} (h : ofKeys? ks = .ok c) :
    c.keys = ks := by
  cases ks with
  | nil => simp [ofKeys?] at h
  | cons k ks =>
    simp only [ofKeys?] at h
    split at h
    · cases h; rfl
    · cases h

end Curve

end BlendGraph
