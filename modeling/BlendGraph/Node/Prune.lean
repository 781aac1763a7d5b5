import BlendGraph.Node.Basic

/-!
# Pruning motion trees

Subtrees below the root are cut off where a test holds. What hangs below a cut is not looked at.
-/

set_option autoImplicit false

namespace BlendGraph.Node

variable {α : Type}

mutual

/-- The tree without the subtrees below its root that pass the test. -/
def prune (cut : Node α → Bool) : Node α → Node α
  | leaf clip => leaf clip
  | interp name channel cs => interp name channel (pruneInterp cut cs)
  | sum name cs => sum name (pruneSum cut cs)

def pruneInterp (cut : Node α → Bool) : List (α × Node α) → List (α × Node α)
  | [] => []
  | (threshold, n) :: cs =>
    if cut n then pruneInterp cut cs else (threshold, prune cut n) :: pruneInterp cut cs

def pruneSum (cut : Node α → Bool) : List (String × Node α) → List (String × Node α)
  | [] => []
  | (weight, n) :: cs =>
    if cut n then pruneSum cut cs else (weight, prune cut n) :: pruneSum cut cs

end

mutual

def pruneCount (cut : Node α → Bool) : Node α → Nat
  | leaf _ => 0
  | interp _ _ cs => pruneCountInterp cut cs
  | sum _ cs => pruneCountSum cut cs

def pruneCountInterp (cut : Node α → Bool) : List (α × Node α) → Nat
  | [] => 0
  | (_, n) :: cs => (if cut n then 1 else pruneCount cut n) + pruneCountInterp cut cs

def pruneCountSum (cut : Node α → Bool) : List (String × Node α) → Nat
  | [] => 0
  | (_, n) :: cs => (if cut n then 1 else pruneCount cut n) + pruneCountSum cut cs

end

@[simp] theorem pruneInterp_eq (cut : Node α → Bool) (cs : List (α × Node α)) :
    pruneInterp cut cs
      = (cs.filter fun c => !cut c.2).map fun c => (c.1, c.2.prune cut) := by
  induction cs with
  | nil => rfl
  | cons c cs ih => cases h : cut c.2 <;> simp [pruneInterp, ih, h]

@[simp] theorem pruneSum_eq (cut : Node α → Bool) (cs : List (String × Node α)) :
    pruneSum cut cs
      = (cs.filter fun c => !cut c.2).map fun c => (c.1, c.2.prune cut) := by
  induction cs with
  | nil => rfl
  | cons c cs ih => cases h : cut c.2 <;> simp [pruneSum, ih, h]

/-- Nothing is cut where no node passes the test. -/
theorem prune_eq_self {cut : Node α → Bool} {n : Node α} (h : ∀ m ∈ n.walk, cut m = false) :
    n.prune cut = n := by
  induction n using Node.induction with
  | leaf clip => rfl
  | interp name channel cs ih =>
    simp only [walk, walkInterp_eq, List.mem_cons, List.mem_flatMap] at h
    have hkept : ∀ c ∈ cs, (!cut c.2) = true := by
      intro c hc
      simp [h c.2 (.inr ⟨c, hc, mem_walk_self c.2⟩)]
    have hcs : ∀ c ∈ cs, (c.1, c.2.prune cut) = c := by
      intro c hc
      rw [ih c hc fun m hm => h m (.inr ⟨c, hc, hm⟩)]
    rw [prune, pruneInterp_eq, List.filter_eq_self.mpr hkept, List.map_congr_left hcs,
      List.map_id']
  | sum name cs ih =>
    simp only [walk, walkSum_eq, List.mem_cons, List.mem_flatMap] at h
    have hkept : ∀ c ∈ cs, (!cut c.2) = true := by
      intro c hc
      simp [h c.2 (.inr ⟨c, hc, mem_walk_self c.2⟩)]
    have hcs : ∀ c ∈ cs, (c.1, c.2.prune cut) = c := by
      intro c hc
      rw [ih c hc fun m hm => h m (.inr ⟨c, hc, hm⟩)]
    rw [prune, pruneSum_eq, List.filter_eq_self.mpr hkept, List.map_congr_left hcs,
      List.map_id']

end BlendGraph.Node
