import BlendGraph.Scalar

/-!
# Motion trees

A motion is a leaf that plays a clip, an interpolation between children along the value of a
channel, or a sum of children weighted by channels.
-/

set_option autoImplicit false

namespace BlendGraph

/-! ### Totals -/

section

variable {β γ : Type}

/-- The sum of a count over a list. -/
def tally (f : β → Nat) : List β → Nat
  | [] => 0
  | x :: xs => f x + tally f xs

@[simp] theorem tally_nil (f : β → Nat) : tally f [] = 0 := rfl

@[simp] theorem tally_cons (f : β → Nat) (x : β) (xs : List β) :
    tally f (x :: xs) = f x + tally f xs := rfl

@[simp] theorem tally_append (f : β → Nat) (xs ys : List β) :
    tally f (xs ++ ys) = tally f xs + tally f ys := by
  induction xs with
  | nil => simp
  | cons x xs ih => simp [ih, Nat.add_assoc]

theorem tally_congr {f g : β → Nat} {xs : List β} (h : ∀ x ∈ xs, f x = g x) :
    tally f xs = tally g xs := by
  induction xs with
  | nil => rfl
  | cons x xs ih =>
    rw [tally_cons, tally_cons, h x (by simp), ih fun y hy => h y (by simp [hy])]

theorem length_flatMap_eq_tally (f : β → List γ) (xs : List β) :
    (xs.flatMap f).length = tally (fun x => (f x).length) xs := by
  induction xs with
  | nil => rfl
  | cons x xs ih => rw [List.flatMap_cons, List.length_append, ih, tally_cons]

end

/-! ### Trees -/

/-- A motion tree. -/
inductive Node (α : Type) where
  | leaf (clip : String)
  /-- Blends the two children whose thresholds enclose the value of the channel. -/
  | interp (name channel : String) (children : List (α × Node α))
  /-- Adds the children, each with the value of a channel as its weight. -/
  | sum (name : String) (children : List (String × Node α))

namespace Node

variable {α : Type}

/-- The name of a node; that of a leaf is its clip. -/
def name : Node α → String
  | leaf clip => clip
  | interp name _ _ => name
  | sum name _ => name

def children : Node α → List (Node α)
  | leaf _ => []
  | interp _ _ cs => cs.map Prod.snd
  | sum _ cs => cs.map Prod.snd

/-- A property holds of a tree if it passes from the children of each node to the node. -/
@[elab_as_elim]
theorem induction {motive : Node α → Prop} (leaf : ∀ clip, motive (leaf clip))
    (interp : ∀ name channel cs, (∀ c ∈ cs, motive c.2) → motive (interp name channel cs))
    (sum : ∀ name cs, (∀ c ∈ cs, motive c.2) → motive (sum name cs)) (n : Node α) : motive n :=
  @Node.rec α motive (fun cs => ∀ c ∈ cs, motive c.2) (fun cs => ∀ c ∈ cs, motive c.2)
    (fun c => motive c.2) (fun c => motive c.2)
    leaf (fun name channel cs h => interp name channel cs h) (fun name cs h => sum name cs h)
    (fun _ h => nomatch h)
    (fun _ _ h hs c hc => (List.mem_cons.mp hc).elim (fun e => e ▸ h) (hs c))
    (fun _ h => nomatch h)
    (fun _ _ h hs c hc => (List.mem_cons.mp hc).elim (fun e => e ▸ h) (hs c))
    (fun _ _ h => h) (fun _ _ h => h) n

mutual

def walk : Node α → List (Node α)
  | leaf clip => [leaf clip]
  | interp name channel cs => interp name channel cs :: walkInterp cs
  | sum name cs => sum name cs :: walkSum cs

def walkInterp : List (α × Node α) → List (Node α)
  | [] => []
  | (_, n) :: cs => walk n ++ walkInterp cs

def walkSum : List (String × Node α) → List (Node α)
  | [] => []
  | (_, n) :: cs => walk n ++ walkSum cs

end

mutual

def nodeCount : Node α → Nat
  | leaf _ => 1
  | interp _ _ cs => 1 + nodeCountInterp cs
  | sum _ cs => 1 + nodeCountSum cs

def nodeCountInterp : List (α × Node α) → Nat
  | [] => 0
  | (_, n) :: cs => nodeCount n + nodeCountInterp cs

def nodeCountSum : List (String × Node α) → Nat
  | [] => 0
  | (_, n) :: cs => nodeCount n + nodeCountSum cs

end

@[simp] theorem walkInterp_eq (cs : List (α × Node α)) :
    walkInterp cs = cs.flatMap fun c => c.2.walk := by
  induction cs with
  | nil => rfl
  | cons c cs ih => simp [walkInterp, ih]

@[simp] theorem walkSum_eq (cs : List (String × Node α)) :
    walkSum cs = cs.flatMap fun c => c.2.walk := by
  induction cs with
  | nil => rfl
  | cons c cs ih => simp [walkSum, ih]

@[simp] theorem nodeCountInterp_eq (cs : List (α × Node α)) :
    nodeCountInterp cs = tally (fun c => c.2.nodeCount) cs := by
  induction cs with
  | nil => rfl
  | cons c cs ih => simp [nodeCountInterp, ih]

@[simp] theorem nodeCountSum_eq (cs : List (String × Node α)) :
    nodeCountSum cs = tally (fun c => c.2.nodeCount) cs := by
  induction cs with
  | nil => rfl
  | cons c cs ih => simp [nodeCountSum, ih]

theorem mem_walk_self (n : Node α) : n ∈ n.walk := by
  cases n <;> simp [walk]

theorem nodeCount_eq_length_walk (n : Node α) : n.nodeCount = n.walk.length := by
  induction n using Node.induction with
  | leaf clip => rfl
  | interp name channel cs ih =>
    simp only [nodeCount, walk, nodeCountInterp_eq, walkInterp_eq, List.length_cons,
      length_flatMap_eq_tally, tally_congr ih]
    omega
  | sum name cs ih =>
    simp only [nodeCount, walk, nodeCountSum_eq, walkSum_eq, List.length_cons,
      length_flatMap_eq_tally, tally_congr ih]
    omega

def clips (n : Node α) : List String :=
  n.walk.filterMap fun
    | leaf clip => some clip
    | _ => none

@[simp] theorem clips_leaf (clip : String) : (leaf clip : Node α).clips = [clip] := rfl

@[simp] theorem clips_interp (name channel : String) (cs : List (α × Node α)) :
    (interp name channel cs).clips = cs.flatMap fun c => c.2.clips := by
  simp [clips, walk, List.filterMap_flatMap]

@[simp] theorem clips_sum (name : String) (cs : List (String × Node α)) :
    (sum name cs).clips = cs.flatMap fun c => c.2.clips := by
  simp [clips, walk, List.filterMap_flatMap]

end Node

end BlendGraph
