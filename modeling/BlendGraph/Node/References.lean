import BlendGraph.Node.Basic

/-!
# Channels in motion trees

The places of a tree that name a channel, in order, and the replacement of the names there.
-/

set_option autoImplicit false

namespace BlendGraph

/-- The kind of place that names a channel. -/
inductive Site where
  | blend
  | weight
  | time
  | speed
  | cycle
  | mirror
  deriving DecidableEq, Repr

def Site.label : Site → String
  | blend => "blend"
  | weight => "weight"
  | time => "time"
  | speed => "speed"
  | cycle => "cycle"
  | mirror => "mirror"

namespace Node

variable {α : Type}

mutual

/-- The channels named in the tree: that of an interpolation before its children, the weight of a
child before the child. -/
def references : Node α → List (Site × String)
  | leaf _ => []
  | interp _ channel cs => (.blend, channel) :: referencesInterp cs
  | sum _ cs => referencesSum cs

def referencesInterp : List (α × Node α) → List (Site × String)
  | [] => []
  | (_, n) :: cs => references n ++ referencesInterp cs

def referencesSum : List (String × Node α) → List (Site × String)
  | [] => []
  | (weight, n) :: cs => (.weight, weight) :: references n ++ referencesSum cs

end

mutual

def mapChannels (f : String → String) : Node α → Node α
  | leaf clip => leaf clip
  | interp name channel cs => interp name (f channel) (mapChannelsInterp f cs)
  | sum name cs => sum name (mapChannelsSum f cs)

def mapChannelsInterp (f : String → String) : List (α × Node α) → List (α × Node α)
  | [] => []
  | (threshold, n) :: cs => (threshold, mapChannels f n) :: mapChannelsInterp f cs

def mapChannelsSum (f : String → String) : List (String × Node α) → List (String × Node α)
  | [] => []
  | (weight, n) :: cs => (f weight, mapChannels f n) :: mapChannelsSum f cs

end

mutual

def countChannels (test : String → Bool) : Node α → Nat
  | leaf _ => 0
  | interp _ channel cs => (test channel).toNat + countChannelsInterp test cs
  | sum _ cs => countChannelsSum test cs

def countChannelsInterp (test : String → Bool) : List (α × Node α) → Nat
  | [] => 0
  | (_, n) :: cs => countChannels test n + countChannelsInterp test cs

def countChannelsSum (test : String → Bool) : List (String × Node α) → Nat
  | [] => 0
  | (weight, n) :: cs =>
    (test weight).toNat + countChannels test n + countChannelsSum test cs

end

@[simp] theorem referencesInterp_eq (cs : List (α × Node α)) :
    referencesInterp cs = cs.flatMap fun c => c.2.references := by
  induction cs with
  | nil => rfl
  | cons c cs ih => simp [referencesInterp, ih]

@[simp] theorem referencesSum_eq (cs : List (String × Node α)) :
    referencesSum cs = cs.flatMap fun c => (.weight, c.1) :: c.2.references := by
  induction cs with
  | nil => rfl
  | cons c cs ih => simp [referencesSum, ih]

@[simp] theorem mapChannelsInterp_eq (f : String → String) (cs : List (α × Node α)) :
    mapChannelsInterp f cs = cs.map fun c => (c.1, c.2.mapChannels f) := by
  induction cs with
  | nil => rfl
  | cons c cs ih => simp [mapChannelsInterp, ih]

@[simp] theorem mapChannelsSum_eq (f : String → String) (cs : List (String × Node α)) :
    mapChannelsSum f cs = cs.map fun c => (f c.1, c.2.mapChannels f) := by
  induction cs with
  | nil => rfl
  | cons c cs ih => simp [mapChannelsSum, ih]

end Node

end BlendGraph
