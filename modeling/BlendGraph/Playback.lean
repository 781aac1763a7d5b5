import BlendGraph.Host.Basic
import BlendGraph.Node.Threshold

/-!
# Playback

A host graph is stepped frame by frame. In a frame every leaf that the first states reach adds the
value of its clip, times the weights along its path, to the channel of the clip. All of them read
the values from before the frame.
-/

set_option autoImplicit false

namespace BlendGraph

variable {α : Type} [Scalar α]

/-- The value of a channel is not comparable with the thresholds it should lie between. -/
structure Unbracketed where
  channel : String
  deriving DecidableEq, Repr

/-- The share of each child of an interpolation that plays at the key value `x`: the outer child
alone outside the thresholds, and two neighbours in between. Without children nothing plays. -/
def bracket {β : Type} (channel : String) (children : List (α × β)) (x : α) :
    Except Unbracketed (List (β × α)) :=
  match children.head?, children.getLast? with
  | some first, some last =>
    if x ≤ first.1 then .ok [(first.2, 1)]
    else if last.1 ≤ x then .ok [(last.2, 1)]
    else
      match partitionPoint (fun c => decide (c.1 ≤ x)) children with
      | 0 => .error ⟨channel⟩
      | i + 1 =>
        match children[i]?, children[i + 1]? with
        | some a, some b =>
          let t := (x - a.1) / (b.1 - a.1)
          .ok [(a.2, 1 - t), (b.2, t)]
        | _, _ => .error ⟨channel⟩
  | _, _ => .ok []

/-- What the leaves of a tree add to which channels, in order. -/
abbrev Contributions (α : Type) := List (String × α)

namespace Node

mutual

/-- The contributions of a tree of the given weight. A tree of weight zero adds nothing, and is not
looked at. -/
def play (h : Host α) (value : String → α) : Node α → α → Except Unbracketed (Contributions α)
  | leaf clip, weight =>
    .ok <| if Scalar.same weight 0 then [] else
      match h.resolve? clip with
      | none => []
      | some c => [(c.target, weight * c.curve.sample 0)]
  | interp _ channel cs, weight =>
    if Scalar.same weight 0 then .ok [] else do
      let shares ← bracket channel (playInterp h value cs) (value channel)
      let parts ← shares.mapM fun s => s.1 (weight * s.2)
      return parts.flatten
  | sum _ cs, weight =>
    if Scalar.same weight 0 then .ok [] else playSum h value cs weight

def playInterp (h : Host α) (value : String → α) :
    List (α × Node α) → List (α × (α → Except Unbracketed (Contributions α)))
  | [] => []
  | (threshold, n) :: cs => (threshold, play h value n) :: playInterp h value cs

def playSum (h : Host α) (value : String → α) :
    List (String × Node α) → α → Except Unbracketed (Contributions α)
  | [], _ => .ok []
  | (channel, n) :: cs, weight => do
    let first ← play h value n (weight * value channel)
    let rest ← playSum h value cs weight
    return first ++ rest

end

@[simp] theorem playInterp_eq (h : Host α) (value : String → α) (cs : List (α × Node α)) :
    playInterp h value cs = cs.map fun c => (c.1, c.2.play h value) := by
  induction cs with
  | nil => rfl
  | cons c cs ih => simp [playInterp, ih]

end Node

/-- A host graph with the present values of its channels. -/
structure Playback (α : Type) [Scalar α] where
  host : Host α
  values : Table α

namespace Playback

def start (h : Host α) : Playback α :=
  ⟨h, .ofList (h.channels.map fun c => (c.name, c.default))⟩

def set (p : Playback α) (channel : String) (value : α) : Playback α :=
  { p with values := p.values.insert channel value }

def get (p : Playback α) (channel : String) : α := (p.values.get? channel).getD 0

/-- The contributions of all layers, each playing its first state. -/
def contributions (p : Playback α) : Except Unbracketed (Contributions α) := do
  let parts ← p.host.layers.mapM fun l =>
    match l.states.head?.bind State.motion with
    | none => pure []
    | some motion => motion.play p.host p.get 1
  return parts.flatten

def total (cs : Contributions α) : Table α :=
  cs.foldl (fun t c => t.insert c.1 ((t.get? c.1).getD 0 + c.2)) .empty

/-- One frame: the written channels, and the playback after it. -/
def step (p : Playback α) : Except Unbracketed (Table α × Playback α) := do
  let writes := total (← p.contributions)
  return (writes, writes.entries.foldl (fun p w => p.set w.1 w.2) p)

/-- Steps a number of frames. Gives the value of a channel after each, and where the frames end,
also if that is because one cannot be played. -/
def trace (p : Playback α) (channel : String) : Nat → Except Unbracketed (List α) × Playback α
  | 0 => (.ok [], p)
  | n + 1 =>
    match p.step with
    | .error e => (.error e, p)
    | .ok (_, q) =>
      let rest := trace q channel n
      (rest.1.map (q.get channel :: ·), rest.2)

end Playback

end BlendGraph
