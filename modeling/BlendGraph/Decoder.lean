import BlendGraph.Namespace
import BlendGraph.Node.Threshold
import BlendGraph.Synthesis

/-!
# Decoders

A parameter of `k` bits is transmitted as `k` discrete channels, and decoded as the sum of the
weights `2 ^ i / (2 ^ k - 1)` of the bits that are set. With a sign bit, a second sum of the
negated weights is selected by it.
-/

set_option autoImplicit false

namespace BlendGraph

variable {α : Type} [Scalar α]

/-- The channels that a decoder reads. -/
structure DecoderChannels where
  /-- The bits, the least significant one first. -/
  bits : List String
  sign : Option String
  deriving DecidableEq, Repr

namespace Decoder

open Synthesis

def isWidth (bits : Nat) : Bool := decide (0 < bits) && decide (bits ≤ maxBits)

def weight? (i bits : Nat) : Option α :=
  if isWidth bits && decide (i < bits) then some (Scalar.ratio (Nat.pow 2 i) (Nat.pow 2 bits - 1))
  else none

def weights? (bits : Nat) : Option (List α) :=
  (List.range (max bits 1)).mapM fun i => weight? i bits

/-- The greatest distance of a value from its decoded form, as a part of full scale. -/
def maxError? (bits : Nat) : Option α := weight? 0 bits

def checkWidth (p : Parameter α) : SynthesisM α Unit :=
  if isWidth p.bits then pure () else throw (.width p.name p.bits)

def requestBit (name : String) (hidden : Bool) : SynthesisM α String :=
  forcedChannel name .discrete { ChannelOptions.plain α with hidden := hidden, synced := true }

def register (p : Parameter α) (hidden : Bool) : SynthesisM α DecoderChannels := do
  checkWidth p
  let ns := (← get).names
  let bits ← (List.range p.bits).mapM fun i => requestBit (ns.bit p.name i) hidden
  let sign ← if p.signBit then some <$> requestBit (ns.sign p.name) hidden else pure none
  return ⟨bits, sign⟩

def buildBit (p : Parameter α) (target : String) (negative : Bool) (i : Nat) (bit : String)
    (weight : α) : SynthesisM α (Node α) := do
  let s ← get
  let weight := (if negative then -1 else 1) * weight
  let off ← clip (ClipName.decoder p.name false i (0 : α) s.host) target 0
  let on ← clip (ClipName.decoder p.name true i weight s.host) target weight
  return ((Node.interp (s.names.decoderBit p.name i negative) bit []).withThreshold 0
    off).withThreshold 1 on

/-- The sum of the bits, with negated weights if `negative`. -/
def buildSum (p : Parameter α) (target : String) (channels : DecoderChannels) (blendSet : String)
    (negative : Bool) : SynthesisM α (Node α) := do
  let ns := (← get).names
  checkWidth p
  let weights := (weights? p.bits).getD []
  let bits := (List.range p.bits).zip (channels.bits.zip weights)
  let branches ← bits.mapM fun b => buildBit p target negative b.1 b.2.1 b.2.2
  return branches.foldl (fun sum b => sum.withWeight blendSet b)
    (.sum (ns.decoderSum p.name negative) [])

def build (p : Parameter α) (target : String) (channels : DecoderChannels) (blendSet : String) :
    SynthesisM α (Node α) := do
  let positive ← buildSum p target channels blendSet false
  match channels.sign with
  | none => return positive
  | some sign =>
    let negative ← buildSum p target channels blendSet true
    let ns := (← get).names
    return ((Node.interp (ns.decoderRoot p.name) sign []).withThreshold 0
      positive).withThreshold 1 negative

end Decoder

end BlendGraph
