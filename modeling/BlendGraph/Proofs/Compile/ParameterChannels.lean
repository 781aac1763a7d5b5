import BlendGraph.Proofs.Compile.RequestedChannels
import BlendGraph.Proofs.Naming.GeneratedNames

/-!
# The channels of a parameter

Each parameter plays its part through channels of several roles. Whether two roles share a channel
is a matter of the names only: the value of a bit is appended to the name of its parameter without a
separator, and a hidden channel may be called like a parameter.
-/

set_option autoImplicit false

namespace BlendGraph

variable {α : Type}

/-- What a parameter uses a channel for. -/
inductive Role where
  | raw
  | proxy
  | coefficient (o : Observer)
  | bit (i : Nat)
  | sign
  deriving DecidableEq, Repr

namespace Role

/-- The channel that is registered for the role, if the parameter has it. -/
def channel? (ns : Namespace) (hidden : Bool) (p : Parameter α) : Role → Option String
  | raw => some (Filter.channelsOf ns p.name).raw
  | proxy => some (Filter.channelsOf ns p.name).proxy
  | coefficient o => some ((Filter.channelsOf ns p.name).coefficient o)
  | bit i => if p.isQuantized then (Decoder.channelsOf ns p hidden).bits[i]? else none
  | sign => if p.isQuantized then (Decoder.channelsOf ns p hidden).sign else none

/-- The segment of a generated channel name. -/
def segment : Role → String
  | raw => ""
  | proxy => "Proxy"
  | coefficient o => o.segment
  | bit _ => "Binary"
  | sign => "Binary"

/-- What follows the segment. -/
def rest (x : String) : Role → String
  | bit i => x ++ toString (Nat.pow 2 i)
  | sign => x ++ "Negative"
  | _ => x

/-- Whether the channel may get a hidden name. -/
def isTransmitted : Role → Bool
  | bit _ => true
  | sign => true
  | _ => false

/-- Whether the parameter has the role. -/
def Has (p : Parameter α) : Role → Prop
  | bit i => i < p.bits
  | sign => p.isQuantized = true ∧ p.signBit = true
  | _ => True

/-- The name before it is hidden. -/
def plainName (ns : Namespace) (x : String) (r : Role) : String :=
  if r = raw then x else ns.channel r.segment (r.rest x)

@[simp] theorem given_raw (hidden : Bool) (ns : Namespace) (x : String) :
    Decoder.given (hidden && raw.isTransmitted) (raw.plainName ns x) = x := by
  cases hidden <;> rfl

theorem channel?_eq_some_iff {ns : Namespace} {hidden : Bool} {p : Parameter α} {r : Role}
    {c : String} : r.channel? ns hidden p = some c ↔
      r.Has p ∧ Decoder.given (hidden && r.isTransmitted) (r.plainName ns p.name) = c := by
  cases r with
  | raw => simp [channel?, Has, Filter.channelsOf, isTransmitted, Decoder.given, plainName]
  | proxy =>
    simp [channel?, Has, Filter.channelsOf, isTransmitted, Decoder.given, plainName,
      Namespace.proxy, segment, rest]
  | coefficient o =>
    cases o <;> simp [channel?, Has, Filter.channelsOf, FilterChannels.coefficient, isTransmitted,
      Decoder.given, plainName, Namespace.coefficient, segment, rest]
  | bit i =>
    have hquantized : i < p.bits → p.isQuantized = true := by
      intro hi
      simp [Parameter.isQuantized]
      omega
    by_cases hi : i < p.bits
    · simp [channel?, Has, hquantized hi, hi, Decoder.channelsOf, isTransmitted, plainName,
        Namespace.bit, segment, rest]
    · simp [channel?, Has, hi, Decoder.channelsOf]
  | sign =>
    cases hq : p.isQuantized <;> cases hs : p.signBit <;>
      simp [channel?, Has, hq, hs, Decoder.channelsOf, isTransmitted, plainName, Namespace.sign,
        segment, rest]

theorem channel?_of_has (ns : Namespace) (hidden : Bool) {p : Parameter α} {r : Role}
    (h : r.Has p) : r.channel? ns hidden p
      = some (Decoder.given (hidden && r.isTransmitted) (r.plainName ns p.name)) :=
  channel?_eq_some_iff.mpr ⟨h, rfl⟩

/-! ### Values of bits -/

/-- The digits of `2 ^ i` in front of the last one. -/
def tens : Nat → List Char
  | 4 => ['1']
  | 5 => ['3']
  | 6 => ['6']
  | _ => []

/-- The last digit of `2 ^ i`. -/
def unit : Nat → Char
  | 0 => '1'
  | 1 => '2'
  | 2 => '4'
  | 3 => '8'
  | 4 => '6'
  | 5 => '2'
  | _ => '4'

theorem toList_toString_pow : ∀ i < maxBits,
    (toString (Nat.pow 2 i)).toList = tens i ++ [unit i] := by
  decide

/-- Bit 5 of a name is called like bit 1 of a longer name, and bit 6 like bit 2, since 32 ends
in 2 and 64 in 4. -/
def Overlaps (x : String) (r : Role) (y : String) (s : Role) : Prop :=
  (r = bit 5 ∧ s = bit 1 ∧ y = x ++ "3") ∨ (r = bit 6 ∧ s = bit 2 ∧ y = x ++ "6")

/-- Roles that overlap are called the same. -/
theorem Overlaps.plainName_eq {x y : String} {r s : Role} (h : Overlaps x r y s)
    (ns : Namespace) : r.plainName ns x = s.plainName ns y := by
  have hname : ∀ {a b c : String}, a = b ++ c → x ++ a = x ++ b ++ c := by
    rintro a b c rfl
    exact (String.append_assoc ..).symm
  rcases h with ⟨rfl, rfl, rfl⟩ | ⟨rfl, rfl, rfl⟩
  · exact congrArg (ns.channel "Binary") (hname (by decide))
  · exact congrArg (ns.channel "Binary") (hname (by decide))

theorem Overlaps.ne {x y : String} {r s : Role} (h : Overlaps x r y s) : x ≠ y := by
  intro heq
  have hlength := congrArg String.length heq
  rcases h with ⟨-, -, rfl⟩ | ⟨-, -, rfl⟩
  · simp at hlength
  · simp at hlength

theorem Overlaps.isTransmitted {x y : String} {r s : Role} (h : Overlaps x r y s) :
    r.isTransmitted = true ∧ s.isTransmitted = true := by
  rcases h with ⟨rfl, rfl, -⟩ | ⟨rfl, rfl, -⟩ <;> exact ⟨rfl, rfl⟩

theorem bit_inj {x y : String} {i j : Nat} (hi : i < maxBits) (hj : j < maxBits) (hij : j ≤ i)
    (h : x ++ toString (Nat.pow 2 i) = y ++ toString (Nat.pow 2 j)) :
    (x = y ∧ i = j) ∨ Overlaps x (bit i) y (bit j) := by
  have hlist := congrArg String.toList h
  rw [String.toList_append, String.toList_append, toList_toString_pow i hi,
    toList_toString_pow j hj, ← List.append_assoc, ← List.append_assoc] at hlist
  obtain ⟨htens, hunit⟩ := List.append_inj' hlist rfl
  have hunits : ∀ i j : Fin maxBits, j ≤ i → [unit i] = [unit j] →
      i.val = j ∨ i.val = 5 ∧ j.val = 1 ∨ i.val = 6 ∧ j.val = 2 := by decide
  rcases hunits ⟨i, hi⟩ ⟨j, hj⟩ hij hunit with heq | ⟨hfive, hone⟩ | ⟨hsix, htwo⟩
  · obtain rfl : i = j := heq
    exact .inl ⟨String.toList_injective (List.append_cancel_right htens), rfl⟩
  · obtain rfl : i = 5 := hfive
    obtain rfl : j = 1 := hone
    refine .inr (.inl ⟨rfl, rfl, String.toList_injective ?_⟩)
    simpa [tens] using htens.symm
  · obtain rfl : i = 6 := hsix
    obtain rfl : j = 2 := htwo
    refine .inr (.inr ⟨rfl, rfl, String.toList_injective ?_⟩)
    simpa [tens] using htens.symm

theorem bit_ne_sign {x y : String} {i : Nat} (hi : i < maxBits) :
    x ++ toString (Nat.pow 2 i) ≠ y ++ "Negative" := by
  intro h
  have hlist := congrArg String.toList h
  have hsign : "Negative".toList = "Negativ".toList ++ ['e'] := by decide
  rw [String.toList_append, String.toList_append, toList_toString_pow i hi, hsign,
    ← List.append_assoc, ← List.append_assoc] at hlist
  have hunit := (List.append_inj' hlist rfl).2
  have hunits : ∀ i < maxBits, [unit i] ≠ ['e'] := by decide
  exact hunits i hi hunit

theorem slash_notMem_segment (r : Role) : '/' ∉ r.segment.toList := by
  cases r with
  | coefficient o => cases o <;> simp [segment, Observer.segment]
  | _ => simp [segment]

/-- Roles of channels that are not transmitted are told apart by their segments. -/
theorem segment_inj {r s : Role} (hr : r.isTransmitted = false) (h : r.segment = s.segment) :
    r = s := by
  have hobservers : ∀ o o' : Observer, o.segment = o'.segment → o = o' := by
    intro o o'
    cases o <;> cases o' <;> simp [Observer.segment]
  have hsegments : ∀ o : Observer, o.segment ≠ "" ∧ o.segment ≠ "Proxy" ∧ o.segment ≠ "Binary" := by
    intro o
    cases o <;> simp [Observer.segment]
  cases r with
  | raw =>
    cases s with
    | raw => rfl
    | coefficient o => exact absurd h.symm (hsegments o).1
    | _ => simp [segment] at h
  | proxy =>
    cases s with
    | proxy => rfl
    | coefficient o => exact absurd h.symm (hsegments o).2.1
    | _ => simp [segment] at h
  | coefficient o =>
    cases s with
    | raw => exact absurd h (hsegments o).1
    | proxy => exact absurd h (hsegments o).2.1
    | coefficient o' => rw [hobservers o o' h]
    | bit j => exact absurd h (hsegments o).2.2
    | sign => exact absurd h (hsegments o).2.2
  | bit i => cases hr
  | sign => cases hr

theorem plainName_of_ne {r : Role} (h : r ≠ raw) (ns : Namespace) (x : String) :
    r.plainName ns x = ns.channel r.segment (r.rest x) := if_neg h

theorem tags_plainName {ns : Namespace} (hroot : ns.root ≠ "") {r : Role} (h : r ≠ raw)
    (x : String) : ns.tags (r.plainName ns x) = true := by
  rw [plainName_of_ne h]
  exact Namespace.tags_channel hroot _ _

/-- Plain names tell parameters and roles apart, but for some bits. -/
theorem plainName_inj {ns : Namespace} {p q : Parameter α} {r s : Role} (hr : r ≠ raw)
    (hs : s ≠ raw) (hp : r.Has p) (hq : s.Has q) (hpb : p.bits ≤ maxBits)
    (hqb : q.bits ≤ maxBits) (h : r.plainName ns p.name = s.plainName ns q.name) :
    (p.name = q.name ∧ r = s) ∨ Overlaps p.name r q.name s ∨ Overlaps q.name s p.name r := by
  rw [plainName_of_ne hr, plainName_of_ne hs] at h
  obtain ⟨hsegment, hrest⟩ :=
    Namespace.channel_inj (slash_notMem_segment r) (slash_notMem_segment s) h
  cases hrt : r.isTransmitted with
  | false =>
    obtain rfl := segment_inj hrt hsegment
    left
    cases r with
    | raw => exact absurd rfl hr
    | proxy => exact ⟨hrest, rfl⟩
    | coefficient o => exact ⟨hrest, rfl⟩
    | bit i => cases hrt
    | sign => cases hrt
  | true =>
    cases hst : s.isTransmitted with
    | false =>
      rw [segment_inj hst hsegment.symm, hrt] at hst
      cases hst
    | true =>
      cases r with
      | bit i =>
        have hi := Nat.lt_of_lt_of_le hp hpb
        cases s with
        | bit j =>
          have hj := Nat.lt_of_lt_of_le hq hqb
          rcases Nat.le_total j i with hij | hij
          · rcases bit_inj hi hj hij hrest with ⟨hname, rfl⟩ | hoverlaps
            · exact .inl ⟨hname, rfl⟩
            · exact .inr (.inl hoverlaps)
          · rcases bit_inj hj hi hij hrest.symm with ⟨hname, rfl⟩ | hoverlaps
            · exact .inl ⟨hname.symm, rfl⟩
            · exact .inr (.inr hoverlaps)
        | sign => exact absurd hrest (bit_ne_sign hi)
        | _ => cases hst
      | sign =>
        cases s with
        | bit j => exact absurd hrest.symm (bit_ne_sign (Nat.lt_of_lt_of_le hq hqb))
        | sign =>
          refine .inl ⟨String.toList_injective ?_, rfl⟩
          simpa [rest] using congrArg String.toList hrest
        | _ => cases hst
      | _ => cases hrt

end Role

end BlendGraph
