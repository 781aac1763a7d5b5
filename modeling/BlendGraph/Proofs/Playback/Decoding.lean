import BlendGraph.Proofs.Playback.InstalledLayers
import Mathlib.Algebra.BigOperators.Field

/-!
# Decoding

Over the rationals a frame writes to the raw channel of each quantized parameter the sum of the
weights of its bits, each as far as the bit is set, and turns it towards its negation as far as the
sign is set. So a number whose binary digits are on the channels arrives as a part of full scale.
-/

set_option autoImplicit false

namespace BlendGraph

/-- A number below a power of two is the sum of its digits. -/
theorem sum_testBit (m k : Nat) :
    ∑ i ∈ Finset.range k, 2 ^ i * (m.testBit i).toNat = m % 2 ^ k := by
  induction k with
  | zero => rw [Finset.sum_range_zero, pow_zero, Nat.mod_one]
  | succ k ih => rw [Finset.sum_range_succ, ih, Nat.mod_pow_succ, Nat.toNat_testBit]

namespace Decoder

/-! ### Decoded values -/

section

variable (value : String → Rat) (ns : Namespace) (hidden : Bool) (p : Parameter Rat)

/-- The sum of the weights of the bits, each cut off between zero and one. -/
def magnitude : Rat :=
  ∑ i ∈ Finset.range p.bits,
    2 ^ i / (2 ^ p.bits - 1) * clamp 0 1 (value (given hidden (ns.bit p.name i)))

/-- The part that the negated sum has. -/
def negation : Rat :=
  if p.signBit then clamp 0 1 (value (given hidden (ns.sign p.name))) else 0

def output : Rat := (1 - 2 * negation value ns hidden p) * magnitude value ns hidden p

/-- The channels have the binary digits of a number and the sign of it. -/
structure Carries (m : Nat) (negative : Bool) : Prop where
  bits : ∀ i < p.bits, value (given hidden (ns.bit p.name i)) = if m.testBit i then 1 else 0
  sign : p.signBit = true → value (given hidden (ns.sign p.name)) = if negative then 1 else 0
  unsigned : p.signBit = false → negative = false

instance (m : Nat) (negative : Bool) : Decidable (Carries value ns hidden p m negative) :=
  decidable_of_iff ((∀ i < p.bits, value (given hidden (ns.bit p.name i))
        = if m.testBit i then 1 else 0)
      ∧ (p.signBit = true → value (given hidden (ns.sign p.name)) = if negative then 1 else 0)
      ∧ (p.signBit = false → negative = false))
    ⟨fun h => ⟨h.1, h.2.1, h.2.2⟩, fun h => ⟨h.1, h.2, h.3⟩⟩

end

variable {value : String → Rat} {ns : Namespace} {hidden : Bool} {p : Parameter Rat}

theorem clamp_digit (b : Bool) : clamp 0 1 (if b then 1 else 0) = if b then 1 else 0 := by
  cases b with
  | false => exact clamp_of_le_low (le_refl 0)
  | true => exact clamp_of_high_le zero_le_one (le_refl 1)

/-- Digits are decoded without a loss. -/
theorem Carries.magnitude_eq {m : Nat} {negative : Bool}
    (carries : Carries value ns hidden p m negative) (hm : m < 2 ^ p.bits) :
    magnitude value ns hidden p = m / (2 ^ p.bits - 1) := by
  have hdigits : ∀ i ∈ Finset.range p.bits,
      2 ^ i / (2 ^ p.bits - 1) * clamp 0 1 (value (given hidden (ns.bit p.name i)))
        = ((2 ^ i * (m.testBit i).toNat : Nat) : Rat) / (2 ^ p.bits - 1) := by
    intro i hi
    rw [carries.bits i (Finset.mem_range.mp hi), clamp_digit]
    cases m.testBit i <;> simp
  calc magnitude value ns hidden p
      = ∑ i ∈ Finset.range p.bits,
          ((2 ^ i * (m.testBit i).toNat : Nat) : Rat) / (2 ^ p.bits - 1) :=
        Finset.sum_congr rfl hdigits
    _ = ((∑ i ∈ Finset.range p.bits, 2 ^ i * (m.testBit i).toNat : Nat) : Rat)
          / (2 ^ p.bits - 1) := by
        rw [← Finset.sum_div, Nat.cast_sum]
    _ = m / (2 ^ p.bits - 1) := by
        rw [sum_testBit, Nat.mod_eq_of_lt hm]

theorem Carries.output_eq {m : Nat} {negative : Bool}
    (carries : Carries value ns hidden p m negative) (hm : m < 2 ^ p.bits) :
    output value ns hidden p = (if negative then -1 else 1) * (m / (2 ^ p.bits - 1)) := by
  have hnegation : negation value ns hidden p = if negative then 1 else 0 := by
    cases hs : p.signBit with
    | false => simp [negation, hs, carries.unsigned hs]
    | true => rw [negation, if_pos hs, carries.sign hs, clamp_digit]
  rw [output, hnegation, carries.magnitude_eq hm]
  cases negative with
  | false => simp
  | true => norm_num

/-! ### The tree of a decoder -/

theorem ratio_eq (k i : Nat) : (Scalar.ratio (Nat.pow 2 i) (Nat.pow 2 k - 1) : Rat)
    = 2 ^ i / (2 ^ k - 1) := by
  have hone : 1 ≤ 2 ^ k := Nat.one_le_two_pow
  change ((2 ^ i : Nat) : Rat) / ((2 ^ k - 1 : Nat) : Rat) = _
  rw [Nat.cast_sub hone]
  push_cast
  rfl

variable {host : String} {h : Host Rat}

theorem drives_bitTree {target : String} {negative : Bool} {w : Nat × String × Rat}
    (plays : ∀ d ∈ bitClips host p target negative w,
      ∃ c, h.resolve? d.name = some c ∧ d.Records c) :
    Paths.Drives h target ((bitTree ns host p negative w).paths value)
      (clamp 0 1 (value w.2.1) * signed negative w.2.2) := by
  obtain ⟨off, hoff, -, hoffTarget, hoffKeys⟩ := plays _ (List.mem_cons_self ..)
  obtain ⟨on, hon, -, honTarget, honKeys⟩ :=
    plays _ (List.mem_cons_of_mem _ (List.mem_singleton_self _))
  have hpair := Node.drives_unitPair (ns.decoderBit p.name w.1 negative) w.2.1
    (Node.drives_leaf value hoff hoffTarget) (Node.drives_leaf value hon honTarget)
  rw [Curve.sample_zero hoffKeys, Curve.sample_zero honKeys, mul_zero, zero_add] at hpair
  exact hpair

section

variable (hwidth : isWidth p.bits = true) (hblend : value ns.blendSet = 1) {target : String}
  (plays : ∀ d ∈ (edits host p target (channelsOf ns p hidden)).clips,
    ∃ c, h.resolve? d.name = some c ∧ d.Records c)

include hwidth hblend plays

/-- Every bit has its part in the sum, also where all bits are clear. -/
theorem drives_sumTree {negative : Bool} (hsign : negative ∈ signs (channelsOf ns p hidden)) :
    Paths.Drives h target
      ((sumTree ns host p (channelsOf ns p hidden) ns.blendSet negative).paths value)
      ((if negative then -1 else 1) * magnitude value ns hidden p) := by
  have htree : sumTree ns host p (channelsOf ns p hidden) ns.blendSet negative
      = .sum (ns.decoderSum p.name negative) ((List.range p.bits).map fun i =>
        (ns.blendSet, bitTree ns host p negative (wire ns hidden p i))) := by
    rw [sumTree, Node.foldl_withWeight, wires_eq ns hwidth, List.nil_append, List.map_map,
      List.map_map]
    rfl
  have hpos : 0 < p.bits := by
    simp only [isWidth, Bool.and_eq_true, decide_eq_true_eq] at hwidth
    exact hwidth.1
  have hsum : ((if negative then -1 else 1) * magnitude value ns hidden p : Rat)
      = ∑ i ∈ Finset.range p.bits, clamp 0 1 (value (wire ns hidden p i).2.1)
          * signed negative (wire ns hidden p i).2.2 := by
    rw [magnitude, Finset.mul_sum]
    apply Finset.sum_congr rfl
    intro i _
    rw [wire, ratio_eq, signed]
    ring
  rw [htree, hsum]
  apply Node.drives_sum_range hblend _ hpos
  intro i hi
  apply drives_bitTree
  intro d hd
  have hwire : wire ns hidden p i ∈ wires p (channelsOf ns p hidden) :=
    wires_eq ns hwidth hidden ▸ List.mem_map_of_mem (List.mem_range.mpr hi)
  exact plays d (mem_clips_edits.mpr ⟨negative, hsign, _, hwire, hd⟩)

theorem drives_tree : Paths.Drives h target
    ((tree ns host p (channelsOf ns p hidden) ns.blendSet).paths value)
    (output value ns hidden p) := by
  have hplain : false ∈ signs (channelsOf ns p hidden) := List.mem_cons_self ..
  have hpositive := drives_sumTree hwidth hblend plays hplain
  rw [output]
  cases hs : p.signBit with
  | false =>
    have hnone : (channelsOf ns p hidden).sign = none := by rw [channelsOf, hs]; rfl
    rw [tree, hnone, negation, if_neg (by simp [hs])]
    simpa using hpositive
  | true =>
    have hsome : (channelsOf ns p hidden).sign = some (given hidden (ns.sign p.name)) := by
      rw [channelsOf, hs]; rfl
    have hnegated : true ∈ signs (channelsOf ns p hidden) := by simp [signs, hsome]
    have hnegative := drives_sumTree hwidth hblend plays hnegated
    have hpair := Node.drives_unitPair (ns.decoderRoot p.name) (given hidden (ns.sign p.name))
      hpositive hnegative
    rw [tree, hsome, negation, if_pos hs]
    convert hpair using 1
    norm_num
    ring

end

end Decoder

/-! ### Generated layers -/

namespace Compile

variable {ns : Namespace} {host : String} {hidden : Bool} {ps : List (Parameter Rat)}
  {h : Host Rat} {value : String → Rat}

/-- The decoders of a generated layer drive the raw channel of each quantized parameter. -/
theorem drives_decodersTree (plays : Plays ns host hidden ps h) (admits : Admits ns ps)
    (hblend : value ns.blendSet = 1) {p : Parameter Rat} (hp : p ∈ ps)
    (hquantized : p.isQuantized = true) :
    Paths.Drives h p.name ((decodersTree ns host hidden ps).paths value)
      (Decoder.output value ns hidden p) := by
  have hnodup : (ps.filter Parameter.isQuantized).Nodup :=
    (List.Nodup.of_map _ admits.nodup).filter _
  apply Node.drives_sum hblend _ (List.mem_filter.mpr ⟨hp, hquantized⟩) hnodup
  · exact Decoder.drives_tree (admits.width hp hquantized) hblend (plays.decoder hp hquantized)
  · intro q hq hne
    obtain ⟨hq, hquantized'⟩ := List.mem_filter.mp hq
    apply plays.spares_decoder hq hquantized'
    intro heq
    exact hne (List.inj_on_of_nodup_map admits.nodup hq hp heq)

/-- The filters of the same layer leave the raw channels alone. -/
theorem drives_motion_raw (plays : Plays ns host hidden ps h) (hroot : ns.root ≠ "")
    (admits : Admits ns ps) (hblend : value ns.blendSet = 1) {p : Parameter Rat} (hp : p ∈ ps)
    (hquantized : p.isQuantized = true) :
    Paths.Drives h p.name ((motion ns host hidden ps).paths value)
      (Decoder.output value ns hidden p) := by
  apply drives_motion_of_decoders hblend
  · exact List.ne_nil_of_mem (List.mem_filter.mpr ⟨hp, hquantized⟩)
  · exact drives_decodersTree plays admits hblend hp hquantized
  · apply plays.spares_rootTree
    intro q _
    exact (admits.name_ne hp (Namespace.tags_channel hroot ..)).symm

/-- Every list that passes the checks compiles. Unless two of its parameters have the same name
without separators, each frame writes to the raw channel of a quantized parameter what its bits and
its sign say, as long as no layer beside the generated one plays a clip for it. A number whose
digits are on the channels is decoded as a part of full scale. -/
theorem decoding {h : Host Rat} {ps : List (Parameter Rat)} {o : CompileOptions} {b : Budget}
    (hv : validate ps o = .ok b)
    (hnodup : (ps.map fun p => ClipName.withoutSeparators p.name).Nodup) :
    ∃ h' r, compile h ps o = .ok (h', r) ∧
      ∀ q : Playback Rat, q.host = h' → q.get o.names.blendSet = 1 →
        ∃ writes q', q.step = .ok (writes, q') ∧
          ∀ p ∈ ps, p.isQuantized = true → Undriven o.names p.name h' →
            writes.get? p.name = some (Decoder.output q.get o.names o.hideBits p) ∧
            q'.get p.name = Decoder.output q.get o.names o.hideBits p ∧
            ∀ (m : Nat) (negative : Bool), m < 2 ^ p.bits →
              Decoder.Carries q.get o.names o.hideBits p m negative →
              writes.get? p.name
                = some ((if negative then -1 else 1) * (m / (2 ^ p.bits - 1)) : Rat) := by
  have hroot := root_ne_of_validate hv
  have admits := admits_of_validate hv
  obtain ⟨cs, r, hcs, hc⟩ := exists_compile (h := h) hv
  have installed := installed_outcome hroot admits hcs hnodup
  refine ⟨_, r, hc, fun q hq hblend => ?_⟩
  obtain ⟨writes, q', hstep, -, hdriven⟩ := q.exists_step
  refine ⟨writes, q', hstep, fun p hp hquantized undriven => ?_⟩
  rw [← hq] at installed undriven
  have hmotion := drives_motion_raw installed.plays hroot admits hblend hp hquantized
  obtain ⟨hwritten, hget⟩ := hdriven _ _ (installed.drives_of_motion undriven hmotion)
  refine ⟨hwritten, hget, fun m negative hm carries => ?_⟩
  rw [hwritten, carries.output_eq hm]

end Compile

namespace Sample

/-- Two parameters over the rationals, one of them quantized with a sign. -/
def signedParameters : List (Parameter Rat) :=
  [(Parameter.ofName "Jaw").withBits 2 true, Parameter.ofName "Mouth/Lips"]

/-- The first frame of a host in which the second bit of the first parameter and its sign are set.
-/
def signedFrame (h : Host Rat) : Playback Rat :=
  ((Playback.start h).set (Text.hide "OSCm/Binary/Jaw2") 1).set
    (Text.hide "OSCm/Binary/JawNegative") 1

end Sample

theorem Compile.decoding_sample : ∃ h' r,
    compile Sample.exactHost Sample.signedParameters Sample.options = .ok (h', r) ∧
    ∃ writes q, (Sample.signedFrame h').step = .ok (writes, q) ∧
      writes.get? "Jaw" = some (-(2 / 3)) := by
  have hok : (validate Sample.signedParameters Sample.options).isOk = true := by decide +kernel
  have hnodup : (Sample.signedParameters.map fun p => ClipName.withoutSeparators p.name).Nodup := by
    decide +kernel
  have hjaw : (Parameter.ofName "Jaw").withBits 2 true ∈ Sample.signedParameters :=
    List.mem_cons_self ..
  have hsample : ∀ x ∈ (compile Sample.exactHost Sample.signedParameters Sample.options).toOption,
      Undriven ⟨"OSCm"⟩ "Jaw" x.1 ∧
      (Sample.signedFrame x.1).get "OSCm/BlendSet" = 1 ∧
      Decoder.Carries (Sample.signedFrame x.1).get ⟨"OSCm"⟩ true
        ((Parameter.ofName "Jaw").withBits 2 true) 2 true := by
    decide +kernel
  obtain ⟨b, hv⟩ := exists_of_isOk hok
  obtain ⟨h', r, hc, hplays⟩ := decoding (h := Sample.exactHost) hv hnodup
  rw [hc] at hsample
  obtain ⟨undriven, hblend, carries⟩ := hsample (h', r) rfl
  obtain ⟨writes, q, hstep, hdecodes⟩ := hplays (Sample.signedFrame h') rfl hblend
  obtain ⟨-, -, hexact⟩ := hdecodes _ hjaw rfl undriven
  refine ⟨h', r, hc, writes, q, hstep, (hexact 2 true (by decide) carries).trans ?_⟩
  norm_num [Parameter.withBits]

end BlendGraph
