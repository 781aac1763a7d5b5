import BlendGraph.Command.Run
import BlendGraph.Proofs.Compile.SharedChannels
import BlendGraph.Proofs.Playback.Decoding
import BlendGraph.Proofs.Playback.InstalledLayers
import BlendGraph.Proofs.Playback.LowPass

/-!
# Simulations

A setup is compiled into a host without anything in it, and one of its parameters is driven. Over
the rationals the frames show the driven value, decoded one frame late if it comes from bits, and a
smoothed value that starts at zero and approaches it by the coefficient of the observer.
-/

set_option autoImplicit false

namespace BlendGraph

/-- What is looked up in a setup is one of its parameters. -/
theorem Setup.mem_of_parameter {α : Type} {s : Setup α} {name : String} {p : Parameter α}
    (h : s.parameter name = .ok p) : p ∈ s.parameters := by
  unfold parameter at h
  split at h
  · next hfind =>
    cases h
    exact List.mem_of_find?_eq_some hfind
  · cases h

theorem Parameter.smoothness_bounds {p : Parameter Rat} (h : p.fault? = none) (o : Observer) :
    0 ≤ p.smoothness o ∧ p.smoothness o ≤ 1 := by
  have hunit := Compile.isUnit_of_fault? h o
  simp only [Scalar.isUnit, Bool.and_eq_true, decide_eq_true_eq] at hunit
  exact ⟨hunit.1.2, hunit.2⟩

namespace Simulation

open Compile

/-! ### Steps -/

/-- The raw value of a parameter after a frame: what its bits say, or what it is. -/
def feed (ns : Namespace) (hidden : Bool) (p : Parameter Rat) (q : Playback Rat) : Rat :=
  if p.isQuantized then Decoder.output q.get ns hidden p else q.get p.name

theorem feed_congr {ns : Namespace} {hidden : Bool} {p : Parameter Rat} {q r : Playback Rat}
    (hroot : ns.root ≠ "") (hbits : ∀ n, ns.carriesBit n = true → r.get n = q.get n)
    (hraw : p.isQuantized = false → r.get p.name = q.get p.name) :
    feed ns hidden p r = feed ns hidden p q := by
  have hgiven (rest : String) : r.get (Decoder.given hidden (ns.channel "Binary" rest))
      = q.get (Decoder.given hidden (ns.channel "Binary" rest)) :=
    hbits _ (carriesBit_given hroot hidden rest)
  cases hquantized : p.isQuantized with
  | false => simp only [feed, hquantized, Bool.false_eq_true, if_false, hraw hquantized]
  | true =>
    have hmagnitude : Decoder.magnitude r.get ns hidden p = Decoder.magnitude q.get ns hidden p :=
      Finset.sum_congr rfl fun i _ => by rw [Namespace.bit, hgiven]
    have hnegation : Decoder.negation r.get ns hidden p = Decoder.negation q.get ns hidden p := by
      rw [Decoder.negation, Decoder.negation, Namespace.sign, hgiven]
    rw [feed, feed, if_pos hquantized, if_pos hquantized, Decoder.output, Decoder.output,
      hmagnitude, hnegation]

/-- A playback in which a parameter is driven to `x`, for one observer. -/
structure Driven (ns : Namespace) (host : String) (hidden : Bool) (ps : List (Parameter Rat))
    (p : Parameter Rat) (o : Observer) (x : Rat) (q : Playback Rat) : Prop where
  sole : Sole ns host hidden ps q.host
  blendSet : q.get ns.blendSet = 1
  selector : q.get Namespace.selectorChannel = o.threshold
  coefficient : q.get (ns.coefficient o p.name) = p.smoothness o
  feed : feed ns hidden p q = x

/-- No parameter is called like a channel that a compilation asks for beside those of parameters. -/
structure Plain (ns : Namespace) (ps : List (Parameter Rat)) : Prop where
  selector : ∀ p ∈ ps, p.name ≠ Namespace.selectorChannel
  generated : ∀ p ∈ ps, ns.generates p.name = false

section

variable {ns : Namespace} {host : String} {hidden : Bool} {ps : List (Parameter Rat)}
  {p : Parameter Rat} {o : Observer} {x y : Rat} {q : Playback Rat}

/-- A frame shows what a parameter is driven to, and mixes the raw value from before it into the
smoothed one. -/
theorem Driven.step (driven : Driven ns host hidden ps p o x q) (plain : Plain ns ps)
    (hp : p ∈ ps) : ∃ writes r, q.step = .ok (writes, r) ∧ Driven ns host hidden ps p o x r ∧
      r.get p.name = x ∧ r.get (ns.proxy p.name)
        = (1 - p.smoothness o) * clamp (-1) 1 (q.get p.name)
          + p.smoothness o * clamp (-1) 1 (q.get (ns.proxy p.name)) := by
  have installed := driven.sole.installed
  have hroot := installed.root
  have admits := installed.admits
  obtain ⟨writes, r, hstep, hhost, hwritten⟩ := q.exists_step
  have keeps {t : String} (idle : Idle ns ps t) : r.get t = q.get t :=
    Playback.get_step_of_not_reached hstep (driven.sole.reaches_eq_false idle)
  have follows {t : String} {v : Rat}
      (drives : Paths.Drives q.host t ((motion ns host hidden ps).paths q.get) v) : r.get t = v :=
    (hwritten t v (installed.drives_of_motion (driven.sole.undriven t) drives)).2
  refine ⟨writes, r, hstep, ?driven, ?raw, ?smoothed⟩
  case driven =>
    exact {
      sole := hhost ▸ driven.sole
      blendSet := (keeps (.blendSet hroot admits)).trans driven.blendSet
      selector := (keeps (.selectorChannel plain.selector)).trans driven.selector
      coefficient := (keeps (.coefficient hroot admits o p.name)).trans driven.coefficient
      feed := by
        rw [← driven.feed]
        exact feed_congr hroot (fun n hn => keeps (.of_carriesBit plain.generated hn))
          fun hcontinuous => keeps (.of_continuous hroot admits hp hcontinuous) }
  case raw =>
    rw [← driven.feed, Simulation.feed]
    split
    · next hquantized =>
      exact follows (drives_motion_raw installed.plays hroot admits driven.blendSet hp hquantized)
    · next hcontinuous =>
      exact keeps (.of_continuous hroot admits hp (Bool.eq_false_iff.mpr hcontinuous))
  case smoothed =>
    rw [follows (drives_motion installed.plays hroot admits driven.blendSet hp)]
    apply Filter.output_of_selector driven.selector _ (p.smoothness_bounds (admits.sound p hp) o)
    cases o <;> exact driven.coefficient

/-- The frames after the first one are those of the playback behind it. -/
theorem frames_succ {name : String} {r : Playback Rat} {writes : Table Rat} {n : Nat}
    {f g : Nat → Frame Rat} (hstep : q.step = .ok (writes, r))
    (hfirst : f 0 = ⟨r.get name, r.get (ns.proxy name)⟩) (hlater : ∀ i, f (i + 1) = g i)
    (hrest : frames ns name r n = ((List.range n).map g, none)) :
    frames ns name q (n + 1) = ((List.range (n + 1)).map f, none) := by
  have hmap : (List.range (n + 1)).map f = f 0 :: (List.range n).map g := by
    rw [List.range_succ_eq_map, List.map_cons, List.map_map]
    congr 1
    exact List.map_congr_left fun i _ => hlater i
  rw [frames, hstep, hmap, hfirst]
  dsimp only
  rw [hrest]

/-- Once the raw value is there, the smoothed one approaches it by the coefficient in each frame. -/
theorem Driven.frames (driven : Driven ns host hidden ps p o x q) (plain : Plain ns ps)
    (hp : p ∈ ps) (hraw : q.get p.name = x) (hsmoothed : q.get (ns.proxy p.name) = y)
    (hy : -1 ≤ y ∧ y ≤ 1) (n : Nat) : frames ns p.name q n
      = ((List.range n).map fun i =>
          ⟨x, clamp (-1) 1 x + p.smoothness o ^ (i + 1) * (y - clamp (-1) 1 x)⟩, none) := by
  have hx := clamp_bounds (by norm_num : (-1 : Rat) ≤ 1) x
  have hk := p.smoothness_bounds (driven.sole.installed.admits.sound p hp) o
  -- the bounds are carried along, so that no frame cuts off the smoothed value
  induction n generalizing q y with
  | zero => rfl
  | succ n ih =>
    obtain ⟨writes, r, hstep, hdriven, hraw', hnext⟩ := driven.step plain hp
    rw [hraw, hsmoothed, clamp_eq_self hy.1 hy.2] at hnext
    refine frames_succ hstep ?first ?later (ih hdriven hraw' hnext (mixture_bounds hk hx hy))
    case first =>
      rw [hraw', hnext, Frame.mk.injEq]
      exact ⟨rfl, by ring⟩
    case later =>
      intro i
      rw [Frame.mk.injEq]
      exact ⟨rfl, by ring⟩

end

/-! ### Starts -/

/-- The value that the channel of a bit or a sign is set to. -/
def digit (m : Nat) (negative : Bool) : Role → Rat
  | .bit i => level (m.testBit i)
  | .sign => level negative
  | _ => 0

/-- What sets the bits of a parameter to a pattern, and its sign if it has one. -/
def patternSettings (ns : Namespace) (hidden : Bool) (p : Parameter Rat) (m : Nat)
    (negative : Bool) : List (String × Rat) :=
  (List.range p.bits).map (fun i => (Decoder.given hidden (ns.bit p.name i), level (m.testBit i)))
    ++ if p.signBit then [(Decoder.given hidden (ns.sign p.name), level negative)] else []

section

variable {s : Setup Rat} {d : Drive Rat} {p : Parameter Rat} {m : Nat} {v : Rat}

theorem settings_of_pattern (hquantized : p.isQuantized = true) (hpattern : d.pattern = some m)
    (hm : m < 2 ^ p.bits) (hsign : d.negative = true → p.signBit = true) :
    settings s p d = .ok (patternSettings s.names s.hideBits p m d.negative) := by
  have hwidth : ¬Nat.pow 2 p.bits ≤ m := Nat.not_le.mpr hm
  have hsigned : ¬(d.negative && !p.signBit) = true := by
    simpa using hsign
  rw [settings, if_pos hquantized, hpattern]
  dsimp only
  rw [if_neg hwidth, if_neg hsigned]
  rfl

theorem settings_of_input (hcontinuous : p.isQuantized = false) (hinput : d.input = some v) :
    settings s p d = .ok [(p.name, v)] := by
  rw [settings, if_neg (Bool.eq_false_iff.mp hcontinuous), hinput]

end

section

variable {ns : Namespace} {hidden : Bool} {p : Parameter Rat} {m : Nat} {negative : Bool}

theorem mem_patternSettings_iff (hquantized : p.isQuantized = true) {w : String × Rat} :
    w ∈ patternSettings ns hidden p m negative ↔ ∃ r : Role, r.isTransmitted = true ∧ r.Has p ∧
      w = (Decoder.given hidden (r.plainName ns p.name), digit m negative r) := by
  rw [patternSettings, List.mem_append, List.mem_map]
  constructor
  · rintro (⟨i, hi, rfl⟩ | hw)
    · exact ⟨.bit i, rfl, List.mem_range.mp hi, rfl⟩
    · split at hw
      · next hsign => exact ⟨.sign, rfl, ⟨hquantized, hsign⟩, List.mem_singleton.mp hw⟩
      · cases hw
  · rintro ⟨r, hr, hp, rfl⟩
    cases r with
    | bit i => exact .inl ⟨i, List.mem_range.mpr hp, rfl⟩
    | sign =>
      right
      rw [if_pos hp.2]
      exact List.mem_singleton_self _
    | _ => cases hr

theorem carriesBit_of_mem_patternSettings (hroot : ns.root ≠ "") {w : String × Rat}
    (hw : w ∈ patternSettings ns hidden p m negative) : ns.carriesBit w.1 = true := by
  rw [patternSettings, List.mem_append, List.mem_map] at hw
  rcases hw with ⟨i, -, rfl⟩ | hw
  · exact carriesBit_given hroot hidden _
  · split at hw
    · rw [List.mem_singleton.mp hw]
      exact carriesBit_given hroot hidden _
    · cases hw

/-- One parameter has a channel of its own for each bit and for the sign. -/
theorem role_eq_of_given_eq (hroot : ns.root ≠ "") (hbits : p.bits ≤ maxBits) {r r' : Role}
    (hr : r ≠ .raw) (hr' : r' ≠ .raw) (hp : r.Has p) (hp' : r'.Has p)
    (h : Decoder.given hidden (r.plainName ns p.name)
      = Decoder.given hidden (r'.plainName ns p.name)) : r = r' := by
  have hplain := plainName_eq_of_given_eq hroot hr hr' h
  rcases Role.plainName_inj hr hr' hp hp' hbits hbits hplain with ⟨-, hrole⟩ | hover | hover
  · exact hrole
  · exact absurd rfl hover.ne
  · exact absurd rfl hover.ne

theorem carries_patternSettings (hroot : ns.root ≠ "") (hbits : p.bits ≤ maxBits)
    (hquantized : p.isQuantized = true) (hsign : negative = true → p.signBit = true)
    (q : Playback Rat) : Decoder.Carries ((patternSettings ns hidden p m negative).foldl
      (fun q w => q.set w.1 w.2) q).get ns hidden p m negative := by
  have hne {r : Role} (hr : r.isTransmitted = true) : r ≠ .raw := by
    rintro rfl
    cases hr
  have hget (r : Role) (hr : r.isTransmitted = true) (hp : r.Has p) :
      ((patternSettings ns hidden p m negative).foldl (fun q w => q.set w.1 w.2) q).get
        (Decoder.given hidden (r.plainName ns p.name)) = digit m negative r := by
    apply Playback.get_foldl_set_eq
    · intro w hw hname
      obtain ⟨r', hr', hp', rfl⟩ := (mem_patternSettings_iff hquantized).mp hw
      rw [role_eq_of_given_eq hroot hbits (hne hr') (hne hr) hp' hp hname]
    · exact .inl (List.mem_map_of_mem ((mem_patternSettings_iff hquantized).mpr ⟨r, hr, hp, rfl⟩))
  exact {
    bits := fun i hi => hget (.bit i) rfl hi
    sign := fun hsigned => hget .sign rfl ⟨hquantized, hsigned⟩
    unsigned := fun hunsigned => by
      cases negative with
      | false => rfl
      | true => rw [hsign rfl] at hunsigned; cases hunsigned }

end

/-- The part of full scale that a pattern of bits stands for. -/
def part (bits m : Nat) (negative : Bool) : Rat :=
  (if negative then -1 else 1) * (m / (2 ^ bits - 1))

theorem part_bounds {bits m : Nat} (hm : m < 2 ^ bits) (negative : Bool) :
    -1 ≤ part bits m negative ∧ part bits m negative ≤ 1 := by
  have hle : (m : Rat) ≤ 2 ^ bits - 1 := by
    have hcast : ((m + 1 : Nat) : Rat) ≤ ((2 ^ bits : Nat) : Rat) := Nat.cast_le.mpr hm
    push_cast at hcast
    linarith
  have hpos : (0 : Rat) ≤ 2 ^ bits - 1 := (Nat.cast_nonneg m).trans hle
  have hlow : (0 : Rat) ≤ m / (2 ^ bits - 1) := div_nonneg (Nat.cast_nonneg m) hpos
  have hhigh : (m : Rat) / (2 ^ bits - 1) ≤ 1 := div_le_one_of_le₀ hle hpos
  cases negative with
  | false =>
    simp only [part, Bool.false_eq_true, if_false, one_mul]
    exact ⟨by linarith, hhigh⟩
  | true =>
    simp only [part, if_true]
    constructor <;> linarith

/-- The playback of a setup once its settings are made. -/
theorem start_eq {s : Setup Rat} {p : Parameter Rat} {h h' : Host Rat} {d : Drive Rat}
    {r : CompileReport} {ws : List (String × Rat)}
    (hc : compile h s.parameters
      (s.compileOptions (availableCapacity h s.parameters s.names)) = .ok (h', r))
    (hsettings : settings s p d = .ok ws) : start s p h d
      = .ok (ws.foldl (fun q w => q.set w.1 w.2)
        ((Playback.start h').set Namespace.selectorChannel d.observer.threshold)) := by
  rw [start]
  simp only [hc, hsettings]
  rfl

section

variable {id : String} {o : CompileOptions} {ps : List (Parameter Rat)} {cs : List (Clip Rat)}
  {p : Parameter Rat} {s : Observer} {m : Nat} {negative : Bool} {x : Rat}
  {ws : List (String × Rat)} {q : Playback Rat}

/-- The channels that a simulation sets are that of the parameter and bits. Nothing else is moved
from its default but the selector. -/
theorem get_settings (hws : ∀ w ∈ ws, w.1 = p.name ∨ o.names.carriesBit w.1 = true) {t : String}
    (hraw : p.name ≠ t) (hbit : o.names.carriesBit t = false) (q : Playback Rat) :
    (ws.foldl (fun q w => q.set w.1 w.2) q).get t = q.get t := by
  apply Playback.get_foldl_set_of_ne
  rintro w hw rfl
  rcases hws w hw with hname | hcarries
  · exact hraw hname.symm
  · rw [hbit] at hcarries
    cases hcarries

variable (hroot : o.names.root ≠ "") (admits : Admits o.names ps)
  (hcs : HeldClip.recordAll? (heldClips o.names id o.hideBits ps) = .ok cs)
  (hnodup : (ps.map fun p => ClipName.withoutSeparators p.name).Nodup)
  (plain : Plain o.names ps) (hp : p ∈ ps)

include hroot admits hcs hnodup plain hp

/-- A simulation starts with the parameter driven, and with zero as the smoothed value. -/
theorem driven_start (hws : ∀ w ∈ ws, w.1 = p.name ∨ o.names.carriesBit w.1 = true)
    (hq : q = ws.foldl (fun q w => q.set w.1 w.2)
      ((Playback.start (outcome (.empty id) ps o cs).1).set Namespace.selectorChannel s.threshold))
    (hfeed : feed o.names o.hideBits p q = x) :
    Driven o.names id o.hideBits ps p s x q ∧ q.get (o.names.proxy p.name) = 0 := by
  have hget {t : String} (hraw : p.name ≠ t) (hbit : o.names.carriesBit t = false)
      (hselector : Namespace.selectorChannel ≠ t) :
      q.get t = (Playback.start (outcome (.empty id) ps o cs).1).get t := by
    rw [hq, get_settings hws hraw hbit, Playback.get_set, if_neg hselector.symm]
  have htagged {segment rest : String} : p.name ≠ o.names.channel segment rest :=
    admits.name_ne hp (Namespace.tags_channel hroot ..)
  refine ⟨?driven, ?smoothed⟩
  case driven =>
    exact {
      sole := by
        rw [hq, Playback.host_foldl_set]
        exact sole_outcome hroot admits hcs hnodup
      blendSet := (hget (admits.name_ne hp (Namespace.tags_blendSet hroot))
        (Namespace.carriesBit_blendSet _)
        (Namespace.selectorChannel_ne (Namespace.slash_mem_blendSet _))).trans
          (get_start_blendSet hroot admits)
      selector := by
        rw [hq, get_settings hws (plain.selector p hp) (Namespace.carriesBit_selectorChannel _),
          Playback.get_set, if_pos rfl]
      coefficient := (hget htagged (Namespace.carriesBit_coefficient ..)
        (Namespace.selectorChannel_ne (Namespace.slash_mem_channel ..))).trans
          (get_start_coefficient hroot admits hp s)
      feed := hfeed }
  case smoothed =>
    exact (hget htagged (Namespace.carriesBit_proxy ..)
      (Namespace.selectorChannel_ne (Namespace.slash_mem_channel ..))).trans
        (get_start_zeroed hroot admits (Namespace.zeroed_proxy ..))

/-- Bits drive a parameter to a part of full scale, which is not there before the first frame. -/
theorem driven_of_pattern (hquantized : p.isQuantized = true) (hm : m < 2 ^ p.bits)
    (hsign : negative = true → p.signBit = true)
    (hq : q = (patternSettings o.names o.hideBits p m negative).foldl
      (fun q w => q.set w.1 w.2)
      ((Playback.start (outcome (.empty id) ps o cs).1).set Namespace.selectorChannel
        s.threshold)) :
    Driven o.names id o.hideBits ps p s (part p.bits m negative) q ∧ q.get p.name = 0 ∧
      q.get (o.names.proxy p.name) = 0 := by
  have hbits : ∀ w ∈ patternSettings o.names o.hideBits p m negative,
      o.names.carriesBit w.1 = true := fun w hw => carriesBit_of_mem_patternSettings hroot hw
  have hfeed : feed o.names o.hideBits p q = part p.bits m negative := by
    have carries : Decoder.Carries q.get o.names o.hideBits p m negative :=
      hq ▸ carries_patternSettings hroot (bits_le_of_fault? (admits.sound p hp)) hquantized hsign _
    rw [feed, if_pos hquantized, carries.output_eq hm, part]
  have hraw : q.get p.name = 0 := by
    have hne : ∀ w ∈ patternSettings o.names o.hideBits p m negative, w.1 ≠ p.name := by
      intro w hw hname
      have hgenerates := Namespace.generates_of_carriesBit (hbits w hw)
      rw [hname, plain.generated p hp] at hgenerates
      cases hgenerates
    rw [hq, Playback.get_foldl_set_of_ne hne, Playback.get_set, if_neg (plain.selector p hp),
      get_start_zeroed hroot admits (.of_untagged hroot (admits.untagged p hp))]
  obtain ⟨hdriven, hsmoothed⟩ := driven_start hroot admits hcs hnodup plain hp
    (fun w hw => .inr (hbits w hw)) hq hfeed
  exact ⟨hdriven, hraw, hsmoothed⟩

/-- A value drives a parameter that is not decoded. -/
theorem driven_of_input (hcontinuous : p.isQuantized = false)
    (hq : q = [(p.name, x)].foldl (fun q w => q.set w.1 w.2)
      ((Playback.start (outcome (.empty id) ps o cs).1).set Namespace.selectorChannel
        s.threshold)) :
    Driven o.names id o.hideBits ps p s x q ∧ q.get p.name = x ∧
      q.get (o.names.proxy p.name) = 0 := by
  have hraw : q.get p.name = x := by
    rw [hq, List.foldl_cons, List.foldl_nil, Playback.get_set, if_pos rfl]
  have hfeed : feed o.names o.hideBits p q = x := by
    rw [feed, if_neg (Bool.eq_false_iff.mp hcontinuous), hraw]
  obtain ⟨hdriven, hsmoothed⟩ := driven_start hroot admits hcs hnodup plain hp
    (List.forall_mem_singleton.mpr (.inl rfl)) hq hfeed
  exact ⟨hdriven, hraw, hsmoothed⟩

end

/-! ### Whole simulations -/

section

variable {ns : Namespace} {host : String} {hidden : Bool} {ps : List (Parameter Rat)}
  {p : Parameter Rat} {s : Observer} {x : Rat} {q : Playback Rat}

/-- A decoder is one frame late: the first frame smooths the zero from before it. -/
theorem Driven.frames_of_zero (driven : Driven ns host hidden ps p s x q)
    (plain : Plain ns ps) (hp : p ∈ ps) (hx : -1 ≤ x ∧ x ≤ 1) (hraw : q.get p.name = 0)
    (hsmoothed : q.get (ns.proxy p.name) = 0) (n : Nat) : Simulation.frames ns p.name q n
      = ((List.range n).map fun i => ⟨x, x * (1 - p.smoothness s ^ i)⟩, none) := by
  cases n with
  | zero => rfl
  | succ n =>
    obtain ⟨writes, r, hstep, hdriven, hraw', hnext⟩ := driven.step plain hp
    have hzero : clamp (-1) 1 0 = 0 := clamp_eq_self (by norm_num) zero_le_one
    rw [hraw, hsmoothed, hzero, mul_zero, mul_zero, add_zero] at hnext
    refine frames_succ hstep ?first ?later
      (hdriven.frames plain hp hraw' hnext ⟨by norm_num, zero_le_one⟩ n)
    case first => rw [hraw', hnext, pow_zero, sub_self, mul_zero]
    case later =>
      intro i
      rw [clamp_eq_self hx.1 hx.2, Frame.mk.injEq]
      exact ⟨rfl, by ring⟩

/-- A value that is set is smoothed from the first frame on. -/
theorem Driven.frames_of_set (driven : Driven ns host hidden ps p s x q)
    (plain : Plain ns ps) (hp : p ∈ ps) (hraw : q.get p.name = x)
    (hsmoothed : q.get (ns.proxy p.name) = 0) (n : Nat) :
    Simulation.frames ns p.name q n = ((List.range n).map fun i =>
      ⟨x, clamp (-1) 1 x * (1 - p.smoothness s ^ (i + 1))⟩, none) := by
  rw [driven.frames plain hp hraw hsmoothed ⟨by norm_num, zero_le_one⟩]
  simp only [Prod.mk.injEq, and_true]
  apply List.map_congr_left
  intro i _
  rw [Frame.mk.injEq]
  exact ⟨rfl, by ring⟩

end

/-- A setup whose parameters keep distinct names without separators, none of them called like a
channel that is generated or like the selector, is simulated in a host without anything in it. A
parameter with bits shows from the first frame on the part of full scale that its pattern stands
for, and any other parameter the value that it is set to. The smoothed value starts at zero and
approaches the raw one, within the bounds, by the coefficient of the observer in each frame, one
frame later if the parameter is decoded. -/
theorem frames_approach {s : Setup Rat} {p : Parameter Rat} {d : Drive Rat} {name : String}
    {h' : Host Rat} {r : CompileReport}
    (hc : compile (.empty Command.simulationHost) s.parameters (s.compileOptions
      (availableCapacity (.empty Command.simulationHost) s.parameters s.names)) = .ok (h', r))
    (hnodup : (s.parameters.map fun q => ClipName.withoutSeparators q.name).Nodup)
    (hplain : ∀ q ∈ s.parameters,
      q.name ≠ Namespace.selectorChannel ∧ s.names.generates q.name = false)
    (hp : s.parameter name = .ok p) (n : Nat) :
    (∀ m, p.isQuantized = true → d.pattern = some m → m < 2 ^ p.bits →
      (d.negative = true → p.signBit = true) →
      ∃ q, start s p (.empty Command.simulationHost) d = .ok q ∧
        frames s.names p.name q n = ((List.range n).map fun i =>
          ⟨part p.bits m d.negative,
            part p.bits m d.negative * (1 - p.smoothness d.observer ^ i)⟩, none)) ∧
    ∀ v, p.isQuantized = false → d.input = some v →
      ∃ q, start s p (.empty Command.simulationHost) d = .ok q ∧
        frames s.names p.name q n = ((List.range n).map fun i =>
          ⟨v, clamp (-1) 1 v * (1 - p.smoothness d.observer ^ (i + 1))⟩, none) := by
  have hmem := Setup.mem_of_parameter hp
  have plain : Plain s.names s.parameters :=
    ⟨fun q hq => (hplain q hq).1, fun q hq => (hplain q hq).2⟩
  obtain ⟨b, cs, hv, hcs, rfl, -⟩ := compile_ok_iff.mp hc
  have hroot : s.names.root ≠ "" := root_ne_of_validate hv
  have admits : Admits s.names s.parameters := admits_of_validate hv
  refine ⟨fun m hquantized hpattern hm hsign => ?decoded, fun v hcontinuous hinput => ?set⟩
  case decoded =>
    obtain ⟨driven, hraw, hsmoothed⟩ :=
      driven_of_pattern hroot admits hcs hnodup plain hmem hquantized hm hsign rfl
    exact ⟨_, start_eq hc (settings_of_pattern hquantized hpattern hm hsign),
      driven.frames_of_zero plain hmem (part_bounds hm d.negative) hraw hsmoothed n⟩
  case set =>
    obtain ⟨driven, hraw, hsmoothed⟩ :=
      driven_of_input hroot admits hcs hnodup plain hmem hcontinuous rfl
    exact ⟨_, start_eq hc (settings_of_input hcontinuous hinput),
      driven.frames_of_set plain hmem hraw hsmoothed n⟩

end Simulation

/-- A setup over the rationals whose bits are hidden. -/
def Sample.maskedSetup : Setup Rat where
  name := "Face"
  description := none
  root := "OSCm"
  hideBits := true
  capacity := none
  parameters := Sample.signedParameters

theorem Simulation.frames_approach_sample :
    (∃ q, start Sample.maskedSetup ((Parameter.ofName "Jaw").withBits 2 true)
        (.empty Command.simulationHost) ⟨.owner, none, some 2, true⟩ = .ok q ∧
      frames ⟨"OSCm"⟩ "Jaw" q 3
        = ([⟨-(2 / 3), 0⟩, ⟨-(2 / 3), -(1 / 3)⟩, ⟨-(2 / 3), -(1 / 2)⟩], none)) ∧
    ∃ q, start Sample.maskedSetup (Parameter.ofName "Mouth/Lips")
        (.empty Command.simulationHost) ⟨.remote, some 2, none, false⟩ = .ok q ∧
      frames ⟨"OSCm"⟩ "Mouth/Lips" q 2 = ([⟨2, 3 / 10⟩, ⟨2, 51 / 100⟩], none) := by
  have hok : (Compile.compile (.empty Command.simulationHost) Sample.maskedSetup.parameters
      (Sample.maskedSetup.compileOptions (Compile.availableCapacity
        (.empty Command.simulationHost) Sample.maskedSetup.parameters
        Sample.maskedSetup.names))).isOk = true := by
    decide +kernel
  have hnodup : (Sample.maskedSetup.parameters.map fun q =>
      ClipName.withoutSeparators q.name).Nodup := by
    decide +kernel
  have hplain : ∀ q ∈ Sample.maskedSetup.parameters, q.name ≠ Namespace.selectorChannel ∧
      Sample.maskedSetup.names.generates q.name = false := by
    decide +kernel
  have hjaw : Sample.maskedSetup.parameter "Jaw"
      = .ok ((Parameter.ofName "Jaw").withBits 2 true) := rfl
  have hmouth : Sample.maskedSetup.parameter "Mouth/Lips"
      = .ok (Parameter.ofName "Mouth/Lips") := rfl
  have howner : ((Parameter.ofName "Jaw").withBits 2 true : Parameter Rat).smoothness .owner
      = 1 / 2 := by
    decide +kernel
  have hremote : (Parameter.ofName "Mouth/Lips" : Parameter Rat).smoothness .remote = 7 / 10 := by
    decide +kernel
  have hbits : ((Parameter.ofName "Jaw").withBits 2 true : Parameter Rat).bits = 2 := rfl
  obtain ⟨⟨h', r⟩, hc⟩ := exists_of_isOk hok
  constructor
  · obtain ⟨q, hstart, hframes⟩ := (frames_approach (d := ⟨.owner, none, some 2, true⟩)
      hc hnodup hplain hjaw 3).1 2 rfl rfl (by decide) fun _ => rfl
    refine ⟨q, hstart, hframes.trans ?_⟩
    rw [howner, hbits]
    norm_num [List.range_succ, part]
  · obtain ⟨q, hstart, hframes⟩ := (frames_approach (d := ⟨.remote, some 2, none, false⟩)
      hc hnodup hplain hmouth 2).2 2 rfl rfl
    refine ⟨q, hstart, hframes.trans ?_⟩
    have hclamp : clamp (-1) 1 2 = 1 := clamp_of_high_le (by norm_num) (by norm_num)
    rw [hremote, hclamp]
    norm_num [List.range_succ]

end BlendGraph
