import BlendGraph.Proofs.Playback.InstalledLayers

/-!
# The low-pass filter

Over the rationals a frame writes to each smoothed channel a mixture of the raw value and of the
smoothed value from before the frame, with the coefficient of the observer as the part of the
latter. So the smoothed value approaches a raw value that is held, by the coefficient in each frame.
-/

set_option autoImplicit false

namespace BlendGraph

/-- A blend between minus one and one along a number is the number, within these bounds. -/
theorem blend_clamp (x : Rat) : (1 - clamp 0 1 ((x - -1) / (1 - -1))) * -1
    + clamp 0 1 ((x - -1) / (1 - -1)) * 1 = clamp (-1) 1 x := by
  rcases le_total x (-1) with hlow | hlow
  · rw [clamp_of_le_low hlow, clamp_of_le_low (by linarith)]
    norm_num
  · rcases le_total 1 x with hhigh | hhigh
    · rw [clamp_of_high_le (by norm_num) hhigh, clamp_of_high_le zero_le_one (by linarith)]
      norm_num
    · rw [clamp_eq_self hlow hhigh, clamp_eq_self (by linarith) (by linarith)]
      ring

/-- A mixture lies within the bounds of its parts. -/
theorem mixture_bounds {low high k x y : Rat} (hk : 0 ≤ k ∧ k ≤ 1) (hx : low ≤ x ∧ x ≤ high)
    (hy : low ≤ y ∧ y ≤ high) : low ≤ (1 - k) * x + k * y ∧ (1 - k) * x + k * y ≤ high := by
  have hrest : 0 ≤ 1 - k := sub_nonneg.mpr hk.2
  constructor
  · calc low = (1 - k) * low + k * low := by ring
      _ ≤ (1 - k) * x + k * y := by
        apply add_le_add
        · exact mul_le_mul_of_nonneg_left hx.1 hrest
        · exact mul_le_mul_of_nonneg_left hy.1 hk.1
  · calc (1 - k) * x + k * y ≤ (1 - k) * high + k * high := by
          apply add_le_add
          · exact mul_le_mul_of_nonneg_left hx.2 hrest
          · exact mul_le_mul_of_nonneg_left hy.2 hk.1
      _ = high := by ring

/-! ### Filters -/

namespace Filter

/-- What the filter of an observer makes of the raw value and of the smoothed one. -/
def response (value : String → Rat) (c : FilterChannels) (o : Observer) : Rat :=
  (1 - clamp 0 1 (value (c.coefficient o))) * clamp (-1) 1 (value c.raw)
    + clamp 0 1 (value (c.coefficient o)) * clamp (-1) 1 (value c.proxy)

/-- What the filters of both observers make of them, selected by the channel of the host. -/
def output (value : String → Rat) (c : FilterChannels) : Rat :=
  (1 - clamp 0 1 (value Namespace.selectorChannel)) * response value c .remote
    + clamp 0 1 (value Namespace.selectorChannel) * response value c .owner

/-- One observer only is heard, through a coefficient between zero and one. -/
theorem output_of_selector {value : String → Rat} {c : FilterChannels} {o : Observer} {k : Rat}
    (hselector : value Namespace.selectorChannel = o.threshold)
    (hcoefficient : value (c.coefficient o) = k) (hk : 0 ≤ k ∧ k ≤ 1) :
    output value c = (1 - k) * clamp (-1) 1 (value c.raw) + k * clamp (-1) 1 (value c.proxy) := by
  have hresponse : response value c o
      = (1 - k) * clamp (-1) 1 (value c.raw) + k * clamp (-1) 1 (value c.proxy) := by
    rw [response, hcoefficient, clamp_eq_self hk.1 hk.2]
  rw [output, hselector, ← hresponse]
  cases o with
  | remote =>
    have hthreshold : clamp 0 1 (Observer.remote.threshold : Rat) = 0 :=
      clamp_of_le_low (le_refl 0)
    rw [hthreshold, sub_zero, one_mul, zero_mul, add_zero]
  | owner =>
    have hthreshold : clamp 0 1 (Observer.owner.threshold : Rat) = 1 :=
      clamp_of_high_le zero_le_one (le_refl 1)
    rw [hthreshold, sub_self, zero_mul, one_mul, zero_add]

section

variable {ns : Namespace} {host parameter : String} {c : FilterChannels} {h : Host Rat}
  {value : String → Rat}

/-- The clips of a filter are those that its leaves play. -/
def Plays (h : Host Rat) (host parameter proxy : String) : Prop :=
  ∀ d ∈ clipsOf (α := Rat) host parameter proxy, ∃ k, h.resolve? d.name = some k ∧ d.Records k

theorem drives_blend (plays : Plays h host parameter c.proxy) (name key : String) :
    Paths.Drives h c.proxy ((blend host parameter name key).paths value)
      (clamp (-1) 1 (value key)) := by
  obtain ⟨low, hlow, -, hlowTarget, hlowKeys⟩ := plays _ (List.mem_cons_self ..)
  obtain ⟨high, hhigh, -, hhighTarget, hhighKeys⟩ :=
    plays _ (List.mem_cons_of_mem _ (List.mem_singleton_self _))
  have hpair := Node.drives_pair (a := -1) (b := 1) (by norm_num) name key
    (Node.drives_leaf value hlow hlowTarget) (Node.drives_leaf value hhigh hhighTarget)
  rw [Curve.sample_zero hlowKeys, Curve.sample_zero hhighKeys] at hpair
  rw [blend, Node.withThreshold_pair LawfulScalar.neg_one_le_one, ← blend_clamp]
  exact hpair

theorem drives_tree (plays : Plays h host parameter c.proxy) (o : Observer) :
    Paths.Drives h c.proxy ((tree ns host parameter o c).paths value) (response value c o) := by
  rw [tree, response]
  apply Node.drives_unitPair
  · exact drives_blend plays (ns.filterInput parameter) c.raw
  · exact drives_blend plays (ns.filterDriver parameter) c.proxy

/-- The filters of another parameter spare the channel. -/
theorem spares_tree {t : String} (plays : Plays h host parameter c.proxy) (hne : c.proxy ≠ t)
    (o : Observer) : (tree (α := Rat) ns host parameter o c).Spares h t := by
  have hmem {d : HeldClip Rat} (hd : d ∈ leaves host parameter c.proxy) :
      d ∈ clipsOf host parameter c.proxy := (List.mem_append.mp hd).elim id id
  apply Node.Spares.of_clips (clips_tree ns host parameter o c)
  · exact fun d hd => plays d (hmem hd)
  · intro d hd htarget
    exact hne ((target_of_mem_clipsOf (hmem hd)).symm.trans htarget)

end

end Filter

/-! ### Generated layers -/

namespace Compile

variable {ns : Namespace} {host : String} {hidden : Bool} {ps : List (Parameter Rat)}
  {h : Host Rat} {value : String → Rat}

theorem Plays.filter (plays : Plays ns host hidden ps h) {p : Parameter Rat} (hp : p ∈ ps) :
    Filter.Plays h host p.name (Filter.channelsOf ns p.name).proxy :=
  fun d hd => plays d (mem_leaves hp hd)

theorem drives_sumTree (plays : Plays ns host hidden ps h) (hblend : value ns.blendSet = 1)
    (nodup : (ps.map Parameter.name).Nodup) {p : Parameter Rat} (hp : p ∈ ps) (o : Observer) :
    Paths.Drives h (ns.proxy p.name)
      ((Filter.sumTree ns host ns.blendSet (filters ns ps) o).paths value)
      (Filter.response value (Filter.channelsOf ns p.name) o) := by
  have hsum : Filter.sumTree ns host ns.blendSet (filters ns ps) o
      = .sum (ns.observerRoot o) (ps.map fun q =>
        (ns.blendSet, Filter.tree (α := Rat) ns host q.name o (Filter.channelsOf ns q.name))) := by
    rw [Filter.sumTree, Node.foldl_withWeight, filters]
    simp
  rw [hsum]
  apply Node.drives_sum hblend _ hp (.of_map _ nodup)
  · exact Filter.drives_tree (plays.filter hp) o
  · intro q hq hne
    apply Filter.spares_tree (plays.filter hq)
    intro heq
    apply hne
    apply List.inj_on_of_nodup_map nodup hq hp
    simpa [Filter.channelsOf, Namespace.proxy, Namespace.channel] using heq

theorem drives_rootTree (plays : Plays ns host hidden ps h) (hblend : value ns.blendSet = 1)
    (nodup : (ps.map Parameter.name).Nodup) {p : Parameter Rat} (hp : p ∈ ps) :
    Paths.Drives h (ns.proxy p.name)
      ((Filter.rootTree ns host ns.blendSet (filters ns ps)).paths value)
      (Filter.output value (Filter.channelsOf ns p.name)) := by
  have htree : (Filter.rootTree ns host ns.blendSet (filters ns ps) : Node Rat)
      = ((Node.interp ns.smootherRoot Namespace.selectorChannel []).withThreshold 0
          (Filter.sumTree ns host ns.blendSet (filters ns ps) .remote)).withThreshold 1
            (Filter.sumTree ns host ns.blendSet (filters ns ps) .owner) := rfl
  rw [htree, Filter.output]
  apply Node.drives_unitPair
  · exact drives_sumTree plays hblend nodup hp .remote
  · exact drives_sumTree plays hblend nodup hp .owner

/-- The motion of a generated layer drives the smoothed channel of each parameter. -/
theorem drives_motion (plays : Plays ns host hidden ps h) (hroot : ns.root ≠ "")
    (admits : Admits ns ps) (hblend : value ns.blendSet = 1) {p : Parameter Rat} (hp : p ∈ ps) :
    Paths.Drives h (ns.proxy p.name) ((motion ns host hidden ps).paths value)
      (Filter.output value (Filter.channelsOf ns p.name)) := by
  apply drives_motion_of_filters hblend (drives_rootTree plays hblend admits.nodup hp)
  intro clip hclip
  rw [decodersTree, Node.clips_sum, List.flatMap_map] at hclip
  obtain ⟨q, hq, hclip⟩ := List.mem_flatMap.mp hclip
  obtain ⟨hq, hquantized⟩ := List.mem_filter.mp hq
  have hne : q.name ≠ ns.proxy p.name := admits.name_ne hq (Namespace.tags_channel hroot ..)
  exact plays.spares_decoder hq hquantized hne clip hclip

/-- No first state beside the generated layer plays a clip for a smoothed channel of the list. -/
def Undisturbed (ns : Namespace) (ps : List (Parameter Rat)) (h : Host Rat) : Prop :=
  ∀ l ∈ h.layers, l.name ≠ ns.layer → ∀ motion ∈ l.states.head?.bind State.motion,
    ∀ p ∈ ps, motion.Spares h (ns.proxy p.name)

instance (ns : Namespace) (ps : List (Parameter Rat)) (h : Host Rat) :
    Decidable (Undisturbed ns ps h) :=
  inferInstanceAs (Decidable (∀ l ∈ h.layers, l.name ≠ ns.layer →
    ∀ motion ∈ l.states.head?.bind State.motion, ∀ p ∈ ps, motion.Spares h (ns.proxy p.name)))

theorem Undisturbed.undriven (undisturbed : Undisturbed ns ps h) {p : Parameter Rat} (hp : p ∈ ps) :
    Undriven ns (ns.proxy p.name) h :=
  fun l hl hname motion hmotion => undisturbed l hl hname motion hmotion p hp

namespace Installed

variable {q : Playback Rat}

/-- A frame writes the output of the filters. -/
theorem step (installed : Installed ns host hidden ps q.host)
    (undisturbed : Undisturbed ns ps q.host) (hblend : q.get ns.blendSet = 1) :
    ∃ writes r, q.step = .ok (writes, r) ∧ r.host = q.host ∧ ∀ p ∈ ps,
        writes.get? (ns.proxy p.name) = some (Filter.output q.get (Filter.channelsOf ns p.name)) ∧
        r.get (ns.proxy p.name) = Filter.output q.get (Filter.channelsOf ns p.name) := by
  obtain ⟨writes, r, hstep, hhost, hwrites⟩ := q.exists_step
  refine ⟨writes, r, hstep, hhost, fun p hp => hwrites _ _ ?_⟩
  apply installed.drives_of_motion (undisturbed.undriven hp)
  exact drives_motion installed.plays installed.root installed.admits hblend hp

end Installed

end Compile

/-! ### Frames -/

/-- One frame after another, between which the channel and the host are left alone. -/
def Playback.Follows (channel : String) (q q' : Playback Rat) : Prop :=
  ∃ writes r, q.step = .ok (writes, r) ∧ q'.host = r.host ∧ q'.get channel = r.get channel

/-- What one observer's filter reads before a frame, except for the smoothed value. -/
structure Filter.Steady (ns : Namespace) (c : FilterChannels) (o : Observer) (x k : Rat)
    (q : Playback Rat) : Prop where
  blendSet : q.get ns.blendSet = 1
  selector : q.get Namespace.selectorChannel = o.threshold
  raw : q.get c.raw = x
  coefficient : q.get (c.coefficient o) = k

instance (ns : Namespace) (c : FilterChannels) (o : Observer) (x k : Rat) (q : Playback Rat) :
    Decidable (Filter.Steady ns c o x k q) :=
  decidable_of_iff (q.get ns.blendSet = 1 ∧ q.get Namespace.selectorChannel = o.threshold
      ∧ q.get c.raw = x ∧ q.get (c.coefficient o) = k)
    ⟨fun h => ⟨h.1, h.2.1, h.2.2.1, h.2.2.2⟩, fun h => ⟨h.1, h.2, h.3, h.4⟩⟩

/-- Within the bounds nothing is cut off, and one observer only is heard. -/
theorem Filter.Steady.output_eq {ns : Namespace} {c : FilterChannels} {o : Observer} {x k : Rat}
    {q : Playback Rat} (steady : Steady ns c o x k q) (hx : -1 ≤ x ∧ x ≤ 1) (hk : 0 ≤ k ∧ k ≤ 1)
    (hproxy : -1 ≤ q.get c.proxy ∧ q.get c.proxy ≤ 1) :
    output q.get c = (1 - k) * x + k * q.get c.proxy := by
  rw [output_of_selector steady.selector steady.coefficient hk, steady.raw,
    clamp_eq_self hx.1 hx.2, clamp_eq_self hproxy.1 hproxy.2]

namespace Compile

/-- While its input is held, the smoothed value approaches it by the coefficient in each frame. -/
theorem Installed.frames {ns : Namespace} {host : String} {hidden : Bool}
    {ps : List (Parameter Rat)} {h : Host Rat} (installed : Installed ns host hidden ps h)
    (undisturbed : Undisturbed ns ps h) {p : Parameter Rat} (hp : p ∈ ps) {o : Observer}
    {x y k : Rat} (hx : -1 ≤ x ∧ x ≤ 1)
    (hy : -1 ≤ y ∧ y ≤ 1) (hk : 0 ≤ k ∧ k ≤ 1) {frames : Nat → Playback Rat} {n : Nat}
    (hhost : (frames 0).host = h) (hstart : (frames 0).get (ns.proxy p.name) = y)
    (steady : ∀ i < n, Filter.Steady ns (Filter.channelsOf ns p.name) o x k (frames i))
    (follows : ∀ i < n, Playback.Follows (ns.proxy p.name) (frames i) (frames (i + 1))) :
    (frames n).get (ns.proxy p.name) = x + k ^ n * (y - x) ∧
      (frames n).host = h ∧
      -1 ≤ (frames n).get (ns.proxy p.name) ∧ (frames n).get (ns.proxy p.name) ≤ 1 := by
  -- the bounds are carried along, so that the next frame cuts nothing off
  induction n with
  | zero =>
    rw [hstart, pow_zero, one_mul]
    exact ⟨by ring, hhost, hy⟩
  | succ n ih =>
    obtain ⟨hvalue, hsame, hbounds⟩ := ih (fun i hi => steady i (Nat.lt_succ_of_lt hi))
      (fun i hi => follows i (Nat.lt_succ_of_lt hi))
    have hsteady := steady n (Nat.lt_succ_self n)
    obtain ⟨writes, r, hstep, hhostNext, hget⟩ := follows n (Nat.lt_succ_self n)
    obtain ⟨writes', r', hstep', hkeep, hwritten⟩ := Installed.step (q := frames n)
      (hsame ▸ installed) (hsame ▸ undisturbed) hsteady.blendSet
    obtain ⟨rfl, rfl⟩ : writes' = writes ∧ r' = r := by
      simpa using hstep'.symm.trans hstep
    have hnext : (frames (n + 1)).get (ns.proxy p.name)
        = (1 - k) * x + k * (frames n).get (ns.proxy p.name) := by
      rw [hget, (hwritten p hp).2]
      exact hsteady.output_eq hx hk hbounds
    refine ⟨?_, hhostNext.trans (hkeep.trans hsame), ?_⟩
    · rw [hnext, hvalue, pow_succ]
      ring
    · rw [hnext]
      exact mixture_bounds hk hx hbounds

/-- Every list that passes the checks compiles. Unless two of its parameters have the same name
without separators, or a layer beside the generated one plays a clip for a smoothed channel, each
frame writes the filtered value of every parameter, and an input that is held is approached by the
coefficient. -/
theorem lowPass {h : Host Rat} {ps : List (Parameter Rat)} {o : CompileOptions} {b : Budget}
    (hv : validate ps o = .ok b)
    (hnodup : (ps.map fun p => ClipName.withoutSeparators p.name).Nodup) :
    ∃ h' r, compile h ps o = .ok (h', r) ∧ (Undisturbed o.names ps h' →
      (∀ q : Playback Rat, q.host = h' → q.get o.names.blendSet = 1 →
        ∃ writes q', q.step = .ok (writes, q') ∧ ∀ p ∈ ps,
          writes.get? (o.names.proxy p.name)
            = some (Filter.output q.get (Filter.channelsOf o.names p.name)) ∧
          q'.get (o.names.proxy p.name)
            = Filter.output q.get (Filter.channelsOf o.names p.name)) ∧
      ∀ p ∈ ps, ∀ (s : Observer) (x y k : Rat) (frames : Nat → Playback Rat) (n : Nat),
        (-1 ≤ x ∧ x ≤ 1) → (-1 ≤ y ∧ y ≤ 1) → (0 ≤ k ∧ k ≤ 1) → (frames 0).host = h' →
        (frames 0).get (o.names.proxy p.name) = y →
        (∀ i < n, Filter.Steady o.names (Filter.channelsOf o.names p.name) s x k (frames i)) →
        (∀ i < n, Playback.Follows (o.names.proxy p.name) (frames i) (frames (i + 1))) →
        (frames n).get (o.names.proxy p.name) = x + k ^ n * (y - x)) := by
  have hroot := root_ne_of_validate hv
  have admits := admits_of_validate hv
  obtain ⟨cs, r, hcs, hc⟩ := exists_compile (h := h) hv
  have installed := installed_outcome hroot admits hcs hnodup
  refine ⟨_, r, hc, fun undisturbed => ⟨?_, ?_⟩⟩
  · intro q hq hblend
    obtain ⟨writes, q', hstep, -, hwritten⟩ := Installed.step (q := q) (hq ▸ installed)
      (hq ▸ undisturbed) hblend
    exact ⟨writes, q', hstep, hwritten⟩
  · intro p hp s x y k frames n hx hy hk hhost hstart steady follows
    exact (installed.frames undisturbed hp hx hy hk hhost hstart steady follows).1

end Compile

/-- In a playback that is stepped and left alone, frame follows frame. -/
theorem Playback.follows_trace (p : Playback Rat) (channel : String) (n : Nat) :
    Follows channel (p.trace channel n).2 (p.trace channel (n + 1)).2 := by
  induction n generalizing p with
  | zero =>
    obtain ⟨writes, r, hstep, -⟩ := p.step_eq
    refine ⟨writes, r, hstep, ?_, ?_⟩ <;> rw [trace, hstep] <;> rfl
  | succ n ih =>
    obtain ⟨writes, r, hstep, -⟩ := p.step_eq
    rw [trace, hstep, trace, hstep]
    exact ih r

namespace Sample

/-- Two parameters over the rationals, one of them quantized. -/
def exactParameters : List (Parameter Rat) :=
  [(Parameter.ofName "Jaw").withBits 1 false, Parameter.ofName "Mouth/Lips"]

/-- The frames of a host in which the second parameter is held at one half. -/
def exactFrames (h : Host Rat) (i : Nat) : Playback Rat :=
  (((Playback.start h).set "Mouth/Lips" (1 / 2)).trace "OSCm/Proxy/Mouth/Lips" i).2

end Sample

theorem Compile.lowPass_sample : ∃ h' r,
    compile Sample.exactHost Sample.exactParameters Sample.options = .ok (h', r) ∧
    (∃ writes q, (Sample.exactFrames h' 0).step = .ok (writes, q) ∧
      writes.get? "OSCm/Proxy/Mouth/Lips" = some (Filter.output (Sample.exactFrames h' 0).get
        (Filter.channelsOf ⟨"OSCm"⟩ "Mouth/Lips"))) ∧
    (Sample.exactFrames h' 2).get "OSCm/Proxy/Mouth/Lips"
      = 1 / 2 + (7 / 10) ^ 2 * (0 - 1 / 2) := by
  have hok : (validate Sample.exactParameters Sample.options).isOk = true := by decide +kernel
  have hnodup : (Sample.exactParameters.map fun p => ClipName.withoutSeparators p.name).Nodup := by
    decide +kernel
  have hlips : Parameter.ofName "Mouth/Lips" ∈ Sample.exactParameters :=
    List.mem_cons_of_mem _ (List.mem_singleton_self _)
  have hsample : ∀ x ∈ (compile Sample.exactHost Sample.exactParameters Sample.options).toOption,
      Undisturbed ⟨"OSCm"⟩ Sample.exactParameters x.1 ∧
      (Sample.exactFrames x.1 0).get "OSCm/Proxy/Mouth/Lips" = 0 ∧
      ∀ i < 2, Filter.Steady ⟨"OSCm"⟩ (Filter.channelsOf ⟨"OSCm"⟩ "Mouth/Lips") .remote (1 / 2)
        (7 / 10) (Sample.exactFrames x.1 i) := by
    decide +kernel
  cases hv : validate Sample.exactParameters Sample.options with
  | error e => rw [hv] at hok; cases hok
  | ok b =>
    obtain ⟨h', r, hc, hplays⟩ := lowPass (h := Sample.exactHost) hv hnodup
    rw [hc] at hsample
    obtain ⟨undisturbed, hstart, hsteady⟩ := hsample (h', r) rfl
    obtain ⟨hstep, hframes⟩ := hplays undisturbed
    refine ⟨h', r, hc, ?_, ?_⟩
    · obtain ⟨writes, q, hstep, hwritten⟩ := hstep (Sample.exactFrames h' 0) rfl
        (hsteady 0 (by decide)).blendSet
      exact ⟨writes, q, hstep, (hwritten _ hlips).1⟩
    · exact hframes _ hlips .remote (1 / 2) 0 (7 / 10) (Sample.exactFrames h') 2
        (by norm_num) (by norm_num) (by norm_num) rfl hstart hsteady
        fun i _ => Playback.follows_trace _ _ i

end BlendGraph
