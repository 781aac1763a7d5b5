import BlendGraph.Proofs.Playback.DriverTrees
import BlendGraph.Proofs.Playback.InitialValues

/-!
# Installed layers

A layer is installed in a host if it is the last one, was generated for an admitted list, and its
leaves play the clips they were made for, as after every compilation of a list without two
parameters of the same name but for separators. What its motion drives is written in each frame,
unless another layer interferes. Its clips are for the smoothed channels of its parameters, and for
the raw channels of those that are decoded; in a host that has no other layer, a frame writes to no
other channel, so that the weight of the sums, the coefficients, the selector and the bits keep
their values.
-/

set_option autoImplicit false

namespace BlendGraph.Compile

variable {ns : Namespace} {host : String} {hidden : Bool} {ps : List (Parameter Rat)}
  {h : Host Rat} {value : String → Rat} {t : String} {v : Rat}

/-- The leaves of a generated layer play the clips that they are made for. -/
def Plays (ns : Namespace) (host : String) (hidden : Bool) (ps : List (Parameter Rat))
    (h : Host Rat) : Prop :=
  ∀ d ∈ leaves ns host hidden ps, ∃ c, h.resolve? d.name = some c ∧ d.Records c

/-! ### The branches of a motion -/

theorem Plays.decoder (plays : Plays ns host hidden ps h) {p : Parameter Rat} (hp : p ∈ ps)
    (hquantized : p.isQuantized = true) :
    ∀ d ∈ (Decoder.edits host p p.name (Decoder.channelsOf ns p hidden)).clips,
      ∃ c, h.resolve? d.name = some c ∧ d.Records c := by
  intro d hd
  apply plays d (List.mem_append_left _ (List.mem_flatMap.mpr ⟨p, hp, ?_⟩))
  rwa [decoderClips, if_pos hquantized]

/-- The decoder of a parameter writes the raw channel of the parameter only. -/
theorem Plays.spares_decoder (plays : Plays ns host hidden ps h) {p : Parameter Rat} (hp : p ∈ ps)
    (hquantized : p.isQuantized = true) (hne : p.name ≠ t) :
    (Decoder.tree ns host p (Decoder.channelsOf ns p hidden) ns.blendSet).Spares h t := by
  apply Node.Spares.of_clips (Decoder.clips_tree ns host p _ p.name ns.blendSet)
  · exact plays.decoder hp hquantized
  · intro d hd htarget
    exact hne ((Decoder.target_of_mem_clips hd).symm.trans htarget)

/-- The filters write smoothed channels only. -/
theorem Plays.spares_rootTree (plays : Plays ns host hidden ps h)
    (hne : ∀ p ∈ ps, ns.proxy p.name ≠ t) :
    (Filter.rootTree (α := Rat) ns host ns.blendSet (filters ns ps)).Spares h t := by
  apply Node.Spares.of_clips (Filter.clips_rootTree ns host ns.blendSet (filters ns ps))
  · intro d hd
    rw [filters] at hd
    simp only [List.flatMap_map] at hd
    exact plays d (List.mem_append_right _ hd)
  · intro d hd htarget
    obtain ⟨-, -, hd⟩ := List.mem_flatMap.mp hd
    obtain ⟨f, hf, hd⟩ := List.mem_flatMap.mp hd
    obtain ⟨p, hp, rfl⟩ := List.mem_map.mp hf
    have hmem : d ∈ Filter.clipsOf host p.name (ns.proxy p.name) :=
      (List.mem_append.mp hd).elim id id
    exact hne p hp ((Filter.target_of_mem_clipsOf hmem).symm.trans htarget)

/-- A motion drives what its decoders drive, unless the filters do so, too. -/
theorem drives_motion_of_decoders (hblend : value ns.blendSet = 1)
    (hne : ps.filter Parameter.isQuantized ≠ [])
    (hdecoders : Paths.Drives h t ((decodersTree ns host hidden ps).paths value) v)
    (hfilters : (Filter.rootTree (α := Rat) ns host ns.blendSet (filters ns ps)).Spares h t) :
    Paths.Drives h t ((motion ns host hidden ps).paths value) v := by
  rw [motion_eq, if_neg (by simpa using hne)]
  simpa [hblend] using hdecoders.append_left (hfilters.reaches_paths value)

/-- A motion drives what its filters drive, unless a decoder does so, too. -/
theorem drives_motion_of_filters (hblend : value ns.blendSet = 1)
    (hfilters : Paths.Drives h t
      ((Filter.rootTree ns host ns.blendSet (filters ns ps)).paths value) v)
    (hdecoders : (decodersTree ns host hidden ps).Spares h t) :
    Paths.Drives h t ((motion ns host hidden ps).paths value) v := by
  rw [motion_eq]
  split
  · simpa [hblend] using hfilters
  · simpa [hblend] using hfilters.append_right (hdecoders.reaches_paths value)

/-! ### Installed layers -/

/-- No first state beside the generated layer plays a clip for the channel. -/
def Undriven (ns : Namespace) (t : String) (h : Host Rat) : Prop :=
  ∀ l ∈ h.layers, l.name ≠ ns.layer → ∀ motion ∈ l.states.head?.bind State.motion,
    motion.Spares h t

instance (ns : Namespace) (t : String) (h : Host Rat) : Decidable (Undriven ns t h) :=
  inferInstanceAs (Decidable (∀ l ∈ h.layers, l.name ≠ ns.layer →
    ∀ motion ∈ l.states.head?.bind State.motion, motion.Spares h t))

/-- The last layer of a host is the one generated for an admitted list, and it plays what it was
made for. -/
structure Installed (ns : Namespace) (host : String) (hidden : Bool) (ps : List (Parameter Rat))
    (h : Host Rat) : Prop where
  root : ns.root ≠ ""
  admits : Admits ns ps
  layers : ∃ kept, h.layers = kept ++ [generated ns host hidden ps] ∧ ∀ l ∈ kept, l.name ≠ ns.layer
  plays : Plays ns host hidden ps h

theorem installed_outcome {h : Host Rat} {o : CompileOptions} {cs : List (Clip Rat)}
    (hroot : o.names.root ≠ "") (admits : Admits o.names ps)
    (hcs : HeldClip.recordAll? (heldClips o.names h.id o.hideBits ps) = .ok cs)
    (hnodup : (ps.map fun p => ClipName.withoutSeparators p.name).Nodup) :
    Installed o.names h.id o.hideBits ps (outcome h ps o cs).1 where
  root := hroot
  admits := admits
  layers := by
    rw [outcome_fst hroot admits]
    refine ⟨_, rfl, fun l hl => ?_⟩
    obtain ⟨kept, hkept, rfl⟩ := List.mem_map.mp hl
    simpa using (List.mem_filter.mp hkept).2
  plays := by
    intro d hd
    have hheld := mem_heldClips_of_mem_leaves hd
    apply resolve?_outcome hroot admits hcs hheld
    intro e he hname
    exact heldClips_unique admits hnodup hheld he hname

/-- What the motion of the installed layer drives is driven in the whole host. -/
theorem Installed.drives_of_motion {q : Playback Rat}
    (installed : Installed ns host hidden ps q.host) (undriven : Undriven ns t q.host)
    (hmotion : Paths.Drives q.host t ((motion ns host hidden ps).paths q.get) v) :
    Paths.Drives q.host t q.paths v := by
  obtain ⟨kept, hlayers, hkept⟩ := installed.layers
  rw [Playback.paths, hlayers, List.flatMap_append]
  apply Paths.Drives.append_right
  · simpa [generated, State.playing] using hmotion
  · apply Paths.reaches_flatMap_eq_false
    intro l hl
    cases hfirst : l.states.head?.bind State.motion with
    | none => rfl
    | some first =>
      have hmem : l ∈ q.host.layers := hlayers ▸ List.mem_append_left _ hl
      exact (undriven l hmem (hkept l hl) first hfirst).reaches_paths q.get

end BlendGraph.Compile

namespace BlendGraph

/-! ### Channels that a layer leaves alone -/

/-- A frame leaves a channel alone that no leaf reaches. -/
theorem Playback.get_step_of_not_reached {q r : Playback Rat} {writes : Table Rat} {t : String}
    (hstep : q.step = .ok (writes, r)) (hnot : Paths.reaches q.host t q.paths = false) :
    r.get t = q.get t := by
  obtain ⟨writes', r', hstep', -, hwrites⟩ := q.step_eq
  obtain ⟨rfl, rfl⟩ : writes' = writes ∧ r' = r := by
    simpa using hstep'.symm.trans hstep
  rw [(hwrites t).2, (hwrites t).1, hnot]
  rfl

namespace Compile

variable {ns : Namespace} {host : String} {hidden : Bool} {ps : List (Parameter Rat)} {t : String}

/-- No clip of a generated layer is for the channel. -/
structure Idle (ns : Namespace) (ps : List (Parameter Rat)) (t : String) : Prop where
  proxy : ∀ p ∈ ps, ns.proxy p.name ≠ t
  raw : ∀ p ∈ ps, p.isQuantized = true → p.name ≠ t

theorem Idle.blendSet (hroot : ns.root ≠ "") (admits : Admits ns ps) : Idle ns ps ns.blendSet where
  proxy _ _ := (ns.zeroed_proxy _).blendSet
  raw _ hp _ := admits.name_ne hp (Namespace.tags_blendSet hroot)

theorem Idle.coefficient (hroot : ns.root ≠ "") (admits : Admits ns ps) (o : Observer)
    (x : String) : Idle ns ps (ns.coefficient o x) where
  proxy _ _ := (ns.zeroed_proxy _).coefficient o x
  raw _ hp _ := admits.name_ne hp (Namespace.tags_channel hroot ..)

theorem Idle.selectorChannel (hnames : ∀ p ∈ ps, p.name ≠ Namespace.selectorChannel) :
    Idle ns ps Namespace.selectorChannel where
  proxy _ _ := (Namespace.selectorChannel_ne (ns.slash_mem_channel _ _)).symm
  raw p hp _ := hnames p hp

theorem Idle.of_carriesBit (hnames : ∀ p ∈ ps, ns.generates p.name = false)
    (h : ns.carriesBit t = true) : Idle ns ps t where
  proxy p _ := by
    rintro rfl
    rw [Namespace.carriesBit_proxy] at h
    cases h
  raw p hp _ := by
    rintro rfl
    have hgenerates := Namespace.generates_of_carriesBit h
    rw [hnames p hp] at hgenerates
    cases hgenerates

/-- Nobody decodes a parameter that is not quantized. -/
theorem Idle.of_continuous (hroot : ns.root ≠ "") (admits : Admits ns ps) {p : Parameter Rat}
    (hp : p ∈ ps) (hcontinuous : p.isQuantized = false) : Idle ns ps p.name where
  proxy _ _ := (admits.name_ne hp (Namespace.tags_channel hroot ..)).symm
  raw p' hp' hquantized heq := by
    rw [List.inj_on_of_nodup_map admits.nodup hp' hp heq, hcontinuous] at hquantized
    cases hquantized

theorem Idle.spares {h : Host Rat} (idle : Idle ns ps t) (admits : Admits ns ps)
    (plays : Plays ns host hidden ps h) : (motion ns host hidden ps).Spares h t := by
  apply Node.Spares.of_clips (clips_motion ns host hidden ps) plays
  intro d hd htarget
  obtain ⟨p, hp, hmade⟩ := exists_madeFor admits (mem_heldClips_of_mem_leaves hd)
  cases hmade with
  | filter high => exact idle.proxy p hp htarget
  | bit i hi state => exact idle.raw p hp (decide_eq_true (Nat.zero_lt_of_lt hi)) htarget

/-- A host that has an installed layer and no other. -/
structure Sole (ns : Namespace) (host : String) (hidden : Bool) (ps : List (Parameter Rat))
    (h : Host Rat) : Prop where
  installed : Installed ns host hidden ps h
  layers : h.layers = [generated ns host hidden ps]

theorem Sole.undriven {h : Host Rat} (sole : Sole ns host hidden ps h) (t : String) :
    Undriven ns t h := by
  intro l hl hname
  rw [sole.layers, List.mem_singleton] at hl
  exact absurd (congrArg Layer.name hl) hname

theorem Sole.reaches_eq_false {q : Playback Rat} (sole : Sole ns host hidden ps q.host)
    (idle : Idle ns ps t) : Paths.reaches q.host t q.paths = false := by
  rw [Playback.paths, sole.layers, List.flatMap_singleton]
  exact (idle.spares sole.installed.admits sole.installed.plays).reaches_paths q.get

theorem sole_outcome {id : String} {o : CompileOptions} {cs : List (Clip Rat)}
    (hroot : o.names.root ≠ "") (admits : Admits o.names ps)
    (hcs : HeldClip.recordAll? (heldClips o.names id o.hideBits ps) = .ok cs)
    (hnodup : (ps.map fun p => ClipName.withoutSeparators p.name).Nodup) :
    Sole o.names id o.hideBits ps (outcome (.empty id) ps o cs).1 where
  installed := installed_outcome (h := .empty id) hroot admits hcs hnodup
  layers := by
    rw [outcome_fst hroot admits]
    rfl

end Compile

end BlendGraph

namespace BlendGraph.Sample

/-- A host over the rationals, whose own layer plays a clip for another channel. -/
def exactHost : Host Rat where
  id := "demo"
  channels := [⟨"Jaw", .continuous, 0, true⟩, ⟨"Cheek", .continuous, 0, true⟩]
  layers := [⟨"Face", [.playing "Open" (.sum "Mix" [("Jaw", .leaf "Open")])]⟩]
  clips := .ofList [("Open", ⟨"Open", "JawOpen", ⟨⟨0, 1⟩, [], by decide +kernel⟩⟩)]
  overrides := .empty

end BlendGraph.Sample
