import BlendGraph.Proofs.Naming.ClipOrigins

/-!
# Leaves and their clips

Each leaf of a generated layer is made for a clip of its own target and value. Clips are stored by
name, so a leaf plays the last clip of its name, which is the one it was made for as long as no two
parameters have the same name without separators.
-/

set_option autoImplicit false

namespace BlendGraph

variable {α : Type} [Scalar α] [LawfulScalar α]

namespace Node

omit [LawfulScalar α] in
/-- An interpolation between two children in the order of their thresholds. -/
theorem withThreshold_pair {s t : α} (h : s ≤ t) (name channel : String) (c d : Node α) :
    ((interp name channel []).withThreshold s c).withThreshold t d
      = interp name channel [(s, c), (t, d)] := by
  have hpoint : partitionPoint (fun e : α × Node α => decide (e.1 ≤ t)) [(s, c)] = 1 := by
    simp [partitionPoint, bisect, h]
  have hsecond : insertThreshold t d [(s, c)] = [(s, c), (t, d)] := by
    rw [insertThreshold, hpoint]
    rfl
  change interp name channel (insertThreshold t d [(s, c)]) = _
  rw [hsecond]

omit [LawfulScalar α] in
theorem clips_pair {s t : α} (h : s ≤ t) (name channel : String) (c d : Node α) :
    (((interp name channel []).withThreshold s c).withThreshold t d).clips
      = c.clips ++ d.clips := by
  rw [withThreshold_pair h]
  simp

omit [Scalar α] [LawfulScalar α] in
theorem withWeight_sum (name weight : String) (cs : List (String × Node α)) (b : Node α) :
    (sum name cs).withWeight weight b = sum name (cs ++ [(weight, b)]) := rfl

omit [Scalar α] [LawfulScalar α] in
theorem foldl_withWeight (name weight : String) (cs : List (String × Node α))
    (bs : List (Node α)) : bs.foldl (fun n b => n.withWeight weight b) (sum name cs)
      = sum name (cs ++ bs.map fun b => (weight, b)) := by
  induction bs generalizing cs with
  | nil => simp
  | cons b bs ih =>
    rw [List.foldl_cons, withWeight_sum, ih]
    simp

omit [Scalar α] [LawfulScalar α] in
theorem clips_foldl_withWeight (name weight : String) (bs : List (Node α)) :
    (bs.foldl (fun n b => n.withWeight weight b) (sum name [])).clips
      = bs.flatMap Node.clips := by
  rw [foldl_withWeight, clips_sum, List.nil_append, List.flatMap_map]

end Node

namespace Filter

/-- What the leaves of a filter are made for: both of its blends play the same two clips. -/
def leaves (host parameter proxy : String) : List (HeldClip α) :=
  clipsOf host parameter proxy ++ clipsOf host parameter proxy

theorem clips_blend (host parameter name key proxy : String) :
    (blend host parameter name key : Node α).clips
      = (clipsOf (α := α) host parameter proxy).map HeldClip.name := by
  rw [blend, Node.clips_pair LawfulScalar.neg_one_le_one]
  rfl

theorem clips_tree (ns : Namespace) (host parameter : String) (o : Observer)
    (c : FilterChannels) : (tree ns host parameter o c : Node α).clips
      = (leaves (α := α) host parameter c.proxy).map HeldClip.name := by
  rw [tree, Node.clips_pair LawfulScalar.zero_le_one, clips_blend _ _ _ _ c.proxy,
    clips_blend _ _ _ _ c.proxy, leaves, List.map_append]

theorem clips_sumTree (ns : Namespace) (host blendSet : String)
    (filters : List (String × FilterChannels)) (o : Observer) :
    (sumTree ns host blendSet filters o : Node α).clips
      = (filters.flatMap fun f => leaves (α := α) host f.1 f.2.proxy).map HeldClip.name := by
  rw [sumTree, Node.clips_foldl_withWeight, List.flatMap_map, List.map_flatMap]
  simp only [clips_tree]

theorem clips_rootTree (ns : Namespace) (host blendSet : String)
    (filters : List (String × FilterChannels)) :
    (rootTree ns host blendSet filters : Node α).clips = (Observer.all.flatMap fun _ =>
      filters.flatMap fun f => leaves (α := α) host f.1 f.2.proxy).map HeldClip.name := by
  have hpair := Node.clips_pair (α := α) LawfulScalar.zero_le_one ns.smootherRoot
    Namespace.selectorChannel (sumTree ns host blendSet filters .remote)
    (sumTree ns host blendSet filters .owner)
  simp only [clips_sumTree] at hpair
  refine hpair.trans ?_
  simp [Observer.all]

end Filter

namespace Decoder

theorem clips_sumTree (ns : Namespace) (host : String) (p : Parameter α) (c : DecoderChannels)
    (target blendSet : String) (negative : Bool) :
    (sumTree ns host p c blendSet negative).clips
      = ((sumEdits host p target c negative).clips).map HeldClip.name := by
  have hbit (w : Nat × String × α) : (bitTree ns host p negative w).clips
      = (bitClips host p target negative w).map HeldClip.name := by
    rw [bitTree, Node.clips_pair LawfulScalar.zero_le_one]
    rfl
  rw [sumTree, Node.clips_foldl_withWeight, List.flatMap_map]
  simp only [hbit, sumEdits, Edits.each, List.map_flatMap]

theorem clips_tree (ns : Namespace) (host : String) (p : Parameter α) (c : DecoderChannels)
    (target blendSet : String) : (tree ns host p c blendSet).clips
      = ((edits host p target c).clips).map HeldClip.name := by
  unfold tree edits signs
  cases c.sign with
  | none =>
    simp only [Option.map_none, Option.toList_none, clips_sumTree ns host p c target]
    simp [Edits.each]
  | some sign =>
    dsimp only
    rw [Node.clips_pair LawfulScalar.zero_le_one, clips_sumTree ns host p c target,
      clips_sumTree ns host p c target]
    simp [Edits.each]

end Decoder

namespace Compile

/-! ### The branches of a motion -/

omit [LawfulScalar α] in
/-- The decoders of the quantized parameters, under one sum. -/
def decodersTree (ns : Namespace) (host : String) (hidden : Bool) (ps : List (Parameter α)) :
    Node α :=
  .sum ns.binaryRoot ((ps.filter Parameter.isQuantized).map fun p =>
    (ns.blendSet, Decoder.tree ns host p (Decoder.channelsOf ns p hidden) ns.blendSet))

omit [LawfulScalar α] in
theorem filterMap_decoder? (ns : Namespace) (host : String) (hidden : Bool)
    (ps : List (Parameter α)) : ps.filterMap (decoder? ns host hidden)
      = (ps.filter Parameter.isQuantized).map fun p =>
        Decoder.tree ns host p (Decoder.channelsOf ns p hidden) ns.blendSet := by
  induction ps with
  | nil => rfl
  | cons p ps ih => cases hq : p.isQuantized <;> simp [decoder?, hq, ih]

omit [LawfulScalar α] in
/-- A motion adds the filters to the decoders, if there are any. -/
theorem motion_eq (ns : Namespace) (host : String) (hidden : Bool) (ps : List (Parameter α)) :
    motion ns host hidden ps = .sum ns.rootNode
      ((if (ps.filter Parameter.isQuantized).isEmpty then []
        else [(ns.blendSet, decodersTree ns host hidden ps)])
        ++ [(ns.blendSet, Filter.rootTree ns host ns.blendSet (filters ns ps))]) := by
  rw [motion, filterMap_decoder?]
  simp only [List.isEmpty_map, Node.foldl_withWeight, List.nil_append, List.map_map]
  split <;> rfl

/-! ### Leaves of a motion -/

omit [LawfulScalar α] in
/-- What the leaves of a generated layer are made for, in the order of the leaves. -/
def leaves (ns : Namespace) (host : String) (hidden : Bool) (ps : List (Parameter α)) :
    List (HeldClip α) :=
  ps.flatMap (decoderClips ns host hidden)
    ++ Observer.all.flatMap fun _ => ps.flatMap fun p =>
      Filter.leaves host p.name (ns.proxy p.name)

theorem clips_motion (ns : Namespace) (host : String) (hidden : Bool) (ps : List (Parameter α)) :
    (motion ns host hidden ps).clips = (leaves ns host hidden ps).map HeldClip.name := by
  have hdecoders : (ps.filterMap (decoder? ns host hidden)).flatMap Node.clips
      = (ps.flatMap (decoderClips ns host hidden)).map HeldClip.name := by
    induction ps with
    | nil => rfl
    | cons p ps ih =>
      rw [List.flatMap_cons, List.map_append, ← ih]
      cases hq : p.isQuantized with
      | false => simp [decoder?, decoderClips, hq]
      | true => simp [decoder?, decoderClips, hq, Decoder.clips_tree ns host p _ p.name]
  have hfilters : (Filter.rootTree ns host ns.blendSet (filters ns ps) : Node α).clips
      = (Observer.all.flatMap fun _ => ps.flatMap fun p =>
          Filter.leaves (α := α) host p.name (ns.proxy p.name)).map HeldClip.name := by
    rw [Filter.clips_rootTree, filters]
    simp only [List.flatMap_map]
    rfl
  rw [leaves, List.map_append, ← hdecoders, ← hfilters, motion]
  split
  · next hempty => simp [Node.withWeight_sum, List.isEmpty_iff.mp hempty]
  · simp [Node.withWeight_sum, Node.clips_foldl_withWeight]

omit [LawfulScalar α] in
theorem mem_heldClips_of_mem_leaves {ns : Namespace} {host : String} {hidden : Bool}
    {ps : List (Parameter α)} {d : HeldClip α} (h : d ∈ leaves ns host hidden ps) :
    d ∈ heldClips ns host hidden ps := by
  rw [leaves, List.mem_append] at h
  rw [heldClips_eq, List.mem_append]
  apply h.imp_right
  intro h
  obtain ⟨o, ho, h⟩ := List.mem_flatMap.mp h
  obtain ⟨p, hp, h⟩ := List.mem_flatMap.mp h
  refine List.mem_flatMap.mpr ⟨o, ho, List.mem_flatMap.mpr ⟨p, hp, ?_⟩⟩
  exact (List.mem_append.mp h).elim id id

omit [LawfulScalar α] in
theorem mem_leaves {ns : Namespace} {host : String} {hidden : Bool} {ps : List (Parameter α)}
    {p : Parameter α} (hp : p ∈ ps) {d : HeldClip α}
    (hd : d ∈ Filter.clipsOf host p.name (ns.proxy p.name)) : d ∈ leaves ns host hidden ps := by
  refine List.mem_append_right _ (List.mem_flatMap.mpr ⟨.remote, List.mem_cons_self .., ?_⟩)
  exact List.mem_flatMap.mpr ⟨p, hp, List.mem_append_left _ hd⟩

section

variable {h : Host α} {ps : List (Parameter α)} {o : CompileOptions} {cs : List (Clip α)}

omit [LawfulScalar α] in
/-- A leaf plays a clip of its name that was put down for the layer. -/
theorem exists_resolve?_outcome (hroot : o.names.root ≠ "") (admits : Admits o.names ps)
    (hcs : HeldClip.recordAll? (heldClips o.names h.id o.hideBits ps) = .ok cs)
    {d : HeldClip α} (hd : d ∈ heldClips o.names h.id o.hideBits ps) :
    ∃ e ∈ heldClips o.names h.id o.hideBits ps, e.name = d.name ∧
      ∃ c, (outcome h ps o cs).1.resolve? d.name = some c ∧ e.Records c := by
  rw [outcome_fst hroot admits, Host.resolve?, Synthesis.get?_stored]
  obtain ⟨c₀, hc₀, hrec₀⟩ := exists_recorded_of_mem hcs hd
  cases hfind : cs.reverse.find? (·.name = d.name) with
  | none =>
    have hnone := List.find?_eq_none.mp hfind c₀ (List.mem_reverse.mpr hc₀)
    exact absurd (decide_eq_true hrec₀.1) hnone
  | some c =>
    have hname : c.name = d.name := by simpa using List.find?_some hfind
    obtain ⟨e, he, hrec⟩ := exists_of_mem_recorded hcs
      (List.mem_reverse.mp (List.mem_of_find?_eq_some hfind))
    exact ⟨e, he, hrec.1.symm.trans hname, c, rfl, hrec⟩

omit [LawfulScalar α] in
/-- A leaf plays the clip it was made for if no other clip has its name. -/
theorem resolve?_outcome (hroot : o.names.root ≠ "") (admits : Admits o.names ps)
    (hcs : HeldClip.recordAll? (heldClips o.names h.id o.hideBits ps) = .ok cs)
    {d : HeldClip α} (hd : d ∈ heldClips o.names h.id o.hideBits ps)
    (hunique : ∀ e ∈ heldClips o.names h.id o.hideBits ps, e.name = d.name → e = d) :
    ∃ c, (outcome h ps o cs).1.resolve? d.name = some c ∧ d.Records c := by
  obtain ⟨e, he, hname, hplays⟩ := exists_resolve?_outcome hroot admits hcs hd
  exact hunique e he hname ▸ hplays

/-- Without two parameters of one name but for separators, clips are told apart by their names. -/
theorem heldClips_unique {ns : Namespace} {host : String} {hidden : Bool} (admits : Admits ns ps)
    (hnodup : (ps.map fun p => ClipName.withoutSeparators p.name).Nodup) {d e : HeldClip α}
    (hd : d ∈ heldClips ns host hidden ps) (he : e ∈ heldClips ns host hidden ps)
    (hname : e.name = d.name) : e = d := by
  obtain ⟨p, hp, hmade⟩ := exists_madeFor admits hd
  obtain ⟨q, hq, hmade'⟩ := exists_madeFor admits he
  obtain rfl := List.inj_on_of_nodup_map hnodup hq hp (hmade'.withoutSeparators_eq hmade hname)
  exact hmade'.eq_of_name_eq (bits_le_of_fault? (admits.sound q hq)) hmade hname

end

/-- Every list that passes the checks compiles. The leaves of its layer play the clips they were
made for, all of them, if and only if no two parameters have the same name without separators. -/
theorem leaves_play_iff {h : Host Float32} {ps : List (Parameter Float32)} {o : CompileOptions}
    {b : Budget} (hv : validate ps o = .ok b) : ∃ h' r, compile h ps o = .ok (h', r) ∧
      h'.layers.getLast? = some (generated o.names h.id o.hideBits ps) ∧
      (motion o.names h.id o.hideBits ps).clips
        = (leaves o.names h.id o.hideBits ps).map HeldClip.name ∧
      (∀ d ∈ leaves o.names h.id o.hideBits ps, ∃ p ∈ ps, MadeFor o.names h.id p d) ∧
      ((∀ d ∈ leaves o.names h.id o.hideBits ps,
          ∃ c, h'.resolve? d.name = some c ∧ d.Records c) ↔
        (ps.map fun p => ClipName.withoutSeparators p.name).Nodup) := by
  have hroot := root_ne_of_validate hv
  have admits := admits_of_validate hv
  obtain ⟨cs, r, hcs, hc⟩ := exists_compile (h := h) hv
  refine ⟨_, r, hc, ?_, clips_motion .., fun d hd => ?_, fun hplay => ?_, fun hnodup d hd => ?_⟩
  · rw [outcome_fst hroot admits]
    simp
  · exact exists_madeFor admits (mem_heldClips_of_mem_leaves hd)
  · have hps : ps.Nodup := List.Nodup.of_map _ admits.nodup
    apply List.Nodup.map_on _ hps
    intro p hp q hq heq
    have hname : ClipName.smoother p.name (-1 : Float32) h.id
        = ClipName.smoother q.name (-1 : Float32) h.id := by
      rw [ClipName.smoother, ClipName.smoother, heq]
    obtain ⟨c, hresolve, -, htarget, -⟩ := hplay _ (mem_leaves hp (List.mem_cons_self ..))
    obtain ⟨c', hresolve', -, htarget', -⟩ := hplay _ (mem_leaves hq (List.mem_cons_self ..))
    dsimp only at hresolve hresolve' htarget htarget'
    rw [hname, hresolve', Option.some.injEq] at hresolve
    subst hresolve
    have hproxy : o.names.proxy p.name = o.names.proxy q.name := htarget.symm.trans htarget'
    have hpq : p.name = q.name := by simpa [Namespace.proxy, Namespace.channel] using hproxy
    exact List.inj_on_of_nodup_map admits.nodup hp hq hpq
  · have hheld := mem_heldClips_of_mem_leaves hd
    apply resolve?_outcome hroot admits hcs hheld
    intro e he hname
    exact heldClips_unique admits hnodup hheld he hname

theorem leaves_play_sample : ∃ h' r,
    compile Sample.host Sample.parameters Sample.options = .ok (h', r) ∧
    ∀ d ∈ leaves Sample.options.names "demo" true Sample.parameters,
      ∃ c, h'.resolve? d.name = some c ∧ d.Records c := by
  have hok : (validate Sample.parameters Sample.options).isOk = true := by decide +kernel
  cases hv : validate Sample.parameters Sample.options with
  | error e => rw [hv] at hok; cases hok
  | ok b =>
    obtain ⟨h', r, hc, -, -, -, hplay⟩ := leaves_play_iff (h := Sample.host) hv
    exact ⟨h', r, hc, hplay.mpr (by decide +kernel)⟩

/-- The filter of `a/b` drives the smoothed channel of `ab`. -/
theorem leaves_cross : ∃ h' r,
    compile (.empty "t") [Parameter.ofName "a/b", Parameter.ofName "ab"] ⟨⟨"OSCm"⟩, false, 256⟩
      = .ok ((h', r) : Host Float32 × CompileReport) ∧
    ∃ d ∈ leaves (α := Float32) ⟨"OSCm"⟩ "t" false [Parameter.ofName "a/b", Parameter.ofName "ab"],
      d.target = "OSCm/Proxy/a/b" ∧
        ∃ c, h'.resolve? d.name = some c ∧ c.target = "OSCm/Proxy/ab" := by
  have htarget : (compile (.empty "t") [Parameter.ofName "a/b", Parameter.ofName "ab"]
      ⟨⟨"OSCm"⟩, false, 256⟩ : Except (CompileError Float32) _).toOption.map
        (fun x => (x.1.resolve? "ab--1-Smoother-t.anim").map Clip.target)
      = some (some "OSCm/Proxy/ab") := by decide +kernel
  cases hc : compile (α := Float32) (.empty "t")
      [Parameter.ofName "a/b", Parameter.ofName "ab"] ⟨⟨"OSCm"⟩, false, 256⟩ with
  | error e => rw [hc] at htarget; cases htarget
  | ok x =>
    obtain ⟨h', r⟩ := x
    rw [hc] at htarget
    have hresolve : (h'.resolve? "ab--1-Smoother-t.anim").map Clip.target
        = some "OSCm/Proxy/ab" := Option.some.inj htarget
    obtain ⟨c, hfound, hct⟩ := Option.map_eq_some_iff.mp hresolve
    have hname : ClipName.smoother "a/b" (-1 : Float32) "t" = "ab--1-Smoother-t.anim" := by
      decide +kernel
    refine ⟨h', r, rfl, _, mem_leaves (List.mem_cons_self ..) (List.mem_cons_self ..), rfl, c, ?_,
      hct⟩
    exact (congrArg h'.resolve? hname).trans hfound

end Compile

end BlendGraph
