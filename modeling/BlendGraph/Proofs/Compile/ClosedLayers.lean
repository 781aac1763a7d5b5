import BlendGraph.Proofs.Compile.AbandonedChannels

/-!
# Closed layers

A generated layer names the channels that its compilation requested, all of them and no others, and
each is in the host afterwards. Its leaves play clips of the host, for channels of the host.
-/

set_option autoImplicit false

namespace BlendGraph

variable {α : Type}

/-! ### Channels of a tree -/

namespace Node

def channels (n : Node α) : List String := n.references.map Prod.snd

@[simp] theorem channels_leaf (clip : String) : (leaf clip : Node α).channels = [] := rfl

@[simp] theorem channels_interp (name channel : String) (cs : List (α × Node α)) :
    (interp name channel cs).channels = channel :: cs.flatMap fun c => c.2.channels := by
  simp [channels, references, List.map_flatMap]

@[simp] theorem channels_sum (name : String) (cs : List (String × Node α)) :
    (sum name cs).channels = cs.flatMap fun c => c.1 :: c.2.channels := by
  simp [channels, references, List.map_flatMap]

theorem channels_pair [Scalar α] {s t : α} (h : s ≤ t) (name channel : String) (c d : Node α) :
    (((interp name channel []).withThreshold s c).withThreshold t d).channels
      = channel :: (c.channels ++ d.channels) := by
  rw [withThreshold_pair h]
  simp

/-- A sum names its weight, if it has children, and what its children name. -/
theorem mem_channels_foldl_withWeight (name weight : String) (bs : List (Node α)) {n : String} :
    n ∈ (bs.foldl (fun n b => n.withWeight weight b) (sum name [])).channels
      ↔ ∃ b ∈ bs, n = weight ∨ n ∈ b.channels := by
  rw [foldl_withWeight, channels_sum, List.nil_append]
  simp

end Node

variable [Scalar α]

/-- The channels that a layer names are in the host, and so are the clips that its leaves play, with
the channels that these are for. -/
structure Layer.Closed (l : Layer α) (h : Host α) : Prop where
  channels : ∀ x ∈ l.references, x.channel ∈ h.channelNames
  clips : ∀ s ∈ l.states, ∀ m ∈ s.motion, ∀ clip ∈ m.clips,
    ∃ c, h.resolve? clip = some c ∧ c.target ∈ h.channelNames

variable [LawfulScalar α]

namespace Filter

variable {ns : Namespace} {host blendSet : String} {n : String}

theorem channels_blend (host parameter name key : String) :
    (blend host parameter name key : Node α).channels = [key] := by
  rw [blend, Node.channels_pair LawfulScalar.neg_one_le_one]
  rfl

theorem channels_tree (ns : Namespace) (host parameter : String) (o : Observer)
    (c : FilterChannels) : (tree ns host parameter o c : Node α).channels
      = [c.coefficient o, c.raw, c.proxy] := by
  rw [tree, Node.channels_pair LawfulScalar.zero_le_one, channels_blend, channels_blend]
  rfl

theorem mem_channels_sumTree {filters : List (String × FilterChannels)} {o : Observer} :
    n ∈ (sumTree ns host blendSet filters o : Node α).channels
      ↔ ∃ f ∈ filters, n ∈ [blendSet, f.2.coefficient o, f.2.raw, f.2.proxy] := by
  rw [sumTree, Node.mem_channels_foldl_withWeight]
  simp [channels_tree]

theorem mem_channels_rootTree {filters : List (String × FilterChannels)} :
    n ∈ (rootTree ns host blendSet filters : Node α).channels ↔ n = Namespace.selectorChannel ∨
      ∃ f ∈ filters, n ∈ [blendSet, f.2.raw, f.2.proxy, f.2.owner, f.2.remote] := by
  have hpair := Node.channels_pair (α := α) LawfulScalar.zero_le_one ns.smootherRoot
    Namespace.selectorChannel (sumTree ns host blendSet filters .remote)
    (sumTree ns host blendSet filters .owner)
  have htree : (rootTree ns host blendSet filters : Node α).channels = Namespace.selectorChannel ::
      ((sumTree (α := α) ns host blendSet filters .remote).channels
        ++ (sumTree (α := α) ns host blendSet filters .owner).channels) := hpair
  rw [htree, List.mem_cons, List.mem_append, mem_channels_sumTree, mem_channels_sumTree,
    ← exists_or]
  refine or_congr_right (exists_congr fun f => ?_)
  simp only [FilterChannels.coefficient, List.mem_cons, List.not_mem_nil, or_false]
  tauto

end Filter

namespace Decoder

variable {ns : Namespace} {host blendSet : String} {p : Parameter α} {hidden : Bool} {n : String}

theorem channels_bitTree (ns : Namespace) (host : String) (p : Parameter α) (negative : Bool)
    (w : Nat × String × α) : (bitTree ns host p negative w).channels = [w.2.1] := by
  rw [bitTree, Node.channels_pair LawfulScalar.zero_le_one]
  rfl

theorem mem_channels_sumTree (hwidth : isWidth p.bits = true) {negative : Bool} :
    n ∈ (sumTree ns host p (channelsOf ns p hidden) blendSet negative).channels
      ↔ n = blendSet ∨ n ∈ (channelsOf ns p hidden).bits := by
  have hpos : ∃ i, i < p.bits := by
    simp only [isWidth, Bool.and_eq_true, decide_eq_true_eq] at hwidth
    exact ⟨0, hwidth.1⟩
  rw [sumTree, Node.mem_channels_foldl_withWeight, wires_eq ns hwidth]
  simp only [channelsOf, List.mem_map, List.mem_range, exists_exists_and_eq_and, channels_bitTree,
    wire, List.mem_singleton, and_or_left, exists_or, exists_and_right, hpos, true_and,
    @eq_comm _ n]

theorem mem_channels_tree (hwidth : isWidth p.bits = true) :
    n ∈ (tree ns host p (channelsOf ns p hidden) blendSet).channels ↔ n = blendSet ∨
      n ∈ (channelsOf ns p hidden).bits ++ (channelsOf ns p hidden).sign.toList := by
  cases hs : (channelsOf ns p hidden).sign with
  | none =>
    rw [tree, hs]
    simp [mem_channels_sumTree hwidth]
  | some sign =>
    rw [tree, hs]
    dsimp only
    rw [Node.channels_pair LawfulScalar.zero_le_one, List.mem_cons, List.mem_append,
      mem_channels_sumTree hwidth, mem_channels_sumTree hwidth]
    simp only [List.mem_append, Option.mem_toList, Option.some.injEq]
    tauto

end Decoder

namespace Compile

/-! ### The generated layer -/

section

variable {ns : Namespace} {host : String} {hidden : Bool} {ps : List (Parameter α)} {n : String}

theorem mem_channels_decodersTree (admits : Admits ns ps) :
    n ∈ (decodersTree ns host hidden ps).channels ↔ ∃ p ∈ ps, p.isQuantized = true ∧
      (n = ns.blendSet ∨ n ∈ (Decoder.channelsOf ns p hidden).bits
        ++ (Decoder.channelsOf ns p hidden).sign.toList) := by
  rw [decodersTree, Node.channels_sum, List.flatMap_map, List.mem_flatMap]
  refine exists_congr fun p => ?_
  rw [List.mem_filter, and_assoc]
  refine and_congr_right fun hp => and_congr_right fun hquantized => ?_
  rw [List.mem_cons, Decoder.mem_channels_tree (admits.width hp hquantized)]
  tauto

/-- A motion names what is requested for its list, and the selector. -/
theorem mem_channels_motion (admits : Admits ns ps) :
    n ∈ (motion ns host hidden ps).channels
      ↔ n ∈ (firstRequests ns hidden ps).map Request.name ∨ n = Namespace.selectorChannel := by
  have hmotion : n ∈ (motion ns host hidden ps).channels ↔ n = ns.blendSet ∨
      n ∈ (decodersTree ns host hidden ps).channels ∨
      n ∈ (Filter.rootTree (α := α) ns host ns.blendSet (filters ns ps)).channels := by
    rw [motion_eq]
    split
    · next hnone =>
      have hempty : (decodersTree ns host hidden ps).channels = [] := by
        rw [decodersTree, List.isEmpty_iff.mp hnone]
        rfl
      simp [hempty]
    · simp
      tauto
  have hfilters : n ∈ (Filter.rootTree (α := α) ns host ns.blendSet (filters ns ps)).channels
      ↔ n = Namespace.selectorChannel ∨ ∃ p ∈ ps, n ∈ [ns.blendSet, p.name, ns.proxy p.name,
        ns.coefficient .owner p.name, ns.coefficient .remote p.name] := by
    rw [Filter.mem_channels_rootTree, filters]
    simp only [List.mem_map, exists_exists_and_eq_and, Filter.channelsOf]
  rw [hmotion, mem_channels_decodersTree admits, hfilters, mem_names_firstRequests]
  simp only [mem_names_requestsOf]
  constructor
  · rintro (rfl | ⟨p, hp, hquantized, rfl | hn⟩ | rfl | ⟨p, hp, hn⟩)
    · exact .inl (.inl rfl)
    · exact .inl (.inl rfl)
    · exact .inl (.inr ⟨p, hp, .inr ⟨hquantized, hn⟩⟩)
    · exact .inr rfl
    · rcases List.mem_cons.mp hn with rfl | hn
      · exact .inl (.inl rfl)
      · exact .inl (.inr ⟨p, hp, .inl hn⟩)
  · rintro ((rfl | ⟨p, hp, hn | ⟨hquantized, hn⟩⟩) | rfl)
    · exact .inl rfl
    · exact .inr (.inr (.inr ⟨p, hp, List.mem_cons_of_mem _ hn⟩))
    · exact .inr (.inl ⟨p, hp, hquantized, .inr hn⟩)
    · exact .inr (.inr (.inl rfl))

omit [LawfulScalar α] in
/-- The generated layer names the channels of its motion only. -/
theorem channels_generated (ns : Namespace) (host : String) (hidden : Bool)
    (ps : List (Parameter α)) : (generated ns host hidden ps).references.map Reference.channel
      = (motion ns host hidden ps).channels := by
  simp [generated, Layer.references, State.references, State.playing, Node.channels]

omit [LawfulScalar α] in
/-- Clips are for channels that are requested. -/
theorem target_mem_requests (admits : Admits ns ps) {d : HeldClip α}
    (hd : d ∈ heldClips ns host hidden ps) :
    d.target ∈ (firstRequests ns hidden ps).map Request.name := by
  obtain ⟨p, hp, hmade⟩ := exists_madeFor admits hd
  cases hmade with
  | filter high => exact proxy_mem_requests hp
  | bit i hi state => exact name_mem_requests hp

end

variable {h h' : Host α} {ps : List (Parameter α)} {o : CompileOptions} {r : CompileReport}
  {cs : List (Clip α)}

omit [LawfulScalar α] in
/-- What a compilation creates and reuses is what it requests. -/
theorem mem_requested_iff {b : Budget} {n : String} :
    n ∈ (report h ps o b cs).created ∨ n ∈ (report h ps o b cs).reused
      ↔ n ∈ (firstRequests o.names o.hideBits ps).map Request.name ∨
        n = Namespace.selectorChannel := by
  rw [← isRequested_registry (h := h), Registry.isRequested_iff, Registry.creates_iff, or_comm]
  rfl

theorem closed_generated (hroot : o.names.root ≠ "") (admits : Admits o.names ps)
    (hcs : HeldClip.recordAll? (heldClips o.names h.id o.hideBits ps) = .ok cs) :
    (generated o.names h.id o.hideBits ps).Closed (outcome h ps o cs).1 where
  channels := by
    intro x hx
    have hmem := List.mem_map_of_mem (f := Reference.channel) hx
    rw [channels_generated, mem_channels_motion admits] at hmem
    exact mem_channelNames_outcome hroot admits cs hmem
  clips := by
    intro s hs m hm clip hclip
    obtain rfl := List.mem_singleton.mp hs
    obtain rfl := Option.some.inj hm
    rw [clips_motion] at hclip
    obtain ⟨d, hd, rfl⟩ := List.mem_map.mp hclip
    obtain ⟨e, he, -, c, hc, hrec⟩ :=
      exists_resolve?_outcome hroot admits hcs (mem_heldClips_of_mem_leaves hd)
    refine ⟨c, hc, mem_channelNames_outcome hroot admits cs (.inl ?_)⟩
    rw [hrec.2.1]
    exact target_mem_requests admits he

/-- The layer that a compilation generates is the last one and the only one of its name. It names
the channels that were created or reused and no others, they are in the host, and its leaves play
clips for channels of the host. A reference outside of it that the compilation redirects is on a
channel of the host afterwards. -/
theorem compile_closed (hc : compile h ps o = .ok (h', r)) :
    ∃ kept l, h'.layers = kept ++ [l] ∧ l.name = r.layer ∧ (∀ k ∈ kept, k.name ≠ r.layer) ∧
      (∀ n, n ∈ l.references.map Reference.channel ↔ n ∈ r.created ∨ n ∈ r.reused) ∧
      l.Closed h' ∧
      h'.outside o.names = (h.outside o.names).map
        (fun x => { x with channel := smoothed o.names ps x.channel }) ∧
      ∀ x ∈ h.outside o.names, smoothed o.names ps x.channel ≠ x.channel →
        smoothed o.names ps x.channel ∈ h'.channelNames := by
  have houtside := outside_compile hc
  obtain ⟨b, cs, hv, hcs, rfl, rfl⟩ := compile_ok_iff.mp hc
  have hroot := root_ne_of_validate hv
  have admits := admits_of_validate hv
  refine ⟨_, generated o.names h.id o.hideBits ps, by rw [outcome_fst hroot admits], rfl, ?kept,
    ?channels, closed_generated hroot admits hcs, houtside, ?redirected⟩
  case kept =>
    intro k hk
    obtain ⟨l, hl, rfl⟩ := List.mem_map.mp hk
    simpa [report] using (List.mem_filter.mp hl).2
  case channels =>
    intro n
    rw [channels_generated, mem_channels_motion admits, mem_requested_iff]
  case redirected =>
    intro x _ hne
    rw [smoothed_eq] at hne ⊢
    split at hne
    · next hmem =>
      obtain ⟨p, hp, hname⟩ := List.mem_map.mp hmem
      rw [if_pos hmem, ← hname]
      exact mem_channelNames_outcome hroot admits cs
        (.inl (proxy_mem_requests (List.mem_filter.mp hp).1))
    · exact absurd rfl hne

theorem compile_closed_sample : ∃ h' r kept l,
    compile Sample.host Sample.parameters Sample.options = .ok (h', r) ∧
    h'.layers = kept ++ [l] ∧ l.Closed h' ∧ "OSCm/Proxy/Jaw" ∈ h'.channelNames := by
  have hok : (compile Sample.host Sample.parameters Sample.options).isOk = true := by
    decide +kernel
  have hjaw : smoothed ⟨"OSCm"⟩ Sample.parameters "Jaw" = "OSCm/Proxy/Jaw" := by decide +kernel
  have hweight : ⟨"Face", "Open", .weight, "Jaw"⟩ ∈ Sample.host.outside ⟨"OSCm"⟩ := by
    decide +kernel
  obtain ⟨⟨h', r⟩, hc⟩ := exists_of_isOk hok
  obtain ⟨kept, l, hlayers, -, -, -, closed, -, hredirected⟩ := compile_closed hc
  refine ⟨h', r, kept, l, hc, hlayers, closed, ?_⟩
  rw [← hjaw]
  exact hredirected _ hweight (hjaw ▸ by decide)

end Compile

end BlendGraph
