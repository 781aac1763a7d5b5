import BlendGraph.Proofs.Compile.ParameterChannels
import BlendGraph.Proofs.Playback.RationalPlayback

/-!
# Values before the first frame

A compilation into a host without channels creates all that it requests, each with the default of a
request for its name. So a playback starts with one on the weight of the sums, with the coefficients
of the parameters on theirs, and with zero everywhere else.
-/

set_option autoImplicit false

namespace BlendGraph

variable {α : Type}

/-! ### Names of channels that are not zero -/

namespace Namespace

variable {ns : Namespace}

theorem slash_mem_channel (ns : Namespace) (segment rest : String) :
    '/' ∈ (ns.channel segment rest).toList := by
  simp [channel]

theorem slash_mem_blendSet (ns : Namespace) : '/' ∈ ns.blendSet.toList := by
  simp [blendSet]

theorem selectorChannel_ne {n : String} (h : '/' ∈ n.toList) : selectorChannel ≠ n := by
  rintro rfl
  exact absurd h (by decide)

theorem blendSet_ne_channel (ns : Namespace) (r : Role) (x : String) :
    ns.blendSet ≠ ns.channel r.segment x := by
  intro heq
  have hlist := congrArg String.toList heq
  have hblend : ns.blendSet.toList = ns.root.toList ++ '/' :: "BlendSet".toList := by
    simp [blendSet]
  have hchannel : (ns.channel r.segment x).toList
      = ns.root.toList ++ '/' :: (r.segment.toList ++ '/' :: x.toList) := by
    simp [channel]
  rw [hblend, hchannel] at hlist
  have hrest := (List.cons_eq_cons.mp (List.append_cancel_left hlist)).2
  have hslash : '/' ∈ "BlendSet".toList := by simp [hrest]
  exact absurd hslash (by decide)

theorem coefficient_inj {o o' : Observer} {x y : String}
    (h : ns.coefficient o x = ns.coefficient o' y) : o = o' ∧ x = y := by
  obtain ⟨hsegment, hname⟩ := channel_inj (Role.slash_notMem_segment (.coefficient o))
    (Role.slash_notMem_segment (.coefficient o')) h
  have hrole := Role.segment_inj (r := .coefficient o) (s := .coefficient o') rfl hsegment
  exact ⟨Role.coefficient.inj hrole, hname⟩

theorem proxy_ne_coefficient (ns : Namespace) (o : Observer) (x y : String) :
    ns.proxy x ≠ ns.coefficient o y := by
  intro heq
  obtain ⟨hsegment, -⟩ := channel_inj (Role.slash_notMem_segment .proxy)
    (Role.slash_notMem_segment (.coefficient o)) heq
  cases Role.segment_inj (r := .proxy) (s := .coefficient o) rfl hsegment

/-- A name that neither the weight of the sums nor a coefficient has. -/
structure Zeroed (ns : Namespace) (n : String) : Prop where
  blendSet : n ≠ ns.blendSet
  coefficient : ∀ o x, n ≠ ns.coefficient o x

theorem Zeroed.of_untagged (hroot : ns.root ≠ "") {n : String} (h : ns.tags n = false) :
    ns.Zeroed n where
  blendSet := by
    rintro rfl
    rw [tags_blendSet hroot] at h
    cases h
  coefficient := by
    rintro o x rfl
    rw [Namespace.coefficient, tags_channel hroot] at h
    cases h

theorem Zeroed.of_carriesBit {n : String} (h : ns.carriesBit n = true) : ns.Zeroed n where
  blendSet := by
    rintro rfl
    rw [carriesBit_blendSet] at h
    cases h
  coefficient := by
    rintro o x rfl
    rw [carriesBit_coefficient] at h
    cases h

theorem zeroed_proxy (ns : Namespace) (x : String) : ns.Zeroed (ns.proxy x) where
  blendSet := (ns.blendSet_ne_channel .proxy x).symm
  coefficient o y := ns.proxy_ne_coefficient o x y

theorem zeroed_selectorChannel (ns : Namespace) : ns.Zeroed selectorChannel where
  blendSet := selectorChannel_ne ns.slash_mem_blendSet
  coefficient _ _ := selectorChannel_ne (ns.slash_mem_channel _ _)

end Namespace

/-! ### Defaults of new channels -/

namespace Registry

/-- Each new channel has the name and the default of a request. -/
def Serves (r : Registry α) (qs : List (Request α)) : Prop :=
  ∀ c ∈ r.created, ∃ q ∈ qs, q.name = c.name ∧ q.default = c.default

variable {r : Registry α} {qs : List (Request α)}

theorem Serves.take (h : r.Serves qs) (q : Request α) : (r.take q).Serves (qs ++ [q]) := by
  intro c hc
  rw [created_take] at hc
  have hold : c ∈ r.created → ∃ q' ∈ qs ++ [q], q'.name = c.name ∧ q'.default = c.default := by
    intro hc
    obtain ⟨q', hq', hsame⟩ := h c hc
    exact ⟨q', List.mem_append_left _ hq', hsame⟩
  split at hc
  · exact hold hc
  · rcases List.mem_append.mp hc with hc | hc
    · exact hold hc
    · obtain rfl := List.mem_singleton.mp hc
      exact ⟨q, List.mem_append_right _ (List.mem_singleton_self q), rfl, rfl⟩

/-- A flag says nothing about the default. -/
theorem Serves.setSynced (h : r.Serves qs) (n : String) (v : Bool) :
    (r.setSynced n v).Serves qs := by
  intro c hc
  rw [created_setSynced] at hc
  obtain ⟨d, hd, rfl | ⟨-, rfl⟩⟩ := Host.exists_of_mem_setSyncedIn hc
  · exact h _ hd
  · exact h d hd

theorem Serves.enter (h : r.Serves qs) (q : Request α) : (r.enter q).Serves (qs ++ [q]) := by
  unfold Registry.enter
  split
  · exact (h.take q).setSynced _ _
  · exact h.take q

theorem Serves.enterAll (h : r.Serves qs) (more : List (Request α)) :
    (r.enterAll more).Serves (qs ++ more) := by
  induction more generalizing r qs with
  | nil => simpa using h
  | cons q more ih => simpa using ih (h.enter q)

theorem Serves.flagAll (h : r.Serves qs) (ns : List String) (v : Bool) :
    (r.flagAll ns v).Serves qs := by
  induction ns generalizing r with
  | nil => exact h
  | cons n ns ih => exact ih (h.setSynced n v)

end Registry

variable [Scalar α]

namespace Compile

variable {ns : Namespace} {hidden : Bool} {ps : List (Parameter α)}

/-- A request is for the weight of the sums, for a coefficient, or for a channel that starts at
zero. -/
theorem request_start_cases (hroot : ns.root ≠ "") (admits : Admits ns ps) {q : Request α}
    (hq : q ∈ firstRequests ns hidden ps ++ [Filter.selectorRequest]) :
    q = blendSetRequest ns ∨ (∃ p ∈ ps, ∃ o, q = Filter.coefficientRequest ns p o) ∨
      (ns.Zeroed q.name ∧ q.default = 0) := by
  rw [firstRequests, List.cons_append, List.mem_cons, List.mem_append, List.mem_singleton] at hq
  rcases hq with hq | hq | rfl
  · exact .inl hq
  · right
    obtain ⟨p, hp, hq⟩ := List.mem_flatMap.mp hq
    rcases List.mem_append.mp hq with hq | hq
    · simp only [Filter.requestsOf, List.mem_cons, List.not_mem_nil, or_false] at hq
      rcases hq with rfl | rfl | hq | hq
      · exact .inr ⟨.of_untagged hroot (admits.untagged p hp), rfl⟩
      · exact .inr ⟨ns.zeroed_proxy p.name, rfl⟩
      · exact .inl ⟨p, hp, _, hq⟩
      · exact .inl ⟨p, hp, _, hq⟩
    · right
      split at hq
      · rw [Decoder.requestsOf, ← List.map_append] at hq
        obtain ⟨n, hn, rfl⟩ := List.mem_map.mp hq
        exact ⟨.of_carriesBit (carriesBit_of_mem_channelsOf hroot hn), rfl⟩
      · cases hq
  · exact .inr (.inr ⟨ns.zeroed_selectorChannel, rfl⟩)

theorem serves_registry (h : Host α) (ps : List (Parameter α)) (o : CompileOptions) :
    (registry h ps o).Serves (firstRequests o.names o.hideBits ps ++ [Filter.selectorRequest]) := by
  have hstart : (Registry.ofHost h).Serves [] := nofun
  rw [registry_eq, firstRegistry_eq]
  exact ((hstart.enterAll _).flagAll _ _).enter _

end Compile

/-! ### The start of a playback -/

namespace Playback

theorem start_eq_foldl (h : Host α) : start h
    = (h.channels.map fun c => (c.name, c.default)).foldl (fun q w => q.set w.1 w.2)
      ⟨h, .empty⟩ := by
  have general : ∀ (es : List (String × α)) (t : Table α),
      (⟨h, es.foldl (fun t e => t.insert e.1 e.2) t⟩ : Playback α)
        = es.foldl (fun q w => q.set w.1 w.2) ⟨h, t⟩ := by
    intro es
    induction es with
    | nil => exact fun t => rfl
    | cons e es ih => exact fun t => ih _
  exact general _ _

/-- A channel starts at its default, and what is no channel at zero. -/
theorem get_start {h : Host α} {n : String} {v : α}
    (hv : ∀ c ∈ h.channels, c.name = n → c.default = v)
    (hn : n ∈ h.channelNames ∨ v = 0) : (start h).get n = v := by
  rw [start_eq_foldl]
  apply get_foldl_set_eq
  · intro w hw hname
    obtain ⟨c, hc, rfl⟩ := List.mem_map.mp hw
    exact hv c hc hname
  · rw [List.map_map]
    exact hn.imp_right Eq.symm

end Playback

namespace Compile

variable {id : String} {ps : List (Parameter α)} {o : CompileOptions} {cs : List (Clip α)}
  {n : String} {v : α}

/-- In a host without channels before, a channel starts at the default of the requests for it. -/
theorem get_start_outcome (hroot : o.names.root ≠ "") (admits : Admits o.names ps)
    (hv : ∀ q ∈ firstRequests o.names o.hideBits ps ++ [Filter.selectorRequest],
      q.name = n → q.default = v)
    (hn : n ∈ (firstRequests o.names o.hideBits ps).map Request.name ∨ v = 0) :
    (Playback.start (outcome (.empty id) ps o cs).1).get n = v := by
  have hnodup : (Host.empty id : Host α).channelNames.Nodup := .nil
  apply Playback.get_start
  · intro c hc hname
    rw [channels_outcome hroot admits cs hnodup] at hc
    obtain ⟨q, hq, hqname, hqdefault⟩ := serves_registry (.empty id) ps o c hc
    exact hqdefault ▸ hv q hq (hqname.trans hname)
  · exact hn.imp_left fun hmem => mem_channelNames_outcome hroot admits cs (.inl hmem)

theorem get_start_blendSet (hroot : o.names.root ≠ "") (admits : Admits o.names ps) :
    (Playback.start (outcome (.empty id) ps o cs).1).get o.names.blendSet = 1 := by
  apply get_start_outcome hroot admits
  · intro q hq hname
    obtain rfl | ⟨p, -, s, rfl⟩ | ⟨zeroed, -⟩ := request_start_cases hroot admits hq
    · rfl
    · exact absurd hname.symm (o.names.blendSet_ne_channel (.coefficient s) p.name)
    · exact absurd hname zeroed.blendSet
  · exact .inl (List.mem_cons_self ..)

theorem get_start_coefficient (hroot : o.names.root ≠ "") (admits : Admits o.names ps)
    {p : Parameter α} (hp : p ∈ ps) (s : Observer) :
    (Playback.start (outcome (.empty id) ps o cs).1).get (o.names.coefficient s p.name)
      = p.smoothness s := by
  apply get_start_outcome hroot admits
  · intro q hq hname
    obtain rfl | ⟨p', hp', s', rfl⟩ | ⟨zeroed, -⟩ := request_start_cases hroot admits hq
    · exact absurd hname (o.names.blendSet_ne_channel (.coefficient s) p.name)
    · obtain ⟨rfl, hsame⟩ := Namespace.coefficient_inj hname
      rw [List.inj_on_of_nodup_map admits.nodup hp' hp hsame]
      rfl
    · exact absurd hname (zeroed.coefficient s p.name)
  · refine .inl (mem_names_firstRequests.mpr (.inr ⟨p, hp, mem_names_requestsOf.mpr (.inl ?_)⟩))
    cases s <;> simp

theorem get_start_zeroed (hroot : o.names.root ≠ "") (admits : Admits o.names ps)
    (zeroed : o.names.Zeroed n) :
    (Playback.start (outcome (.empty id) ps o cs).1).get n = 0 := by
  apply get_start_outcome hroot admits _ (.inr rfl)
  intro q hq hname
  obtain rfl | ⟨p, -, s, rfl⟩ | ⟨-, hzero⟩ := request_start_cases hroot admits hq
  · exact absurd hname.symm zeroed.blendSet
  · exact absurd hname.symm (zeroed.coefficient s p.name)
  · exact hzero

end Compile

end BlendGraph
