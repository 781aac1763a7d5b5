import BlendGraph.Proofs.Compile.DroppedParameters
import BlendGraph.Proofs.Compile.Recompilation

/-!
# The capacity over runs

Each call of a run may take what the channels of the host leave of the capacity, where the generated
channels and those of its own list are not counted. That is sound because the generated channels
that are transmitted are the bits of the last list: they cost one unit each, and a later list either
requests them again or takes their flag away. A list finds as much capacity in its own result as
there was before, and what was admitted with all of it is admitted again.
-/

set_option autoImplicit false

namespace BlendGraph

/-! ### Totals -/

section

variable {β γ : Type}

theorem tally_filter_add (f : β → Nat) (p : β → Bool) (xs : List β) :
    tally f (xs.filter p) + tally f (xs.filter fun x => !p x) = tally f xs := by
  induction xs with
  | nil => rfl
  | cons x xs ih => cases hp : p x <;> simp [hp] <;> omega

theorem tally_eq_zero_iff {f : β → Nat} {xs : List β} : tally f xs = 0 ↔ ∀ x ∈ xs, f x = 0 := by
  induction xs with
  | nil => simp
  | cons x xs ih => rw [tally_cons, Nat.add_eq_zero_iff, ih, List.forall_mem_cons]

theorem tally_flatMap (f : γ → Nat) (g : β → List γ) (xs : List β) :
    tally f (xs.flatMap g) = tally (fun x => tally f (g x)) xs := by
  induction xs with
  | nil => rfl
  | cons x xs ih => rw [List.flatMap_cons, tally_append, ih, tally_cons]

/-- What things of distinct names cost together is covered by what is listed for their names. -/
theorem tally_le_tally {f : β → Nat} {g : γ → Nat} (name : β → String) (listed : γ → String)
    {xs : List β} {ys : List γ} (nodup : (xs.map name).Nodup)
    (h : ∀ x ∈ xs, f x ≠ 0 → ∃ y ∈ ys, listed y = name x ∧ f x ≤ g y) :
    tally f xs ≤ tally g ys := by
  induction xs generalizing ys with
  | nil => exact Nat.zero_le _
  | cons x xs ih =>
    obtain ⟨hx, nodup⟩ := List.nodup_cons.mp nodup
    rw [tally_cons]
    by_cases hzero : f x = 0
    · rw [hzero, Nat.zero_add]
      exact ih nodup fun x' hx' => h x' (List.mem_cons_of_mem _ hx')
    · obtain ⟨y, hy, hname, hle⟩ := h x (List.mem_cons_self ..) hzero
      obtain ⟨before, after, rfl⟩ := List.append_of_mem hy
      -- what covers one thing covers no other one, whose name differs
      have hrest : tally f xs ≤ tally g (before ++ after) := by
        apply ih nodup
        intro x' hx' hne
        obtain ⟨y', hy', hname', hle'⟩ := h x' (List.mem_cons_of_mem _ hx') hne
        have hother : y' ≠ y := by
          rintro rfl
          exact hx (hname.symm.trans hname' ▸ List.mem_map_of_mem hx')
        refine ⟨y', ?_, hname', hle'⟩
        simpa [hother] using hy'
      rw [tally_append] at hrest
      rw [tally_append, tally_cons]
      omega

end

variable {α : Type} [Scalar α]

/-! ### Transmitted requests -/

namespace Compile

variable {ns : Namespace} {hidden : Bool} {ps : List (Parameter α)}

/-- All requests of a compilation. -/
def allRequests (ns : Namespace) (hidden : Bool) (ps : List (Parameter α)) : List (Request α) :=
  firstRequests ns hidden ps ++ [Filter.selectorRequest]

/-- A request is for a bit, which is always transmitted, or for a channel whose flag is only set if
it is the continuous one of a parameter. -/
theorem request_cases (hroot : ns.root ≠ "") (plain : ∀ p ∈ ps, ns.generates p.name = false)
    {q : Request α} (hq : q ∈ allRequests ns hidden ps) :
    (ns.carriesBit q.name = true ∧ q.kind = .discrete ∧ q.synced = true ∧ q.forced = true) ∨
      (ns.carriesBit q.name = false ∧ (q.synced = true ∨ q.forced = true →
        q.kind = .continuous ∧ q.name ∈ ps.map Parameter.name)) := by
  have hsilent : ¬ (false = true ∨ false = true) := by decide
  rcases List.mem_append.mp hq with hq | hq
  · rcases List.mem_cons.mp hq with rfl | hq
    · exact .inr ⟨Namespace.carriesBit_blendSet ns, fun hset => absurd hset hsilent⟩
    · obtain ⟨p, hp, hq⟩ := List.mem_flatMap.mp hq
      rcases List.mem_append.mp hq with hq | hq
      · simp only [Filter.requestsOf, List.mem_cons, List.not_mem_nil, or_false] at hq
        right
        rcases hq with rfl | rfl | rfl | rfl
        · have hbit : ns.carriesBit p.name = false := by
            rw [← Bool.not_eq_true]
            intro hbit
            simpa [plain p hp] using Namespace.generates_of_carriesBit hbit
          exact ⟨hbit, fun _ => ⟨rfl, List.mem_map_of_mem hp⟩⟩
        · exact ⟨Namespace.carriesBit_proxy ns p.name, fun hset => absurd hset hsilent⟩
        · exact ⟨Namespace.carriesBit_coefficient ns .owner p.name, fun hset => absurd hset hsilent⟩
        · exact ⟨Namespace.carriesBit_coefficient ns .remote p.name,
            fun hset => absurd hset hsilent⟩
      · left
        split at hq
        · rw [Decoder.requestsOf, ← List.map_append] at hq
          obtain ⟨n, hn, rfl⟩ := List.mem_map.mp hq
          exact ⟨carriesBit_of_mem_channelsOf hroot hn, rfl, rfl, rfl⟩
        · cases hq
  · obtain rfl := List.mem_singleton.mp hq
    exact .inr ⟨Namespace.carriesBit_selectorChannel ns, fun hset => absurd hset hsilent⟩

/-- The transmitted channels of a list cost what its parameters cost. -/
theorem tally_allRequests (ns : Namespace) (hidden : Bool) (ps : List (Parameter α)) :
    tally (fun q => q.channel.syncedCost) (allRequests ns hidden ps) = totalCost ps := by
  have hbits (ns : List String) :
      tally (fun q => q.channel.syncedCost) (ns.map Decoder.bitRequest : List (Request α))
        = ns.length := by
    induction ns with
    | nil => rfl
    | cons n ns ih =>
      rw [List.map_cons, tally_cons, ih, List.length_cons, Nat.add_comm]
      rfl
  have hparameter (p : Parameter α) :
      tally (fun q => q.channel.syncedCost) (requestsOf ns hidden p) = p.cost := by
    have hsign : (Decoder.channelsOf ns p hidden).sign.toList.length = p.signBit.toNat := by
      cases hs : p.signBit <;> simp [Decoder.channelsOf, hs]
    cases hq : p.isQuantized with
    | false =>
      simp [requestsOf, Filter.requestsOf, Filter.coefficientRequest, hq, Request.channel,
        Channel.syncedCost, Parameter.cost]
    | true =>
      simp only [requestsOf, hq, if_true, tally_append, Decoder.requestsOf, hbits, hsign]
      simp [Filter.requestsOf, Filter.coefficientRequest, hq, Request.channel, Channel.syncedCost,
        Parameter.cost, Decoder.channelsOf, ChannelKind.cost]
  have hsum : tally (fun q => q.channel.syncedCost) (ps.flatMap (requestsOf ns hidden))
      = totalCost ps := by
    rw [tally_flatMap]
    exact tally_congr fun p _ => hparameter p
  rw [allRequests, firstRequests, List.cons_append, tally_cons, tally_append, hsum]
  simp [blendSetRequest, Filter.selectorRequest, Request.channel, Channel.syncedCost]

end Compile

/-! ### New channels -/

/-- The requests account for a channel: it is of the kind of one of them, and transmitted only if
one of them wants it to be. -/
structure Request.Back (qs : List (Request α)) (c : Channel α) : Prop where
  kind : ∃ q ∈ qs, q.name = c.name ∧ q.kind = c.kind
  synced : c.synced = true → ∃ q ∈ qs, q.name = c.name ∧ q.synced = true

namespace Registry

variable {qs rs : List (Request α)} {r : Registry α} {q : Request α}

omit [Scalar α] in
theorem back_enter (back : ∀ c ∈ r.created, Request.Back qs c) (hq : q ∈ qs) :
    ∀ c ∈ (r.enter q).created, Request.Back qs c := by
  have htake : ∀ c ∈ (r.take q).created, Request.Back qs c := by
    intro c hc
    rw [created_take] at hc
    split at hc
    · exact back c hc
    · rcases List.mem_append.mp hc with hc | hc
      · exact back c hc
      · obtain rfl := List.mem_singleton.mp hc
        exact ⟨⟨q, hq, rfl, rfl⟩, fun hsynced => ⟨q, hq, rfl, hsynced⟩⟩
  intro c hc
  unfold enter at hc
  split at hc
  · rw [created_setSynced] at hc
    obtain ⟨d, hd, rfl | ⟨hname, rfl⟩⟩ := Host.exists_of_mem_setSyncedIn hc
    · exact htake c hd
    · exact ⟨(htake d hd).kind, fun hsynced => ⟨q, hq, hname.symm, hsynced⟩⟩
  · exact htake c hc

omit [Scalar α] in
theorem back_enterAll (back : ∀ c ∈ r.created, Request.Back qs c) (hrs : rs ⊆ qs) :
    ∀ c ∈ (r.enterAll rs).created, Request.Back qs c := by
  induction rs generalizing r with
  | nil => exact back
  | cons q rs ih =>
    obtain ⟨hq, hrs⟩ := List.cons_subset.mp hrs
    exact ih (back_enter back hq) hrs

end Registry

namespace Compile

theorem back_registry {h : Host α} {ps : List (Parameter α)} {o : CompileOptions} :
    ∀ c ∈ (registry h ps o).created, Request.Back (allRequests o.names o.hideBits ps) c := by
  rw [registry_eq]
  apply Registry.back_enter
  · rw [Registry.created_flagAll fun _ => creates_stale, firstRegistry_eq]
    exact Registry.back_enterAll nofun (List.subset_append_left _ _)
  · exact List.mem_append_right _ (List.mem_singleton_self _)

end Compile

/-! ### Metered hosts -/

/-- The transmitted ones among the generated channels of the host are bits. -/
structure Host.Metered (ns : Namespace) (g : Host α) : Prop where
  nodup : g.channelNames.Nodup
  bits : ∀ c ∈ g.channels, ns.generates c.name = true → c.synced = true →
    ns.carriesBit c.name = true
  discrete : ∀ c ∈ g.channels, ns.carriesBit c.name = true → c.kind = .discrete

/-- A host without generated channels. -/
theorem Host.Metered.of_plain {ns : Namespace} {h : Host α} (nodup : h.channelNames.Nodup)
    (plain : ∀ c ∈ h.channels, ns.generates c.name = false) : h.Metered ns where
  nodup := nodup
  bits c hc hgen := by
    rw [plain c hc] at hgen
    cases hgen
  discrete c hc hbit := by
    have hgen := Namespace.generates_of_carriesBit hbit
    rw [plain c hc] at hgen
    cases hgen

namespace Request

theorem exists_of_forcedFlag {β : Type} {qs : List (Request β)} {n : String} {v : Bool}
    (h : forcedFlag qs n = some v) :
    ∃ q ∈ qs, q.forced = true ∧ q.name = n ∧ q.synced = v := by
  induction qs with
  | nil => cases h
  | cons q qs ih =>
    rw [forcedFlag, Option.or_eq_some_iff] at h
    rcases h with h | ⟨-, h⟩
    · obtain ⟨q', hq', hname⟩ := ih h
      exact ⟨q', List.mem_cons_of_mem _ hq', hname⟩
    · split at h
      · next hforced => exact ⟨q, List.mem_cons_self .., hforced.1, hforced.2, Option.some.inj h⟩
      · cases h

end Request

namespace Compile

section

variable {g : Host α} {ps : List (Parameter α)} {o : CompileOptions} (hroot : o.names.root ≠ "")
  (admits : Admits o.names ps) (plain : ∀ p ∈ ps, o.names.generates p.name = false)
  (metered : g.Metered o.names) (cs : List (Clip α))

include hroot admits plain metered in
/-- The generated channels and those of parameters are transmitted only if they are requested so. -/
theorem exists_request_of_synced {c : Channel α}
    (hc : c ∈ g.channels.map (Channel.flagged (registry g ps o).flags.get?)
      ++ (registry g ps o).created)
    (hgen : o.names.generates c.name = true ∨ c.name ∈ ps.map Parameter.name)
    (hsynced : c.synced = true) :
    ∃ q ∈ allRequests o.names o.hideBits ps, q.name = c.name ∧ q.synced = true := by
  rcases List.mem_append.mp hc with hc | hc
  · obtain ⟨d, hd, rfl⟩ := List.mem_map.mp hc
    have hflags : (registry g ps o).flags.get? d.name = if d.name ∈ stale g ps o then some false
        else Request.forcedFlag (firstRequests o.names o.hideBits ps) d.name :=
      get?_flags_registry (List.mem_map_of_mem hd)
    have hfirst {q : Request α} (hq : q ∈ firstRequests o.names o.hideBits ps) :
        q ∈ allRequests o.names o.hideBits ps := List.mem_append_left _ hq
    simp only [Channel.flagged, hflags] at hsynced
    split at hsynced
    · cases hsynced
    · next hstale =>
      cases hforced : Request.forcedFlag (firstRequests o.names o.hideBits ps) d.name with
      | some v =>
        rw [hforced] at hsynced
        obtain ⟨q, hq, -, hname, hv⟩ := Request.exists_of_forcedFlag hforced
        exact ⟨q, hfirst hq, hname, hv.trans hsynced⟩
      | none =>
        rw [hforced] at hsynced
        rcases hgen with hgen | hlisted
        · -- a transmitted bit which is not stale is requested
          have hbit := metered.bits d hd hgen hsynced
          have hname : d.name ∈ (firstRequests o.names o.hideBits ps).map Request.name := by
            by_contra hname
            exact hstale (mem_stale.mpr ⟨d, hd, rfl, hsynced, hbit, hname⟩)
          obtain ⟨q, hq, hqd⟩ := List.mem_map.mp hname
          rcases request_cases hroot plain (hfirst hq) with ⟨-, -, hsent, -⟩ | ⟨hnot, -⟩
          · exact ⟨q, hfirst hq, hqd, hsent⟩
          · rw [hqd, hbit] at hnot
            cases hnot
        · obtain ⟨p, hp, hname⟩ := List.mem_map.mp hlisted
          have hplain : o.names.generates d.name = false := by
            rw [← plain p hp, hname]
            rfl
          rw [forcedFlag_firstRequests hroot admits.nodup hplain] at hforced
          exact absurd hlisted (wanted?_eq_none_iff.mp hforced)
  · exact (back_registry c hc).synced hsynced

include hroot admits plain metered in
theorem metered_outcome : (outcome g ps o cs).1.Metered o.names where
  nodup := nodup_channelNames_outcome hroot admits cs metered.nodup
  bits c hc hgen hsynced := by
    rw [channels_outcome hroot admits cs metered.nodup] at hc
    obtain ⟨q, hq, hname, hsent⟩ :=
      exists_request_of_synced hroot admits plain metered hc (.inl hgen) hsynced
    rcases request_cases hroot plain hq with ⟨hbit, -, -⟩ | ⟨-, honly⟩
    · exact hname ▸ hbit
    · obtain ⟨p, hp, heq⟩ := List.mem_map.mp (honly (.inl hsent)).2
      rw [← hname, ← heq, plain p hp] at hgen
      cases hgen
  discrete c hc hbit := by
    rw [channels_outcome hroot admits cs metered.nodup] at hc
    rcases List.mem_append.mp hc with hc | hc
    · obtain ⟨d, hd, rfl⟩ := List.mem_map.mp hc
      exact metered.discrete d hd hbit
    · obtain ⟨q, hq, hname, hkind⟩ := (back_registry c hc).kind
      rcases request_cases hroot plain hq with ⟨-, hdiscrete, -⟩ | ⟨hnot, -⟩
      · exact hkind.symm.trans hdiscrete
      · rw [hname, hbit] at hnot
        cases hnot

/-- The channels that the capacity of a list does not count. -/
def uncounted (ns : Namespace) (ps : List (Parameter α)) (c : Channel α) : Bool :=
  ns.generates c.name || (ps.map Parameter.name).contains c.name

omit [Scalar α] in
theorem uncounted_iff {ns : Namespace} {ps : List (Parameter α)} {c : Channel α} :
    uncounted ns ps c = true ↔ ns.generates c.name = true ∨ c.name ∈ ps.map Parameter.name := by
  simp [uncounted]

omit [Scalar α] in
theorem counted_iff {ns : Namespace} {ps : List (Parameter α)} {c : Channel α} :
    (!uncounted ns ps c) = true ↔
      ns.generates c.name = false ∧ c.name ∉ ps.map Parameter.name := by
  simp [uncounted]

include hroot admits plain metered in
/-- What is not counted costs no more than the parameters. -/
theorem tally_uncounted_le : tally Channel.syncedCost
    ((outcome g ps o cs).1.channels.filter (uncounted o.names ps)) ≤ totalCost ps := by
  have hmetered := metered_outcome hroot admits plain metered cs
  rw [← tally_allRequests o.names o.hideBits ps]
  apply tally_le_tally Channel.name Request.name
    (hmetered.nodup.sublist (List.filter_sublist.map Channel.name))
  intro c hc hcost
  obtain ⟨hc, hskip⟩ := List.mem_filter.mp hc
  have hsynced : c.synced = true := by
    by_contra hsynced
    exact hcost (by simp [Channel.syncedCost, hsynced])
  have hmem := hc
  rw [channels_outcome hroot admits cs metered.nodup] at hmem
  obtain ⟨q, hq, hname, hsent⟩ := exists_request_of_synced hroot admits plain metered hmem
    (uncounted_iff.mp hskip) hsynced
  refine ⟨q, hq, hname, ?_⟩
  have hkinds : c.kind.cost ≤ q.kind.cost := by
    rcases request_cases hroot plain hq with ⟨hbit, hkind, -⟩ | ⟨-, honly⟩
    · rw [hmetered.discrete c hc (hname ▸ hbit), hkind]
    · rw [(honly (.inl hsent)).1]
      cases c.kind <;> decide
  simpa [Channel.syncedCost, Request.channel, hsynced, hsent] using hkinds

include hroot admits in
/-- What is counted costs as much as before, whatever channels the host has. -/
theorem tally_counted : tally Channel.syncedCost
    ((outcome g ps o cs).1.channels.filter fun c => !uncounted o.names ps c)
      = g.syncedCost (uncounted o.names ps) := by
  have hkept : (Host.setAll (registry g ps o).flags.entries g.channels).filter
      (fun c => !uncounted o.names ps c) = g.channels.filter fun c => !uncounted o.names ps c := by
    apply Host.filter_setAll
      (p := fun n => !(o.names.generates n || (ps.map Parameter.name).contains n))
    rintro ⟨n, v⟩ hf hn
    by_contra hcounted
    have hother : o.names.generates n = false ∧ n ∉ ps.map Parameter.name := by
      simpa using hcounted
    have hflag := Table.mem_entries.mp hf
    rw [get?_flags_plain hroot admits hn hother.1, wanted?_eq_none_iff.mpr hother.2] at hflag
    cases hflag
  have hnew : tally Channel.syncedCost
      ((registry g ps o).created.filter fun c => !uncounted o.names ps c) = 0 := by
    apply tally_eq_zero_iff.mpr
    intro c hc
    obtain ⟨hc, hcounted⟩ := List.mem_filter.mp hc
    obtain ⟨hplain, hother⟩ := counted_iff.mp hcounted
    have hsilent : c.synced = false := by
      rw [← Bool.not_eq_true]
      intro hsynced
      obtain ⟨q, hq, hname, hsent⟩ := (back_registry c hc).synced hsynced
      -- only the selector is neither generated nor listed, and it is not requested so
      rcases List.mem_append.mp hq with hq | hq
      · rcases generates_of_mem_requests hroot (List.mem_map_of_mem hq) with hgen | hlisted
        · rw [hname, hplain] at hgen
          cases hgen
        · exact hother (hname ▸ hlisted)
      · obtain rfl := List.mem_singleton.mp hq
        cases hsent
    simp [Channel.syncedCost, hsilent]
  rw [outcome_fst hroot admits, List.filter_append, hkept, tally_append, hnew]
  rfl

include hroot admits plain metered in
/-- A compilation adds at most the cost of its parameters to what is counted. -/
theorem syncedCost_outcome_le : (outcome g ps o cs).1.syncedCost (fun _ => false)
    ≤ g.syncedCost (uncounted o.names ps) + totalCost ps := by
  have hsplit := tally_filter_add Channel.syncedCost (uncounted o.names ps)
    (outcome g ps o cs).1.channels
  have hle := tally_uncounted_le hroot admits plain metered cs
  have heq := tally_counted (g := g) hroot admits cs
  have hall : (outcome g ps o cs).1.syncedCost (fun _ => false)
      = tally Channel.syncedCost (outcome g ps o cs).1.channels := by
    simp [Host.syncedCost]
  omega

end

end Compile

theorem Host.syncedCost_le (g : Host α) (skip : Channel α → Bool) :
    g.syncedCost skip ≤ g.syncedCost fun _ => false := by
  have hsplit := tally_filter_add Channel.syncedCost skip g.channels
  have hall : (g.syncedCost fun _ => false) = tally Channel.syncedCost g.channels := by
    simp [Host.syncedCost]
  rw [hall]
  exact Nat.le.intro ((Nat.add_comm _ _).trans hsplit)

/-! ### Runs within the capacity -/

/-- A list and whether its bits are hidden. -/
structure Order (α : Type) where
  parameters : List (Parameter α)
  hideBits : Bool

/-- The options with the capacity that the host leaves. -/
def Order.options (ns : Namespace) (h : Host α) (o : Order α) : CompileOptions :=
  ⟨ns, o.hideBits, Compile.availableCapacity h o.parameters ns⟩

def compileWithin (ns : Namespace) (h : Host α) (o : Order α) :
    Except (CompileError α) (Host α × CompileReport) :=
  Compile.compile h o.parameters (o.options ns h)

/-- Compiles one after another; a list that is rejected leaves the host as it is. -/
def compileEach (ns : Namespace) (h : Host α) (os : List (Order α)) : Host α :=
  os.foldl (fun g o => match compileWithin ns g o with
    | .ok x => x.1
    | .error _ => g) h

theorem syncedCost_compileWithin {ns : Namespace} {g g' : Host α} {o : Order α}
    {r : CompileReport} (plain : ∀ p ∈ o.parameters, ns.generates p.name = false)
    (metered : g.Metered ns) (hc : compileWithin ns g o = .ok (g', r)) :
    g'.Metered ns ∧
      g'.syncedCost (fun _ => false) ≤ max fullCapacity (g.syncedCost fun _ => false) := by
  obtain ⟨b, cs, hv, -, rfl, -⟩ := Compile.compile_ok_iff.mp hc
  have hroot : ns.root ≠ "" := Compile.root_ne_of_validate hv
  have admits : Compile.Admits ns o.parameters := Compile.admits_of_validate hv
  have hcost : totalCost o.parameters
      ≤ fullCapacity - g.syncedCost (Compile.uncounted ns o.parameters) :=
    Compile.totalCost_le_of_validate hv
  have hmetered := Compile.metered_outcome (o := o.options ns g) hroot admits plain metered cs
  have hstep := Compile.syncedCost_outcome_le (o := o.options ns g) hroot admits plain metered cs
  have hcounted := g.syncedCost_le (Compile.uncounted ns o.parameters)
  refine ⟨hmetered, ?_⟩
  change _ ≤ g.syncedCost (Compile.uncounted ns o.parameters) + _ at hstep
  omega

/-- Whatever lists are compiled one after another, each with the capacity that the host leaves: the
transmitted channels never cost more than the capacity, unless they did so before. -/
theorem syncedCost_compileEach {ns : Namespace} {h : Host α} {os : List (Order α)}
    (nodup : h.channelNames.Nodup) (plain : ∀ c ∈ h.channels, ns.generates c.name = false)
    (names : ∀ o ∈ os, ∀ p ∈ o.parameters, ns.generates p.name = false) :
    (compileEach ns h os).syncedCost (fun _ => false)
      ≤ max fullCapacity (h.syncedCost fun _ => false) := by
  have hrun : ∀ (os : List (Order α)) (g : Host α), g.Metered ns →
      (∀ o ∈ os, ∀ p ∈ o.parameters, ns.generates p.name = false) →
      (compileEach ns g os).syncedCost (fun _ => false)
        ≤ max fullCapacity (g.syncedCost fun _ => false) := by
    intro os
    induction os with
    | nil => exact fun g _ _ => Nat.le_max_right _ _
    | cons o os ih =>
      intro g metered names
      obtain ⟨ho, hos⟩ := List.forall_mem_cons.mp names
      rw [compileEach, List.foldl_cons]
      cases hc : compileWithin ns g o with
      | error e => exact ih g metered hos
      | ok x =>
        obtain ⟨hmetered, hle⟩ := syncedCost_compileWithin ho metered hc
        exact (ih x.1 hmetered hos).trans (max_le (Nat.le_max_left _ _) hle)
  exact hrun os h (.of_plain nodup plain) names

theorem syncedCost_compileEach_sample :
    (compileWithin Sample.options.names Sample.host ⟨Sample.parameters, true⟩).isOk = true ∧
    (compileEach Sample.options.names Sample.host
      [⟨Sample.parameters, true⟩, ⟨Sample.parameters.take 1, false⟩,
        ⟨Sample.parameters.drop 1, true⟩]).syncedCost (fun _ => false) ≤ 256 := by
  have hinitial : max fullCapacity (Sample.host.syncedCost fun _ => false) = 256 := by
    decide +kernel
  refine ⟨by decide +kernel, ?_⟩
  rw [← hinitial]
  apply syncedCost_compileEach
  · decide +kernel
  · decide +kernel
  · decide +kernel

/-! ### The same list again -/

namespace Compile

variable {h h' : Host α} {ps : List (Parameter α)} {o : CompileOptions} {r : CompileReport}

theorem availableCapacity_outcome (hroot : o.names.root ≠ "") (admits : Admits o.names ps)
    (cs : List (Clip α)) :
    availableCapacity (outcome h ps o cs).1 ps o.names = availableCapacity h ps o.names :=
  congrArg (fullCapacity - ·) (tally_counted hroot admits cs)

/-- The capacity for a list is the same before and after it has been compiled, whatever capacity it
was compiled with. If that was the one that the host left, the list is admitted with the one that
its result leaves, and changes nothing there. -/
theorem availableCapacity_compile (hc : compile h ps o = .ok (h', r)) :
    availableCapacity h' ps o.names = availableCapacity h ps o.names ∧
      (o.capacity = availableCapacity h ps o.names → ∃ r',
        compileWithin o.names h' ⟨ps, o.hideBits⟩ = .ok (h', r') ∧ r'.budget = r.budget) := by
  obtain ⟨b, cs, hv, hcs, rfl, rfl⟩ := compile_ok_iff.mp hc
  have hroot := root_ne_of_validate hv
  have admits := admits_of_validate hv
  have hcapacity := availableCapacity_outcome (h := h) hroot admits cs
  have hid : (outcome h ps o cs).1.id = h.id := by rw [outcome_fst hroot admits]
  refine ⟨hcapacity, fun hall => ⟨report (outcome h ps o cs).1 ps o b cs, ?_, ?_⟩⟩
  · have hoptions : Order.options o.names (outcome h ps o cs).1 ⟨ps, o.hideBits⟩ = o := by
      rw [Order.options, hcapacity, ← hall]
    rw [compileWithin, hoptions]
    exact compile_ok_iff.mpr
      ⟨b, cs, hv, by rwa [hid], (outcome_outcome hroot admits cs).symm, rfl⟩
  · rw [report, report, hid]

theorem availableCapacity_compile_sample : ∃ h' r r',
    compileWithin Sample.options.names Sample.host ⟨Sample.parameters, true⟩ = .ok (h', r) ∧
    availableCapacity h' Sample.parameters Sample.options.names
      = availableCapacity Sample.host Sample.parameters Sample.options.names ∧
    compileWithin Sample.options.names h' ⟨Sample.parameters, true⟩ = .ok (h', r') := by
  obtain ⟨⟨h', r⟩, hc⟩ := exists_of_isOk (show (compileWithin Sample.options.names Sample.host
    ⟨Sample.parameters, true⟩).isOk = true by decide +kernel)
  obtain ⟨hcapacity, hagain⟩ := availableCapacity_compile hc
  obtain ⟨r', hagain, -⟩ := hagain rfl
  exact ⟨h', r, r', hc, hcapacity, hagain⟩

end Compile

end BlendGraph
