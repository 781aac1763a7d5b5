import BlendGraph.Proofs.Compile.LeafClips
import BlendGraph.Proofs.Compile.Recompilation
import BlendGraph.Proofs.Compile.Runs
import BlendGraph.Proofs.Host.ListedReferences

/-!
# Abandoned channels

A compilation redirects references to the smoothed channels of its list, and the layer that it
generates drives those channels and no others. References that an earlier list redirected stay where
they are, so that a parameter which is dropped leaves its users behind on a channel that nothing
drives any more.
-/

set_option autoImplicit false

namespace BlendGraph

variable {α : Type} [Scalar α]

/-! ### References outside the generated layer -/

/-- The references of the layers that are not named like the generated one. -/
def Host.outside (ns : Namespace) (h : Host α) : List Reference :=
  h.references.filter fun r => !(r.layer == ns.layer)

theorem Host.outside_eq (ns : Namespace) (h : Host α) :
    h.outside ns = (h.layers.filter fun l => !(l.name == ns.layer)).flatMap Layer.references :=
  Layer.filter_references (fun n => !(n == ns.layer)) h.layers

namespace Compile

variable {h h' : Host α} {ps : List (Parameter α)} {o : CompileOptions} {r : CompileReport}

/-- A compilation redirects the references outside its layer, each in its place. -/
theorem outside_compile (hc : compile h ps o = .ok (h', r)) :
    h'.outside o.names
      = (h.outside o.names).map fun r => { r with channel := smoothed o.names ps r.channel } := by
  obtain ⟨b, cs, hv, -, rfl, -⟩ := compile_ok_iff.mp hc
  rw [Host.outside_eq, Host.outside_eq,
    filter_layers_outcome (root_ne_of_validate hv) (admits_of_validate hv), List.flatMap_map,
    List.map_flatMap]
  simp only [Layer.references_mapChannels]

end Compile

/-! ### References after a run -/

/-- The parameters whose users a run has redirected. -/
def redirectedNames (calls : List (Call α)) : List String :=
  calls.flatMap fun c => (c.parameters.filter Parameter.redirect).map Parameter.name

omit [Scalar α] in
theorem mem_redirectedNames_append {before : List (Call α)} {c : Call α} {n : String} :
    n ∈ redirectedNames (before ++ [c]) ↔ n ∈ redirectedNames before ∨
      n ∈ (c.parameters.filter Parameter.redirect).map Parameter.name := by
  simp [redirectedNames]

/-- What a reference names after a run. -/
def redirectedBy (ns : Namespace) (calls : List (Call α)) (n : String) : String :=
  if n ∈ redirectedNames calls then ns.proxy n else n

theorem smoothed_redirectedBy {ns : Namespace} {c : Call α} (hroot : ns.root ≠ "")
    (admits : Compile.Admits ns c.parameters) (before : List (Call α)) (n : String) :
    Compile.smoothed ns c.parameters (redirectedBy ns before n)
      = redirectedBy ns (before ++ [c]) n := by
  have hproxy : ns.proxy n ∉ (c.parameters.filter Parameter.redirect).map Parameter.name :=
    Compile.proxy_notMem (o := c.options ns) hroot admits n
  rw [Compile.smoothed_eq, redirectedBy, redirectedBy]
  by_cases hbefore : n ∈ redirectedNames before
  · rw [if_pos hbefore, if_neg hproxy, if_pos (mem_redirectedNames_append.mpr (.inl hbefore))]
  · rw [if_neg hbefore]
    simp only [mem_redirectedNames_append, hbefore, false_or]

/-- A reference that a run redirects once stays on the smoothed channel. -/
theorem outside_compileAll {ns : Namespace} {h g : Host α} {calls : List (Call α)}
    {rs : List CompileReport} (hrun : compileAll ns h calls = .ok (g, rs)) :
    g.outside ns
      = (h.outside ns).map fun r => { r with channel := redirectedBy ns calls r.channel } := by
  refine compileAll_induction (motive := fun calls g => g.outside ns
    = (h.outside ns).map fun r => { r with channel := redirectedBy ns calls r.channel })
    ?start ?step hrun
  case start => exact (List.map_id' _).symm
  case step =>
    intro before g c g' r hbefore hc
    obtain ⟨b, -, hv, -⟩ := Compile.compile_ok_iff.mp hc
    have hroot : ns.root ≠ "" := Compile.root_ne_of_validate hv
    have admits : Compile.Admits ns c.parameters := Compile.admits_of_validate hv
    have houtside : g'.outside ns = (g.outside ns).map fun r =>
        { r with channel := Compile.smoothed ns c.parameters r.channel } :=
      Compile.outside_compile hc
    rw [houtside, hbefore, List.map_map]
    apply List.map_congr_left
    intro s _
    rw [Function.comp_apply, smoothed_redirectedBy hroot admits]

/-! ### Driven channels -/

namespace Compile

/-- The smoothed channels that a generated layer drives are those of its list. -/
theorem exists_target_proxy_iff {ns : Namespace} {host : String} {hidden : Bool}
    {ps : List (Parameter α)} (hroot : ns.root ≠ "") (admits : Admits ns ps) {n : String} :
    (∃ d ∈ leaves ns host hidden ps, d.target = ns.proxy n) ↔ n ∈ ps.map Parameter.name := by
  constructor
  · rintro ⟨d, hd, htarget⟩
    obtain ⟨p, hp, hmade⟩ := exists_madeFor admits (mem_heldClips_of_mem_leaves hd)
    cases hmade with
    | filter high =>
      have hname : p.name = n := by simpa [Namespace.proxy, Namespace.channel] using htarget
      exact hname ▸ List.mem_map_of_mem hp
    | bit i hi state =>
      exact absurd htarget (admits.name_ne hp (Namespace.tags_channel hroot ..))
  · intro hn
    obtain ⟨p, hp, rfl⟩ := List.mem_map.mp hn
    exact ⟨_, mem_leaves hp (List.mem_cons_self ..), rfl⟩

end Compile

/-- After a run, the references on smoothed channels are on those that the layer drives if and only
if no reference that an earlier call redirected is to a parameter which the last list drops. -/
theorem abandoned_iff {ns : Namespace} {h g : Host α} {before : List (Call α)} {call : Call α}
    {rs : List CompileReport}
    (fresh : ∀ r ∈ h.references, Text.startsWith r.channel (ns.start "Proxy") = false)
    (hrun : compileAll ns h (before ++ [call]) = .ok (g, rs)) :
    g.layers.getLast? = some (Compile.generated ns g.id call.hideBits call.parameters) ∧
    (∀ n, (∃ d ∈ Compile.leaves ns g.id call.hideBits call.parameters, d.target = ns.proxy n)
      ↔ n ∈ call.parameters.map Parameter.name) ∧
    g.outside ns = (h.outside ns).map (fun r =>
      { r with channel := redirectedBy ns (before ++ [call]) r.channel }) ∧
    ((∀ r ∈ g.outside ns, ∀ n, r.channel = ns.proxy n → n ∈ call.parameters.map Parameter.name) ↔
      ∀ r ∈ h.outside ns, r.channel ∈ redirectedNames before →
        r.channel ∈ call.parameters.map Parameter.name) := by
  have houtside := outside_compileAll hrun
  obtain ⟨g', -, r, -, hc, -⟩ := compileAll_append_ok_iff.mp hrun
  have hid := Compile.id_of_compile hc
  obtain ⟨b, cs, hv, -, hg, -⟩ := Compile.compile_ok_iff.mp hc
  have hroot : ns.root ≠ "" := Compile.root_ne_of_validate hv
  have admits : Compile.Admits ns call.parameters := Compile.admits_of_validate hv
  refine ⟨?_, fun n => Compile.exists_target_proxy_iff hroot admits, houtside, ?_⟩
  · rw [hg, Compile.outcome_fst (o := call.options ns) hroot admits]
    simp
    rfl
  · have hlisted {n : String}
        (hn : n ∈ (call.parameters.filter Parameter.redirect).map Parameter.name) :
        n ∈ call.parameters.map Parameter.name :=
      (List.filter_sublist.map _).subset hn
    rw [houtside]
    constructor
    · intro hkept r hr hredirected
      apply hkept _ (List.mem_map_of_mem hr)
      exact if_pos (mem_redirectedNames_append.mpr (.inl hredirected))
    · intro hkept s hs n hn
      obtain ⟨r, hr, rfl⟩ := List.mem_map.mp hs
      dsimp only [redirectedBy] at hn
      split at hn
      · next hredirected =>
        obtain rfl : r.channel = n := by simpa [Namespace.proxy, Namespace.channel] using hn
        exact (mem_redirectedNames_append.mp hredirected).elim (hkept r hr) hlisted
      · have hstart := fresh r (List.mem_of_mem_filter hr)
        rw [hn, ← Bool.not_eq_true, Text.startsWith_iff] at hstart
        refine absurd ?_ hstart
        simp [Namespace.start, Namespace.proxy, Namespace.channel]

theorem abandoned_iff_sample : ∃ g rs,
    compileAll Sample.options.names Sample.host
      ([⟨Sample.parameters.take 1, false, 3⟩] ++ [⟨Sample.parameters, true, 16⟩]) = .ok (g, rs) ∧
    ∀ r ∈ g.outside Sample.options.names, ∀ n, r.channel = Sample.options.names.proxy n →
      n ∈ Sample.parameters.map Parameter.name := by
  obtain ⟨g, rs, hrun⟩ := exists_compileAll Sample.options.names
    ([⟨Sample.parameters.take 1, false, 3⟩] ++ [⟨Sample.parameters, true, 16⟩]) Sample.host
    (by decide +kernel)
  have hiff := (abandoned_iff (by decide +kernel) hrun).2.2.2
  exact ⟨g, rs, hrun, hiff.mpr (by decide +kernel)⟩

/-- `Jaw` is compiled and then dropped: its user is left on the smoothed channel. -/
theorem abandoned : ∃ g rs, compileAll Sample.options.names Sample.host
      [⟨Sample.parameters, true, 16⟩, ⟨Sample.parameters.drop 1, true, 16⟩] = .ok (g, rs) ∧
    (∀ r ∈ Sample.host.references,
      Text.startsWith r.channel (Sample.options.names.start "Proxy") = false) ∧
    ∃ r ∈ g.outside Sample.options.names, r.channel = Sample.options.names.proxy "Jaw" ∧
      "Jaw" ∉ (Sample.parameters.drop 1).map Parameter.name := by
  obtain ⟨g, rs, hrun⟩ := exists_compileAll Sample.options.names
    [⟨Sample.parameters, true, 16⟩, ⟨Sample.parameters.drop 1, true, 16⟩] Sample.host
    (by decide +kernel)
  refine ⟨g, rs, hrun, by decide +kernel, ?_⟩
  rw [outside_compileAll hrun]
  decide +kernel

end BlendGraph
