import BlendGraph.Proofs.Compile.AbandonedChannels
import BlendGraph.Proofs.Host.Shapes
import BlendGraph.Proofs.Setup.CompilationAgreement

/-!
# Substitution

What a compilation does to the references of a host: one simultaneous substitution of smoothed
channels for parameters, in every layer but the generated one, whose filters read the parameters
themselves. The order of the list does not matter.
-/

set_option autoImplicit false

namespace BlendGraph

variable {α : Type}

/-! ### Subtrees -/

namespace Node

/-- A subtree of a child is a subtree. -/
theorem mem_walk_of_child {n c a : Node α} (hc : c ∈ n.children) (ha : a ∈ c.walk) :
    a ∈ n.walk := by
  cases n with
  | leaf clip => cases hc
  | interp name channel cs | sum name cs =>
    obtain ⟨d, hd, rfl⟩ := List.mem_map.mp hc
    simp only [walk, walkInterp_eq, walkSum_eq]
    exact List.mem_cons_of_mem _ (List.mem_flatMap.mpr ⟨d, hd, ha⟩)

end Node

/-- A generated channel has a longer name than what it is made for. -/
theorem Namespace.channel_ne (ns : Namespace) (segment n : String) : ns.channel segment n ≠ n := by
  intro heq
  have hlength := congrArg String.length heq
  simp [channel] at hlength

theorem Namespace.proxy_ne (ns : Namespace) (n : String) : ns.proxy n ≠ n :=
  ns.channel_ne "Proxy" n

variable [Scalar α]

namespace Filter

variable [LawfulScalar α] {ns : Namespace} {host blendSet : String}

/-- A filter blends between the raw channel and the smoothed one, along the coefficient. -/
theorem tree_eq (ns : Namespace) (host parameter : String) (o : Observer) (c : FilterChannels) :
    (tree ns host parameter o c : Node α)
      = .interp (ns.filterRoot parameter) (c.coefficient o)
        [(0, blend host parameter (ns.filterInput parameter) c.raw),
          (1, blend host parameter (ns.filterDriver parameter) c.proxy)] :=
  Node.withThreshold_pair LawfulScalar.zero_le_one ..

theorem tree_mem_walk {filters : List (String × FilterChannels)} {f : String × FilterChannels}
    (hf : f ∈ filters) (o : Observer) :
    (tree ns host f.1 o f.2 : Node α) ∈ (rootTree ns host blendSet filters).walk := by
  have hroot : (rootTree ns host blendSet filters : Node α)
      = .interp ns.smootherRoot Namespace.selectorChannel
        [(0, sumTree ns host blendSet filters .remote),
          (1, sumTree ns host blendSet filters .owner)] :=
    Node.withThreshold_pair LawfulScalar.zero_le_one ..
  have hsum : (sumTree ns host blendSet filters o : Node α)
      ∈ (rootTree ns host blendSet filters : Node α).children := by
    rw [hroot]
    cases o <;> simp [Node.children]
  refine Node.mem_walk_of_child hsum (Node.mem_walk_of_child ?_ (Node.mem_walk_self _))
  rw [sumTree, Node.foldl_withWeight]
  simp only [Node.children, List.nil_append, List.map_map, List.mem_map]
  exact ⟨f, hf, rfl⟩

end Filter

namespace Compile

/-- The filters of a layer, each below the selector for its observer. -/
theorem filter_mem_walk_motion [LawfulScalar α] (ns : Namespace) (host : String) (hidden : Bool)
    {ps : List (Parameter α)} {p : Parameter α} (hp : p ∈ ps) (o : Observer) :
    (Filter.tree ns host p.name o (Filter.channelsOf ns p.name) : Node α)
      ∈ (motion ns host hidden ps).walk := by
  have hroot : Filter.rootTree ns host ns.blendSet (filters ns ps)
      ∈ (motion ns host hidden ps).children := by
    rw [motion_eq]
    simp [Node.children]
  have hfilter : (p.name, Filter.channelsOf ns p.name) ∈ filters ns ps :=
    List.mem_map_of_mem (f := fun p => (p.name, Filter.channelsOf ns p.name)) hp
  exact Node.mem_walk_of_child hroot (Filter.tree_mem_walk hfilter o)

/-! ### One substitution -/

/-- The smoothed channel of a redirected parameter; nothing for other names. -/
def substitute? (ns : Namespace) (ps : List (Parameter α)) (n : String) : Option String :=
  if n ∈ (ps.filter Parameter.redirect).map Parameter.name then some (ns.proxy n) else none

omit [Scalar α] in
theorem replaced_substitute? (ns : Namespace) (ps : List (Parameter α)) :
    Host.replaced (substitute? ns ps) = smoothed ns ps :=
  funext fun n => by rw [smoothed, Host.replaced, Host.replaced, lookup_renamesOf, substitute?]

omit [Scalar α] in
theorem substitute?_perm {ns : Namespace} {ps qs : List (Parameter α)} (perm : qs.Perm ps) :
    substitute? ns qs = substitute? ns ps := by
  funext n
  have hmem := ((perm.filter Parameter.redirect).map Parameter.name).mem_iff (a := n)
  simp only [substitute?, hmem]

theorem Admits.perm {ns : Namespace} {ps qs : List (Parameter α)} (admits : Admits ns ps)
    (perm : qs.Perm ps) : Admits ns qs where
  sound p hp := admits.sound p (perm.mem_iff.mp hp)
  untagged p hp := admits.untagged p (perm.mem_iff.mp hp)
  nodup := (perm.map Parameter.name).nodup_iff.mpr admits.nodup

omit [Scalar α] in
theorem totalCost_perm {ps qs : List (Parameter α)} (perm : qs.Perm ps) :
    totalCost qs = totalCost ps := by
  induction perm with
  | nil => rfl
  | cons p _ ih => rw [totalCost, tally_cons, ← totalCost, ih]; rfl
  | swap p q _ => exact Nat.add_left_comm ..
  | trans _ _ ih₁ ih₂ => exact ih₁.trans ih₂

variable {h h' : Host α} {ps : List (Parameter α)} {o : CompileOptions} {r : CompileReport}

/-- A compilation counts the references whose channel is another one afterwards. -/
theorem redirected_eq_countP (hc : compile h ps o = .ok (h', r)) :
    r.redirected = ((h.outside o.names).zip (h'.outside o.names)).countP
      fun x => x.1.channel ≠ x.2.channel := by
  rw [outside_compile hc]
  obtain ⟨b, cs, hv, -, -, rfl⟩ := compile_ok_iff.mp hc
  have hcount : (report h ps o b cs).redirected = (h.outside o.names).countP
      fun x => ((renamesOf o.names ps).lookup x.channel).isSome := by
    rw [report, redirected_outcome (root_ne_of_validate hv) (admits_of_validate hv),
      Host.redirect_snd, Host.outside_eq]
    rfl
  rw [hcount, ← List.map_prod_left_eq_zip, List.countP_map]
  apply List.countP_congr
  intro x _
  rw [lookup_renamesOf, Function.comp_apply, smoothed_eq]
  split
  · simp [(o.names.proxy_ne x.channel).symm]
  · simp

variable [LawfulScalar α]

/-- A list that compiles does so in every order, with the same substitution. -/
theorem renames_of_perm {b : Budget} (hv : validate ps o = .ok b) {qs : List (Parameter α)}
    (perm : qs.Perm ps) : ∃ built, (synthesize h qs o).run (.ofHost h o.names) = .ok built ∧
      ∀ g : Host α, Synthesis.applyRenames g built.2.renames
        = g.redirect (substitute? o.names ps) := by
  have hroot := root_ne_of_validate hv
  have admits := (admits_of_validate hv).perm perm
  obtain ⟨b', hv'⟩ : ∃ b', validate qs o = .ok b' := by
    obtain ⟨hblank, -, hcost⟩ := validate_ok_iff.mp ⟨b, hv⟩
    exact validate_ok_iff.mpr ⟨hblank, admits, (totalCost_perm perm).symm ▸ hcost⟩
  obtain ⟨cs, -, hcs, -⟩ := exists_compile (h := h) hv'
  refine ⟨((motion o.names h.id o.hideBits qs, stale h qs o), pending h qs o cs), ?_, fun g => ?_⟩
  · rw [run_synthesize fun p hp => admits.width hp, hcs]
    rfl
  · change Synthesis.applyRenames g (firstEdits o.names h.id o.hideBits qs).renames = _
    rw [renames_firstEdits, applyRenames_renamesOf hroot admits, ← substitute?_perm perm]
    congr 1
    funext n
    rw [lookup_renamesOf, substitute?]

/-- A compilation keeps the layers that are not named like the generated one, and substitutes in all
of them at once the smoothed channels for the redirected parameters. The filters of the generated
layer read the parameters themselves. In every order of the list, the renames one after another make
the same substitution. -/
theorem compile_substitutes (hc : compile h ps o = .ok (h', r)) :
    (∃ kept, h'.layers = kept ++ [generated o.names h.id o.hideBits ps] ∧
      List.Forall₂ (Layer.Redirected (Host.replaced (substitute? o.names ps)))
        (h.layers.filter fun l => !(l.name == o.names.layer)) kept) ∧
    (∀ p ∈ ps, ∀ s : Observer, .interp (o.names.filterRoot p.name) (o.names.coefficient s p.name)
        [(0, Filter.blend h.id p.name (o.names.filterInput p.name) p.name),
          (1, Filter.blend h.id p.name (o.names.filterDriver p.name) (o.names.proxy p.name))]
      ∈ (motion o.names h.id o.hideBits ps).walk) ∧
    r.redirected = ((h.outside o.names).zip (h'.outside o.names)).countP
      (fun x => x.1.channel ≠ x.2.channel) ∧
    ∀ qs, qs.Perm ps → ∃ built, (synthesize h qs o).run (.ofHost h o.names) = .ok built ∧
      ∀ g : Host α, Synthesis.applyRenames g built.2.renames
        = g.redirect (substitute? o.names ps) := by
  have hcount := redirected_eq_countP hc
  obtain ⟨b, cs, hv, -, hh', -⟩ := compile_ok_iff.mp hc
  refine ⟨⟨(h.layers.filter fun l => !(l.name == o.names.layer)).map
      (Layer.mapChannels (smoothed o.names ps)), ?layers, ?redirected⟩, ?filters, hcount,
    fun qs perm => renames_of_perm hv perm⟩
  case layers => rw [hh', outcome_fst (root_ne_of_validate hv) (admits_of_validate hv)]
  case redirected =>
    rw [replaced_substitute?, List.forall₂_map_right_iff, List.forall₂_same]
    intro l _
    exact Layer.redirected_iff.mpr rfl
  case filters =>
    intro p hp s
    have hfilter := filter_mem_walk_motion o.names h.id o.hideBits hp s
    rw [Filter.tree_eq] at hfilter
    cases s <;> exact hfilter

theorem compile_substitutes_sample : ∃ h' r kept,
    compile Sample.host Sample.parameters Sample.options = .ok (h', r) ∧
    h'.layers = kept ++ [generated ⟨"OSCm"⟩ "demo" true Sample.parameters] ∧
    List.Forall₂ (Layer.Redirected (Host.replaced (substitute? ⟨"OSCm"⟩ Sample.parameters)))
      (Sample.host.layers.filter fun l => !(l.name == Sample.options.names.layer)) kept ∧
    Host.replaced (substitute? ⟨"OSCm"⟩ Sample.parameters) "Jaw" = "OSCm/Proxy/Jaw" := by
  have hok : (compile Sample.host Sample.parameters Sample.options).isOk = true := by
    decide +kernel
  obtain ⟨⟨h', r⟩, hc⟩ := exists_of_isOk hok
  obtain ⟨⟨kept, hlayers, hkept⟩, -⟩ := compile_substitutes hc
  exact ⟨h', r, kept, hc, hlayers, hkept, by decide +kernel⟩

end Compile

end BlendGraph
