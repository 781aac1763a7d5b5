import BlendGraph.Host.References
import BlendGraph.Synthesis
import Mathlib.Data.List.Basic

/-!
# Redirection

Replacing channel names acts on the references of a graph and on nothing else. Replacements that
follow one another are one replacement, and renames whose new names are none of the old ones can be
made all at once.
-/

set_option autoImplicit false

namespace BlendGraph

variable {α β γ : Type}

theorem countP_flatMap_eq_tally (p : γ → Bool) (f : β → List γ) (xs : List β) :
    (xs.flatMap f).countP p = tally (fun x => (f x).countP p) xs := by
  induction xs with
  | nil => rfl
  | cons x xs ih => rw [List.flatMap_cons, List.countP_append, ih, tally_cons]

namespace Node

theorem references_mapChannels (f : String → String) (n : Node α) :
    (n.mapChannels f).references = n.references.map fun r => (r.1, f r.2) := by
  induction n using Node.induction with
  | leaf clip => rfl
  | interp name channel cs ih =>
    simp only [mapChannels, references, mapChannelsInterp_eq, referencesInterp_eq,
      List.flatMap_map, List.map_cons, List.map_flatMap]
    rw [List.flatMap_congr ih]
  | sum name cs ih =>
    simp only [mapChannels, references, mapChannelsSum_eq, referencesSum_eq,
      List.flatMap_map, List.map_flatMap, List.map_cons]
    apply List.flatMap_congr
    intro c hc
    rw [ih c hc]

theorem countChannelsInterp_eq (test : String → Bool) (cs : List (α × Node α)) :
    countChannelsInterp test cs = tally (fun c => c.2.countChannels test) cs := by
  induction cs with
  | nil => rfl
  | cons c cs ih => rw [countChannelsInterp, ih, tally_cons]

theorem countChannelsSum_eq (test : String → Bool) (cs : List (String × Node α)) :
    countChannelsSum test cs
      = tally (fun c => (test c.1).toNat + c.2.countChannels test) cs := by
  induction cs with
  | nil => rfl
  | cons c cs ih => rw [countChannelsSum, ih, tally_cons]

theorem countChannels_eq (test : String → Bool) (n : Node α) :
    n.countChannels test = n.references.countP fun r => test r.2 := by
  induction n using Node.induction with
  | leaf clip => rfl
  | interp name channel cs ih =>
    rw [countChannels, references, countChannelsInterp_eq, referencesInterp_eq, List.countP_cons,
      countP_flatMap_eq_tally, tally_congr ih]
    cases test channel <;> simp [Nat.add_comm]
  | sum name cs ih =>
    rw [countChannels, references, countChannelsSum_eq, referencesSum_eq,
      countP_flatMap_eq_tally]
    apply tally_congr
    intro c hc
    rw [List.countP_cons, ih c hc]
    cases test c.1 <;> simp [Nat.add_comm]

theorem mapChannels_mapChannels (f g : String → String) (n : Node α) :
    (n.mapChannels f).mapChannels g = n.mapChannels fun c => g (f c) := by
  induction n using Node.induction with
  | leaf clip => rfl
  | interp name channel cs ih =>
    simp only [mapChannels, mapChannelsInterp_eq, List.map_map]
    congr 1
    apply List.map_congr_left
    intro c hc
    simp [ih c hc]
  | sum name cs ih =>
    simp only [mapChannels, mapChannelsSum_eq, List.map_map]
    congr 1
    apply List.map_congr_left
    intro c hc
    simp [ih c hc]

/-- Only the names at the references matter. -/
theorem mapChannels_congr {f g : String → String} {n : Node α}
    (h : ∀ r ∈ n.references, f r.2 = g r.2) : n.mapChannels f = n.mapChannels g := by
  induction n using Node.induction with
  | leaf clip => rfl
  | interp name channel cs ih =>
    simp only [references, referencesInterp_eq, List.mem_cons, List.mem_flatMap] at h
    simp only [mapChannels, mapChannelsInterp_eq, h _ (.inl rfl)]
    congr 1
    apply List.map_congr_left
    intro c hc
    rw [ih c hc fun r hr => h r (.inr ⟨c, hc, hr⟩)]
  | sum name cs ih =>
    simp only [references, referencesSum_eq, List.mem_cons, List.mem_flatMap] at h
    simp only [mapChannels, mapChannelsSum_eq]
    congr 1
    apply List.map_congr_left
    intro c hc
    rw [h _ ⟨c, hc, .inl rfl⟩, ih c hc fun r hr => h r ⟨c, hc, .inr hr⟩]

theorem mapChannels_id (n : Node α) : n.mapChannels (fun c => c) = n := by
  induction n using Node.induction with
  | leaf clip => rfl
  | interp name channel cs ih =>
    simp only [mapChannels, mapChannelsInterp_eq]
    congr 1
    exact (List.map_congr_left fun c hc => by rw [ih c hc]).trans (List.map_id' cs)
  | sum name cs ih =>
    simp only [mapChannels, mapChannelsSum_eq]
    congr 1
    exact (List.map_congr_left fun c hc => by rw [ih c hc]).trans (List.map_id' cs)

@[simp] theorem name_mapChannels (f : String → String) (n : Node α) :
    (n.mapChannels f).name = n.name := by
  cases n <;> rfl

theorem walk_mapChannels (f : String → String) (n : Node α) :
    (n.mapChannels f).walk = n.walk.map (mapChannels f) := by
  induction n using Node.induction with
  | leaf clip => rfl
  | interp name channel cs ih =>
    simp only [mapChannels, walk, mapChannelsInterp_eq, walkInterp_eq, List.flatMap_map,
      List.map_cons, List.map_flatMap]
    rw [List.flatMap_congr ih]
  | sum name cs ih =>
    simp only [mapChannels, walk, mapChannelsSum_eq, walkSum_eq, List.flatMap_map,
      List.map_cons, List.map_flatMap]
    rw [List.flatMap_congr ih]

end Node

/-! ### States and layers -/

namespace State

theorem references_mapChannels (f : String → String) (s : State α) :
    (s.mapChannels f).references = s.references.map fun r => (r.1, f r.2) := by
  cases s with
  | mk name motion time speed cycle mirror =>
    cases motion <;> cases time <;> cases speed <;> cases cycle <;> cases mirror <;>
      simp [references, mapChannels, Node.references_mapChannels]

theorem countChannels_eq (test : String → Bool) (s : State α) :
    s.countChannels test = s.references.countP fun r => test r.2 := by
  cases s with
  | mk name motion time speed cycle mirror =>
    rw [countChannels, references, List.countP_append]
    congr 1
    · cases time <;> cases speed <;> cases cycle <;> cases mirror <;>
        simp [List.countP_cons]
    · cases motion <;> simp [Node.countChannels_eq]

theorem mapChannels_mapChannels (f g : String → String) (s : State α) :
    (s.mapChannels f).mapChannels g = s.mapChannels fun c => g (f c) := by
  simp [mapChannels, Function.comp_def, Node.mapChannels_mapChannels]

theorem mapChannels_id (s : State α) : s.mapChannels (fun c => c) = s := by
  have hnode : Node.mapChannels (α := α) (fun c => c) = id := funext Node.mapChannels_id
  cases s
  simp [mapChannels, hnode]

theorem mapChannels_congr {f g : String → String} {s : State α}
    (h : ∀ r ∈ s.references, f r.2 = g r.2) : s.mapChannels f = s.mapChannels g := by
  have own (c : Option String) (site : Site)
      (hc : ∀ n, c = some n → (site, n) ∈ s.references) : c.map f = c.map g := by
    cases c with
    | none => rfl
    | some n => rw [Option.map_some, Option.map_some, h _ (hc n rfl)]
  have hmotion : s.motion.map (Node.mapChannels f) = s.motion.map (Node.mapChannels g) := by
    cases hm : s.motion with
    | none => rfl
    | some m =>
      have hrefs : ∀ r ∈ m.references, f r.2 = g r.2 := by
        intro r hr
        exact h r (List.mem_append_right _ (by simpa [hm] using hr))
      rw [Option.map_some, Option.map_some, Node.mapChannels_congr hrefs]
  rw [mapChannels, mapChannels, hmotion,
    own s.timeChannel .time fun n hn => by simp [references, hn],
    own s.speedChannel .speed fun n hn => by simp [references, hn],
    own s.cycleChannel .cycle fun n hn => by simp [references, hn],
    own s.mirrorChannel .mirror fun n hn => by simp [references, hn]]

end State

namespace Layer

@[simp] theorem name_mapChannels (f : String → String) (l : Layer α) :
    (l.mapChannels f).name = l.name := rfl

theorem references_mapChannels (f : String → String) (l : Layer α) :
    (l.mapChannels f).references
      = l.references.map fun r => { r with channel := f r.channel } := by
  simp [references, mapChannels, State.references_mapChannels, List.flatMap_map, List.map_flatMap,
    Function.comp_def]
  rfl

theorem mapChannels_mapChannels (f g : String → String) (l : Layer α) :
    (l.mapChannels f).mapChannels g = l.mapChannels fun c => g (f c) := by
  simp [mapChannels, Function.comp_def, State.mapChannels_mapChannels]

theorem mapChannels_id (l : Layer α) : l.mapChannels (fun c => c) = l := by
  have hstate : State.mapChannels (α := α) (fun c => c) = id := funext State.mapChannels_id
  cases l
  simp [mapChannels, hstate]

theorem mapChannels_congr {f g : String → String} {l : Layer α}
    (h : ∀ r ∈ l.references, f r.channel = g r.channel) : l.mapChannels f = l.mapChannels g := by
  rw [mapChannels, mapChannels]
  congr 1
  apply List.map_congr_left
  intro s hs
  apply State.mapChannels_congr
  intro r hr
  exact h ⟨l.name, s.name, r.1, r.2⟩
    (List.mem_flatMap.mpr ⟨s, hs, List.mem_map_of_mem hr⟩)

end Layer

/-! ### Hosts -/

namespace Host

variable [Scalar α]

/-- The name that a replacement gives. -/
def replaced (f : String → Option String) (n : String) : String := (f n).getD n

theorem layers_redirect (h : Host α) (f : String → Option String) :
    (h.redirect f).1.layers = h.layers.map (Layer.mapChannels (replaced f)) := rfl

theorem references_redirect (h : Host α) (f : String → Option String) :
    (h.redirect f).1.references
      = h.references.map fun r => { r with channel := replaced f r.channel } := by
  simp only [references, layers_redirect, List.flatMap_map, List.map_flatMap,
    Layer.references_mapChannels]

theorem redirect_snd (h : Host α) (f : String → Option String) :
    (h.redirect f).2 = h.references.countP fun r => (f r.channel).isSome := by
  have hlayer (l : Layer α) : l.references.countP (fun r => (f r.channel).isSome)
      = tally (State.countChannels fun n => (f n).isSome) l.states := by
    rw [Layer.references, countP_flatMap_eq_tally]
    apply tally_congr
    intro s _
    rw [List.countP_map, State.countChannels_eq]
    rfl
  rw [references, countP_flatMap_eq_tally]
  change tally _ (h.layers.flatMap Layer.states) = _
  induction h.layers with
  | nil => rfl
  | cons l ls ih => rw [List.flatMap_cons, tally_append, ih, tally_cons, hlayer]

/-- A replacement after another one whose new names it leaves alone. -/
theorem redirect_redirect (h : Host α) {f g : String → Option String}
    (leaves : ∀ n m, f n = some m → g m = none) :
    ((h.redirect f).1.redirect g).1 = (h.redirect fun n => (f n).or (g n)).1 ∧
      (h.redirect f).2 + ((h.redirect f).1.redirect g).2
        = (h.redirect fun n => (f n).or (g n)).2 := by
  have hreplaced (n : String) :
      replaced g (replaced f n) = replaced (fun n => (f n).or (g n)) n := by
    cases hf : f n with
    | none => simp [replaced, hf]
    | some m => simp [replaced, hf, leaves n m hf]
  constructor
  · simp only [redirect, List.map_map]
    congr 1
    apply List.map_congr_left
    intro l _
    change (l.mapChannels (replaced f)).mapChannels (replaced g) = _
    rw [Layer.mapChannels_mapChannels, funext hreplaced]
    rfl
  · rw [redirect_snd, redirect_snd, redirect_snd, references_redirect, List.countP_map]
    induction h.references with
    | nil => rfl
    | cons r rs ih =>
      simp only [List.countP_cons, Function.comp_apply]
      rw [← ih]
      cases hf : f r.channel with
      | none =>
        have hr : replaced f r.channel = r.channel := by simp [replaced, hf]
        simp only [hr, Option.none_or, Option.isSome_none, Bool.false_eq_true, if_false]
        exact (Nat.add_assoc _ _ _).symm
      | some m =>
        have hr : replaced f r.channel = m := by simp [replaced, hf]
        simp only [hr, leaves _ m hf, Option.some_or, Option.isSome_some, Option.isSome_none,
          Bool.false_eq_true, if_true, if_false]
        omega

theorem redirect_congr (h : Host α) {f g : String → Option String}
    (hfg : ∀ r ∈ h.references, f r.channel = g r.channel) : h.redirect f = h.redirect g := by
  have hlayers : (h.redirect f).1 = (h.redirect g).1 := by
    simp only [redirect]
    congr 1
    apply List.map_congr_left
    intro l hl
    apply Layer.mapChannels_congr
    intro r hr
    rw [hfg r (List.mem_flatMap.mpr ⟨l, hl, hr⟩)]
  have hcount : (h.redirect f).2 = (h.redirect g).2 := by
    rw [redirect_snd, redirect_snd]
    apply List.countP_congr
    intro r hr
    rw [hfg r hr]
  exact Prod.ext hlayers hcount

/-- Without a reference to replace, nothing happens. -/
theorem redirect_eq_self (h : Host α) {f : String → Option String}
    (hf : ∀ r ∈ h.references, f r.channel = none) : h.redirect f = (h, 0) := by
  have hid : Layer.mapChannels (α := α) (replaced fun _ => none) = fun l => l :=
    funext Layer.mapChannels_id
  have hnone : h.redirect f = h.redirect fun _ => none := h.redirect_congr hf
  rw [hnone]
  apply Prod.ext
  · change { h with layers := h.layers.map (Layer.mapChannels (replaced fun _ => none)) } = h
    rw [hid, List.map_id']
  · rw [redirect_snd]
    simp

end Host

namespace Synthesis

variable [Scalar α]

/-- Renames are made all at once, as long as no new name is to be replaced itself. -/
theorem applyRenames_eq (h : Host α) {rs : List (String × String)}
    (apart : ∀ r ∈ rs, ∀ s ∈ rs, r.2 ≠ s.1) : applyRenames h rs = h.redirect (rs.lookup ·) := by
  induction rs generalizing h with
  | nil => exact (h.redirect_eq_self fun _ _ => rfl).symm
  | cons r rs ih =>
    have hrest : ∀ s ∈ rs, ∀ t ∈ rs, s.2 ≠ t.1 := by
      intro s hs t ht
      exact apart s (List.mem_cons_of_mem _ hs) t (List.mem_cons_of_mem _ ht)
    have hleaves : ∀ n m, (if n = r.1 then some r.2 else none) = some m → rs.lookup m = none := by
      intro n m hm
      have hr : r.2 = m := by
        by_cases hn : n = r.1
        · simpa [hn] using hm
        · simp [hn] at hm
      rw [List.lookup_eq_none_iff]
      intro s hs
      rw [bne_iff_ne, ← hr]
      exact apart r (List.mem_cons_self ..) s (List.mem_cons_of_mem _ hs)
    have hlookup : (fun n => (if n = r.1 then some r.2 else none).or (rs.lookup n))
        = ((r :: rs).lookup ·) := by
      funext n
      rw [List.lookup_cons]
      by_cases hn : n = r.1
      · simp [hn]
      · simp [hn, beq_false_of_ne hn]
    obtain ⟨hhost, hcount⟩ := h.redirect_redirect hleaves
    rw [hlookup] at hhost hcount
    rw [applyRenames, ih _ hrest]
    exact Prod.ext hhost hcount

end Synthesis

end BlendGraph
