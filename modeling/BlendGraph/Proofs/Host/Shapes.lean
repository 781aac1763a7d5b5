import BlendGraph.Proofs.Host.Redirection

/-!
# What a replacement of channels leaves alone

The shape of a tree, a state or a layer is all that is in it apart from the channels that it names:
states, nodes with their names, thresholds and clips. The shape and the references together are the
whole, so that they say all about what a replacement of channels does: it changes the references one
by one and keeps every shape.
-/

set_option autoImplicit false

namespace BlendGraph

variable {α β γ δ : Type}

/-- Lists with equal images are equal if the parts that one flat list has for their members tell
members of equal image apart. -/
theorem eq_of_map_of_flatMap {k : β → δ} {r : β → List γ} {xs ys : List β}
    (length : ∀ x y, k x = k y → (r x).length = (r y).length)
    (apart : ∀ x ∈ xs, ∀ y, k x = k y → r x = r y → x = y) (hk : xs.map k = ys.map k)
    (hr : xs.flatMap r = ys.flatMap r) : xs = ys := by
  induction xs generalizing ys with
  | nil => exact (List.map_eq_nil_iff.mp hk.symm).symm
  | cons x xs ih =>
    cases ys with
    | nil => cases hk
    | cons y ys =>
      rw [List.map_cons, List.map_cons, List.cons.injEq] at hk
      rw [List.flatMap_cons, List.flatMap_cons] at hr
      obtain ⟨hhead, htail⟩ := List.append_inj hr (length x y hk.1)
      rw [apart x (List.mem_cons_self ..) y hk.1 hhead,
        ih (fun z hz => apart z (List.mem_cons_of_mem _ hz)) hk.2 htail]

/-- Members of equal image have equal other images too. -/
theorem map_eq_of_map_eq {f : β → γ} {g : β → δ} {xs ys : List β}
    (h : ∀ x ∈ xs, ∀ y, f x = f y → g x = g y) (hf : xs.map f = ys.map f) :
    xs.map g = ys.map g := by
  induction xs generalizing ys with
  | nil => rw [List.map_eq_nil_iff.mp hf.symm]
  | cons x xs ih =>
    cases ys with
    | nil => cases hf
    | cons y ys =>
      rw [List.map_cons, List.map_cons, List.cons.injEq] at hf
      obtain ⟨hx, hxs⟩ := List.forall_mem_cons.mp h
      rw [List.map_cons, List.map_cons, hx y hf.1, ih hxs hf.2]

/-! ### Shapes -/

/-- A motion tree without the channels that it names. -/
inductive Shape (α : Type) where
  | leaf (clip : String)
  | interp (name : String) (children : List (α × Shape α))
  | sum (name : String) (children : List (Shape α))

/-- A state without the channels that it names, with the places at which it names one itself. -/
structure StateShape (α : Type) where
  name : String
  motion : Option (Shape α)
  places : List (Site × Bool)

structure LayerShape (α : Type) where
  name : String
  states : List (StateShape α)

namespace Node

mutual

def shape : Node α → Shape α
  | leaf clip => .leaf clip
  | interp name _ cs => .interp name (shapeInterp cs)
  | sum name cs => .sum name (shapeSum cs)

def shapeInterp : List (α × Node α) → List (α × Shape α)
  | [] => []
  | (threshold, n) :: cs => (threshold, shape n) :: shapeInterp cs

def shapeSum : List (String × Node α) → List (Shape α)
  | [] => []
  | (_, n) :: cs => shape n :: shapeSum cs

end

@[simp] theorem shape_leaf (clip : String) : (leaf clip : Node α).shape = .leaf clip := rfl

@[simp] theorem shape_interp (name channel : String) (cs : List (α × Node α)) :
    (interp name channel cs).shape = .interp name (cs.map fun c => (c.1, c.2.shape)) := by
  rw [shape]
  congr 1
  induction cs with
  | nil => rfl
  | cons c cs ih => rw [shapeInterp, ih, List.map_cons]

@[simp] theorem shape_sum (name : String) (cs : List (String × Node α)) :
    (sum name cs).shape = .sum name (cs.map fun c => c.2.shape) := by
  rw [shape]
  congr 1
  induction cs with
  | nil => rfl
  | cons c cs ih => rw [shapeSum, ih, List.map_cons]

theorem shape_mapChannels (f : String → String) (n : Node α) :
    (n.mapChannels f).shape = n.shape := by
  induction n using Node.induction with
  | leaf clip => rfl
  | interp name channel cs ih =>
    simp only [mapChannels, mapChannelsInterp_eq, shape_interp, List.map_map]
    congr 1
    apply List.map_congr_left
    intro c hc
    exact Prod.ext rfl (ih c hc)
  | sum name cs ih =>
    simp only [mapChannels, mapChannelsSum_eq, shape_sum, List.map_map]
    congr 1
    exact List.map_congr_left ih

theorem length_references_eq {n m : Node α} (h : n.shape = m.shape) :
    n.references.length = m.references.length := by
  induction n using Node.induction generalizing m with
  | leaf clip =>
    cases m with
    | leaf clip' => rfl
    | interp _ _ _ | sum _ _ => simp at h
  | interp name channel cs ih =>
    cases m with
    | leaf _ | sum _ _ => simp at h
    | interp name' channel' ds =>
      rw [shape_interp, shape_interp, Shape.interp.injEq] at h
      have hlengths : cs.map (fun c => c.2.references.length)
          = ds.map fun d => d.2.references.length :=
        map_eq_of_map_eq (fun c hc d hcd => ih c hc (Prod.mk.inj hcd).2) h.2
      simp only [references, referencesInterp_eq, List.length_cons, List.length_flatMap, hlengths]
  | sum name cs ih =>
    cases m with
    | leaf _ | interp _ _ _ => simp at h
    | sum name' ds =>
      rw [shape_sum, shape_sum, Shape.sum.injEq] at h
      have hlengths : cs.map (fun c => c.2.references.length + 1)
          = ds.map fun d => d.2.references.length + 1 :=
        map_eq_of_map_eq (fun c hc d hcd => congrArg Nat.succ (ih c hc hcd)) h.2
      simp only [references, referencesSum_eq, List.length_flatMap, List.length_cons, hlengths]

/-- Trees of one shape are told apart by the channels at their references. -/
theorem eq_of_shape {n m : Node α} (h : n.shape = m.shape)
    (hr : n.references = m.references) : n = m := by
  induction n using Node.induction generalizing m with
  | leaf clip =>
    cases m with
    | leaf clip' =>
      cases h
      rfl
    | interp _ _ _ | sum _ _ => simp at h
  | interp name channel cs ih =>
    cases m with
    | leaf _ | sum _ _ => simp at h
    | interp name' channel' ds =>
      rw [shape_interp, shape_interp, Shape.interp.injEq] at h
      simp only [references, referencesInterp_eq, List.cons.injEq, Prod.mk.injEq] at hr
      have hchildren : cs = ds := by
        refine eq_of_map_of_flatMap (fun c d hcd => ?_) (fun c hc d hcd hrefs => ?_) h.2 hr.2
        · exact length_references_eq (Prod.mk.inj hcd).2
        · exact Prod.ext (Prod.mk.inj hcd).1 (ih c hc (Prod.mk.inj hcd).2 hrefs)
      rw [h.1, hr.1.2, hchildren]
  | sum name cs ih =>
    cases m with
    | leaf _ | interp _ _ _ => simp at h
    | sum name' ds =>
      rw [shape_sum, shape_sum, Shape.sum.injEq] at h
      simp only [references, referencesSum_eq] at hr
      have hchildren : cs = ds := by
        refine eq_of_map_of_flatMap (fun c d hcd => ?_) (fun c hc d hcd hrefs => ?_) h.2 hr
        · exact congrArg Nat.succ (length_references_eq hcd)
        · rw [List.cons.injEq, Prod.mk.injEq] at hrefs
          exact Prod.ext hrefs.1.2 (ih c hc hcd hrefs.2)
      rw [h.1, hchildren]

end Node

namespace State

/-- The places at which the state itself may name a channel. -/
def own (s : State α) : List (Site × Option String) :=
  [(.time, s.timeChannel), (.speed, s.speedChannel), (.cycle, s.cycleChannel),
    (.mirror, s.mirrorChannel)]

def motionReferences (s : State α) : List (Site × String) := (s.motion.map Node.references).getD []

def named (place : Site × Option String) : List (Site × String) :=
  (place.2.map (place.1, ·)).toList

/-- A place without the channel that is named there. -/
def place (p : Site × Option String) : Site × Bool := (p.1, p.2.isSome)

def shape (s : State α) : StateShape α where
  name := s.name
  motion := s.motion.map Node.shape
  places := s.own.map place

theorem references_eq (s : State α) : s.references = s.own.flatMap named ++ s.motionReferences := by
  rw [references, List.filterMap_eq_flatMap_toList]
  rfl

theorem length_named {c d : Site × Option String} (h : place c = place d) :
    (named c).length = (named d).length := by
  obtain ⟨site, channel⟩ := c
  obtain ⟨site', channel'⟩ := d
  cases channel <;> cases channel' <;> simp_all [place, named]

theorem eq_of_named {c d : Site × Option String} (h : place c = place d)
    (hr : named c = named d) : c = d := by
  obtain ⟨site, channel⟩ := c
  obtain ⟨site', channel'⟩ := d
  cases channel <;> cases channel' <;> simp_all [place, named]

theorem shape_mapChannels (f : String → String) (s : State α) :
    (s.mapChannels f).shape = s.shape := by
  simp [shape, own, place, mapChannels, Function.comp_def, Node.shape_mapChannels]

theorem length_named_own {s t : State α} (h : s.own.map place = t.own.map place) :
    (s.own.flatMap named).length = (t.own.flatMap named).length := by
  rw [List.length_flatMap, List.length_flatMap,
    map_eq_of_map_eq (fun _ _ _ => length_named) h]

theorem length_motionReferences {s t : State α}
    (h : s.motion.map Node.shape = t.motion.map Node.shape) :
    s.motionReferences.length = t.motionReferences.length := by
  rw [motionReferences, motionReferences]
  cases hs : s.motion <;> cases ht : t.motion <;> simp [hs, ht] at h ⊢
  exact Node.length_references_eq h

theorem length_references_eq {s t : State α} (h : s.shape = t.shape) :
    s.references.length = t.references.length := by
  obtain ⟨-, hmotion, hplaces⟩ := StateShape.mk.inj h
  rw [references_eq, references_eq, List.length_append, List.length_append,
    length_named_own hplaces, length_motionReferences hmotion]

/-- States of one shape are told apart by their references. -/
theorem eq_of_shape {s t : State α} (h : s.shape = t.shape)
    (hr : s.references = t.references) : s = t := by
  obtain ⟨hname, hmotion, hplaces⟩ := StateShape.mk.inj h
  rw [references_eq, references_eq] at hr
  obtain ⟨hnamed, hbelow⟩ := List.append_inj hr (length_named_own hplaces)
  have hown : s.own = t.own :=
    eq_of_map_of_flatMap (fun _ _ => length_named) (fun _ _ _ => eq_of_named) hplaces hnamed
  have hmotions : s.motion = t.motion := by
    rw [motionReferences, motionReferences] at hbelow
    cases hs : s.motion <;> cases ht : t.motion <;> simp [hs, ht] at hmotion hbelow ⊢
    exact Node.eq_of_shape hmotion hbelow
  cases s
  cases t
  simp_all [own]

end State

namespace Layer

def shape (l : Layer α) : LayerShape α := ⟨l.name, l.states.map State.shape⟩

theorem shape_mapChannels (f : String → String) (l : Layer α) :
    (l.mapChannels f).shape = l.shape := by
  simp [shape, mapChannels, Function.comp_def, State.shape_mapChannels]

theorem length_references_eq {l k : Layer α} (h : l.shape = k.shape) :
    l.references.length = k.references.length := by
  have hlengths : l.states.map (fun s => s.references.length)
      = k.states.map fun s => s.references.length :=
    map_eq_of_map_eq (fun _ _ _ => State.length_references_eq) (LayerShape.mk.inj h).2
  simp only [references, List.length_flatMap, List.length_map, hlengths]

/-- Layers of one shape are told apart by their references. -/
theorem eq_of_shape {l k : Layer α} (h : l.shape = k.shape) (hr : l.references = k.references) :
    l = k := by
  obtain ⟨name, states⟩ := l
  obtain ⟨name', states'⟩ := k
  obtain ⟨rfl, hstates⟩ := LayerShape.mk.inj h
  congr 1
  refine eq_of_map_of_flatMap (fun s t hst => ?_) (fun s _ t hst hrefs => ?_) hstates hr
  · rw [List.length_map, List.length_map, State.length_references_eq hst]
  · rw [(StateShape.mk.inj hst).1] at hrefs
    refine State.eq_of_shape hst (List.map_inj_right (fun c d hcd => ?_) |>.mp hrefs)
    rw [Reference.mk.injEq] at hcd
    exact Prod.ext hcd.2.2.1 hcd.2.2.2

/-- The second layer is the first one with a name replaced at each reference. -/
structure Redirected (f : String → String) (l l' : Layer α) : Prop where
  shape : l'.shape = l.shape
  references : l'.references = l.references.map fun r => { r with channel := f r.channel }

theorem redirected_iff {f : String → String} {l l' : Layer α} :
    Redirected f l l' ↔ l' = l.mapChannels f := by
  have hmap : Redirected f l (l.mapChannels f) :=
    ⟨shape_mapChannels f l, references_mapChannels f l⟩
  constructor
  · intro h
    exact eq_of_shape (h.shape.trans hmap.shape.symm) (h.references.trans hmap.references.symm)
  · rintro rfl
    exact hmap

end Layer

/-! ### Hosts -/

namespace Host

variable [Scalar α]

/-- Hosts that have everything in common but the channels at their references. -/
structure SameShape (g h : Host α) : Prop where
  id : g.id = h.id
  channels : g.channels = h.channels
  layers : g.layers.map Layer.shape = h.layers.map Layer.shape
  clips : g.clips = h.clips
  overrides : g.overrides = h.overrides

theorem sameShape_redirect (h : Host α) (f : String → Option String) :
    SameShape (h.redirect f).1 h where
  id := rfl
  channels := rfl
  layers := by
    rw [layers_redirect, List.map_map]
    exact List.map_congr_left fun l _ => l.shape_mapChannels _
  clips := rfl
  overrides := rfl

/-- Hosts of one shape are told apart by their references. -/
theorem SameShape.eq {g h : Host α} (same : g.SameShape h) (hr : g.references = h.references) :
    g = h := by
  have hlayers : g.layers = h.layers := eq_of_map_of_flatMap
    (fun _ _ => Layer.length_references_eq) (fun _ _ _ => Layer.eq_of_shape) same.layers hr
  obtain ⟨hid, hchannels, -, hclips, hoverrides⟩ := same
  cases g
  cases h
  simp_all

theorem SameShape.symm {g h : Host α} (same : g.SameShape h) : h.SameShape g :=
  ⟨same.id.symm, same.channels.symm, same.layers.symm, same.clips.symm, same.overrides.symm⟩

theorem SameShape.trans {g h k : Host α} (hgh : g.SameShape h) (hhk : h.SameShape k) :
    g.SameShape k :=
  ⟨hgh.id.trans hhk.id, hgh.channels.trans hhk.channels, hgh.layers.trans hhk.layers,
    hgh.clips.trans hhk.clips, hgh.overrides.trans hhk.overrides⟩

/-- A replacement of channels puts the new name, where there is one, at each reference, counts the
references where there is one, and leaves everything else of the host alone. No other host is like
that. -/
theorem redirect_eq_iff {h g : Host α} {f : String → Option String} {n : Nat} :
    h.redirect f = (g, n) ↔
      g.references
        = h.references.map (fun r => { r with channel := (f r.channel).getD r.channel }) ∧
      n = h.references.countP (fun r => (f r.channel).isSome) ∧ g.SameShape h := by
  constructor
  · intro heq
    have hhost : (h.redirect f).1 = g := congrArg Prod.fst heq
    have hcount : (h.redirect f).2 = n := congrArg Prod.snd heq
    rw [← hhost, ← hcount]
    exact ⟨h.references_redirect f, h.redirect_snd f, h.sameShape_redirect f⟩
  · rintro ⟨hreferences, hcount, same⟩
    have hhost : g = (h.redirect f).1 := (same.trans (h.sameShape_redirect f).symm).eq
      (hreferences.trans (h.references_redirect f).symm)
    rw [hhost, hcount, ← h.redirect_snd f]

end Host

end BlendGraph
