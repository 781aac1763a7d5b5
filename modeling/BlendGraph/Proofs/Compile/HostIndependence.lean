import BlendGraph.Proofs.Compile.Reports

/-!
# Independence of the host

Two hosts of one identifier may differ in everything else. A compilation of one list into both fails
in the same way or puts the same layer and the same clips into both: what is there already decides
only which of the requested channels are new.
-/

set_option autoImplicit false

namespace BlendGraph

variable {α : Type} [Scalar α]

/-! ### What a host receives -/

/-- The clips are those that the leaves of the layer play, each under its own name. -/
structure Layer.Plays (l : Layer α) (clips : Table (Clip α)) : Prop where
  mem_keys : ∀ k, k ∈ clips.keys ↔ ∃ s ∈ l.states, ∃ m ∈ s.motion, k ∈ m.clips
  name_eq : ∀ k c, clips.get? k = some c → c.name = k

/-- A host is left with a layer in place of those of its name, with the others redirected, and with
clips stored over its own. -/
structure Host.Receives (l : Layer α) (clips : Table (Clip α)) (f : String → String)
    (h h' : Host α) : Prop where
  id : h'.id = h.id
  layers : h'.layers
    = (h.layers.filter fun k => !(k.name == l.name)).map (Layer.mapChannels f) ++ [l]
  clips : ∀ k, h'.clips.get? k = (clips.get? k).or (h.clips.get? k)

namespace Synthesis

/-- Clips are stored over those of a table. -/
theorem get?_stored_or (t : Table (Clip α)) (cs : List (Clip α)) (k : String) :
    (stored t cs).get? k = ((stored .empty cs).get? k).or (t.get? k) := by
  rw [get?_stored, get?_stored, Table.get?_empty, Option.or_none]

end Synthesis

namespace Compile

variable {ps : List (Parameter α)} {o : CompileOptions}

/-- A compilation fails for hosts of one identifier in the same way. -/
theorem compile_error_congr {h g : Host α} (hid : h.id = g.id) {e : CompileError α}
    (he : compile h ps o = .error e) : compile g ps o = .error e := by
  rw [compile_eq, hid] at he
  rw [compile_eq]
  cases hv : validate ps o with
  | error e' =>
    rw [hv] at he
    cases he
    rfl
  | ok b =>
    rw [hv] at he
    cases hcs : HeldClip.recordAll? (heldClips o.names g.id o.hideBits ps) with
    | error e' =>
      simp only [Except.bind, hcs, Except.map] at he ⊢
      cases he
      rfl
    | ok cs =>
      simp only [Except.bind, hcs, Except.map] at he
      cases he

theorem receives_outcome (h : Host α) (hroot : o.names.root ≠ "") (admits : Admits o.names ps)
    (cs : List (Clip α)) : h.Receives (generated o.names h.id o.hideBits ps)
      (Synthesis.stored .empty cs) (smoothed o.names ps) (outcome h ps o cs).1 := by
  rw [outcome_fst hroot admits]
  exact ⟨rfl, rfl, Synthesis.get?_stored_or h.clips cs⟩

variable [LawfulScalar α]

theorem plays_generated {ns : Namespace} {host : String} {hidden : Bool} {cs : List (Clip α)}
    (hcs : HeldClip.recordAll? (heldClips ns host hidden ps) = .ok cs) :
    (generated ns host hidden ps).Plays (Synthesis.stored .empty cs) where
  mem_keys k := by
    rw [Synthesis.mem_keys_stored, ← mem_clips_motion hcs]
    simp [generated, State.playing]
  name_eq _ _ := Synthesis.name_of_get?_stored

/-- For two hosts of one identifier a compilation fails with the same error, or it succeeds for
both. Then both receive one layer with one set of clips, and the same channels are created or
reused. -/
theorem compile_independent {h g : Host α} (hid : h.id = g.id) (ps : List (Parameter α))
    (o : CompileOptions) :
    (∀ e, compile h ps o = .error e ↔ compile g ps o = .error e) ∧
    ∀ h' r, compile h ps o = .ok (h', r) → ∃ g' s, compile g ps o = .ok (g', s) ∧
      (∃ l clips f, l.name = o.names.layer ∧ l.Plays clips ∧ h.Receives l clips f h' ∧
        g.Receives l clips f g') ∧
      ∀ n, n ∈ r.created ∨ n ∈ r.reused ↔ n ∈ s.created ∨ n ∈ s.reused := by
  refine ⟨fun e => ⟨compile_error_congr hid, compile_error_congr hid.symm⟩, fun h' r hc => ?_⟩
  obtain ⟨b, cs, hv, hcs, rfl, rfl⟩ := compile_ok_iff.mp hc
  have hroot := root_ne_of_validate hv
  have admits := admits_of_validate hv
  have hh := receives_outcome h hroot admits cs
  have hg := receives_outcome g hroot admits cs
  rw [hid] at hcs hh
  refine ⟨_, _, compile_ok_iff.mpr ⟨b, cs, hv, hcs, rfl, rfl⟩,
    ⟨_, _, _, rfl, plays_generated hcs, hh, hg⟩, fun n => ?_⟩
  rw [mem_requested_iff, mem_requested_iff]

/-- One layer for a host without channels, and for one with an earlier compilation. -/
theorem compile_independent_sample : ∃ h' g' : Host Float32, ∃ r s,
    compile (.empty "demo") Sample.parameters Sample.options = .ok (h', r) ∧
    compile Sample.leftover Sample.parameters Sample.options = .ok (g', s) ∧
    h'.layers.getLast? = g'.layers.getLast? ∧
    ∀ n, n ∈ r.created ∨ n ∈ r.reused ↔ n ∈ s.created ∨ n ∈ s.reused := by
  have hok : (compile (.empty "demo") Sample.parameters Sample.options).isOk = true := by
    decide +kernel
  obtain ⟨⟨h', r⟩, hc⟩ := exists_of_isOk hok
  obtain ⟨-, hsucceeds⟩ := compile_independent (h := .empty "demo") (g := Sample.leftover) rfl
    Sample.parameters Sample.options
  obtain ⟨g', s, hc', ⟨l, clips, f, -, -, hh, hg⟩, hrequested⟩ := hsucceeds h' r hc
  refine ⟨h', g', r, s, hc, hc', ?_, hrequested⟩
  rw [hh.layers, hg.layers, List.getLast?_concat, List.getLast?_concat]

end Compile

end BlendGraph
