import BlendGraph.Host.Summary
import Mathlib.Data.List.Basic
import Mathlib.Data.List.Flatten

/-!
# Listed references

A summary lists, for each layer, the references of all layers of its name. The lists make up the
references of the graph, each of them once, if and only if layers that share a name have none.
-/

set_option autoImplicit false

namespace BlendGraph

variable {α β : Type}

/-! ### References by layer -/

theorem Layer.layer_of_mem_references {l : Layer α} {r : Reference} (h : r ∈ l.references) :
    r.layer = l.name := by
  obtain ⟨s, -, hr⟩ := List.mem_flatMap.mp h
  obtain ⟨site, -, rfl⟩ := List.mem_map.mp hr
  rfl

/-- References are chosen by their layers as the layers are chosen by their names. -/
theorem Layer.filter_references (test : String → Bool) (ls : List (Layer α)) :
    (ls.flatMap references).filter (fun r => test r.layer)
      = (ls.filter fun l => test l.name).flatMap references := by
  induction ls with
  | nil => rfl
  | cons l ls ih =>
    rw [List.flatMap_cons, List.filter_append, ih]
    cases hl : test l.name with
    | false =>
      have hnone : l.references.filter (fun r => test r.layer) = [] := by
        rw [List.filter_eq_nil_iff]
        intro r hr
        simp [layer_of_mem_references hr, hl]
      rw [hnone, List.filter_cons_of_neg (by simp [hl]), List.nil_append]
    | true =>
      have hall : l.references.filter (fun r => test r.layer) = l.references := by
        rw [List.filter_eq_self]
        intro r hr
        simp [layer_of_mem_references hr, hl]
      rw [hall, List.filter_cons_of_pos (by simp [hl]), List.flatMap_cons]

/-- The references of the layers of a name. -/
def Layer.named (ls : List (Layer α)) (name : String) : List Reference :=
  (ls.filter fun l => l.name == name).flatMap references

/-- Layers that share a name have no references. -/
def Layer.Apart (ls : List (Layer α)) : Prop :=
  ls.Pairwise fun l m => l.name = m.name → l.references = [] ∧ m.references = []

/-- A layer that shares its name with none that has references has those of its name alone. -/
theorem Layer.Apart.named_eq {ls : List (Layer α)} (apart : Apart ls) {l : Layer α} (hl : l ∈ ls) :
    named ls l.name = l.references := by
  induction ls with
  | nil => cases hl
  | cons m ls ih =>
    obtain ⟨hm, apart⟩ := List.pairwise_cons.mp apart
    have hothers (hmem : m ∈ m :: ls) : named ls m.name = [] := by
      refine List.flatMap_eq_nil_iff.mpr fun k hk => ?_
      obtain ⟨hk, hname⟩ := List.mem_filter.mp hk
      exact (hm k hk (eq_of_beq hname).symm).2
    rcases List.mem_cons.mp hl with rfl | hl
    · rw [named, List.filter_cons_of_pos (by simp), List.flatMap_cons, ← named,
        hothers (List.mem_cons_self ..), List.append_nil]
    · by_cases hname : m.name = l.name
      · have hnone := (hm l hl hname).1
        rw [named, List.filter_cons_of_pos (by simp [hname]), List.flatMap_cons, hnone,
          List.nil_append, ← named, ih apart hl]
      · rw [named, List.filter_cons_of_neg (by simp [hname]), ← named, ih apart hl]

/-! ### Lengths -/

theorem tally_le_of_forall {f g : β → Nat} {xs : List β} (h : ∀ x ∈ xs, f x ≤ g x) :
    tally f xs ≤ tally g xs := by
  induction xs with
  | nil => exact Nat.le_refl _
  | cons x xs ih =>
    obtain ⟨hx, hxs⟩ := List.forall_mem_cons.mp h
    exact Nat.add_le_add hx (ih hxs)

/-- Counts that are at most others in every place and make up the same total are the same. -/
theorem eq_of_tally_eq {f g : β → Nat} {xs : List β} (h : ∀ x ∈ xs, f x ≤ g x)
    (heq : tally g xs = tally f xs) : ∀ x ∈ xs, g x = f x := by
  induction xs with
  | nil => exact List.forall_mem_nil _
  | cons x xs ih =>
    obtain ⟨hx, hxs⟩ := List.forall_mem_cons.mp h
    have hle := tally_le_of_forall hxs
    rw [tally_cons, tally_cons] at heq
    exact List.forall_mem_cons.mpr ⟨by omega, ih hxs (by omega)⟩

theorem Layer.length_named_le {ls ks : List (Layer α)} (h : ks.Sublist ls) (name : String) :
    (named ks name).length ≤ (named ls name).length :=
  ((h.filter _).flatMap _).length_le

/-- If all layers of a name have as many references together as each of them alone, two of them have
none. -/
theorem Layer.apart_of_length {ls : List (Layer α)}
    (h : ∀ l ∈ ls, (named ls l.name).length = l.references.length) : Apart ls := by
  refine List.pairwise_iff_forall_sublist.mpr fun {l m} hsub hname => ?_
  have hl := h l (hsub.subset (by simp))
  have hm := h m (hsub.subset (by simp))
  have hboth := length_named_le hsub l.name
  have hpair : named [l, m] l.name = l.references ++ m.references := by
    simp [named, hname]
  rw [hpair, List.length_append, hl] at hboth
  rw [← hname, hl] at hm
  exact ⟨List.length_eq_zero_iff.mp (by omega), List.length_eq_zero_iff.mp (by omega)⟩

/-! ### Summaries -/

namespace Host

variable [Scalar α]

/-- The entries of a summary, layer after layer. -/
def entries (h : Host α) : List String :=
  h.summary.layers.flatMap fun l => l.references.map Reference.text

theorem layers_summary (h : Host α) :
    h.summary.layers
      = h.layers.map fun l => ⟨l.name, l.states.length, Layer.named h.layers l.name⟩ :=
  List.map_congr_left fun l _ => congrArg (LayerSummary.mk l.name l.states.length)
    (Layer.filter_references (· == l.name) h.layers)

theorem entries_eq (h : Host α) :
    h.entries = (h.layers.flatMap fun l => Layer.named h.layers l.name).map Reference.text := by
  rw [entries, layers_summary, List.flatMap_map, List.map_flatMap]

/-- Each layer of a summary has the references of all layers of its name. So there is one entry for
each reference of the graph, in the order of the references, if and only if layers that share a name
have no references. -/
theorem entries_eq_iff (h : Host α) :
    h.summary.layers.map LayerSummary.references
        = h.layers.map (fun l => (h.layers.filter fun m => m.name == l.name).flatMap
          Layer.references) ∧
      (h.entries = h.references.map Reference.text ↔
        h.layers.Pairwise fun l m => l.name = m.name → l.references = [] ∧ m.references = []) := by
  refine ⟨by rw [layers_summary, List.map_map]; rfl, fun heq => ?_, fun apart => ?_⟩
  · apply Layer.apart_of_length
    refine eq_of_tally_eq (fun l hl => ?_) ?_
    · have hsub := Layer.length_named_le (List.singleton_sublist.mpr hl) l.name
      simpa [Layer.named] using hsub
    · have hlength := congrArg List.length heq
      rw [entries_eq, List.length_map, List.length_map, references, length_flatMap_eq_tally,
        length_flatMap_eq_tally] at hlength
      exact hlength
  · rw [entries_eq, references]
    refine congrArg _ (List.flatMap_congr fun l hl => ?_)
    exact Layer.Apart.named_eq apart hl

/-- Two layers of one name, each with a reference. -/
def Sample.twins : Host Float32 :=
  { empty "demo" with
    layers := [⟨"Face", [⟨"Open", none, some "Jaw", none, none, none⟩]⟩,
      ⟨"Face", [⟨"Shut", none, none, some "Lips", none, none⟩]⟩] }

theorem entries_doubled :
    Sample.twins.references.map Reference.text = ["Open:time:Jaw", "Shut:speed:Lips"] ∧
    Sample.twins.entries
      = ["Open:time:Jaw", "Shut:speed:Lips", "Open:time:Jaw", "Shut:speed:Lips"] ∧
    Sample.twins.entries ≠ Sample.twins.references.map Reference.text := by
  decide +kernel

end Host

end BlendGraph
