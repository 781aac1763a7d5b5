import BlendGraph.Compile

/-!
# Admitted lists

A list passes the checks of a compilation if no parameter of it has a fault, alone or among the
others, and the budget holds it.
-/

set_option autoImplicit false

namespace BlendGraph

variable {α : Type} [Scalar α]

/-- A computation that is seen to succeed has a result. -/
theorem exists_of_isOk {ε β : Type} {x : Except ε β} (h : x.isOk = true) : ∃ a, x = .ok a := by
  cases x with
  | error e => cases h
  | ok a => exact ⟨a, rfl⟩

/-- A computation whose result is seen to pass a test has such a result. -/
theorem exists_of_any_toOption {ε β : Type} {x : Except ε β} {test : β → Bool}
    (h : x.toOption.any test = true) : ∃ a, x = .ok a ∧ test a = true := by
  cases x with
  | error e => cases h
  | ok a => exact ⟨a, rfl, h⟩

namespace Compile

/-- No parameter of the list has a fault, alone or among the others. -/
structure Admits (ns : Namespace) (ps : List (Parameter α)) : Prop where
  sound : ∀ p ∈ ps, p.fault? = none
  untagged : ∀ p ∈ ps, ns.tags p.name = false
  nodup : (ps.map Parameter.name).Nodup

omit [Scalar α] in
theorem nameFault?_eq_none_iff {ns : Namespace} {seen : List String} {p : Parameter α} :
    nameFault? ns seen p = none ↔ ns.tags p.name = false ∧ p.name ∉ seen := by
  unfold nameFault?
  cases ns.tags p.name with
  | true => simp
  | false => simp

theorem listFault?_eq_none_iff {ns : Namespace} {seen : List String} {ps : List (Parameter α)} :
    listFault? ns seen ps = none ↔ Admits ns ps ∧ ∀ p ∈ ps, p.name ∉ seen := by
  induction ps generalizing seen with
  | nil => exact ⟨fun _ => ⟨⟨nofun, nofun, .nil⟩, nofun⟩, fun _ => rfl⟩
  | cons p ps ih =>
    rw [listFault?, Option.or_eq_none_iff, Option.or_eq_none_iff, nameFault?_eq_none_iff, ih]
    constructor
    · rintro ⟨⟨hp, htag, hseen⟩, h, hps⟩
      have hfresh : p.name ∉ ps.map Parameter.name := by
        intro hmem
        obtain ⟨q, hq, heq⟩ := List.mem_map.mp hmem
        exact hps q hq (heq ▸ List.mem_cons_self ..)
      exact ⟨⟨List.forall_mem_cons.mpr ⟨hp, h.sound⟩,
          List.forall_mem_cons.mpr ⟨htag, h.untagged⟩, List.nodup_cons.mpr ⟨hfresh, h.nodup⟩⟩,
        List.forall_mem_cons.mpr ⟨hseen, fun q hq hmem => hps q hq (List.mem_cons_of_mem _ hmem)⟩⟩
    · rintro ⟨h, hseen⟩
      obtain ⟨hp, hsound⟩ := List.forall_mem_cons.mp h.sound
      obtain ⟨htag, huntagged⟩ := List.forall_mem_cons.mp h.untagged
      obtain ⟨hfresh, hnodup⟩ := List.nodup_cons.mp h.nodup
      obtain ⟨hpseen, hpsseen⟩ := List.forall_mem_cons.mp hseen
      refine ⟨⟨hp, htag, hpseen⟩, ⟨hsound, huntagged, hnodup⟩, fun q hq hmem => ?_⟩
      rcases List.mem_cons.mp hmem with heq | hmem
      · exact hfresh (heq ▸ List.mem_map_of_mem hq)
      · exact hpsseen q hq hmem

variable {ps : List (Parameter α)} {o : CompileOptions} {b : Budget}

theorem admits_of_validate (h : validate ps o = .ok b) : Admits o.names ps := by
  unfold validate at h
  split at h
  · cases h
  · split at h
    · cases h
    · next hf => exact (listFault?_eq_none_iff.mp hf).1

theorem root_ne_of_validate (h : validate ps o = .ok b) : o.names.root ≠ "" := by
  intro hroot
  simp [validate, hroot, Text.isBlank] at h

theorem totalCost_le_of_validate (h : validate ps o = .ok b) : totalCost ps ≤ o.capacity := by
  unfold validate at h
  split at h
  · cases h
  · split at h
    · cases h
    · unfold checkBudget at h
      split at h
      · next hle => exact hle
      · cases h

theorem bits_le_of_fault? {p : Parameter α} (h : p.fault? = none) : p.bits ≤ maxBits := by
  unfold Parameter.fault? at h
  split at h
  · cases h
  · split at h
    · cases h
    · split at h
      · cases h
      · next hbits => exact Nat.le_of_not_lt hbits

theorem isUnit_of_fault? {p : Parameter α} (h : p.fault? = none) (o : Observer) :
    Scalar.isUnit (p.smoothness o) = true := by
  unfold Parameter.fault? at h
  split at h
  · cases h
  · split at h
    · cases h
    · next hnone =>
      have ho : o ∈ Observer.all := by cases o <;> simp [Observer.all]
      simpa using List.find?_eq_none.mp hnone o ho

/-- No parameter is named like a channel that carries the root. -/
theorem Admits.name_ne {ns : Namespace} (h : Admits ns ps) {p : Parameter α} (hp : p ∈ ps)
    {n : String} (htag : ns.tags n = true) : p.name ≠ n := by
  rintro rfl
  rw [h.untagged p hp] at htag
  cases htag

theorem Admits.width {ns : Namespace} (h : Admits ns ps) {p : Parameter α} (hp : p ∈ ps)
    (hq : p.isQuantized = true) : Decoder.isWidth p.bits = true := by
  have hbits := bits_le_of_fault? (h.sound p hp)
  simp only [Parameter.isQuantized, decide_eq_true_eq] at hq
  simp [Decoder.isWidth, hq, hbits]

end Compile

end BlendGraph
