import BlendGraph.Proofs.Naming.ClipOrigins

/-!
# Rejected lists

A compilation fails only in the checks at its beginning. Whatever the host has, every request of a
list that passes them is met, and every clip of it is recorded.
-/

set_option autoImplicit false

namespace BlendGraph

variable {α : Type} [Scalar α]

namespace Compile

variable {ns : Namespace} {ps : List (Parameter α)} {o : CompileOptions} {e : CompileError α}

/-- The cause of an error: a fault of the namespace, of one of the parameters, alone or among those
before it, or of the list as a whole. No channel and no clip is a cause. -/
inductive Rejects (o : CompileOptions) (ps : List (Parameter α)) : CompileError α → Prop
  | emptyNamespace (blank : Text.isBlank o.names.root = true) : Rejects o ps .emptyNamespace
  | emptyName (p : Parameter α) (hp : p ∈ ps) (blank : Text.isBlank p.name = true) :
      Rejects o ps .emptyName
  | smoothness (p : Parameter α) (hp : p ∈ ps) (s : Observer)
      (outside : Scalar.isUnit (p.smoothness s) = false) :
      Rejects o ps (.smoothness p.name (p.smoothness s))
  | width (p : Parameter α) (hp : p ∈ ps) (wide : maxBits < p.bits) :
      Rejects o ps (.width p.name p.bits)
  | reservedName (p : Parameter α) (hp : p ∈ ps) (tagged : o.names.tags p.name = true) :
      Rejects o ps (.reservedName p.name o.names.root)
  | duplicateParameter (before after : List (Parameter α)) (p : Parameter α)
      (hps : ps = before ++ p :: after) (seen : p.name ∈ before.map Parameter.name) :
      Rejects o ps (.duplicateParameter p.name)
  | overBudget (exceeds : o.capacity < totalCost ps) :
      Rejects o ps (.overBudget (totalCost ps) o.capacity)

/-! ### The checks -/

theorem rejects_of_fault? {p : Parameter α} (hp : p ∈ ps) (h : p.fault? = some e) :
    Rejects o ps e := by
  unfold Parameter.fault? at h
  split at h
  · next blank =>
    obtain rfl := Option.some.inj h
    exact .emptyName p hp blank
  · split at h
    · next s hs =>
      obtain rfl := Option.some.inj h
      exact .smoothness p hp s (by simpa using List.find?_some hs)
    · split at h
      · next wide =>
        obtain rfl := Option.some.inj h
        exact .width p hp wide
      · cases h

/-- The first fault of a list is one of a parameter alone, or of its name among those before it. -/
theorem exists_of_listFault? {seen : List String} (h : listFault? ns seen ps = some e) :
    ∃ before p after, ps = before ++ p :: after ∧ (p.fault? = some e ∨
      nameFault? ns ((before.map Parameter.name).reverse ++ seen) p = some e) := by
  induction ps generalizing seen with
  | nil => cases h
  | cons p ps ih =>
    rw [listFault?, Option.or_eq_some_iff] at h
    rcases h with h | ⟨-, h⟩
    · refine ⟨[], p, ps, rfl, ?_⟩
      rw [Option.or_eq_some_iff] at h
      exact h.imp_right And.right
    · obtain ⟨before, q, after, rfl, hq⟩ := ih h
      refine ⟨p :: before, q, after, rfl, ?_⟩
      simpa using hq

theorem rejects_of_validate (h : validate ps o = .error e) : Rejects o ps e := by
  unfold validate at h
  split at h
  · next blank =>
    cases h
    exact .emptyNamespace blank
  · split at h
    · next hfault =>
      cases h
      obtain ⟨before, p, after, rfl, hp⟩ := exists_of_listFault? hfault
      have hmem : p ∈ before ++ p :: after := by simp
      rcases hp with hp | hp
      · exact rejects_of_fault? hmem hp
      · unfold nameFault? at hp
        split at hp
        · next tagged =>
          obtain rfl := Option.some.inj hp
          exact .reservedName p hmem tagged
        · split at hp
          · next seen =>
            obtain rfl := Option.some.inj hp
            exact .duplicateParameter before after p rfl (by simpa using seen)
          · cases hp
    · unfold checkBudget at h
      split at h
      · cases h
      · next exceeds =>
        cases h
        exact .overBudget (Nat.lt_of_not_le exceeds)

/-! ### Compilations -/

variable [LawfulScalar α]

/-- A compilation fails if and only if the checks do, with the same error, and a fault of the list
is its cause. Once a list has passed them, neither a channel nor a clip nor a width is refused,
whatever the host has and whether bits are hidden or not. -/
theorem compile_error_iff (h : Host α) (ps : List (Parameter α)) (o : CompileOptions) :
    (∀ e, compile h ps o = .error e ↔ validate ps o = .error e) ∧
    (∀ e, compile h ps o = .error e → Rejects o ps e) ∧
    ∀ b, validate ps o = .ok b →
      ∃ built, (synthesize h ps o).run (.ofHost h o.names) = .ok built := by
  have hiff : ∀ e, compile h ps o = .error e ↔ validate ps o = .error e := by
    intro e
    cases hv : validate ps o with
    | error e' => simp [compile, hv, bind, Except.bind]
    | ok b =>
      obtain ⟨cs, r, -, hc⟩ := exists_compile (h := h) hv
      simp [hc]
  refine ⟨hiff, fun e he => rejects_of_validate ((hiff e).mp he), fun b hv => ?_⟩
  obtain ⟨cs, -, hcs, -⟩ := exists_compile (h := h) hv
  rw [run_synthesize fun p hp => (admits_of_validate hv).width hp, hcs]
  exact ⟨_, rfl⟩

theorem compile_error_sample :
    Rejects Sample.options [.ofName "Jaw", .ofName "Jaw"]
      (.duplicateParameter "Jaw" : CompileError Float32) ∧
    ∃ built, (synthesize Sample.host Sample.parameters Sample.options).run
      (.ofHost Sample.host Sample.options.names) = .ok built := by
  constructor
  · apply (compile_error_iff Sample.host [.ofName "Jaw", .ofName "Jaw"] Sample.options).2.1
    apply ((compile_error_iff Sample.host [.ofName "Jaw", .ofName "Jaw"] Sample.options).1 _).mpr
    decide +kernel
  · have hok : (validate Sample.parameters Sample.options).isOk = true := by decide +kernel
    obtain ⟨b, hv⟩ := exists_of_isOk hok
    exact (compile_error_iff Sample.host Sample.parameters Sample.options).2.2 b hv

end Compile

end BlendGraph
