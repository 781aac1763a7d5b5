import BlendGraph.Proofs.Naming.ClipOrigins
import Mathlib.Data.List.Induction

/-!
# Runs of compilations

Lists are compiled one after another into a host, under one root. What holds of a host before a run
and is carried from call to call holds after the run.
-/

set_option autoImplicit false

namespace BlendGraph

variable {α : Type} [Scalar α]

/-- A compilation under a given namespace. -/
structure Call (α : Type) where
  parameters : List (Parameter α)
  hideBits : Bool
  capacity : Nat

def Call.options (c : Call α) (ns : Namespace) : CompileOptions := ⟨ns, c.hideBits, c.capacity⟩

/-- Compiles one list after another into the host. -/
def compileAll (ns : Namespace) (h : Host α) :
    List (Call α) → Except (CompileError α) (Host α × List CompileReport)
  | [] => .ok (h, [])
  | c :: cs => do
    let first ← Compile.compile h c.parameters (c.options ns)
    let rest ← compileAll ns first.1 cs
    return (rest.1, first.2 :: rest.2)

theorem compileAll_cons_ok_iff {ns : Namespace} {h g : Host α} {c : Call α} {cs : List (Call α)}
    {rs : List CompileReport} : compileAll ns h (c :: cs) = .ok (g, rs) ↔
      ∃ h' r rs', Compile.compile h c.parameters (c.options ns) = .ok (h', r) ∧
        compileAll ns h' cs = .ok (g, rs') ∧ rs = r :: rs' := by
  rw [compileAll]
  cases hc : Compile.compile h c.parameters (c.options ns) with
  | error e => simp [bind, Except.bind]
  | ok x =>
    obtain ⟨h', r⟩ := x
    cases hcs : compileAll ns h' cs with
    | error e => simp [bind, Except.bind, hcs]
    | ok y =>
      obtain ⟨g', rs'⟩ := y
      simp only [bind, Except.bind, hcs, pure, Except.pure, Except.ok.injEq, Prod.mk.injEq]
      constructor
      · rintro ⟨rfl, rfl⟩
        exact ⟨h', r, rs', ⟨rfl, rfl⟩, ⟨hcs, rfl⟩⟩
      · rintro ⟨h'', r', rs'', ⟨rfl, rfl⟩, h2, rfl⟩
        simp_all

/-- The calls of a run are added one by one. -/
theorem compileAll_append_ok_iff {ns : Namespace} {h g : Host α} {before : List (Call α)}
    {c : Call α} {rs : List CompileReport} :
    compileAll ns h (before ++ [c]) = .ok (g, rs) ↔
      ∃ g' rs' r, compileAll ns h before = .ok (g', rs') ∧
        Compile.compile g' c.parameters (c.options ns) = .ok (g, r) ∧ rs = rs' ++ [r] := by
  induction before generalizing h rs with
  | nil =>
    rw [List.nil_append, compileAll_cons_ok_iff]
    constructor
    · rintro ⟨g', r, rs', hc, hrest, rfl⟩
      cases hrest
      exact ⟨h, [], r, rfl, hc, rfl⟩
    · rintro ⟨g', rs', r, hrun, hc, rfl⟩
      cases hrun
      exact ⟨g, r, [], hc, rfl, rfl⟩
  | cons d before ih =>
    rw [List.cons_append, compileAll_cons_ok_iff]
    constructor
    · rintro ⟨h', r₀, rs₀, hd, hrest, rfl⟩
      obtain ⟨g', rs', r, hrun, hc, rfl⟩ := ih.mp hrest
      exact ⟨g', r₀ :: rs', r, compileAll_cons_ok_iff.mpr ⟨h', r₀, rs', hd, hrun, rfl⟩, hc, rfl⟩
    · rintro ⟨g', rs', r, hrun, hc, rfl⟩
      obtain ⟨h', r₀, rs₀, hd, hrest, rfl⟩ := compileAll_cons_ok_iff.mp hrun
      exact ⟨h', r₀, rs₀ ++ [r], hd, ih.mpr ⟨g', rs₀, r, hrest, hc, rfl⟩, rfl⟩

/-- A property of the calls made so far and of the host they led to. -/
theorem compileAll_induction {ns : Namespace} {h : Host α} {motive : List (Call α) → Host α → Prop}
    (start : motive [] h)
    (step : ∀ before g c g' r, motive before g →
      Compile.compile g c.parameters (c.options ns) = .ok (g', r) → motive (before ++ [c]) g')
    {calls : List (Call α)} {g : Host α} {rs : List CompileReport}
    (hrun : compileAll ns h calls = .ok (g, rs)) : motive calls g := by
  induction calls using List.reverseRecOn generalizing g rs with
  | nil => cases hrun; exact start
  | append_singleton before c ih =>
    obtain ⟨g', rs', r, hrun, hc, -⟩ := compileAll_append_ok_iff.mp hrun
    exact step before g' c g r (ih hrun) hc

/-! ### Runs that succeed -/

namespace Compile

variable {h g : Host α} {ps : List (Parameter α)} {o : CompileOptions}

theorem id_of_compile {r : CompileReport} (hc : compile h ps o = .ok (g, r)) : g.id = h.id := by
  obtain ⟨b, cs, hv, hcs, rfl, rfl⟩ := compile_ok_iff.mp hc
  rw [outcome_fst (root_ne_of_validate hv) (admits_of_validate hv)]

/-- What compiles into one host compiles into any other of the same identifier. -/
theorem compile_of_id (hid : g.id = h.id) (hc : ∃ x, compile h ps o = .ok x) :
    ∃ x, compile g ps o = .ok x := by
  obtain ⟨⟨h', r⟩, hc⟩ := hc
  obtain ⟨b, cs, hv, hcs, -, -⟩ := compile_ok_iff.mp hc
  exact ⟨_, compile_ok_iff.mpr ⟨b, cs, hv, hid ▸ hcs, rfl, rfl⟩⟩

end Compile

theorem compileAll_ok_iff {ns : Namespace} {h : Host α} {calls : List (Call α)} :
    (∃ x, compileAll ns h calls = .ok x)
      ↔ ∀ c ∈ calls, ∃ x, Compile.compile h c.parameters (c.options ns) = .ok x := by
  induction calls generalizing h with
  | nil => exact ⟨fun _ => nofun, fun _ => ⟨(h, []), rfl⟩⟩
  | cons c calls ih =>
    constructor
    · rintro ⟨⟨g, rs⟩, hrun⟩
      obtain ⟨h', r, rs', hc, hrest, -⟩ := compileAll_cons_ok_iff.mp hrun
      have hid := Compile.id_of_compile hc
      refine List.forall_mem_cons.mpr ⟨⟨_, hc⟩, fun d hd => ?_⟩
      exact Compile.compile_of_id hid.symm (ih.mp ⟨_, hrest⟩ d hd)
    · intro hall
      obtain ⟨⟨⟨h', r⟩, hc⟩, hcalls⟩ := List.forall_mem_cons.mp hall
      have hid := Compile.id_of_compile hc
      obtain ⟨⟨g, rs⟩, hrest⟩ := ih.mpr fun d hd => Compile.compile_of_id hid (hcalls d hd)
      exact ⟨_, compileAll_cons_ok_iff.mpr ⟨h', r, rs, hc, hrest, rfl⟩⟩

theorem root_ne_of_compileAll {ns : Namespace} {h g : Host α} {calls : List (Call α)}
    {rs : List CompileReport} (hne : calls ≠ []) (hrun : compileAll ns h calls = .ok (g, rs)) :
    ns.root ≠ "" := by
  obtain ⟨c, calls, rfl⟩ := List.exists_cons_of_ne_nil hne
  obtain ⟨h', r, rs', hc, -, -⟩ := compileAll_cons_ok_iff.mp hrun
  obtain ⟨b, cs, hv, -⟩ := Compile.compile_ok_iff.mp hc
  exact Compile.root_ne_of_validate hv

/-- Lists that pass the checks compile one after another into every host. -/
theorem exists_compileAll [LawfulScalar α] (ns : Namespace) (calls : List (Call α)) (h : Host α)
    (hv : ∀ c ∈ calls, (Compile.validate c.parameters (c.options ns)).isOk = true) :
    ∃ g rs, compileAll ns h calls = .ok (g, rs) := by
  rw [← Prod.exists']
  apply compileAll_ok_iff.mpr
  intro c hc
  have hok := hv c hc
  cases hb : Compile.validate c.parameters (c.options ns) with
  | error e =>
    rw [hb] at hok
    cases hok
  | ok b =>
    obtain ⟨cs, r, -, hcompile⟩ := Compile.exists_compile (h := h) hb
    exact ⟨_, hcompile⟩

end BlendGraph
