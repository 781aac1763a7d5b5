import BlendGraph.Proofs.Compile.AdmittedLists
import BlendGraph.Setup.Fault

/-!
# Setups and compilations

A setup is checked for all faults at once and a parameter list for its first one. Parameters and
budgets pass the one check if and only if they pass the other. The roots do not: a root of white
space passes the check of a setup, and every compilation under it is rejected.
-/

set_option autoImplicit false

namespace BlendGraph

variable {α : Type} [Scalar α]

/-! ### Parameters -/

/-- All faults of a parameter alone, or only the first one: there is none or there is none. -/
theorem Parameter.faults_eq_nil_iff {p : Parameter α} {index : Nat} :
    p.faults index = [] ↔ p.fault? = none := by
  have hunits : ([Observer.owner, .remote].filter fun o => !Scalar.isUnit (p.smoothness o)) = []
      ↔ (Observer.all.find? fun o => !Scalar.isUnit (p.smoothness o)) = none := by
    rw [List.filter_eq_nil_iff, List.find?_eq_none]
    simp [Observer.all, and_comm]
  unfold faults fault?
  rw [List.append_eq_nil_iff, List.append_eq_nil_iff, List.map_eq_nil_iff, hunits]
  cases Text.isBlank p.name with
  | true => simp
  | false =>
    cases Observer.all.find? fun o => !Scalar.isUnit (p.smoothness o) with
    | some o => simp
    | none => by_cases hbits : maxBits < p.bits <;> simp [hbits]

theorem Parameter.name_ne_of_fault? {p : Parameter α} (h : p.fault? = none) : p.name ≠ "" := by
  intro hname
  simp [fault?, hname, Text.isBlank] at h

namespace Setup

omit [Scalar α] in
/-- A name that is not empty has a fault in a setup if and only if a compilation finds one. -/
theorem nameFaults_eq_nil_iff {root : String} {seen : List String} {p : Parameter α}
    (hname : p.name ≠ "") : (nameFaults root seen p.name : List (SetupFault α)) = []
      ↔ Compile.nameFault? ⟨root⟩ seen p = none := by
  rw [Compile.nameFault?_eq_none_iff, ← Bool.not_eq_true, Namespace.tags]
  simp [nameFaults, hname, and_comm]

/-- The walk that lists all faults finds none if and only if the walk that stops at the first one
does. -/
theorem parameterFaults_eq_nil_iff {root : String} {index : Nat} {seen : List String}
    {ps : List (Parameter α)} : parameterFaults root index seen ps = []
      ↔ Compile.listFault? ⟨root⟩ seen ps = none := by
  induction ps generalizing index seen with
  | nil => exact iff_of_true rfl rfl
  | cons p ps ih =>
    rw [parameterFaults, List.append_eq_nil_iff, List.append_eq_nil_iff, ih, Compile.listFault?,
      Option.or_eq_none_iff, Option.or_eq_none_iff, Parameter.faults_eq_nil_iff]
    refine and_congr_left fun _ => and_congr_right fun hp => ?_
    exact nameFaults_eq_nil_iff (Parameter.name_ne_of_fault? hp)

/-! ### Setups -/

omit [Scalar α] in
theorem rootFaults_eq_nil_iff {root : String} :
    (rootFaults root : List (SetupFault α)) = [] ↔ root ≠ "" ∧ '/' ∉ root.toList := by
  unfold rootFaults
  by_cases hroot : root = ""
  · simp [hroot]
  · by_cases hslash : '/' ∈ root.toList <;> simp [hroot, hslash]

omit [Scalar α] in
theorem budgetFaults_eq_nil_iff {ps : List (Parameter α)} {capacity : Nat} :
    budgetFaults ps (some capacity) = [] ↔ totalCost ps ≤ capacity := by
  by_cases hcost : capacity < totalCost ps
  · simp [budgetFaults, hcost]
  · simp [budgetFaults, Nat.le_of_not_lt hcost]

theorem validate_eq_ok_iff_faults {s : Setup α} : s.validate = .ok () ↔ s.faults = [] := by
  rw [← SetupError.ofFaults?_eq_none_iff, validate]
  cases SetupError.ofFaults? s.faults <;> simp

variable {s : Setup α} {capacity : Nat}

/-- What the check of a setup with a capacity of its own asks for. -/
theorem validate_eq_ok_iff (fixed : s.capacity = some capacity) : s.validate = .ok () ↔
    (s.root ≠ "" ∧ '/' ∉ s.root.toList) ∧ Compile.Admits s.names s.parameters ∧
      totalCost s.parameters ≤ capacity := by
  have hlist : parameterFaults s.root 0 [] s.parameters = []
      ↔ Compile.Admits s.names s.parameters := by
    rw [parameterFaults_eq_nil_iff, Compile.listFault?_eq_none_iff]
    simp [names]
  rw [validate_eq_ok_iff_faults, faults, fixed, List.append_eq_nil_iff, List.append_eq_nil_iff,
    rootFaults_eq_nil_iff, hlist, budgetFaults_eq_nil_iff, and_assoc]

end Setup

namespace Compile

/-- What the check of a compilation asks for. -/
theorem validate_ok_iff {ps : List (Parameter α)} {o : CompileOptions} :
    (∃ b, validate ps o = .ok b) ↔ Text.isBlank o.names.root = false ∧ Admits o.names ps ∧
      totalCost ps ≤ o.capacity := by
  constructor
  · rintro ⟨b, hv⟩
    refine ⟨?_, admits_of_validate hv, totalCost_le_of_validate hv⟩
    rw [← Bool.not_eq_true]
    intro hblank
    rw [validate, if_pos hblank] at hv
    cases hv
  · rintro ⟨hblank, admits, hcost⟩
    have hlist : listFault? o.names [] ps = none :=
      listFault?_eq_none_iff.mpr ⟨admits, by simp⟩
    refine ⟨⟨o.capacity, totalCost ps, hcost⟩, ?_⟩
    simp [validate, hblank, hlist, checkBudget, hcost]

end Compile

namespace Setup

variable {s : Setup α} {capacity : Nat}

/-- A setup with a capacity of its own passes its check if its list compiles and its root has no
separator. The other way round this holds but for roots of white space: the two checks agree on a
setup if and only if its root is none of these, or something else is wrong with it. -/
theorem validate_agrees_iff (fixed : s.capacity = some capacity) (available : Nat) :
    ('/' ∉ s.root.toList →
      (∃ b, Compile.validate s.parameters (s.compileOptions available) = .ok b) →
        s.validate = .ok ()) ∧
    (s.validate = .ok () → '/' ∉ s.root.toList ∧
      ((∃ b, Compile.validate s.parameters (s.compileOptions available) = .ok b) ∨
        Text.isBlank s.root = true ∧
          Compile.validate s.parameters (s.compileOptions available) = .error .emptyNamespace)) ∧
    ((s.validate = .ok () ↔ '/' ∉ s.root.toList ∧
        ∃ b, Compile.validate s.parameters (s.compileOptions available) = .ok b) ↔
      ¬ (s.root ≠ "" ∧ Text.isBlank s.root = true ∧ Compile.Admits s.names s.parameters ∧
        totalCost s.parameters ≤ capacity)) := by
  have hcompiles : (∃ b, Compile.validate s.parameters (s.compileOptions available) = .ok b) ↔
      Text.isBlank s.root = false ∧ Compile.Admits s.names s.parameters ∧
        totalCost s.parameters ≤ capacity := by
    rw [Compile.validate_ok_iff, compileOptions, fixed]
    rfl
  have hempty : Text.isBlank s.root = false → s.root ≠ "" := by
    intro hblank hroot
    simp [hroot, Text.isBlank] at hblank
  have hslash : Text.isBlank s.root = true → '/' ∉ s.root.toList := by
    intro hblank hmem
    have hspace := List.all_eq_true.mp hblank _ hmem
    revert hspace
    decide
  have hrejects : Text.isBlank s.root = true →
      Compile.validate s.parameters (s.compileOptions available) = .error .emptyNamespace :=
    fun hblank => if_pos hblank
  rw [validate_eq_ok_iff fixed, hcompiles]
  refine ⟨?_, ?_, ?_⟩
  · rintro hplain ⟨hblank, admits, hcost⟩
    exact ⟨⟨hempty hblank, hplain⟩, admits, hcost⟩
  · rintro ⟨⟨-, hplain⟩, admits, hcost⟩
    cases hblank : Text.isBlank s.root with
    | true => exact ⟨hplain, .inr ⟨rfl, hrejects hblank⟩⟩
    | false => exact ⟨hplain, .inl ⟨rfl, admits, hcost⟩⟩
  · cases hblank : Text.isBlank s.root with
    | true => simp [hslash hblank]
    | false => simp [hempty hblank]

/-! ### Two setups -/

/-- A setup that passes both checks. -/
def Sample.setup : Setup Float32 :=
  { (ofName "demo" : Setup Float32) with
    capacity := some 16, parameters := [.ofName "Jaw", .ofName "Mouth/Lips"] }

theorem validate_agrees_sample : Sample.setup.capacity = some 16 ∧ Sample.setup.validate = .ok () ∧
    ∀ available, ∃ b, Compile.validate Sample.setup.parameters
      (Sample.setup.compileOptions available) = .ok b := by
  have hv : Sample.setup.validate = .ok () := validate_eq_ok_iff_faults.mpr (by decide +kernel)
  have hroot : Text.isBlank Sample.setup.root = false := by decide +kernel
  refine ⟨rfl, hv, fun available => ?_⟩
  have hagree := (validate_agrees_iff (s := Sample.setup) rfl available).2.2.mpr fun hblank =>
    Bool.eq_false_iff.mp hroot hblank.2.1
  exact (hagree.mp hv).2

/-- A setup under a root of white space. -/
def Sample.blankSetup : Setup Float32 :=
  { Sample.setup with root := " " }

theorem validate_disagrees : Sample.blankSetup.capacity = some 16 ∧
    '/' ∉ Sample.blankSetup.root.toList ∧ Sample.blankSetup.validate = .ok () ∧
    ∀ available, Compile.validate Sample.blankSetup.parameters
      (Sample.blankSetup.compileOptions available) = .error .emptyNamespace := by
  have hblank : Text.isBlank Sample.blankSetup.root = true := by decide +kernel
  have hv : Sample.blankSetup.validate = .ok () :=
    validate_eq_ok_iff_faults.mpr (by decide +kernel)
  exact ⟨rfl, by decide +kernel, hv, fun _ => if_pos hblank⟩

end Setup

end BlendGraph
