import BlendGraph.Setup.Fault
import Mathlib.Data.List.Nodup

/-!
# Faults and rules

A setup keeps to rules, some for the whole and some for each of its parameters. Its faults are the
rules that it breaks, each of them once and in the order of the rules.
-/

set_option autoImplicit false

namespace BlendGraph

variable {α : Type}

/-! ### Rules -/

/-- A rule for setups. Those for a parameter come with its place in the list. -/
inductive SetupRule where
  | root
  | named (index : Nat)
  | ranged (index : Nat) (observer : Observer)
  | narrow (index : Nat)
  | unique (index : Nat)
  | unreserved (index : Nat)
  | budget
  deriving DecidableEq

/-- The rules for the parameter at a place. -/
def SetupRule.ofParameter (index : Nat) : List SetupRule :=
  [named index, ranged index .owner, ranged index .remote, narrow index, unique index,
    unreserved index]

namespace Setup

/-- The rules for a setup, in the order in which they are reported. -/
def rules (s : Setup α) : List SetupRule :=
  .root :: ((List.range s.parameters.length).flatMap SetupRule.ofParameter ++ [.budget])

/-- The setup breaks the rule; the fault says how. -/
inductive Breaks [Scalar α] (s : Setup α) : SetupRule → SetupFault α → Prop where
  | emptyNamespace (empty : s.root = "") : Breaks s .root .emptyNamespace
  | namespaceSeparator (slash : '/' ∈ s.root.toList) :
    Breaks s .root (.namespaceSeparator s.root)
  | emptyName {i : Nat} {p : Parameter α} (at_i : s.parameters[i]? = some p)
    (blank : ∀ c ∈ p.name.toList, Text.isWhiteSpace c = true) :
    Breaks s (.named i) (.emptyName i)
  | outOfRange {i : Nat} {p : Parameter α} (o : Observer) (at_i : s.parameters[i]? = some p)
    (outside : ¬ (Scalar.isFinite (p.smoothness o) = true ∧ 0 ≤ p.smoothness o ∧
      p.smoothness o ≤ 1)) :
    Breaks s (.ranged i o) (.outOfRange p.name o (p.smoothness o))
  | width {i : Nat} {p : Parameter α} (at_i : s.parameters[i]? = some p) (wide : 7 < p.bits) :
    Breaks s (.narrow i) (.width p.name p.bits)
  | duplicateParameter {i j : Nat} {p q : Parameter α} (at_i : s.parameters[i]? = some p)
    (at_j : s.parameters[j]? = some q) (before : j < i) (named : p.name ≠ "")
    (same : q.name = p.name) : Breaks s (.unique i) (.duplicateParameter p.name)
  | reservedName {i : Nat} {p : Parameter α} (at_i : s.parameters[i]? = some p)
    (named : s.root ≠ "") (carried : s.root.toList <:+: p.name.toList) :
    Breaks s (.unreserved i) (.reservedName p.name s.root)
  | overBudget {capacity : Nat} (fixed : s.capacity = some capacity)
    (exceeded : capacity < totalCost s.parameters) :
    Breaks s .budget (.overBudget (totalCost s.parameters) capacity)

/-- The fault that breaks the rule. -/
def fault? [Scalar α] (s : Setup α) : SetupRule → Option (SetupFault α)
  | .root => (rootFaults s.root).head?
  | .named i => s.parameters[i]?.bind fun p =>
    if Text.isBlank p.name then some (.emptyName i) else none
  | .ranged i o => s.parameters[i]?.bind fun p =>
    if Scalar.isUnit (p.smoothness o) then none else some (.outOfRange p.name o (p.smoothness o))
  | .narrow i => s.parameters[i]?.bind fun p =>
    if maxBits < p.bits then some (.width p.name p.bits) else none
  | .unique i => s.parameters[i]?.bind fun p =>
    if p.name ≠ "" ∧ p.name ∈ (s.parameters.take i).map Parameter.name then
      some (.duplicateParameter p.name)
    else none
  | .unreserved i => s.parameters[i]?.bind fun p =>
    if s.root ≠ "" ∧ Text.contains p.name s.root then some (.reservedName p.name s.root) else none
  | .budget => (budgetFaults s.parameters s.capacity).head?

theorem bind_ite_eq_some_iff {β γ : Type} {found : Option β} {c : β → Prop} [DecidablePred c]
    {f : β → γ} {y : γ} :
    (found.bind fun x => if c x then some (f x) else none) = some y
      ↔ ∃ x, found = some x ∧ c x ∧ f x = y := by
  simp [Option.bind_eq_some_iff]

theorem mem_names_take_iff {s : Setup α} {i : Nat} {name : String} :
    name ∈ (s.parameters.take i).map Parameter.name
      ↔ ∃ j q, s.parameters[j]? = some q ∧ j < i ∧ q.name = name := by
  constructor
  · intro h
    obtain ⟨q, hq, hname⟩ := List.mem_map.mp h
    obtain ⟨j, hj⟩ := List.mem_iff_getElem?.mp hq
    rw [List.getElem?_take] at hj
    split at hj
    · next hlt => exact ⟨j, q, hj, hlt, hname⟩
    · cases hj
  · rintro ⟨j, q, hj, hlt, hname⟩
    have hq : (s.parameters.take i)[j]? = some q := by rw [List.getElem?_take, if_pos hlt, hj]
    exact List.mem_map.mpr ⟨q, List.mem_of_getElem? hq, hname⟩

variable [Scalar α]

theorem breaks_of_fault? {s : Setup α} {k : SetupRule} {f : SetupFault α}
    (h : s.fault? k = some f) : s.Breaks k f := by
  cases k with
  | root =>
    rw [fault?, rootFaults] at h
    split at h
    · next hempty => cases h; exact .emptyNamespace hempty
    · split at h
      · next hslash => cases h; exact .namespaceSeparator (by simpa using hslash)
      · cases h
  | named i =>
    obtain ⟨p, hp, hblank, rfl⟩ := bind_ite_eq_some_iff.mp h
    exact .emptyName hp (List.all_eq_true.mp hblank)
  | ranged i o =>
    obtain ⟨p, hp, h⟩ := Option.bind_eq_some_iff.mp h
    split at h
    · cases h
    · next hunit =>
      cases h
      exact .outOfRange o hp (by simpa [Scalar.isUnit, and_assoc] using hunit)
  | narrow i =>
    obtain ⟨p, hp, hwide, rfl⟩ := bind_ite_eq_some_iff.mp h
    exact .width hp hwide
  | unique i =>
    obtain ⟨p, hp, ⟨hnamed, hseen⟩, rfl⟩ := bind_ite_eq_some_iff.mp h
    obtain ⟨j, q, hq, hlt, hname⟩ := mem_names_take_iff.mp hseen
    exact .duplicateParameter hp hq hlt hnamed hname
  | unreserved i =>
    obtain ⟨p, hp, ⟨hnamed, hcarried⟩, rfl⟩ := bind_ite_eq_some_iff.mp h
    exact .reservedName hp hnamed (Text.contains_iff.mp hcarried)
  | budget =>
    rw [fault?] at h
    cases hfixed : s.capacity with
    | none => simp [hfixed, budgetFaults] at h
    | some capacity =>
      rw [hfixed, budgetFaults] at h
      split at h
      · next hover => cases h; exact .overBudget hfixed hover
      · cases h

theorem fault?_of_breaks {s : Setup α} {k : SetupRule} {f : SetupFault α} (h : s.Breaks k f) :
    s.fault? k = some f := by
  cases h with
  | emptyNamespace hempty => simp [fault?, rootFaults, hempty]
  | namespaceSeparator hslash =>
    have hne : s.root ≠ "" := by
      intro hempty
      simp [hempty] at hslash
    simp [fault?, rootFaults, hne, hslash]
  | emptyName hp hblank =>
    exact bind_ite_eq_some_iff.mpr ⟨_, hp, List.all_eq_true.mpr hblank, rfl⟩
  | outOfRange o hp hout => simp [fault?, hp, Scalar.isUnit, and_assoc, hout]
  | width hp hwide => exact bind_ite_eq_some_iff.mpr ⟨_, hp, hwide, rfl⟩
  | duplicateParameter hp hq hlt hnamed hsame =>
    have hseen := mem_names_take_iff.mpr ⟨_, _, hq, hlt, hsame⟩
    exact bind_ite_eq_some_iff.mpr ⟨_, hp, ⟨hnamed, hseen⟩, rfl⟩
  | reservedName hp hnamed hcarried =>
    exact bind_ite_eq_some_iff.mpr ⟨_, hp, ⟨hnamed, Text.contains_iff.mpr hcarried⟩, rfl⟩
  | overBudget hfixed hover => simp [fault?, budgetFaults, hfixed, hover]

/-- A rule is broken by the one fault that is found for it. -/
theorem fault?_eq_some_iff {s : Setup α} {k : SetupRule} {f : SetupFault α} :
    s.fault? k = some f ↔ s.Breaks k f :=
  ⟨breaks_of_fault?, fault?_of_breaks⟩

theorem mem_rules_of_breaks {s : Setup α} {k : SetupRule} {f : SetupFault α} (h : s.Breaks k f) :
    k ∈ s.rules := by
  have hparameter {i : Nat} {p : Parameter α} (hp : s.parameters[i]? = some p)
      (hk : k ∈ SetupRule.ofParameter i) : k ∈ s.rules := by
    obtain ⟨hi, -⟩ := List.getElem?_eq_some_iff.mp hp
    have hmem := List.mem_flatMap.mpr ⟨i, List.mem_range.mpr hi, hk⟩
    exact List.mem_cons_of_mem _ (List.mem_append_left _ hmem)
  cases h with
  | emptyNamespace | namespaceSeparator => exact List.mem_cons_self ..
  | emptyName hp => exact hparameter hp (by simp [SetupRule.ofParameter])
  | outOfRange o hp => exact hparameter hp (by cases o <;> simp [SetupRule.ofParameter])
  | width hp => exact hparameter hp (by simp [SetupRule.ofParameter])
  | duplicateParameter hp => exact hparameter hp (by simp [SetupRule.ofParameter])
  | reservedName hp => exact hparameter hp (by simp [SetupRule.ofParameter])
  | overBudget => simp [rules]

omit [Scalar α] in
theorem nodup_rules (s : Setup α) : s.rules.Nodup := by
  have hplace {i : Nat} {k : SetupRule} (hk : k ∈ SetupRule.ofParameter i) :
      k ≠ .root ∧ k ≠ .budget ∧ ∀ j, k ∈ SetupRule.ofParameter j → j = i := by
    simp only [SetupRule.ofParameter, List.mem_cons, List.not_mem_nil, or_false] at hk
    rcases hk with rfl | rfl | rfl | rfl | rfl | rfl <;> simp [SetupRule.ofParameter]
  have hparameters : ((List.range s.parameters.length).flatMap SetupRule.ofParameter).Nodup := by
    refine List.nodup_flatMap.mpr ⟨fun i _ => by simp [SetupRule.ofParameter], ?_⟩
    refine List.nodup_range.imp fun hne => ?_
    exact fun k hk hk' => hne ((hplace hk').2.2 _ hk)
  refine List.nodup_cons.mpr ⟨?_, hparameters.append (List.nodup_singleton _) ?_⟩
  · intro hmem
    rcases List.mem_append.mp hmem with hmem | hmem
    · obtain ⟨i, -, hk⟩ := List.mem_flatMap.mp hmem
      exact (hplace hk).1 rfl
    · simp at hmem
  · intro k hk hbudget
    obtain ⟨i, -, hk⟩ := List.mem_flatMap.mp hk
    exact (hplace hk).2.1 (List.mem_singleton.mp hbudget)

/-! ### Lists of faults -/

theorem faults_at {s : Setup α} {i : Nat} {p : Parameter α} (hp : s.parameters[i]? = some p) :
    p.faults i ++ nameFaults s.root ((s.parameters.take i).map Parameter.name) p.name
      = (SetupRule.ofParameter i).filterMap s.fault? := by
  have hranges : ([Observer.owner, .remote].filter fun o => !Scalar.isUnit (p.smoothness o)).map
      (fun o => SetupFault.outOfRange p.name o (p.smoothness o))
      = [SetupRule.ranged i .owner, .ranged i .remote].filterMap s.fault? := by
    cases howner : Scalar.isUnit (p.smoothness .owner) <;>
      cases hremote : Scalar.isUnit (p.smoothness .remote) <;>
        simp [fault?, hp, howner, hremote]
  have hrules : SetupRule.ofParameter i = [.named i] ++ [.ranged i .owner, .ranged i .remote]
      ++ [.narrow i] ++ [.unique i] ++ [.unreserved i] := rfl
  have hone {c : Prop} [Decidable c] {k : SetupRule} {f : SetupFault α}
      (hk : s.fault? k = if c then some f else none) :
      (if c then [f] else []) = [k].filterMap s.fault? := by
    by_cases hc : c <;> simp [hk, hc]
  rw [hrules, List.filterMap_append, List.filterMap_append, List.filterMap_append,
    List.filterMap_append, ← hranges, Parameter.faults, nameFaults, ← List.append_assoc,
    hone (k := .named i) (by rw [fault?, hp, Option.bind_some]),
    hone (k := .narrow i) (by rw [fault?, hp, Option.bind_some]),
    hone (k := .unique i) (by rw [fault?, hp, Option.bind_some]),
    hone (k := .unreserved i) (by rw [fault?, hp, Option.bind_some])]

/-- The faults of the parameters behind the first ones are the broken rules for their places. -/
theorem parameterFaults_eq {s : Setup α} {ps : List (Parameter α)} (before : List (Parameter α))
    (seen : List String) (hs : s.parameters = before ++ ps)
    (hseen : ∀ n, n ∈ seen ↔ n ∈ before.map Parameter.name) :
    parameterFaults s.root before.length seen ps
      = ((List.range' before.length ps.length).flatMap SetupRule.ofParameter).filterMap
        s.fault? := by
  induction ps generalizing before seen with
  | nil => rfl
  | cons p ps ih =>
    have hp : s.parameters[before.length]? = some p := by rw [hs]; simp
    have hnames : nameFaults (α := α) s.root seen p.name
        = nameFaults s.root ((s.parameters.take before.length).map Parameter.name) p.name := by
      rw [hs, List.take_left]
      simp only [nameFaults, hseen]
    have hrest := ih (before ++ [p]) (p.name :: seen) (by simpa using hs)
      (by simp [hseen, or_comm])
    rw [List.length_append, List.length_singleton] at hrest
    rw [parameterFaults, hnames, faults_at hp, hrest, List.length_cons, List.range'_succ,
      List.flatMap_cons, List.filterMap_append]

/-- All faults of a setup, by the rules that they break. -/
theorem faults_eq_filterMap (s : Setup α) : s.faults = s.rules.filterMap s.fault? := by
  have hroot : rootFaults s.root = [SetupRule.root].filterMap s.fault? := by
    rw [List.filterMap_cons, fault?, rootFaults]
    split
    · rfl
    · split <;> rfl
  have hbudget : budgetFaults s.parameters s.capacity = [SetupRule.budget].filterMap s.fault? := by
    rw [List.filterMap_cons, fault?]
    cases s.capacity with
    | none => rfl
    | some capacity =>
      rw [budgetFaults]
      split <;> rfl
  have hparameters := parameterFaults_eq (s := s) [] [] rfl (by simp)
  rw [List.length_nil, ← List.range_eq_range'] at hparameters
  rw [faults, hroot, hparameters, hbudget, ← List.filterMap_append, ← List.filterMap_append]
  rfl

/-- The broken rules, each with its fault. -/
def found (s : Setup α) : List (SetupRule × SetupFault α) :=
  s.rules.filterMap fun k => (s.fault? k).map (k, ·)

theorem mem_found_iff {s : Setup α} {k : SetupRule} {f : SetupFault α} :
    (k, f) ∈ s.found ↔ s.Breaks k f := by
  rw [← fault?_eq_some_iff, found, List.mem_filterMap]
  constructor
  · rintro ⟨l, -, hl⟩
    obtain ⟨g, hg, heq⟩ := Option.map_eq_some_iff.mp hl
    cases heq
    exact hg
  · intro h
    exact ⟨k, mem_rules_of_breaks (fault?_eq_some_iff.mp h), by rw [h, Option.map_some]⟩

theorem map_fst_found (s : Setup α) :
    s.found.map Prod.fst = s.rules.filter fun k => (s.fault? k).isSome := by
  rw [found, List.map_filterMap, ← List.filterMap_eq_filter]
  refine List.filterMap_congr fun k _ => ?_
  cases hk : s.fault? k <;> simp [hk, Option.guard]

theorem map_snd_found (s : Setup α) : s.found.map Prod.snd = s.faults := by
  rw [found, List.map_filterMap, faults_eq_filterMap]
  refine List.filterMap_congr fun k _ => ?_
  cases s.fault? k <;> rfl

end Setup

end BlendGraph
