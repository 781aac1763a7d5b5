import BlendGraph.Proofs.Setup.FaultRules
import BlendGraph.Setup.Gathering

/-!
# Faults gathered in one walk

The walk over the parameters takes the faults out of whatever the check of each of them reports, so
that the report of a setup lists every broken rule once and holds no report within a report.
-/

set_option autoImplicit false

namespace BlendGraph

variable {α : Type}

namespace FaultReport

/-- What is gathered from single faults is reported as they are: none, one or several. -/
theorem gather_map_single (fs : List (SetupFault α)) :
    gather (fs.map .single) = match SetupError.ofFaults? fs with
      | none => .ok ()
      | some e => .error e.report := by
  match fs with
  | [] | [_] | _ :: _ :: _ => rfl

theorem gather_eq_ok_iff {fs : List (SetupFault α)} :
    gather (fs.map .single) = .ok () ↔ fs = [] := by
  match fs with
  | [] | [_] | _ :: _ :: _ => simp [gather]

theorem gather_eq_single_iff {fs : List (SetupFault α)} {f : SetupFault α} :
    gather (fs.map .single) = .error (.single f) ↔ fs = [f] := by
  match fs with
  | [] | [_] | _ :: _ :: _ => simp [gather]

theorem gather_eq_multiple_iff {fs : List (SetupFault α)} {rs : List (FaultReport α)} :
    gather (fs.map .single) = .error (.multiple rs) ↔ 2 ≤ fs.length ∧ rs = fs.map .single := by
  match fs with
  | [] | [_] => simp [gather]
  | _ :: _ :: _ => simp [gather, eq_comm]

theorem faultsAll_map_single (fs : List (SetupFault α)) :
    faultsAll (fs.map .single) = fs := by
  induction fs with
  | nil => rfl
  | cons f fs ih => rw [List.map_cons, faultsAll, ih, faults, List.singleton_append]

theorem faultsOf_gather (fs : List (SetupFault α)) : faultsOf (gather (fs.map .single)) = fs := by
  match fs with
  | [] | [_] => rfl
  | f :: g :: fs => exact faultsAll_map_single (f :: g :: fs)

end FaultReport

open FaultReport

namespace Findings

theorem mem_seen_meet {w : Findings α} {name n : String} (hn : n ≠ "") :
    n ∈ (w.meet name).seen ↔ n = name ∨ n ∈ w.seen := by
  rw [meet]
  split
  · next hempty => simp [hempty, hn]
  · split
    · next hseen =>
      change n ∈ w.seen ↔ _
      constructor
      · exact .inr
      · rintro (rfl | hmem)
        · exact hseen
        · exact hmem
    · exact List.mem_cons

theorem reports_meet (w : Findings α) (name : String) :
    (w.meet name).reports = w.reports
      ++ (if name ≠ "" ∧ name ∈ w.seen then [SetupFault.duplicateParameter name] else []).map
        .single := by
  by_cases hempty : name = ""
  · simp [meet, hempty]
  · by_cases hseen : name ∈ w.seen <;> simp [meet, add, hempty, hseen]

theorem reserve_eq (w : Findings α) (root name : String) :
    w.reserve root name = ⟨w.reports
      ++ (if root ≠ "" ∧ Text.contains name root then [SetupFault.reservedName name root]
        else []).map .single, w.seen⟩ := by
  rw [reserve]
  split
  · rfl
  · rw [List.map_nil, List.append_nil]

variable [Scalar α]

/-- Whatever the check of a parameter comes to, its faults are taken in one by one. -/
theorem merge_check (w : Findings α) (index : Nat) (p : Parameter α) :
    w.merge (p.check index) = ⟨w.reports ++ (p.faults index).map .single, w.seen⟩ := by
  rw [Parameter.check]
  match p.faults index with
  | [] => rw [List.map_nil, List.append_nil]; rfl
  | [_] | _ :: _ :: _ => rfl

theorem reports_enter (root : String) (w : Findings α) (p : Parameter α) (index : Nat) :
    (w.enter root (p, index)).reports
      = w.reports ++ (p.faults index ++ Setup.nameFaults root w.seen p.name).map .single := by
  rw [enter, merge_check, reserve_eq, reports_meet, Setup.nameFaults, List.map_append,
    List.map_append, List.append_assoc, List.append_assoc]

theorem mem_seen_enter {root : String} {w : Findings α} {p : Parameter α} {index : Nat}
    {n : String} (hn : n ≠ "") :
    n ∈ (w.enter root (p, index)).seen ↔ n = p.name ∨ n ∈ w.seen := by
  rw [enter, merge_check, reserve_eq]
  exact mem_seen_meet hn

/-- The walk reports the faults of the parameters, where what it has come by is what stood before
them, but for empty names. -/
theorem reports_foldl (root : String) (ps : List (Parameter α)) (index : Nat) (w : Findings α)
    (seen : List String) (hseen : ∀ n, n ≠ "" → (n ∈ w.seen ↔ n ∈ seen)) :
    ((ps.zipIdx index).foldl (enter root) w).reports
      = w.reports ++ (Setup.parameterFaults root index seen ps).map .single := by
  induction ps generalizing index w seen with
  | nil => rw [Setup.parameterFaults, List.map_nil, List.append_nil]; rfl
  | cons p ps ih =>
    have hnames : Setup.nameFaults (α := α) root w.seen p.name
        = Setup.nameFaults root seen p.name := by
      by_cases hempty : p.name = ""
      · simp [Setup.nameFaults, hempty]
      · simp only [Setup.nameFaults, hseen _ hempty]
    have hnext : ∀ n, n ≠ "" →
        (n ∈ (w.enter root (p, index)).seen ↔ n ∈ p.name :: seen) := by
      intro n hn
      rw [mem_seen_enter hn, List.mem_cons, hseen n hn]
    rw [List.zipIdx_cons, List.foldl_cons, ih _ _ _ hnext, reports_enter, hnames,
      Setup.parameterFaults, List.append_assoc, ← List.map_append]

end Findings

namespace Setup

variable [Scalar α]

theorem check_eq_gather (s : Setup α) : s.check = gather (s.faults.map .single) := by
  have hwalk := Findings.reports_foldl s.root s.parameters 0
    ⟨(rootFaults s.root).map .single, []⟩ [] fun _ _ => Iff.rfl
  rw [check, hwalk, faults, List.map_append, List.map_append]

/-- The walk comes to what is reported. -/
theorem check_eq (s : Setup α) : s.check = s.validate.mapError SetupError.report := by
  rw [check_eq_gather, gather_map_single, validate]
  cases SetupError.ofFaults? s.faults <;> rfl

/-- The check of a setup reports each broken rule once, in the order of the rules, and nothing else:
no fault is none, one is reported bare, and several are reported in one flat report. -/
theorem check_reports (s : Setup α) : ∃ found : List (SetupRule × SetupFault α),
    (∀ k f, (k, f) ∈ found ↔ s.Breaks k f) ∧
    (found.map Prod.fst).Sublist s.rules ∧ s.rules.Nodup ∧
    faultsOf s.check = found.map Prod.snd ∧
    (s.check = .ok () ↔ found = []) ∧
    (∀ f, s.check = .error (.single f) ↔ found.map Prod.snd = [f]) ∧
    (∀ rs, s.check = .error (.multiple rs) ↔
      2 ≤ found.length ∧ rs = found.map fun b => .single b.2) ∧
    s.check = s.validate.mapError SetupError.report := by
  have hfaults := s.map_snd_found
  refine ⟨s.found, fun _ _ => mem_found_iff, ?_, nodup_rules s, ?_, ?_, ?_, ?_, check_eq s⟩
  · rw [map_fst_found]
    exact List.filter_sublist
  · rw [check_eq_gather, faultsOf_gather, hfaults]
  · rw [check_eq_gather, gather_eq_ok_iff, ← hfaults, List.map_eq_nil_iff]
  · intro f
    rw [check_eq_gather, gather_eq_single_iff, hfaults]
  · intro rs
    rw [check_eq_gather, gather_eq_multiple_iff, ← hfaults, List.length_map, List.map_map]
    rfl

end Setup

end BlendGraph
