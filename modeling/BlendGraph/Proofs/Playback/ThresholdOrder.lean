import BlendGraph.Proofs.Number.FloatOrder
import BlendGraph.Proofs.Playback.KeyLookup

/-!
# Children put in by their thresholds

In a list whose thresholds ascend, the children up to a threshold come first, and the bisection ends
behind them. A new child is put in there: the thresholds ascend as before, and the child comes last
among those with its own threshold. Children put in one after the other are thus stably sorted.
-/

set_option autoImplicit false

namespace BlendGraph

/-! ### Partition points -/

/-- Where the positions below `k` are the ones that pass the test, the bisection ends at the last of
them. -/
theorem bisect_succ {p : Nat → Bool} {k fuel base size : Nat} (hp : ∀ i, p i = decide (i < k))
    (hfuel : size ≤ fuel) (hlow : base < k) (hhigh : k ≤ base + size) :
    bisect p fuel base size + 1 = k := by
  induction fuel generalizing base size with
  | zero => omega
  | succ fuel ih =>
    unfold bisect
    split
    · omega
    · split
      · next hmiddle =>
        rw [hp, decide_eq_true_eq] at hmiddle
        exact ih (by omega) hmiddle (by omega)
      · next hmiddle =>
        rw [hp, decide_eq_true_eq] at hmiddle
        exact ih (by omega) hlow (by omega)

section

variable {β : Type} {p : β → Bool} {xs ys : List β}

/-- Where all elements that pass the test come first, the answer is their number. -/
theorem partitionPoint_append (hxs : ∀ x ∈ xs, p x = true) (hys : ∀ y ∈ ys, p y = false) :
    partitionPoint p (xs ++ ys) = xs.length := by
  by_cases hne : xs = []
  · rw [hne, List.nil_append, partitionPoint_of_forall hys, List.length_nil]
  · have htest (i : Nat) : ((xs ++ ys)[i]?).any p = decide (i < xs.length) := by
      by_cases hi : i < xs.length
      · rw [List.getElem?_append_left hi, List.getElem?_eq_getElem hi, decide_eq_true hi]
        exact hxs _ (List.getElem_mem hi)
      · rw [List.getElem?_append_right (Nat.le_of_not_lt hi), decide_eq_false hi]
        cases hget : ys[i - xs.length]? with
        | none => rfl
        | some y => exact hys y (List.mem_of_getElem? hget)
    have hend := bisect_succ htest (Nat.le_refl (xs ++ ys).length) (List.length_pos_iff.mpr hne)
      (by simp)
    have hlast := htest (bisect (fun i => ((xs ++ ys)[i]?).any p) (xs ++ ys).length 0
      (xs ++ ys).length)
    rw [decide_eq_true (by omega)] at hlast
    simp only [partitionPoint, hlast, hend, if_true]
    exact if_neg (by simp [hne])

theorem insertAt_append (x : β) (xs ys : List β) :
    insertAt x xs.length (xs ++ ys) = xs ++ x :: ys := by
  induction xs with
  | nil => cases ys <;> rfl
  | cons y xs ih => exact congrArg (y :: ·) ih

end

/-! ### Insertions -/

/-- A list is another one in the order of its thresholds. Nothing of it is lost or doubled, and what
has the same threshold stays in the order in which it came. -/
structure StablySorted {β : Type} (xs cs : List (Float32 × β)) : Prop where
  perm : cs.Perm xs
  sorted : cs.Pairwise fun a b => a.1 ≤ b.1
  stable : ∀ t, cs.filter (fun c => Scalar.same c.1 t) = xs.filter fun c => Scalar.same c.1 t

section

variable {cs : List (Float32 × Node Float32)} {t : Float32}

/-- Of ascending thresholds those up to a bound come before those beyond it. -/
theorem exists_split (sorted : cs.Pairwise fun a b => a.1 ≤ b.1) (t : Float32) :
    ∃ before after, cs = before ++ after ∧ (∀ c ∈ before, c.1 ≤ t) ∧ ∀ c ∈ after, ¬ c.1 ≤ t := by
  induction cs with
  | nil => exact ⟨[], [], rfl, List.forall_mem_nil _, List.forall_mem_nil _⟩
  | cons c cs ih =>
    obtain ⟨hc, sorted⟩ := List.pairwise_cons.mp sorted
    by_cases hle : c.1 ≤ t
    · obtain ⟨before, after, rfl, hbefore, hafter⟩ := ih sorted
      exact ⟨c :: before, after, rfl, List.forall_mem_cons.mpr ⟨hle, hbefore⟩, hafter⟩
    · refine ⟨[], c :: cs, rfl, List.forall_mem_nil _, List.forall_mem_cons.mpr ⟨hle, ?_⟩⟩
      exact fun d hd hdt => hle (Number.le_trans (hc d hd) hdt)

theorem exists_insertThreshold (sorted : cs.Pairwise fun a b => a.1 ≤ b.1) (t : Float32)
    (n : Node Float32) : ∃ before after, cs = before ++ after ∧ (∀ c ∈ before, c.1 ≤ t) ∧
      (∀ c ∈ after, ¬ c.1 ≤ t) ∧ Node.insertThreshold t n cs = before ++ (t, n) :: after := by
  obtain ⟨before, after, rfl, hbefore, hafter⟩ := exists_split sorted t
  refine ⟨before, after, rfl, hbefore, hafter, ?_⟩
  rw [Node.insertThreshold, partitionPoint_append (fun c hc => decide_eq_true (hbefore c hc))
    fun c hc => decide_eq_false (hafter c hc), insertAt_append]

theorem le_of_same {x y z : Float32} (hxz : Scalar.same x z = true)
    (hyz : Scalar.same y z = true) : x ≤ y := by
  rw [Scalar.same, Bool.and_eq_true, decide_eq_true_eq, decide_eq_true_eq] at hxz hyz
  exact Number.le_trans hxz.1 hyz.2

/-- A child that is put in comes behind all children with its own threshold. -/
theorem StablySorted.insertThreshold {xs : List (Float32 × Node Float32)} (h : StablySorted xs cs)
    (hxs : ∀ x ∈ xs, x.1.isNaN = false) (ht : t.isNaN = false) (n : Node Float32) :
    StablySorted (xs ++ [(t, n)]) (Node.insertThreshold t n cs) := by
  obtain ⟨before, after, rfl, hbefore, hafter, heq⟩ := exists_insertThreshold h.sorted t n
  rw [heq]
  constructor
  case perm =>
    exact (List.perm_middle.trans (h.perm.cons _)).trans (List.perm_append_singleton _ _).symm
  case sorted =>
    have hbeyond : ∀ c ∈ after, t ≤ c.1 := by
      intro c hc
      have hnumber := hxs c (h.perm.mem_iff.mp (List.mem_append_right _ hc))
      exact Number.le_of_lt (Number.lt_of_not_le ht hnumber (hafter c hc))
    obtain ⟨sortedBefore, sortedAfter, hcross⟩ := List.pairwise_append.mp h.sorted
    have sortedRest := List.pairwise_cons (a := (t, n)).mpr ⟨hbeyond, sortedAfter⟩
    refine List.pairwise_append.mpr ⟨sortedBefore, sortedRest, fun b hb => ?_⟩
    exact List.forall_mem_cons.mpr ⟨hbefore b hb, hcross b hb⟩
  case stable =>
    intro s
    rw [List.filter_append, List.filter_append, ← h.stable, List.filter_append, List.append_assoc]
    congr 1
    cases hs : Scalar.same t s with
    | false => simp [hs]
    | true =>
      -- What comes behind the new child is beyond its threshold, so the child is the last one
      -- that has it.
      have hnone : after.filter (fun c => Scalar.same c.1 s) = [] :=
        List.filter_eq_nil_iff.mpr fun c hc hsame => hafter c hc (le_of_same hsame hs)
      simp [hs, hnone]

end

namespace Node

/-- A node with children put in one after the other. -/
def withThresholds (n : Node Float32) (xs : List (Float32 × Node Float32)) : Node Float32 :=
  xs.foldl (fun n x => n.withThreshold x.1 x.2) n

theorem withThresholds_concat (n : Node Float32) (xs : List (Float32 × Node Float32))
    (x : Float32 × Node Float32) :
    n.withThresholds (xs ++ [x]) = (n.withThresholds xs).withThreshold x.1 x.2 :=
  List.foldl_concat ..

/-- Children whose thresholds are numbers, put one after the other into an interpolation without
children, become its children in the order of a stable sort. -/
theorem exists_withThresholds (name channel : String) {xs : List (Float32 × Node Float32)}
    (hxs : ∀ x ∈ xs, x.1.isNaN = false) :
    ∃ cs, (interp name channel []).withThresholds xs = interp name channel cs ∧
      StablySorted xs cs := by
  induction xs using List.reverseRecOn with
  | nil => exact ⟨[], rfl, .refl _, .nil, fun _ => rfl⟩
  | append_singleton xs x ih =>
    obtain ⟨hxs, hx⟩ := List.forall_mem_append.mp hxs
    obtain ⟨cs, hbuilt, stablySorted⟩ := ih hxs
    have hinserted := stablySorted.insertThreshold hxs (hx x (List.mem_singleton_self x)) x.2
    refine ⟨insertThreshold x.1 x.2 cs, ?_, hinserted⟩
    rw [withThresholds_concat, hbuilt]
    rfl

end Node

namespace Sample

/-- Children with the outermost thresholds and with both zeros, some of them equal. -/
def shuffled : List (Float32 × Node Float32) :=
  [(1 / 0, .leaf "Wide"), (0, .leaf "Shut"), (-0.0, .leaf "Still"), (-1 / 0, .leaf "Low"),
    (1 / 0, .leaf "Wider"), (0, .leaf "Calm")]

end Sample

theorem Node.exists_withThresholds_sample : (∀ x ∈ Sample.shuffled, x.1.isNaN = false) ∧
    ∃ cs, (interp "Blend" "Jaw" []).withThresholds Sample.shuffled = interp "Blend" "Jaw" cs ∧
      StablySorted Sample.shuffled cs := by
  have hnumbers : ∀ x ∈ Sample.shuffled, x.1.isNaN = false := by decide +kernel
  exact ⟨hnumbers, exists_withThresholds "Blend" "Jaw" hnumbers⟩

/-- Both zeros are one threshold. -/
example : (Node.interp "Blend" "Jaw" []).withThresholds Sample.shuffled = .interp "Blend" "Jaw"
    [(-1 / 0, .leaf "Low"), (0, .leaf "Shut"), (-0.0, .leaf "Still"), (0, .leaf "Calm"),
      (1 / 0, .leaf "Wide"), (1 / 0, .leaf "Wider")] := rfl

end BlendGraph
