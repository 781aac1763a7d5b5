import BlendGraph.Proofs.Playback.RationalPlayback

/-!
# Where a key value is looked up

The bisection among the children of an interpolation ends between a child whose threshold is at most
the key value and the next one, whose threshold is not, in whatever order the thresholds stand. All
it takes is that the first child passes the test and the last one does not.
-/

set_option autoImplicit false

namespace BlendGraph

/-! ### Bisection -/

/-- A position at the end of the stretch that fails the test stays there while the stretch is
halved: the middle takes its place where that fails itself. -/
theorem test_bisect_succ {p : Nat → Bool} {fuel base size j : Nat} (hfuel : size ≤ fuel)
    (hlow : base < j) (hhigh : j ≤ base + size) (hend : base + size ≤ j + 1) (hj : p j = false) :
    p (bisect p fuel base size + 1) = false := by
  induction fuel generalizing base size j with
  | zero => omega
  | succ fuel ih =>
    unfold bisect
    split
    · have hnext : base + 1 = j := by omega
      rw [hnext]
      exact hj
    · split
      · next hmiddle =>
        have hne : j ≠ base + size / 2 := by
          rintro rfl
          rw [hj] at hmiddle
          cases hmiddle
        exact ih (by omega) (by omega) (by omega) (by omega) hj
      · next hmiddle =>
        exact ih (by omega) (by omega) (by omega) (by omega) (Bool.not_eq_true _ ▸ hmiddle)

theorem bisect_of_forall {p : Nat → Bool} (h : ∀ i, p i = false) (fuel base size : Nat) :
    bisect p fuel base size = base := by
  induction fuel generalizing size with
  | zero => rfl
  | succ fuel ih =>
    unfold bisect
    rw [h, if_neg Bool.false_ne_true, ih, ite_self]

/-- Where nothing passes the test, the answer is the front. -/
theorem partitionPoint_of_forall {β : Type} {p : β → Bool} {xs : List β}
    (h : ∀ x ∈ xs, p x = false) : partitionPoint p xs = 0 := by
  have hfails (i : Nat) : (xs[i]?).any p = false := by
    cases hi : xs[i]? with
    | none => rfl
    | some x => exact h x (List.mem_of_getElem? hi)
  simp only [partitionPoint, hfails, Bool.false_eq_true, if_false]
  rw [bisect_of_forall fun _ => rfl, ite_self]

/-- Bisection ends behind an element that passes the test and in front of one that does not. -/
theorem exists_neighbours {β : Type} {p : β → Bool} {xs : List β} {first last : β}
    (hfirst : xs.head? = some first) (hlast : xs.getLast? = some last)
    (hpass : p first = true) (hfail : p last = false) :
    ∃ i a b, partitionPoint p xs = i + 1 ∧ xs[i]? = some a ∧ xs[i + 1]? = some b ∧
      p a = true ∧ p b = false := by
  obtain ⟨i, hpoint, hlt⟩ := exists_partitionPoint hfirst hlast hpass hfail
  have hne : xs ≠ [] := by
    rintro rfl
    cases hfirst
  have hstart : (xs[0]?).any p = true := by
    rw [← List.head?_eq_getElem?, hfirst]
    exact hpass
  have hpasses : (xs[i]?).any p = true ∧ (xs[i + 1]?).any p = false := by
    have htest := test_bisect (p := fun i => (xs[i]?).any p) hstart xs.length xs.length
    have hnext := test_bisect_succ (p := fun i => (xs[i]?).any p) le_rfl
      (List.length_pos_iff.mpr hne) (Nat.zero_add _).ge (by omega) (by simp)
    have hbase : bisect (fun i => (xs[i]?).any p) xs.length 0 xs.length = i := by
      simpa [partitionPoint, hne, htest] using hpoint
    rw [hbase] at htest hnext
    exact ⟨htest, hnext⟩
  have hi := List.getElem?_eq_getElem (Nat.lt_of_succ_lt hlt)
  have hsucc := List.getElem?_eq_getElem hlt
  rw [hi, hsucc] at hpasses
  exact ⟨i, _, _, hpoint, hi, hsucc, hpasses.1, hpasses.2⟩

/-! ### Brackets -/

variable {α β : Type} [Scalar α] {cs : List (α × β)} {x : α} {first last : α × β}

/-- A key value lies between the thresholds of two neighbours, where its lookup ends. -/
structure Lookup (cs : List (α × β)) (x : α) (i : Nat) (a b : α × β) : Prop where
  point : partitionPoint (fun c => decide (c.1 ≤ x)) cs = i + 1
  lower : cs[i]? = some a
  upper : cs[i + 1]? = some b
  low : a.1 ≤ x
  high : ¬ b.1 ≤ x

theorem bracket_nil (channel : String) (x : α) :
    bracket channel ([] : List (α × β)) x = .ok [] := rfl

theorem bracket_low (channel : String) (hfirst : cs.head? = some first)
    (hlast : cs.getLast? = some last) (h : x ≤ first.1) :
    bracket channel cs x = .ok [(first.2, 1)] := by
  simp only [bracket, hfirst, hlast, h, if_true]

theorem bracket_high (channel : String) (hfirst : cs.head? = some first)
    (hlast : cs.getLast? = some last) (hlow : ¬ x ≤ first.1) (h : last.1 ≤ x) :
    bracket channel cs x = .ok [(last.2, 1)] := by
  simp only [bracket, hfirst, hlast, hlow, h, if_true, if_false]

/-- Past the first threshold and before the last one two neighbours play. -/
theorem bracket_inner (channel : String) (hfirst : cs.head? = some first)
    (hlast : cs.getLast? = some last) (hlow : ¬ x ≤ first.1) (hhigh : ¬ last.1 ≤ x)
    (hpast : first.1 ≤ x) :
    ∃ i a b, Lookup cs x i a b ∧ bracket channel cs x
      = .ok [(a.2, 1 - (x - a.1) / (b.1 - a.1)), (b.2, (x - a.1) / (b.1 - a.1))] := by
  obtain ⟨i, a, b, hpoint, ha, hb, hpass, hfail⟩ := exists_neighbours
    (p := fun c => decide (c.1 ≤ x)) hfirst hlast (decide_eq_true hpast) (decide_eq_false hhigh)
  refine ⟨i, a, b, ⟨hpoint, ha, hb, of_decide_eq_true hpass, of_decide_eq_false hfail⟩, ?_⟩
  simp only [bracket, hfirst, hlast, hlow, hhigh, hpoint, ha, hb, if_false]

/-- A key value that is comparable with no threshold has no place among them. -/
theorem bracket_incomparable (channel : String) (hne : cs ≠ [])
    (h : ∀ c ∈ cs, ¬ c.1 ≤ x ∧ ¬ x ≤ c.1) : bracket channel cs x = .error ⟨channel⟩ := by
  have hfirst := List.head?_eq_some_head hne
  have hlast := List.getLast?_eq_some_getLast hne
  have hlow := (h _ (List.head_mem hne)).2
  have hhigh := (h _ (List.getLast_mem hne)).1
  have hpoint : partitionPoint (fun c => decide (c.1 ≤ x)) cs = 0 :=
    partitionPoint_of_forall fun c hc => decide_eq_false (h c hc).1
  simp only [bracket, hfirst, hlast, hlow, hhigh, hpoint, if_false]

end BlendGraph
