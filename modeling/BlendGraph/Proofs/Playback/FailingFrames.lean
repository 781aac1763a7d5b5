import BlendGraph.Proofs.Number.FloatOrder
import BlendGraph.Proofs.Playback.KeyLookup

/-!
# Where playback stops

A frame walks down from the motions of the first states, with the weights multiplied on the way, and
leaves out what has weight zero. It cannot be played exactly if the walk comes to an interpolation
with children whose key value is not a number. Every other key value is either outside the outer
thresholds or enclosed by those of two neighbours, so that its distance from them can be divided.
-/

set_option autoImplicit false

namespace BlendGraph

variable {α β γ : Type}

theorem not_exists_ok_eq_error {ε : Type} {x : β} : ¬ ∃ e : ε, Except.ok x = .error e := by
  rintro ⟨e, h⟩
  cases h

theorem not_exists_mem_nil {p : β → Prop} : ¬ ∃ x ∈ [], p x := by
  rintro ⟨x, hx, -⟩
  cases hx

theorem mapM_error_iff {ε : Type} {f : β → Except ε γ} {xs : List β} :
    (∃ e, xs.mapM f = .error e) ↔ ∃ x ∈ xs, ∃ e, f x = .error e := by
  induction xs with
  | nil => exact iff_of_false not_exists_ok_eq_error not_exists_mem_nil
  | cons x xs ih =>
    rw [List.exists_mem_cons_iff, ← ih, List.mapM_cons]
    cases f x with
    | error e => exact iff_of_true ⟨e, rfl⟩ (.inl ⟨e, rfl⟩)
    | ok y =>
      cases xs.mapM f with
      | error e => exact iff_of_true ⟨e, rfl⟩ (.inr ⟨e, rfl⟩)
      | ok ys =>
        exact iff_of_false not_exists_ok_eq_error
          (not_or.mpr ⟨not_exists_ok_eq_error, not_exists_ok_eq_error⟩)

theorem bind_pure_error_iff {ε : Type} {f : β → γ} {x : Except ε β} :
    (∃ e, (x >>= fun y => pure (f y)) = .error e) ↔ ∃ e, x = .error e := by
  cases x with
  | error e => exact iff_of_true ⟨e, rfl⟩ ⟨e, rfl⟩
  | ok y => exact iff_of_false not_exists_ok_eq_error not_exists_ok_eq_error

variable [Scalar α]

/-- What plays of an interpolation are children of it. -/
theorem mem_of_mem_bracket {channel : String} {cs : List (α × β)} {x : α} {ss : List (β × α)}
    (h : bracket channel cs x = .ok ss) {s : β × α} (hs : s ∈ ss) : s.1 ∈ cs.map Prod.snd := by
  unfold bracket at h
  split at h
  · next first last hfirst hlast =>
    split at h
    · cases h
      rw [List.mem_singleton.mp hs]
      exact List.mem_map_of_mem (List.mem_of_head? hfirst)
    · split at h
      · cases h
        rw [List.mem_singleton.mp hs]
        exact List.mem_map_of_mem (List.mem_of_getLast? hlast)
      · split at h
        · cases h
        · split at h
          · next ha hb =>
            cases h
            rcases List.mem_pair.mp hs with rfl | rfl
            · exact List.mem_map_of_mem (List.mem_of_getElem? ha)
            · exact List.mem_map_of_mem (List.mem_of_getElem? hb)
          · cases h
  · cases h
    cases hs

namespace Node

/-! ### Walks -/

/-- A walk from a tree of a weight comes to a subtree, and to the weight that it has there. No
weight on the way is zero. -/
inductive Reaches (value : String → α) : Node α → α → Node α → α → Prop where
  | here {n : Node α} {w : α} (hw : Scalar.same w 0 = false) : Reaches value n w n w
  | interp {name channel : String} {cs : List (α × Node α)} {w : α} {ss : List (Node α × α)}
      {s : Node α × α} {m : Node α} {v : α} (hw : Scalar.same w 0 = false)
      (hss : bracket channel cs (value channel) = .ok ss) (hs : s ∈ ss)
      (hbelow : Reaches value s.1 (w * s.2) m v) : Reaches value (interp name channel cs) w m v
  | sum {name : String} {cs : List (String × Node α)} {w : α} {c : String × Node α} {m : Node α}
      {v : α} (hw : Scalar.same w 0 = false) (hc : c ∈ cs)
      (hbelow : Reaches value c.2 (w * value c.1) m v) : Reaches value (sum name cs) w m v

theorem Reaches.weight {value : String → α} {n m : Node α} {w v : α}
    (h : Reaches value n w m v) : Scalar.same w 0 = false := by
  cases h <;> assumption

theorem not_reaches_of_zero {value : String → α} {n m : Node α} {w v : α}
    (hw : Scalar.same w 0 = true) : ¬ Reaches value n w m v := by
  intro h
  rw [h.weight] at hw
  cases hw

theorem play_of_zero {h : Host α} {value : String → α} {n : Node α} {w : α}
    (hw : Scalar.same w 0 = true) : n.play h value w = .ok [] := by
  cases n <;> rw [play, if_pos hw]

theorem Reaches.mem_walk {value : String → α} {n m : Node α} {w v : α}
    (h : Reaches value n w m v) : m ∈ n.walk := by
  induction h with
  | @here n w hw => cases n <;> simp [walk]
  | interp hw hss hs _ ih =>
    obtain ⟨c, hc, heq⟩ := List.mem_map.mp (mem_of_mem_bracket hss hs)
    rw [walk, walkInterp_eq]
    exact List.mem_cons_of_mem _ (List.mem_flatMap.mpr ⟨c, hc, heq ▸ ih⟩)
  | sum hw hc _ ih =>
    rw [walk, walkSum_eq]
    exact List.mem_cons_of_mem _ (List.mem_flatMap.mpr ⟨_, hc, ih⟩)

theorem playSum_error_iff {h : Host α} {value : String → α} {cs : List (String × Node α)} {w : α} :
    (∃ e, playSum h value cs w = .error e)
      ↔ ∃ c ∈ cs, ∃ e, c.2.play h value (w * value c.1) = .error e := by
  induction cs with
  | nil => exact iff_of_false not_exists_ok_eq_error not_exists_mem_nil
  | cons c cs ih =>
    rw [List.exists_mem_cons_iff, ← ih, playSum]
    cases c.2.play h value (w * value c.1) with
    | error e => exact iff_of_true ⟨e, rfl⟩ (.inl ⟨e, rfl⟩)
    | ok y =>
      cases playSum h value cs w with
      | error e => exact iff_of_true ⟨e, rfl⟩ (.inr ⟨e, rfl⟩)
      | ok ys =>
        exact iff_of_false not_exists_ok_eq_error
          (not_or.mpr ⟨not_exists_ok_eq_error, not_exists_ok_eq_error⟩)

/-- A tree cannot be played exactly if the walk comes to an interpolation that has no bracket. -/
theorem play_error_iff {h : Host α} {value : String → α} {n : Node α} {w : α} :
    (∃ e, n.play h value w = .error e) ↔ ∃ name channel cs v,
      Reaches value n w (interp name channel cs) v ∧
        ∃ e, bracket channel cs (value channel) = .error e := by
  induction n using Node.induction generalizing w with
  | leaf clip =>
    refine iff_of_false not_exists_ok_eq_error ?_
    rintro ⟨name, channel, cs, v, hreaches, -⟩
    cases hreaches
  | interp name channel cs ih =>
    cases hw : Scalar.same w 0 with
    | true =>
      rw [play_of_zero hw]
      refine iff_of_false not_exists_ok_eq_error ?_
      rintro ⟨_, _, _, _, hreaches, -⟩
      exact not_reaches_of_zero hw hreaches
    | false =>
      rw [play, hw, if_neg Bool.false_ne_true, playInterp_eq, bracket_map]
      cases hb : bracket channel cs (value channel) with
      | error e => exact iff_of_true ⟨e, rfl⟩ ⟨name, channel, cs, w, .here hw, e, hb⟩
      | ok ss =>
        have hchild : ∀ s ∈ ss, ∃ c ∈ cs, c.2 = s.1 := fun s hs =>
          List.mem_map.mp (mem_of_mem_bracket hb hs)
        change (∃ e, ((ss.map fun s => (s.1.play h value, s.2)).mapM (fun s => s.1 (w * s.2)) >>=
          fun parts => pure parts.flatten) = .error e) ↔ _
        rw [bind_pure_error_iff, List.mapM_map, mapM_error_iff]
        constructor
        · rintro ⟨s, hs, herror⟩
          obtain ⟨c, hc, heq⟩ := hchild s hs
          rw [Function.comp_apply, ← heq] at herror
          obtain ⟨name, channel, ds, v, hreaches, hbracket⟩ := (ih c hc).mp herror
          exact ⟨name, channel, ds, v, .interp hw hb hs (heq ▸ hreaches), hbracket⟩
        · rintro ⟨name, channel, ds, v, hreaches, e, hbracket⟩
          cases hreaches with
          | here =>
            rw [hb] at hbracket
            cases hbracket
          | interp _ hss hs hbelow =>
            obtain rfl := Except.ok.inj (hb.symm.trans hss)
            obtain ⟨c, hc, heq⟩ := hchild _ hs
            refine ⟨_, hs, ?_⟩
            rw [Function.comp_apply, ← heq]
            exact (ih c hc).mpr ⟨name, channel, ds, v, heq ▸ hbelow, e, hbracket⟩
  | sum name cs ih =>
    cases hw : Scalar.same w 0 with
    | true =>
      rw [play_of_zero hw]
      refine iff_of_false not_exists_ok_eq_error ?_
      rintro ⟨_, _, _, _, hreaches, -⟩
      exact not_reaches_of_zero hw hreaches
    | false =>
      rw [play, hw, if_neg Bool.false_ne_true, playSum_error_iff]
      constructor
      · rintro ⟨c, hc, herror⟩
        obtain ⟨name, channel, ds, v, hreaches, hbracket⟩ := (ih c hc).mp herror
        exact ⟨name, channel, ds, v, .sum hw hc hreaches, hbracket⟩
      · rintro ⟨name, channel, ds, v, hreaches, hbracket⟩
        cases hreaches with
        | sum _ hc hbelow =>
          exact ⟨_, hc, (ih _ hc).mpr ⟨name, channel, ds, v, hbelow, hbracket⟩⟩

/-- The thresholds of all interpolations of the tree. -/
def thresholds (n : Node α) : List α :=
  n.walk.flatMap fun
    | interp _ _ cs => cs.map Prod.fst
    | _ => []

end Node

/-- A place where a frame comes to a subtree, with the weight that the subtree has there. -/
def Playback.Reaches (p : Playback α) (n : Node α) (w : α) : Prop :=
  ∃ l ∈ p.host.layers, ∃ m, l.states.head?.bind State.motion = some m ∧ m.Reaches p.get 1 n w

theorem Playback.step_error_iff {p : Playback α} :
    (∃ e, p.step = .error e) ↔ ∃ name channel cs w, p.Reaches (.interp name channel cs) w ∧
      ∃ e, bracket channel cs (p.get channel) = .error e := by
  rw [step, bind_pure_error_iff, contributions, bind_pure_error_iff, mapM_error_iff]
  constructor
  · rintro ⟨l, hl, e, herror⟩
    cases hm : l.states.head?.bind State.motion with
    | none =>
      rw [hm] at herror
      cases herror
    | some m =>
      rw [hm] at herror
      obtain ⟨name, channel, cs, w, hreaches, hbracket⟩ := Node.play_error_iff.mp ⟨e, herror⟩
      exact ⟨name, channel, cs, w, ⟨l, hl, m, hm, hreaches⟩, hbracket⟩
  · rintro ⟨name, channel, cs, w, ⟨l, hl, m, hm, hreaches⟩, hbracket⟩
    refine ⟨l, hl, ?_⟩
    rw [hm]
    exact Node.play_error_iff.mpr ⟨name, channel, cs, w, hreaches, hbracket⟩

/-! ### Key values that are not numbers -/

section

variable {channel : String} {cs : List (Float32 × β)} {x : Float32}

/-- Among thresholds that are numbers every key value that is a number has a bracket. -/
theorem bracket_error_iff (hcs : ∀ c ∈ cs, c.1.isNaN = false) :
    (∃ e, bracket channel cs x = .error e) ↔ cs ≠ [] ∧ x.isNaN = true := by
  by_cases hne : cs = []
  · rw [hne, bracket_nil]
    exact iff_of_false not_exists_ok_eq_error fun h => h.1 rfl
  · have hfirst := List.head?_eq_some_head hne
    have hlast := List.getLast?_eq_some_getLast hne
    cases hx : x.isNaN with
    | true =>
      have hincomparable := bracket_incomparable channel hne fun c _ =>
        (Number.not_le_of_isNaN hx c.1).symm
      exact iff_of_true ⟨_, hincomparable⟩ ⟨hne, rfl⟩
    | false =>
      refine iff_of_false ?_ fun h => Bool.false_ne_true h.2
      by_cases hlow : x ≤ (cs.head hne).1
      · rw [bracket_low channel hfirst hlast hlow]
        exact not_exists_ok_eq_error
      · by_cases hhigh : (cs.getLast hne).1 ≤ x
        · rw [bracket_high channel hfirst hlast hlow hhigh]
          exact not_exists_ok_eq_error
        · have hpast := Number.le_of_lt (Number.lt_of_not_le (hcs _ (List.head_mem hne)) hx hlow)
          obtain ⟨_, _, _, -, hinner⟩ :=
            bracket_inner channel hfirst hlast hlow hhigh hpast
          rw [hinner]
          exact not_exists_ok_eq_error

/-- Where no outer child plays alone, the key value is enclosed by two thresholds whose difference
is not zero. -/
theorem exists_lookup (hcs : ∀ c ∈ cs, c.1.isNaN = false) (hx : x.isNaN = false)
    {first last : Float32 × β} (hfirst : cs.head? = some first) (hlast : cs.getLast? = some last)
    (hlow : ¬ x ≤ first.1) (hhigh : ¬ last.1 ≤ x) :
    ∃ i a b, Lookup cs x i a b ∧ x < b.1 ∧ Scalar.same (b.1 - a.1) 0 = false := by
  have hfirstNumber := hcs first (List.mem_of_head? hfirst)
  have hpast := Number.le_of_lt (Number.lt_of_not_le hfirstNumber hx hlow)
  obtain ⟨i, a, b, lookup, -⟩ := bracket_inner "" hfirst hlast hlow hhigh hpast
  have hbNumber := hcs b (List.mem_of_getElem? lookup.upper)
  exact ⟨i, a, b, lookup, Number.lt_of_not_le hx hbNumber lookup.high,
    Number.sub_ne_zero lookup.low lookup.high⟩

end

namespace Playback

variable {p : Playback Float32}

theorem thresholds_of_reaches (hnumbers : ∀ m ∈ p.host.motions, ∀ t ∈ m.thresholds, t.isNaN = false)
    {name channel : String} {cs : List (Float32 × Node Float32)} {w : Float32}
    (h : p.Reaches (.interp name channel cs) w) : ∀ c ∈ cs, c.1.isNaN = false := by
  obtain ⟨l, hl, m, hm, hreaches⟩ := h
  obtain ⟨s, hs, hmotion⟩ := Option.bind_eq_some_iff.mp hm
  have hmem : m ∈ p.host.motions := List.mem_filterMap.mpr
    ⟨s, List.mem_flatMap.mpr ⟨l, hl, List.mem_of_head? hs⟩, hmotion⟩
  intro c hc
  exact hnumbers m hmem c.1
    (List.mem_flatMap.mpr ⟨_, hreaches.mem_walk, List.mem_map_of_mem hc⟩)

/-- Where all thresholds are numbers, a frame cannot be played exactly if it comes, past no weight
of zero, to an interpolation with children whose key value is not a number. At any other key value
that is looked up, the bisection ends between two neighbours that enclose it and whose thresholds do
not have a difference of zero. -/
theorem step_fails_iff
    (hnumbers : ∀ m ∈ p.host.motions, ∀ t ∈ m.thresholds, t.isNaN = false) :
    ((∃ e, p.step = .error e) ↔ ∃ name channel cs w, p.Reaches (.interp name channel cs) w ∧
      cs ≠ [] ∧ (p.get channel).isNaN = true) ∧
    ∀ name channel cs w, p.Reaches (.interp name channel cs) w → (p.get channel).isNaN = false →
      ∀ first last, cs.head? = some first → cs.getLast? = some last →
        ¬ p.get channel ≤ first.1 → ¬ last.1 ≤ p.get channel →
        ∃ i a b, Lookup cs (p.get channel) i a b ∧ p.get channel < b.1 ∧
          Scalar.same (b.1 - a.1) 0 = false := by
  constructor
  · rw [step_error_iff]
    refine exists_congr fun name => exists_congr fun channel => exists_congr fun cs =>
      exists_congr fun w => and_congr_right fun hreaches => ?_
    exact bracket_error_iff (thresholds_of_reaches hnumbers hreaches)
  · intro name channel cs w hreaches hx first last hfirst hlast hlow hhigh
    exact exists_lookup (thresholds_of_reaches hnumbers hreaches) hx hfirst hlast hlow hhigh

end Playback

namespace Sample

/-- Children whose thresholds do not ascend, the last one infinite. -/
def scattered : List (Float32 × Node Float32) :=
  [(0, .leaf "Shut"), (3, .leaf "Open"), (1, .leaf "Half"), (1 / 0, .leaf "Wide")]

/-- A playback of the scattered children, with a weight that is not a number. -/
def unevenly (key : Float32) : Playback Float32 where
  host := { Host.empty "demo" with
    layers := [⟨"Face",
      [.playing "Talk" (.sum "Mix" [("Cheek", .interp "Blend" "Jaw" scattered)])]⟩] }
  values := .ofList [("Cheek", 0 / 0), ("Jaw", key)]

theorem unevenly_reaches (key : Float32) :
    ∃ w, (unevenly key).Reaches (.interp "Blend" "Jaw" scattered) w := by
  have hcheek : (unevenly key).get "Cheek" = 0 / 0 := by
    simp [Playback.get, unevenly, Table.ofList, Table.get?_insert]
  have hweight : Scalar.same (1 * (unevenly key).get "Cheek") 0 = false := by
    rw [hcheek]
    decide +kernel
  exact ⟨_, _, List.mem_singleton_self _, _, rfl,
    .sum (by decide +kernel) (List.mem_singleton_self _) (.here hweight)⟩

end Sample

theorem Playback.step_fails_sample :
    (∀ m ∈ (Sample.unevenly (0 / 0)).host.motions, ∀ t ∈ m.thresholds, t.isNaN = false) ∧
    (∃ e, (Sample.unevenly (0 / 0)).step = .error e) ∧
    ∃ i a b, Lookup Sample.scattered 2 i a b ∧ (2 : Float32) < b.1 ∧
      Scalar.same (b.1 - a.1) 0 = false := by
  have hnumbers : ∀ key : Float32, ∀ m ∈ (Sample.unevenly key).host.motions,
      ∀ t ∈ m.thresholds, t.isNaN = false :=
    fun _ => show ∀ m ∈ [Node.sum "Mix" [("Cheek", .interp "Blend" "Jaw" Sample.scattered)]],
      ∀ t ∈ m.thresholds, t.isNaN = false by decide +kernel
  refine ⟨hnumbers _, ?_, ?_⟩
  · obtain ⟨w, hreaches⟩ := Sample.unevenly_reaches (0 / 0)
    exact (step_fails_iff (hnumbers _)).1.mpr
      ⟨_, _, _, _, hreaches, List.cons_ne_nil _ _, by decide +kernel⟩
  · obtain ⟨w, hreaches⟩ := Sample.unevenly_reaches 2
    exact (step_fails_iff (hnumbers 2)).2 _ _ _ _ hreaches (by decide +kernel)
      _ _ rfl rfl (by decide +kernel) (by decide +kernel)

end BlendGraph
