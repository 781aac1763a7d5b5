import BlendGraph.Proofs.Compile.ChainedFilters
import BlendGraph.Proofs.Removal.SeveralRoots

/-!
# Removals in either order

Two compilations under different roots are undone by a removal of each. References come back in both
orders. Each root has recorded the flags that it found, so that flags come back if the later
compilation is removed first; in the other order, a flag of the first list may be set again.
-/

set_option autoImplicit false

namespace BlendGraph

variable {α : Type}

/-- Two roots that do not take the names for their own which the other one generates. -/
structure Namespace.Apart (a b : Namespace) (s t : List (Parameter α)) : Prop where
  roots : a.root ≠ b.root
  left : ∀ p ∈ s, b.tags (a.proxy p.name) = false
  right : ∀ q ∈ t, a.tags (b.proxy q.name) = false

/-- Two roots are apart for lists under which neither generates a name that the other one tags. -/
theorem Namespace.apart_of_untagged [Scalar α] [LawfulScalar α] {a b : Namespace}
    {s t : List (Parameter α)} (ha : a.root ≠ "") (admits : Compile.Admits a s)
    (admits' : Compile.Admits b t) {host : String} {hidden hidden' : Bool}
    (hs : ∀ n ∈ Compile.generatedNames a host hidden s, b.tags n = false)
    (ht : ∀ n ∈ Compile.generatedNames b host hidden' t, a.tags n = false) : a.Apart b s t where
  roots := by
    intro heq
    have hlayer := hs a.layer (List.mem_cons_self ..)
    have htag : b.tags a.layer = a.tags a.layer := by rw [tags, tags, heq]
    rw [htag, tags_layer ha] at hlayer
    cases hlayer
  left p hp := hs _ (List.mem_append_right _
    ((Compile.mem_channels_motion admits).mpr (.inl (Compile.proxy_mem_requests hp))))
  right q hq := ht _ (List.mem_append_right _
    ((Compile.mem_channels_motion admits').mpr (.inl (Compile.proxy_mem_requests hq))))

/-! ### References -/

namespace Removal

theorem turned_proxy (ns : Namespace) (n : String) : turned ns (ns.proxy n) = n := by
  rw [turned, Host.replaced, rawName?_proxy]
  rfl

theorem turned_eq_self {ns : Namespace} {n : String}
    (plain : ∀ start ∈ ns.starts, Text.startsWith n start = false) : turned ns n = n := by
  rw [turned, Host.replaced, rawName?_eq_none plain]
  rfl

theorem turned_of_untagged {ns : Namespace} (hroot : ns.root ≠ "") {n : String}
    (htag : ns.tags n = false) : turned ns n = n := by
  apply turned_eq_self
  intro start hstart
  rw [← Bool.not_eq_true]
  intro hstarts
  simp only [Namespace.starts, List.mem_cons, List.not_mem_nil, or_false] at hstart
  rcases hstart with rfl | rfl | rfl | rfl <;>
    rw [Namespace.tags_of_startsWith hroot hstarts] at htag <;> cases htag

end Removal

open Removal

/-- A reference that two compilations have redirected is turned back by both removals. -/
theorem turned_smoothed [Scalar α] {a b : Namespace} (ha : a.root ≠ "") (hb : b.root ≠ "")
    {s t : List (Parameter α)} (apart : a.Apart b s t) {n : String}
    (plainA : ∀ start ∈ a.starts, Text.startsWith n start = false)
    (plainB : ∀ start ∈ b.starts, Text.startsWith n start = false) :
    turned b (turned a (Compile.smoothed b t (Compile.smoothed a s n))) = n ∧
      turned a (turned b (Compile.smoothed b t (Compile.smoothed a s n))) = n := by
  by_cases hs : n ∈ (s.filter Parameter.redirect).map Parameter.name
  · obtain ⟨p, hp, rfl⟩ := List.mem_map.mp hs
    have htag := apart.left p (List.mem_of_mem_filter hp)
    -- a parameter with this name would put the first root into a name under the second one
    have hkept : Compile.smoothed b t (a.proxy p.name) = a.proxy p.name := by
      refine Compile.smoothed_eq_self_iff.mpr fun q hq _ heq => ?_
      have hboth : a.tags (b.proxy (a.proxy p.name)) = true :=
        Namespace.tags_append_left (Namespace.tags_channel ha "Proxy" p.name) _
      rw [← heq, apart.right q hq] at hboth
      cases hboth
    rw [Compile.smoothed_eq a, if_pos hs, hkept, turned_proxy, turned_eq_self plainB,
      turned_of_untagged hb htag, turned_proxy]
    exact ⟨rfl, rfl⟩
  · rw [Compile.smoothed_eq a, if_neg hs, Compile.smoothed_eq]
    split
    · next ht =>
      obtain ⟨q, hq, rfl⟩ := List.mem_map.mp ht
      have htag := apart.right q (List.mem_of_mem_filter hq)
      rw [turned_of_untagged ha htag, turned_proxy, turned_eq_self plainA]
      exact ⟨rfl, rfl⟩
    · rw [turned_eq_self plainA, turned_eq_self plainB, turned_eq_self plainA]
      exact ⟨rfl, rfl⟩

/-! ### Flags -/

/-- Setting a recorded flag takes one change back. -/
theorem overwritten?_getD (wanted : Option Bool) (flag : Bool) :
    (overwritten? wanted flag).getD (wanted.getD flag) = flag := by
  cases wanted with
  | none => rfl
  | some v => cases v <;> cases flag <;> rfl

/-- Two changes of a flag, of which the first one is taken back first: the flag that it left is set
again if and only if both lists have changed it. -/
theorem overwritten?_getD_first_iff (w w' : Option Bool) (flag : Bool) :
    (overwritten? w' (w.getD flag)).getD ((overwritten? w flag).getD (w'.getD (w.getD flag))) = flag
      ↔ (w = some (!flag) → w' ≠ some flag) := by
  cases w with
  | none => simp [overwritten?_getD]
  | some v =>
    cases w' with
    | none => cases v <;> cases flag <;> decide
    | some v' => cases v <;> cases v' <;> cases flag <;> decide

/-! ### Both orders -/

variable [Scalar α] {h g k : Host α} {s t : List (Parameter α)} {o o' : CompileOptions}
  {r r' : CompileReport}

/-- What each of two compilations records for a channel: the flag that it has found. -/
theorem get?_overridesOf_both (hroots : o.names.root ≠ o'.names.root) (nodup : h.channelNames.Nodup)
    (bare : h.Bare o.names) (bare' : h.Bare o'.names) (hs : Compile.compile h s o = .ok (g, r))
    (ht : Compile.compile g t o' = .ok (k, r')) {c : Channel α} (hc : c ∈ h.channels) :
    (k.overridesOf o.names.root).get? c.name = overwritten? (wanted? s c.name) c.synced ∧
      (k.overridesOf o'.names.root).get? c.name
        = overwritten? (wanted? t c.name) ((wanted? s c.name).getD c.synced) := by
  have overlay := Overlay.refl nodup
  have hfirst : (h.overridesOf o.names.root).get? c.name = none := by
    rw [Host.overridesOf, bare.overrides]
    rfl
  have hsecond : (h.overridesOf o'.names.root).get? c.name = none := by
    rw [Host.overridesOf, bare'.overrides]
    rfl
  constructor
  · rw [Compile.overridesOf_compile_of_ne ht hroots,
      Compile.get?_overridesOf_compile hs (bare.channels c hc) (overlay.flagIn hc), hfirst]
    rfl
  · rw [Compile.get?_overridesOf_compile ht (bare'.channels c hc)
        ((overlay.compile bare hs).flagIn hc),
      Compile.overridesOf_compile_of_ne hs (Ne.symm hroots), hsecond]
    simp

/-- Two compilations are undone by two removals. The layers come back as they were in both orders,
and the flags if the later compilation is removed first. If the earlier one is removed first, they
do so if and only if no flag that its list changes is changed back by the other list. -/
theorem removeAll_removeAll (apart : o.names.Apart o'.names s t) (nodup : h.channelNames.Nodup)
    (bare : h.Bare o.names) (bare' : h.Bare o'.names) (hs : Compile.compile h s o = .ok (g, r))
    (ht : Compile.compile g t o' = .ok (k, r')) :
    ((removeAll (removeAll k o.names.root).1 o'.names.root).1.layers = h.layers ∧
      (removeAll (removeAll k o'.names.root).1 o.names.root).1.layers = h.layers) ∧
    (∀ c ∈ h.channels, Host.flagIn c.name
      (removeAll (removeAll k o'.names.root).1 o.names.root).1.channels = some c.synced) ∧
    ((∀ c ∈ h.channels, Host.flagIn c.name
        (removeAll (removeAll k o.names.root).1 o'.names.root).1.channels = some c.synced) ↔
      ∀ c ∈ h.channels, wanted? s c.name = some (!c.synced) →
        wanted? t c.name ≠ some c.synced) := by
  have hroot := Compile.root_ne_of_compile hs
  have hroot' := Compile.root_ne_of_compile ht
  have overlay := ((Overlay.refl nodup).compile bare hs).compile bare' ht
  have forwards := (overlay.removeAll hroot bare).removeAll hroot' bare'
  have backwards := (overlay.removeAll hroot' bare').removeAll hroot bare
  have hturned : ∀ x ∈ h.references, _ := fun x hx =>
    turned_smoothed hroot hroot' apart (bare.references x hx) (bare'.references x hx)
  refine ⟨⟨?forwards, ?backwards⟩, ?flags, ?iff⟩
  case forwards => exact forwards.layers_eq (by simp) fun x hx => (hturned x hx).1
  case backwards => exact backwards.layers_eq (by simp) fun x hx => (hturned x hx).2
  case flags =>
    intro c hc
    obtain ⟨hfirst, hsecond⟩ := get?_overridesOf_both apart.roots nodup bare bare' hs ht hc
    rw [backwards.flagIn hc, overridesOf_removeAll_of_ne _ hroot' apart.roots, hfirst, hsecond]
    simp only [Option.getD_or, Option.getD_none, overwritten?_getD]
  case iff =>
    refine forall₂_congr fun c hc => ?_
    obtain ⟨hfirst, hsecond⟩ := get?_overridesOf_both apart.roots nodup bare bare' hs ht hc
    -- the second root's record is set last, and it holds what the first list had written
    rw [forwards.flagIn hc, overridesOf_removeAll_of_ne _ hroot apart.roots.symm, hfirst, hsecond,
      Option.some.injEq]
    simp only [Option.getD_or, Option.getD_none]
    exact overwritten?_getD_first_iff ..

/-- A parameter that is transmitted as one bit. -/
def Sample.oneBit : Parameter Float32 := (Parameter.ofName "Jaw").withBits 1 false

theorem Sample.bare_left : Sample.host.Bare Sample.left.names :=
  ⟨by decide +kernel, by decide +kernel, by decide +kernel, by decide +kernel, rfl⟩

theorem Sample.bare_right : Sample.host.Bare Sample.right.names :=
  ⟨by decide +kernel, by decide +kernel, by decide +kernel, by decide +kernel, rfl⟩

theorem removeAll_removeAll_sample : ∃ g r k r',
    Compile.compile Sample.host [Sample.oneBit] Sample.left = .ok (g, r) ∧
    Compile.compile g [.ofName "Cheek"] Sample.right = .ok (k, r') ∧
    (removeAll (removeAll k "Left").1 "Right").1.layers = Sample.host.layers ∧
    ∀ c ∈ Sample.host.channels, Host.flagIn c.name
      (removeAll (removeAll k "Left").1 "Right").1.channels = some c.synced := by
  have hok : (Compile.validate [Sample.oneBit] Sample.left).isOk = true := by decide +kernel
  have hok' : (Compile.validate [Parameter.ofName (α := Float32) "Cheek"] Sample.right).isOk
      = true := by
    decide +kernel
  obtain ⟨b, hv⟩ := exists_of_isOk hok
  obtain ⟨b', hv'⟩ := exists_of_isOk hok'
  obtain ⟨cs, r, -, hs⟩ := Compile.exists_compile (h := Sample.host) hv
  obtain ⟨cs', r', -, ht⟩ := Compile.exists_compile
    (h := (Compile.outcome Sample.host [Sample.oneBit] Sample.left cs).1) hv'
  have hleft : ∀ n ∈ Compile.generatedNames ⟨"Left"⟩ "demo" false [Sample.oneBit],
      Sample.right.names.tags n = false := by
    decide +kernel
  have hright : ∀ n ∈ Compile.generatedNames ⟨"Right"⟩ "demo" false
      [Parameter.ofName (α := Float32) "Cheek"], Sample.left.names.tags n = false := by
    decide +kernel
  have apart := Namespace.apart_of_untagged (by decide) (Compile.admits_of_validate hv)
    (Compile.admits_of_validate hv') hleft hright
  obtain ⟨⟨hlayers, -⟩, -, hiff⟩ :=
    removeAll_removeAll apart (by decide +kernel) Sample.bare_left Sample.bare_right hs ht
  exact ⟨_, r, _, r', hs, ht, hlayers, hiff.mpr (by decide +kernel)⟩

/-- `Left` quantizes `Jaw`, whose channel is transmitted, and `Right` has it transmitted again. If
the removal of `Left` comes first, that of `Right` leaves the channel as `Left` had set it. -/
theorem flag_lost : ∃ g r k r',
    Compile.compile Sample.host [Sample.oneBit] Sample.left = .ok (g, r) ∧
    Compile.compile g [.ofName "Jaw"] Sample.right = .ok (k, r') ∧
    Sample.host.channelNames.Nodup ∧ Sample.host.Bare Sample.left.names ∧
    Sample.host.Bare Sample.right.names ∧
    (∀ n ∈ Compile.generatedNames ⟨"Left"⟩ "demo" false [Sample.oneBit],
      Sample.right.names.generates n = false) ∧
    (∀ n ∈ Compile.generatedNames (α := Float32) ⟨"Right"⟩ "demo" false [.ofName "Jaw"],
      Sample.left.names.generates n = false) ∧
    Host.flagIn "Jaw" Sample.host.channels = some true ∧
    Host.flagIn "Jaw" (removeAll (removeAll k "Left").1 "Right").1.channels = some false := by
  have hlost : (Compile.compile Sample.host [Sample.oneBit] Sample.left).toOption.any fun x =>
      (Compile.compile x.1 [.ofName "Jaw"] Sample.right).toOption.any fun y => decide
        (Host.flagIn "Jaw" (removeAll (removeAll y.1 "Left").1 "Right").1.channels
          = some false) := by
    decide +kernel
  obtain ⟨⟨g, r⟩, hs, hlost⟩ := exists_of_any_toOption hlost
  obtain ⟨⟨k, r'⟩, ht, hlost⟩ := exists_of_any_toOption hlost
  exact ⟨g, r, k, r', hs, ht, by decide +kernel, Sample.bare_left, Sample.bare_right,
    by decide +kernel, by decide +kernel, by decide +kernel, of_decide_eq_true hlost⟩

end BlendGraph
