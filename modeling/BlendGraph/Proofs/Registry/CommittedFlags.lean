import BlendGraph.Proofs.Host.ChannelFlags
import BlendGraph.Registry

/-!
# Flags of a committed registry

Committing a registry sets the flags that it holds. The flag that a channel had before is recorded
once for each root, so that setting the recorded flags undoes whatever was set since.
-/

set_option autoImplicit false

namespace BlendGraph

variable {α : Type} [Scalar α]

/-! ### Set flags -/

namespace Registry

theorem channels_applyFlag (ns : Namespace) (h : Host α) (f : String × Bool) :
    (applyFlag ns h f).channels = Host.setSyncedIn f.1 f.2 h.channels := by
  unfold applyFlag
  split
  · next hc =>
    have hflag : Host.flagIn f.1 h.channels = none := congrArg (Option.map _) hc
    exact (Host.setSyncedIn_of_notMem (Host.flagIn_eq_none_iff.mp hflag)).symm
  · next c hc =>
    have hflag : Host.flagIn f.1 h.channels = some c.synced := congrArg (Option.map _) hc
    split
    · next heq =>
      symm
      apply Host.setSyncedIn_eq_self
      intro w hw
      rw [hflag] at hw
      rw [← heq]
      exact (Option.some.inj hw).symm
    · dsimp only
      split <;> rfl

/-- A flag that is there already is applied without a change. -/
theorem applyFlag_eq_self {ns : Namespace} {h : Host α} {f : String × Bool}
    (hf : ∀ w, Host.flagIn f.1 h.channels = some w → w = f.2) : applyFlag ns h f = h := by
  unfold applyFlag
  split
  · rfl
  · next c hc => rw [if_pos (hf c.synced (congrArg (Option.map _) hc))]

theorem foldl_applyFlag_eq_self {ns : Namespace} {h : Host α} {fs : List (String × Bool)}
    (hf : ∀ f ∈ fs, ∀ w, Host.flagIn f.1 h.channels = some w → w = f.2) :
    fs.foldl (applyFlag ns) h = h := by
  induction fs with
  | nil => rfl
  | cons f fs ih =>
    rw [List.foldl_cons, applyFlag_eq_self (hf f (List.mem_cons_self ..)),
      ih fun g hg => hf g (List.mem_cons_of_mem _ hg)]

/-- Flags are applied apart from the layers. -/
theorem applyFlag_withLayers (ns : Namespace) (h : Host α) (ls : List (Layer α))
    (f : String × Bool) :
    applyFlag ns { h with layers := ls } f = { applyFlag ns h f with layers := ls } := by
  have hchannel : Host.channel? { h with layers := ls } f.1 = h.channel? f.1 := rfl
  unfold applyFlag
  rw [hchannel]
  cases h.channel? f.1 with
  | none => rfl
  | some c =>
    dsimp only
    split
    · rfl
    · split <;> rfl

theorem foldl_applyFlag_withLayers (ns : Namespace) (h : Host α) (ls : List (Layer α))
    (fs : List (String × Bool)) : fs.foldl (applyFlag ns) { h with layers := ls }
      = { fs.foldl (applyFlag ns) h with layers := ls } := by
  induction fs generalizing h with
  | nil => rfl
  | cons f fs ih => rw [List.foldl_cons, List.foldl_cons, applyFlag_withLayers, ih]

theorem applyFlag_eq (ns : Namespace) (h : Host α) (f : String × Bool) :
    applyFlag ns h f = { h with
      channels := Host.setSyncedIn f.1 f.2 h.channels
      overrides := (applyFlag ns h f).overrides } := by
  rw [← channels_applyFlag ns h f]
  unfold applyFlag
  split
  · rfl
  · split
    · rfl
    · dsimp only
      split <;> rfl

theorem foldl_applyFlag_eq (ns : Namespace) (h : Host α) (fs : List (String × Bool)) :
    fs.foldl (applyFlag ns) h = { h with
      channels := Host.setAll fs h.channels
      overrides := (fs.foldl (applyFlag ns) h).overrides } := by
  induction fs generalizing h with
  | nil => rfl
  | cons f fs ih =>
    rw [List.foldl_cons, Host.setAll_cons, ih, ← channels_applyFlag ns h f, applyFlag_eq]

theorem apply_eq (r : Registry α) (ns : Namespace) (h : Host α) :
    r.apply ns h = { h with
      channels := Host.setAll r.flags.entries h.channels ++ r.created
      overrides := (r.flags.entries.foldl (applyFlag ns) h).overrides } := by
  have hadd (cs : List (Channel α)) (g : Host α) :
      cs.foldl Host.addChannel g = { g with channels := g.channels ++ cs } := by
    induction cs generalizing g with
    | nil => simp
    | cons c cs ih => simp [ih, Host.addChannel]
  rw [apply, hadd, foldl_applyFlag_eq]

/-! ### Recorded flags -/

variable {ns : Namespace}

@[simp] theorem erase_overrides_applyFlag (h : Host α) (f : String × Bool) :
    (applyFlag ns h f).overrides.erase ns.root = h.overrides.erase ns.root := by
  unfold applyFlag
  split
  · rfl
  · split
    · rfl
    · dsimp only
      split
      · rfl
      · exact Table.erase_insert _ _ _

theorem erase_overrides_foldl (h : Host α) (fs : List (String × Bool)) :
    (fs.foldl (applyFlag ns) h).overrides.erase ns.root = h.overrides.erase ns.root := by
  induction fs generalizing h with
  | nil => rfl
  | cons f fs ih => rw [List.foldl_cons, ih, erase_overrides_applyFlag]

theorem overridesOf_recordOverride (h : Host α) (root n : String) (v : Bool) :
    (h.recordOverride root n v).overridesOf root
      = if (h.overridesOf root).contains n = true then h.overridesOf root
        else (h.overridesOf root).insert n v := by
  rw [Host.recordOverride, Host.overridesOf, Table.get?_insert_self]
  rfl

/-- A flag is recorded if it changes for the first time and its channel is not generated. -/
theorem overridesOf_applyFlag (h : Host α) (f : String × Bool) :
    (applyFlag ns h f).overridesOf ns.root =
      match Host.flagIn f.1 h.channels with
      | none => h.overridesOf ns.root
      | some w =>
        if w = f.2 ∨ ns.generates f.1 = true ∨ (h.overridesOf ns.root).contains f.1 = true then
          h.overridesOf ns.root
        else (h.overridesOf ns.root).insert f.1 w := by
  unfold applyFlag
  cases hc : h.channel? f.1 with
  | none =>
    have hflag : Host.flagIn f.1 h.channels = none := congrArg (Option.map _) hc
    rw [hflag]
  | some c =>
    have hflag : Host.flagIn f.1 h.channels = some c.synced := congrArg (Option.map _) hc
    rw [hflag]
    dsimp only
    by_cases hsame : c.synced = f.2
    · rw [if_pos hsame, if_pos (.inl hsame)]
    · rw [if_neg hsame]
      by_cases hgen : ns.generates f.1 = true
      · rw [if_pos hgen, if_pos (.inr (.inl hgen))]
        rfl
      · rw [if_neg hgen]
        change (h.recordOverride ns.root f.1 c.synced).overridesOf ns.root = _
        rw [overridesOf_recordOverride]
        simp [hsame, hgen]

/-- Setting a flag does not change what the recorded flags restore. -/
theorem restore_applyFlag {h : Host α} {kept added : List (Channel α)}
    (hch : h.channels = kept ++ added)
    (plain : ∀ n ∈ kept.map Channel.name, ns.generates n = false) (f : String × Bool) :
    Host.setAll ((applyFlag ns h f).overridesOf ns.root).entries (Host.setSyncedIn f.1 f.2 kept)
      = Host.setAll (h.overridesOf ns.root).entries kept := by
  have hflag : ∀ u, Host.flagIn f.1 kept = some u → Host.flagIn f.1 h.channels = some u := by
    intro u hu
    rw [hch, Host.flagIn_append, hu]
    rfl
  rw [overridesOf_applyFlag]
  cases hw : Host.flagIn f.1 h.channels with
  | none =>
    have hself : Host.setSyncedIn f.1 f.2 kept = kept :=
      Host.setSyncedIn_eq_self fun u hu => by simp [hflag u hu] at hw
    rw [hself]
  | some w =>
    have hkept : ∀ u, Host.flagIn f.1 kept = some u → u = w := by
      intro u hu
      exact Option.some.inj ((hflag u hu).symm.trans hw)
    dsimp only
    split
    · next hcase =>
      rcases hcase with rfl | hgen | hrec
      · rw [Host.setSyncedIn_eq_self hkept]
      · have hmem : f.1 ∉ kept.map Channel.name := by
          intro hmem
          simp [plain f.1 hmem] at hgen
        rw [Host.setSyncedIn_of_notMem hmem]
      · exact Host.setAll_setSyncedIn_of_mem (Table.contains_iff_mem_keys.mp hrec) kept
    · next hcase =>
      have hnew : f.1 ∉ (h.overridesOf ns.root).entries.map Prod.fst := by
        intro hmem
        exact hcase (.inr (.inr (Table.contains_iff_mem_keys.mpr hmem)))
      change Host.setAll (Table.insertEntry f.1 w (h.overridesOf ns.root).entries) _ = _
      rw [Host.setAll_insertEntry hnew, Host.setAll_setSyncedIn_of_notMem hnew,
        Host.setSyncedIn_setSyncedIn, Host.setSyncedIn_eq_self]
      intro u hu
      rw [Host.flagIn_setAll_of_notMem hnew] at hu
      exact hkept u hu

theorem restore_foldl {h : Host α} {kept added : List (Channel α)}
    (hch : h.channels = kept ++ added)
    (plain : ∀ n ∈ kept.map Channel.name, ns.generates n = false)
    (apart : ∀ n ∈ kept.map Channel.name, n ∉ added.map Channel.name)
    (fs : List (String × Bool)) :
    Host.setAll ((fs.foldl (applyFlag ns) h).overridesOf ns.root).entries (Host.setAll fs kept)
      = Host.setAll (h.overridesOf ns.root).entries kept := by
  induction fs generalizing h kept added with
  | nil => rfl
  | cons f fs ih =>
    have hstep : (applyFlag ns h f).channels
        = Host.setSyncedIn f.1 f.2 kept ++ Host.setSyncedIn f.1 f.2 added := by
      rw [channels_applyFlag, hch, Host.setSyncedIn_append apart]
    rw [List.foldl_cons, Host.setAll_cons, ih hstep (by simpa using plain) (by simpa using apart),
      restore_applyFlag hch plain]

end Registry

end BlendGraph
