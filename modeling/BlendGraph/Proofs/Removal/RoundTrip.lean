import BlendGraph.Proofs.Compile.Runs
import BlendGraph.Proofs.Removal.CompiledHosts

/-!
# Removal after compilations

Whatever compilations under one root are made in a clean host, one removal gives the host back, with
no more than a few plain channels behind its own.
-/

set_option autoImplicit false

namespace BlendGraph

variable {α : Type} [Scalar α]

/-- The plain channels that a list of compilations requests. -/
def plainNamesAll (calls : List (Call α)) : List String :=
  calls.flatMap fun c => plainNames c.parameters

/-- A run keeps the invariant, and redirects as many references as it reports. -/
theorem Laden.run {ns : Namespace} {h g g' : Host α} {plain : List String} {t : Trace α}
    (hroot : ns.root ≠ "") (clean : h.Clean ns) {calls : List (Call α)}
    (laden : Laden ns h plain t g) {rs : List CompileReport}
    (hrun : compileAll ns g calls = .ok (g', rs)) :
    ∃ t', Laden ns h (plain ++ plainNamesAll calls) t' g' ∧
      (h.redirect t'.redirected).2
        = (h.redirect t.redirected).2 + tally CompileReport.redirected rs := by
  induction calls generalizing plain t g rs with
  | nil =>
    cases hrun
    exact ⟨t, by simpa [plainNamesAll] using laden, rfl⟩
  | cons c calls ih =>
    obtain ⟨g₁, r, rs, hc, hrest, rfl⟩ := compileAll_cons_ok_iff.mp hrun
    obtain ⟨b, cs, hv, hcs, rfl, rfl⟩ := Compile.compile_ok_iff.mp hc
    have admits : Compile.Admits (c.options ns).names c.parameters :=
      Compile.admits_of_validate hv
    have hstep := Laden.outcome (o := c.options ns) hroot clean admits laden hcs
    have hfirst := Laden.redirected_outcome (o := c.options ns) hroot admits laden cs
    obtain ⟨t', hladen, hcount⟩ := ih hstep hrest
    refine ⟨t', by simpa [plainNamesAll, List.append_assoc] using hladen, ?_⟩
    rw [hcount, hfirst, tally_cons, Nat.add_assoc]
    rfl

omit [Scalar α] in
theorem mem_plainNamesAll {calls : List (Call α)} {n : String} : n ∈ plainNamesAll calls ↔
    ∃ c ∈ calls, n = Namespace.selectorChannel ∨ ∃ p ∈ c.parameters, p.name = n := by
  simp [plainNamesAll, plainNames]

/-- Compiling again what was compiled before a removal leaves nothing behind that the first removal
did not leave. -/
theorem Laden.extra_eq_nil {ns : Namespace} {h g h' g' : Host α} {calls again : List (Call α)}
    {t t' : Trace α} (laden : Laden ns h (plainNamesAll calls) t g)
    (hh' : h' = { h with channels := h.channels ++ t.extra ns g })
    (laden' : Laden ns h' (plainNamesAll again) t' g') (hsub : ∀ c ∈ again, c ∈ calls) :
    t'.extra ns g' = [] := by
  rw [← List.map_eq_nil_iff (f := Channel.name), List.eq_nil_iff_forall_not_mem]
  intro n hn
  obtain ⟨hadded, hplain⟩ := mem_extra.mp hn
  have hagain : n ∈ plainNamesAll again :=
    (laden'.origin n hadded).resolve_left (by simp [hplain])
  obtain ⟨c, hc, hname⟩ := mem_plainNamesAll.mp hagain
  have hpresent := laden.present n (mem_plainNamesAll.mpr ⟨c, hsub c hc, hname⟩)
  rw [laden.channelNames_eq, List.mem_append] at hpresent
  apply laden'.fresh n hadded
  rw [hh', Host.channelNames, List.map_append, List.mem_append]
  exact hpresent.imp_right fun hmem => mem_extra.mpr ⟨hmem, hplain⟩

/-- One removal takes out what any run of compilations has put into a clean host, but for plain
channels behind its own. Compiling any of it again and removing it changes nothing any more. -/
theorem removeAll_compileAll {ns : Namespace} {h g : Host α} {calls : List (Call α)}
    {rs : List CompileReport} (clean : h.Clean ns) (hne : calls ≠ [])
    (hrun : compileAll ns h calls = .ok (g, rs)) :
    ∃ extra, (Removal.removeAll g ns.root).1 = { h with channels := h.channels ++ extra } ∧
      (extra.map Channel.name).Nodup ∧
      (∀ c ∈ extra, c.name ∉ h.channelNames ∧ ∃ call ∈ calls,
        c.name = Namespace.selectorChannel ∨ ∃ p ∈ call.parameters, p.name = c.name) ∧
      (Removal.removeAll g ns.root).2.reverted = tally CompileReport.redirected rs ∧
      ∀ again : List (Call α), (∀ c ∈ again, c ∈ calls) → ∃ g' rs',
        compileAll ns (Removal.removeAll g ns.root).1 again = .ok (g', rs') ∧
        (Removal.removeAll g' ns.root).1 = (Removal.removeAll g ns.root).1 := by
  have hroot := root_ne_of_compileAll hne hrun
  obtain ⟨t, laden, hcount⟩ := (Laden.refl hroot clean).run hroot clean hrun
  rw [List.nil_append] at laden
  obtain ⟨hhost, hreverted⟩ := laden.removeAll hroot clean
  have hnone : (h.redirect fun _ => none).2 = 0 := by
    rw [h.redirect_eq_self fun _ _ => rfl]
  refine ⟨t.extra ns g, hhost, ?_, fun c hc => ?_, ?_, fun again hsub => ?_⟩
  · rw [Laden.map_name_extra]
    exact laden.nodup.sublist (List.filter_sublist.map _)
  · obtain ⟨hadded, hplain⟩ := Laden.mem_extra.mp (List.mem_map_of_mem hc)
    have hmem := (laden.origin c.name hadded).resolve_left (by simp [hplain])
    exact ⟨laden.fresh c.name hadded, mem_plainNamesAll.mp hmem⟩
  · rw [hreverted, hcount]
    exact (congrArg (· + _) hnone).trans (Nat.zero_add _)
  · have hclean := Laden.clean_extra (g := g) (t := t) clean
    rw [← hhost] at hclean
    have hid : (Removal.removeAll g ns.root).1.id = h.id := by rw [hhost]
    have hall := compileAll_ok_iff.mp ⟨_, hrun⟩
    obtain ⟨⟨g', rs'⟩, hagain⟩ := compileAll_ok_iff.mpr fun c hc =>
      Compile.compile_of_id hid (hall c (hsub c hc))
    obtain ⟨t', laden', -⟩ := (Laden.refl hroot hclean).run hroot hclean hagain
    rw [List.nil_append] at laden'
    refine ⟨g', rs', hagain, ?_⟩
    rw [(laden'.removeAll hroot hclean).1, laden.extra_eq_nil hhost laden' hsub,
      List.append_nil]

theorem removeAll_compileAll_sample : ∃ g rs extra,
    compileAll Sample.options.names Sample.host
      [⟨Sample.parameters, true, 16⟩, ⟨Sample.parameters.take 1, false, 3⟩] = .ok (g, rs) ∧
    (Removal.removeAll g "OSCm").1
      = { Sample.host with channels := Sample.host.channels ++ extra } := by
  have clean : Sample.host.Clean Sample.options.names := by
    constructor <;> decide +kernel
  have hok : (compileAll Sample.options.names Sample.host
      [⟨Sample.parameters, true, 16⟩, ⟨Sample.parameters.take 1, false, 3⟩]).isOk = true := by
    decide +kernel
  cases hrun : compileAll Sample.options.names Sample.host
      [⟨Sample.parameters, true, 16⟩, ⟨Sample.parameters.take 1, false, 3⟩] with
  | error e => rw [hrun] at hok; cases hok
  | ok x =>
    obtain ⟨g, rs⟩ := x
    obtain ⟨extra, hhost, -⟩ := removeAll_compileAll clean (by decide) hrun
    exact ⟨g, rs, extra, rfl, hhost⟩

end BlendGraph
