import BlendGraph.Proofs.Toml.ScalarTexts

/-!
# Documents read from their statements

Each statement of a document stands on a line of its own, and headers behind an empty one. The lines
are read one by one. What they add to the tables depends only on the keys that are there already.
-/

set_option autoImplicit false

namespace BlendGraph.Toml

open Text (Scan)
open Text.Scan

/-! ### Repetition -/

section

variable {β : Type} {p : Scan β}

theorem repeatFrom_nil (fuel : Nat) : repeatFrom p fuel [] = some ([], []) := by
  cases fuel with
  | zero => rfl
  | succ fuel =>
    rw [repeatFrom]
    split
    · rfl
    · exact if_neg (Nat.not_lt_zero _)

/-- Fuel that is enough is as good as any. -/
theorem repeatFrom_congr {fuel more : Nat} {cs : List Char} (h : cs.length ≤ fuel)
    (hmore : cs.length ≤ more) : repeatFrom p fuel cs = repeatFrom p more cs := by
  induction fuel generalizing more cs with
  | zero =>
    rw [List.length_eq_zero_iff.mp (Nat.le_zero.mp h), repeatFrom_nil, repeatFrom_nil]
  | succ fuel ih =>
    cases more with
    | zero =>
      rw [List.length_eq_zero_iff.mp (Nat.le_zero.mp hmore), repeatFrom_nil, repeatFrom_nil]
    | succ more =>
      rw [repeatFrom, repeatFrom]
      split
      · rfl
      · split
        · refine congrArg _ (ih ?_ ?_) <;> omega
        · rfl

theorem many_cons {cs rest : List Char} {x : β} (h : p cs = some (x, rest))
    (hless : rest.length < cs.length) :
    many p cs = (many p rest).map fun r => (x :: r.1, r.2) := by
  obtain ⟨n, hn⟩ := Nat.exists_eq_succ_of_ne_zero (Nat.ne_zero_of_lt hless)
  rw [many, hn, repeatFrom, h]
  dsimp only
  rw [if_pos hless, many, repeatFrom_congr (by omega) (Nat.le_refl _)]

end

/-! ### Keys -/

/-- The name stands in a document without quotes. -/
def Bare (name : String) : Prop := name.toList ≠ [] ∧ ∀ c ∈ name.toList, isBare c = true

theorem bare_iff (name : String) :
    (!name.toList.isEmpty && name.toList.all isBare) = true ↔ Bare name := by
  simp [Bare]

instance (name : String) : Decidable (Bare name) := decidable_of_iff _ (bare_iff name)

theorem text_single {name : String} (h : Bare name) : (Key.single name).text = name := by
  have hempty : name.isEmpty = false := by
    rw [Bool.eq_false_iff, Ne, String.isEmpty_iff]
    rintro rfl
    exact h.1 rfl
  have hpart : keyPartText name = name := by
    rw [keyPartText, hempty, List.all_eq_true.mpr h.2]
    rfl
  change ".".intercalate [keyPartText name] = name
  rw [hpart]
  exact String.intercalate_singleton ..

theorem blanks_append {pad cs : List Char} (hpad : ∀ c ∈ pad, isBlank c = true)
    (hcs : ∀ c ∈ cs.head?, isBlank c = false) : blanks (pad ++ cs) = some ((), cs) :=
  bind_eq (run_append hpad hcs)

theorem Bare.isBare_head {name : String} (h : Bare name) (rest : List Char) :
    ∀ c ∈ (name.toList ++ rest).head?, isBare c = true := by
  intro c hc
  rw [List.head?_append_of_ne_nil _ h.1] at hc
  exact h.2 c (List.mem_of_head? hc)

theorem Bare.head_ne {name : String} (h : Bare name) (rest : List Char) {d : Char}
    (hd : isBare d = false) : (name.toList ++ rest).head? ≠ some d := by
  intro hhead
  rw [h.isBare_head rest d hhead] at hd
  cases hd

theorem ne_of_isBare {c d : Char} (hc : isBare c = true) (hd : isBare d = false) : c ≠ d := by
  rintro rfl
  rw [hc] at hd
  cases hd

theorem isBlank_of_isBare {c : Char} (h : isBare c = true) : isBlank c = false := by
  rw [isBlank, beq_false_of_ne (ne_of_isBare h rfl), beq_false_of_ne (ne_of_isBare h rfl)]
  rfl

/-- A name is read with the blanks behind it. -/
theorem keyPart_bare {name : String} (h : Bare name) {pad rest : List Char}
    (hpad : ∀ c ∈ pad, isBlank c = true)
    (hrest : ∀ c ∈ rest.head?, isBlank c = false ∧ isBare c = false) :
    keyPart (name.toList ++ (pad ++ rest)) = some (name, rest) := by
  have hskip := blanks_append (List.forall_mem_nil _) fun c hc =>
    isBlank_of_isBare (h.isBare_head (pad ++ rest) c hc)
  have hshort : shortString (name.toList ++ (pad ++ rest)) = none :=
    shortString_eq_none ⟨h.head_ne _ rfl, h.head_ne _ rfl⟩
  have hrun : run1 isBare (name.toList ++ (pad ++ rest)) = some (name.toList, pad ++ rest) := by
    refine run1_append h.1 h.2 fun c hc => ?_
    cases pad with
    | nil => exact (hrest c hc).2
    | cons d ds =>
      obtain rfl := Option.some.inj hc
      rw [Bool.eq_false_iff]
      intro hbare
      have hblank := hpad d (List.mem_cons_self ..)
      rw [isBlank_of_isBare hbare] at hblank
      cases hblank
  have hpart := (orElse_eq_right _ hshort).trans (map_eq String.ofList hrun)
  rw [List.nil_append] at hskip
  rw [keyPart, bind_eq hskip, bind_eq hpart,
    bind_eq (blanks_append hpad fun c hc => (hrest c hc).1), String.ofList_toList]
  rfl

theorem key_bare {name : String} (h : Bare name) (pad rest : List Char)
    (hpad : ∀ c ∈ pad, isBlank c = true)
    (hrest : ∀ c ∈ rest.head?, isBlank c = false ∧ isBare c = false ∧ c ≠ '.') :
    key (name.toList ++ (pad ++ rest)) = some (.single name, rest) := by
  have hdot : word "." rest = none :=
    word_eq_none_of_head (show ".".toList = ['.'] from rfl) fun hc => (hrest '.' hc).2.2 rfl
  have hpart := keyPart_bare h hpad fun c hc => ⟨(hrest c hc).1, (hrest c hc).2.1⟩
  rw [key, bind_eq hpart, bind_eq (many_eq_nil (seqRight_eq_none _ hdot)), if_pos (by decide)]
  rfl

/-! ### Lines -/

/-- What opens no header, comment or empty line is a pair. -/
theorem line_eq_pair {cs : List Char} (hne : cs ≠ [])
    (h : ∀ c ∈ ['#', '\n', '\r', '['], cs.head? ≠ some c)
    (hblank : ∀ c ∈ cs.head?, isBlank c = false) :
    line cs = (do
      let p ← pair (value nesting)
      lineEnd
      return some (.pair p.1 p.2) : Scan (Option Statement)) cs := by
  have hskip := blanks_append (List.forall_mem_nil _) hblank
  have hpeek : peek cs = some (cs.head?, cs) := rfl
  rw [List.nil_append] at hskip
  rw [line, bind_eq hskip, bind_eq hpeek]
  refine congrFun ?_ cs
  split
  · next hc => exact absurd (List.head?_eq_none_iff.mp hc) hne
  · next hc => exact absurd hc (h '#' (by decide))
  · next hc => exact absurd hc (h '\n' (by decide))
  · next hc => exact absurd hc (h '\r' (by decide))
  · next hc => exact absurd hc (h '[' (by decide))
  · rfl

theorem lineEnd_cons (rest : List Char) : lineEnd ('\n' :: rest) = some ((), rest) := by
  rfl

theorem toList_text_pair {name : String} (h : Bare name) (v : Toml) :
    (Statement.pair (.single name) v).text.toList
      = name.toList ++ ' ' :: '=' :: ' ' :: (v.text.toList ++ ['\n']) := by
  rw [Statement.text, text_single h]
  simp

theorem line_pair {name : String} (h : Bare name) {v w : Toml} (hv : v.Rereads w)
    (rest : List Char) :
    line ((Statement.pair (.single name) v).text.toList ++ rest)
      = some (some (.pair (.single name) w), rest) := by
  have htext : (Statement.pair (.single name) v).text.toList ++ rest
      = name.toList ++ ([' '] ++ '=' :: ([' '] ++ (v.text.toList ++ '\n' :: rest))) := by
    rw [toList_text_pair h]
    simp
  have hspace : ∀ c ∈ [' '], isBlank c = true := List.forall_mem_singleton.mpr rfl
  have hkey := key_bare h [' '] ('=' :: ([' '] ++ (v.text.toList ++ '\n' :: rest)))
    hspace (by rintro _ ⟨⟩; decide)
  have hblanks : blanks ([' '] ++ (v.text.toList ++ '\n' :: rest))
      = some ((), v.text.toList ++ '\n' :: rest) := by
    refine blanks_append hspace fun c hc => ?_
    cases htext : v.text.toList with
    | nil =>
      rw [htext] at hc
      obtain rfl := Option.some.inj hc
      rfl
    | cons d ds =>
      rw [htext] at hc
      obtain rfl := Option.some.inj hc
      exact hv.opens d (by rw [htext]; rfl)
  have hpair : pair (value nesting)
      (name.toList ++ ([' '] ++ '=' :: ([' '] ++ (v.text.toList ++ '\n' :: rest))))
        = some ((.single name, w), '\n' :: rest) := by
    rw [pair, bind_eq hkey, bind_eq (show word "=" ('=' :: _) = some ((), _) from rfl),
      bind_eq hblanks, bind_eq (hv.reads rest)]
    rfl
  have hmarks : ∀ c ∈ ['#', '\n', '\r', '['], isBare c = false := by
    simp [isBare]
  rw [htext, line_eq_pair (List.append_ne_nil_of_left_ne_nil h.1 _)
    (fun c hc => h.head_ne _ (hmarks c hc)) (fun c hc => isBlank_of_isBare (h.isBare_head _ c hc)),
    bind_eq hpair, bind_eq (lineEnd_cons rest)]
  rfl

theorem line_empty (rest : List Char) : line ('\n' :: rest) = some (none, rest) := by
  rfl

theorem line_item {name : String} (h : Bare name) (rest : List Char) :
    line (("[[" ++ name ++ "]]\n").toList ++ rest) = some (some (.item (.single name)), rest) := by
  have hkey := key_bare h [] (']' :: ']' :: '\n' :: rest) (List.forall_mem_nil _)
    (by rintro _ ⟨⟩; decide)
  rw [List.nil_append] at hkey
  have hheader : header ('[' :: '[' :: (name.toList ++ ']' :: ']' :: '\n' :: rest))
      = some (.item (.single name), '\n' :: rest) := by
    have hdoubled : Text.Scan.optional (word "[")
        ('[' :: (name.toList ++ ']' :: ']' :: '\n' :: rest))
        = some (some (), name.toList ++ ']' :: ']' :: '\n' :: rest) := rfl
    rw [header, bind_eq (show word "[" ('[' :: _) = some ((), _) from rfl), bind_eq hdoubled,
      bind_eq hkey, bind_eq (show word "]" (']' :: _) = some ((), _) from rfl)]
    rfl
  have hline (cs : List Char) : line ('[' :: cs) = (do
      let s ← header
      lineEnd
      return some s : Scan (Option Statement)) ('[' :: cs) := by
    change ((header ('[' :: cs)).bind fun r => some (some r.1, r.2)).bind
      (fun r => (lineEnd r.2).bind fun t => some (r.1, t.2)) = (header ('[' :: cs)).bind _
    cases header ('[' :: cs) <;> rfl
  have htext : ("[[" ++ name ++ "]]\n").toList ++ rest
      = '[' :: '[' :: (name.toList ++ ']' :: ']' :: '\n' :: rest) := by
    simp
  rw [htext, hline, bind_eq hheader, bind_eq (lineEnd_cons rest)]
  rfl

/-! ### Documents -/

/-- One statement is read for the other. -/
inductive Statement.Rereads : Statement → Statement → Prop
  | pair {name : String} {v w : Toml} (hname : Bare name) (hv : v.Rereads w) :
    Rereads (.pair (.single name) v) (.pair (.single name) w)
  | item {name : String} (hname : Bare name) : Rereads (.item (.single name)) (.item (.single name))

theorem documentText_cons (s : Statement) (statements : List Statement) :
    (documentText (s :: statements)).toList
      = s.text.toList ++ (documentText statements).toList := by
  rw [documentText, List.map_cons, String.join_cons, String.toList_append]
  rfl

theorem many_line {before after : List Statement}
    (h : List.Forall₂ Statement.Rereads before after) :
    ∃ lines, many line (documentText before).toList = some (lines, []) ∧
      lines.filterMap id = after := by
  induction h with
  | nil => exact ⟨[], rfl, rfl⟩
  | @cons s t before after hs _ ih =>
    obtain ⟨lines, hlines, hafter⟩ := ih
    rw [documentText_cons]
    cases hs with
    | @pair name v w hname hv =>
      refine ⟨some (.pair (.single name) w) :: lines, ?_, by rw [← hafter]; rfl⟩
      rw [many_cons (line_pair hname hv _), hlines]
      · rfl
      · rw [toList_text_pair hname, List.length_append, List.length_append, List.length_cons]
        omega
    | @item name hname =>
      refine ⟨none :: some (.item (.single name)) :: lines, ?_, by rw [← hafter]; rfl⟩
      have htext : (Statement.item (.single name)).text.toList
          = '\n' :: ("[[" ++ name ++ "]]\n").toList := by
        rw [Statement.text, text_single hname]
        simp
      rw [htext, List.cons_append, many_cons (line_empty _) (Nat.lt_succ_self _),
        many_cons (line_item hname _), hlines]
      · rfl
      · rw [List.length_append, Nat.lt_add_left_iff_pos]
        exact List.length_pos_of_ne_nil (by simp)

theorem head_documentText {before after : List Statement}
    (h : List.Forall₂ Statement.Rereads before after) :
    (documentText before).toList.head? ≠ some '\uFEFF' := by
  cases h with
  | nil => exact nofun
  | cons hs _ =>
    rw [documentText_cons]
    cases hs with
    | pair hname hv =>
      rw [toList_text_pair hname, List.append_assoc]
      exact hname.head_ne _ (by decide)
    | item hname =>
      rw [Statement.text]
      simp

/-- The document of the statements is read as those that are read for them. -/
theorem statements?_documentText {before after : List Statement}
    (h : List.Forall₂ Statement.Rereads before after) :
    statements? (documentText before) = some after := by
  obtain ⟨lines, hlines, rfl⟩ := many_line h
  have hmark : Text.Scan.optional (word "\uFEFF") (documentText before).toList
      = some (none, (documentText before).toList) := by
    rw [Text.Scan.optional, word_eq_none_of_head (show "\uFEFF".toList = ['\uFEFF'] from rfl)
      (head_documentText h)]
  rw [statements?, parse?_eq_some_iff, document, bind_eq hmark, bind_eq hlines]
  rfl

end BlendGraph.Toml
