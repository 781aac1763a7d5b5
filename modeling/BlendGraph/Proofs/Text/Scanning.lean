import BlendGraph.Json.Reader
import Mathlib.Data.List.TakeWhile

/-!
# Scanners and what follows

A scanner that knows what stands at the front of a text is run by rewriting, one step after another.
In a written document a number stands in front of a comma, of a line break or of nothing. The
scanners of numbers look at none of these, so that they take the same off the text whatever follows.
-/

set_option autoImplicit false

namespace BlendGraph.Text.Scan

variable {β γ : Type}

/-! ### One scanner after another -/

theorem bind_eq {p : Scan β} {f : β → Scan γ} {cs rest : List Char} {x : β}
    (h : p cs = some (x, rest)) : (p >>= f) cs = f x rest := by
  change (p cs).bind (fun r => f r.1 r.2) = _
  rw [h]
  rfl

theorem map_eq {p : Scan β} (f : β → γ) {cs rest : List Char} {x : β}
    (h : p cs = some (x, rest)) : (f <$> p) cs = some (f x, rest) := by
  change (p cs).bind (fun r => some (f r.1, r.2)) = _
  rw [h]
  rfl

theorem orElse_eq_left {p : Scan β} (q : Scan β) {cs : List Char} {r : β × List Char}
    (h : p cs = some r) : (p <|> q) cs = some r := by
  change (p cs <|> q cs) = _
  rw [h]
  rfl

theorem orElse_eq_right {p : Scan β} (q : Scan β) {cs : List Char} (h : p cs = none) :
    (p <|> q) cs = q cs := by
  change (p cs <|> q cs) = _
  rw [h]
  rfl

theorem bind_eq_none {p : Scan β} {f : β → Scan γ} {cs : List Char} (h : p cs = none) :
    (p >>= f) cs = none := by
  change (p cs).bind (fun r => f r.1 r.2) = _
  rw [h]
  rfl

theorem map_eq_none {p : Scan β} (f : β → γ) {cs : List Char} (h : p cs = none) :
    (f <$> p) cs = none := by
  change (p cs).bind (fun r => some (f r.1, r.2)) = _
  rw [h]
  rfl

theorem seqRight_eq {p : Scan β} (q : Scan γ) {cs rest : List Char} {x : β}
    (h : p cs = some (x, rest)) : (p *> q) cs = q rest := by
  change (p cs).bind (fun r => q r.2) = _
  rw [h]
  rfl

theorem seqRight_eq_none {p : Scan β} (q : Scan γ) {cs : List Char} (h : p cs = none) :
    (p *> q) cs = none := by
  change (p cs).bind (fun r => q r.2) = _
  rw [h]
  rfl

theorem word_eq_none {text : String} {cs : List Char} (h : ¬ text.toList <+: cs) :
    word text cs = none := by
  rw [word]
  cases hafter : Text.after? text.toList cs with
  | none => rfl
  | some rest => exact absurd ⟨rest, (Text.after?_eq_some_iff.mp hafter).symm⟩ h

theorem word_eq_none_of_head {text : String} {d : Char} {ds cs : List Char}
    (htext : text.toList = d :: ds) (h : cs.head? ≠ some d) : word text cs = none := by
  refine word_eq_none fun ⟨rest, hstart⟩ => ?_
  rw [← hstart, htext] at h
  exact h rfl

theorem span_eq_nil {test : Char → Bool} {cs : List Char} (h : ∀ c ∈ cs.head?, test c = false) :
    cs.takeWhile test = [] ∧ cs.dropWhile test = cs := by
  cases cs with
  | nil => exact ⟨rfl, rfl⟩
  | cons c cs => simp [h c rfl]

theorem run_append {test : Char → Bool} {cs rest : List Char} (hcs : ∀ c ∈ cs, test c = true)
    (hrest : ∀ c ∈ rest.head?, test c = false) : run test (cs ++ rest) = some (cs, rest) := by
  have hnone := span_eq_nil hrest
  rw [run, List.takeWhile_append_of_pos hcs, List.dropWhile_append_of_pos hcs, hnone.1, hnone.2,
    List.append_nil]

theorem run1_append {test : Char → Bool} {cs rest : List Char} (hne : cs ≠ [])
    (hcs : ∀ c ∈ cs, test c = true) (hrest : ∀ c ∈ rest.head?, test c = false) :
    run1 test (cs ++ rest) = some (cs, rest) := by
  rw [run1, bind_eq (run_append hcs hrest), List.isEmpty_eq_false_iff.mpr hne,
    if_neg Bool.false_ne_true]
  rfl

theorem many_eq_nil {p : Scan β} {cs : List Char} (h : p cs = none) :
    many p cs = some ([], cs) := by
  rw [many]
  cases cs with
  | nil => rfl
  | cons c cs => rw [List.length_cons, repeatFrom, h]

theorem parse?_eq_some_iff {p : Scan β} {text : String} {x : β} :
    p.parse? text = some x ↔ p text.toList = some (x, []) := by
  rw [Text.Scan.parse?]
  split
  · next y heq => simp [heq]
  · next hnot =>
    refine iff_of_false nofun fun heq => hnot x heq

/-! ### What follows -/

/-- Nothing, a comma or a line break stands at the front. -/
def Stops (rest : List Char) : Prop := ∀ c ∈ rest.head?, c = ',' ∨ c = '\n'

theorem stops_cons {c : Char} (h : c = ',' ∨ c = '\n') (cs : List Char) : Stops (c :: cs) := by
  rintro d hd
  obtain rfl := Option.some.inj hd
  exact h

/-- The scanner does with a text what it does with it in front of a stop. -/
def Apart (p : Scan β) : Prop :=
  ∀ cs rest, Stops rest → p (cs ++ rest) = (p cs).map fun r => (r.1, r.2 ++ rest)

theorem apart_pure (x : β) : Apart (pure x) := fun _ _ _ => rfl

theorem apart_failure : Apart (failure : Scan β) := fun _ _ _ => rfl

theorem Apart.bind {p : Scan β} {f : β → Scan γ} (hp : Apart p) (hf : ∀ x, Apart (f x)) :
    Apart (p >>= f) := by
  intro cs rest hrest
  change (p (cs ++ rest)).bind (fun r => f r.1 r.2)
    = ((p cs).bind fun r => f r.1 r.2).map fun r => (r.1, r.2 ++ rest)
  rw [hp cs rest hrest]
  cases p cs with
  | none => rfl
  | some r => exact hf r.1 r.2 rest hrest

theorem Apart.ite {p q : Scan β} {c : Prop} [Decidable c] (hp : Apart p) (hq : Apart q) :
    Apart (if c then p else q) := by
  split
  · exact hp
  · exact hq

theorem Apart.optional {p : Scan β} (hp : Apart p) : Apart p.optional := by
  intro cs rest hrest
  rw [Scan.optional, Scan.optional, hp cs rest hrest]
  cases p cs <;> rfl

/-- The test holds for none of the characters at which a number ends. -/
def Inside (test : Char → Bool) : Prop := test ',' = false ∧ test '\n' = false

theorem Inside.eq_false {test : Char → Bool} (h : Inside test) {rest : List Char}
    (hrest : Stops rest) : ∀ c ∈ rest.head?, test c = false := by
  intro c hc
  rcases hrest c hc with rfl | rfl
  · exact h.1
  · exact h.2

theorem apart_one {test : Char → Bool} (h : Inside test) : Apart (one test) := by
  intro cs rest hrest
  cases cs with
  | cons c cs =>
    rw [List.cons_append, one, one]
    split <;> rfl
  | nil =>
    cases rest with
    | nil => rfl
    | cons c rest =>
      rw [List.nil_append, one, one, h.eq_false hrest c rfl]
      rfl

theorem apart_run {test : Char → Bool} (h : Inside test) : Apart (run test) := by
  intro cs rest hrest
  have hnone := span_eq_nil (h.eq_false hrest)
  rw [run, run]
  induction cs with
  | nil => simp [hnone]
  | cons c cs ih =>
    simp only [Option.map_some, Option.some.injEq, Prod.mk.injEq] at ih
    cases hc : test c <;> simp [hc, ih]

theorem apart_run1 {test : Char → Bool} (h : Inside test) : Apart (run1 test) :=
  (apart_run h).bind fun _ => apart_failure.ite (apart_pure _)

theorem apart_word {c : Char} (h : c ≠ ',' ∧ c ≠ '\n') : Apart (word (String.singleton c)) := by
  have hword (cs : List Char) : word (String.singleton c) cs
      = (one (· == c) cs).map fun r => ((), r.2) := by
    cases cs with
    | nil => simp [word, after?, one]
    | cons d cs =>
      by_cases hd : c = d
      · simp [word, after?, one, hd]
      · simp [word, after?, one, hd, Ne.symm hd]
  intro cs rest hrest
  have hone : Inside (· == c) := ⟨beq_false_of_ne h.1.symm, beq_false_of_ne h.2.symm⟩
  rw [hword, hword, apart_one hone cs rest hrest]
  cases one (· == c) cs <;> rfl

end BlendGraph.Text.Scan

namespace BlendGraph.Json

open Text (Scan)
open Text.Scan

theorem inside_isDigit : Inside Char.isDigit := ⟨rfl, rfl⟩

theorem apart_exponent : Apart exponent := by
  refine (apart_one ⟨rfl, rfl⟩).bind fun _ => ?_
  refine (apart_one ⟨rfl, rfl⟩).optional.bind fun _ => ?_
  exact (apart_run1 inside_isDigit).bind fun _ => apart_pure _

theorem apart_numeral : Apart numeral := by
  refine (apart_word (c := '-') (by decide)).optional.bind fun sign => ?_
  refine (apart_run1 inside_isDigit).bind fun whole => ?_
  have hrest : Apart (do
      let places ← Text.Scan.optional (do word "."; run1 Char.isDigit)
      let e ← Text.Scan.optional exponent
      return orUnreadable ((JsonNumber.ofParts? sign.isSome whole places e).map number)) := by
    have hplaces := (apart_word (c := '.') (by decide)).bind fun _ => apart_run1 inside_isDigit
    exact hplaces.optional.bind fun _ => apart_exponent.optional.bind fun _ => apart_pure _
  exact (apart_failure.bind fun _ => hrest).ite hrest

end BlendGraph.Json
