import BlendGraph.Json.Writer
import BlendGraph.Proofs.Text.Scanning
import Mathlib.Data.List.Forall2

/-!
# Written containers

What stands in a container line by line is read item by item, if each item is read from its own text
whatever blanks stand in front of it.
-/

set_option autoImplicit false

namespace BlendGraph.Json

open Text (Scan)
open Text.Scan

variable {β γ : Type}

/-! ### Texts in front of others -/

def Blank (pad : List Char) : Prop := ∀ c ∈ pad, isBlank c = true

theorem blanks_append {pad : List Char} (hpad : Blank pad) {cs : List Char}
    (hcs : ∀ c ∈ cs.head?, isBlank c = false) : blanks (pad ++ cs) = some ((), cs) := by
  have hdrop : (pad ++ cs).dropWhile isBlank = cs := by
    rw [List.dropWhile_append_of_pos hpad]
    cases cs with
    | nil => rfl
    | cons c cs => rw [List.dropWhile_cons, hcs c rfl, if_neg Bool.false_ne_true]
  change some ((), _) = _
  rw [hdrop]

theorem blank_deeper {indent : List Char} (h : Blank indent) : Blank (indent ++ [' ', ' ']) :=
  List.forall_mem_append.mpr ⟨h, List.forall_mem_cons.mpr ⟨rfl, List.forall_mem_singleton.mpr rfl⟩⟩

theorem blank_line {indent : List Char} (h : Blank indent) :
    Blank ('\n' :: (indent ++ [' ', ' '])) :=
  List.forall_mem_cons.mpr ⟨rfl, blank_deeper h⟩

theorem blanks_cons {c : Char} (hc : isBlank c = false) (cs : List Char) :
    blanks (c :: cs) = some ((), c :: cs) := by
  have hhead : ∀ d ∈ (c :: cs).head?, isBlank d = false := by
    intro d hd
    obtain rfl := Option.some.inj hd
    exact hc
  exact blanks_append (List.forall_mem_nil _) hhead

/-- The scanner reads the text as the value, behind any blanks and in front of any stop. -/
def Reads (p : Scan β) (text : List Char) (x : β) : Prop :=
  ∀ pad rest, Blank pad → Stops rest → p (pad ++ (text ++ rest)) = some (x, rest)

/-- The text begins, and neither with a blank nor with the end of a container. -/
def Opens (text : List Char) : Prop :=
  ∃ c cs, text = c :: cs ∧ isBlank c = false ∧ c ≠ ']' ∧ c ≠ '\x7d'

/-! ### Containers -/

/-- The texts behind the first one of a container, up to its end. -/
def following (indent : List Char) (texts : List (List Char)) : List Char :=
  texts.flatMap (fun t => ',' :: '\n' :: (indent ++ ' ' :: ' ' :: t)) ++ '\n' :: indent

/-- What stands between the ends of a container. -/
def inner (indent : List Char) : List (List Char) → List Char
  | [] => []
  | t :: ts => '\n' :: (indent ++ ' ' :: ' ' :: t) ++ following indent ts

theorem length_lt_following (indent : List Char) (texts : List (List Char)) :
    texts.length < (following indent texts).length := by
  rw [following, List.length_append, List.length_flatMap]
  have hle : texts.length ≤ (texts.map fun t =>
      (',' :: '\n' :: (indent ++ ' ' :: ' ' :: t)).length).sum := by
    induction texts with
    | nil => exact Nat.zero_le _
    | cons t ts ih =>
      rw [List.map_cons, List.sum_cons, List.length_cons, List.length_cons]
      omega
  rw [List.length_cons]
  omega

section

variable {item : Scan β} {close : Char} (hclose : close = ']' ∨ close = '\x7d')
  {indent : List Char} (hindent : Blank indent)

include hclose

theorem isBlank_close : isBlank close = false := by
  rcases hclose with rfl | rfl <;> rfl

theorem close_ne_comma : close ≠ ',' := by
  rcases hclose with rfl | rfl <;> decide

include hindent

theorem items_following {texts : List (List Char)} {xs : List β}
    (reads : List.Forall₂ (Reads item) texts xs) {text : List Char} {x : β}
    (hx : Reads item text x) {pad : List Char} (hpad : Blank pad) {fuel : Nat}
    (hfuel : texts.length < fuel) (rest : List Char) :
    items item close fuel (pad ++ (text ++ (following indent texts ++ close :: rest)))
      = some (x :: xs, rest) := by
  induction reads generalizing text x pad fuel with
  | nil =>
    obtain ⟨fuel, rfl⟩ := Nat.exists_eq_succ_of_ne_zero (Nat.ne_zero_of_lt hfuel)
    have hend : following indent [] ++ close :: rest = ('\n' :: indent) ++ close :: rest := rfl
    have hblank : Blank ('\n' :: indent) := List.forall_mem_cons.mpr ⟨rfl, hindent⟩
    have hblanks : blanks (following indent [] ++ close :: rest) = some ((), close :: rest) := by
      rw [hend]
      refine blanks_append hblank fun c hc => ?_
      obtain rfl := Option.some.inj hc
      exact isBlank_close hclose
    have hstop : Stops (following indent [] ++ close :: rest) := stops_cons (.inr rfl) _
    rw [items, bind_eq (hx pad _ hpad hstop), bind_eq hblanks,
      bind_eq (show next (close :: rest) = some (close, rest) from rfl),
      if_neg (close_ne_comma hclose), if_pos rfl]
    rfl
  | @cons t y ts ys hy hys ih =>
    obtain ⟨fuel, rfl⟩ := Nat.exists_eq_succ_of_ne_zero (Nat.ne_zero_of_lt hfuel)
    let after := following indent ts ++ close :: rest
    have hnext : following indent (t :: ts) ++ close :: rest
        = ',' :: (('\n' :: (indent ++ [' ', ' '])) ++ (t ++ after)) := by
      simp [following, after]
    have hrest := ih hy (blank_line hindent) (Nat.lt_of_succ_lt_succ hfuel)
    have hblanks : blanks (',' :: (('\n' :: (indent ++ [' ', ' '])) ++ (t ++ after)))
        = some ((), ',' :: (('\n' :: (indent ++ [' ', ' '])) ++ (t ++ after))) :=
      blanks_cons rfl _
    rw [hnext, items, bind_eq (hx pad _ hpad (stops_cons (.inl rfl) _)), bind_eq hblanks,
      bind_eq (show next (',' :: _) = some (',', _) from rfl), if_pos rfl, bind_eq hrest]
    rfl

theorem container_inner {texts : List (List Char)} {xs : List β}
    (reads : List.Forall₂ (Reads item) texts xs) (opens : ∀ t ∈ texts, Opens t)
    (rest : List Char) :
    container item close (inner indent texts ++ close :: rest) = some (xs, rest) := by
  cases reads with
  | nil =>
    rw [inner, List.nil_append, container, bind_eq (blanks_cons (isBlank_close hclose) rest),
      bind_eq (show peek (close :: rest) = some (some close, close :: rest) from rfl), if_pos rfl]
    rfl
  | @cons t x ts xs hx hxs =>
    obtain ⟨c, cs, rfl, hc, hbracket, hbrace⟩ := opens t (List.mem_cons_self ..)
    let after := c :: cs ++ (following indent ts ++ close :: rest)
    have hinner : inner indent ((c :: cs) :: ts) ++ close :: rest
        = ('\n' :: (indent ++ [' ', ' '])) ++ after := by
      simp [inner, after]
    have hpeek : peek after = some (some c, after) := rfl
    have hne : some c ≠ some close := by
      rintro heq
      rcases hclose with rfl | rfl
      · exact hbracket (Option.some.inj heq)
      · exact hbrace (Option.some.inj heq)
    have hget : (get : Scan (List Char)) after = some (after, after) := rfl
    have hfuel : ts.length < after.length := by
      have hlength := length_lt_following indent ts
      simp only [after, List.length_append]
      omega
    have hskip : blanks (('\n' :: (indent ++ [' ', ' '])) ++ after) = some ((), after) := by
      refine blanks_append (blank_line hindent) fun d hd => ?_
      obtain rfl := Option.some.inj hd
      exact hc
    rw [hinner, container, bind_eq hskip, bind_eq hpeek, if_neg hne, bind_eq hget]
    exact items_following hclose hindent hxs hx (List.forall_mem_nil _) hfuel rest

end

theorem intercalate_cons (sep x : List γ) (xs : List (List γ)) :
    sep.intercalate (x :: xs) = x ++ xs.flatMap (sep ++ ·) := by
  induction xs generalizing x with
  | nil => simp [List.intercalate]
  | cons y ys ih =>
    have hcons : sep.intercalate (x :: y :: ys) = x ++ (sep ++ sep.intercalate (y :: ys)) := by
      simp [List.intercalate]
    rw [hcons, ih, List.flatMap_cons, List.append_assoc]

theorem toList_block (opening closing indent : String) (lines : List String) :
    (block opening closing indent lines).toList
      = opening.toList ++ (inner indent.toList (lines.map String.toList) ++ closing.toList) := by
  cases lines with
  | nil => simp [block, inner]
  | cons l ls =>
    rw [block, if_neg (by simp)]
    simp only [String.toList_append, String.toList_intercalate, List.map_cons, intercalate_cons,
      List.map_map, List.flatMap_map, inner, following, Function.comp_def]
    simp

end BlendGraph.Json
