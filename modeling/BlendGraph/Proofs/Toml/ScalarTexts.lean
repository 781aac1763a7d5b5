import BlendGraph.Proofs.Toml.QuotedStrings
import BlendGraph.Toml.Reader
import BlendGraph.Toml.Writer
import Mathlib.Data.List.Basic

/-!
# Scalars read from their texts

Booleans and natural numbers are read as they were written. A float is written with a point always,
by which it is told from integers and from dates and times; it is read with as many places as it was
written with.
-/

set_option autoImplicit false

namespace BlendGraph.Text

/-! ### Digits -/

theorem hexValue?_of_isDigit {c : Char} (h : c.isDigit = true) :
    hexValue? c = some (c.toNat - '0'.toNat) := by
  rw [Char.isDigit, Bool.and_eq_true, decide_eq_true_eq, decide_eq_true_eq] at h
  exact if_pos h

theorem ofDigits_eq {cs : List Char} (h : ∀ c ∈ cs, c.isDigit = true) :
    ofDigits 10 cs = Nat.ofDigitChars 10 cs 0 := by
  rw [ofDigits, Nat.ofDigitChars_eq_foldl]
  refine List.foldl_ext _ _ _ fun n c hc => ?_
  rw [hexValue?_of_isDigit (h c hc), Option.getD_some, Nat.mul_comm]

theorem isDigit_of_mem_toDigits {n : Nat} {c : Char} (h : c ∈ Nat.toDigits 10 n) :
    c.isDigit = true :=
  Nat.isDigit_of_mem_toDigits (by decide) (by decide) h

theorem ofDigits_toDigits (n : Nat) : ofDigits 10 (Nat.toDigits 10 n) = n := by
  rw [ofDigits_eq fun _ => isDigit_of_mem_toDigits,
    Nat.ofDigitChars_toDigits (by decide) (by decide)]

/-- Only zero has a decimal text that starts with a zero. -/
theorem head_toDigits_ne {n : Nat} (hn : 0 < n) : (Nat.toDigits 10 n).head? ≠ some '0' := by
  induction n using Nat.strongRecOn with
  | ind n ih =>
    by_cases hsmall : n < 10
    · rw [Nat.toDigits_of_lt_base hsmall]
      have : ∀ n < 10, 0 < n → Nat.digitChar n ≠ '0' := by decide
      exact fun h => this n hsmall hn (Option.some.inj h)
    · have hlarge : 10 ≤ n := Nat.le_of_not_lt hsmall
      have hquotient : 0 < n / 10 := Nat.div_pos hlarge (by decide)
      rw [Nat.toDigits_of_base_le (by decide) hlarge,
        List.head?_append_of_ne_nil _ Nat.toDigits_ne_nil]
      exact ih (n / 10) (Nat.div_lt_self hn (by decide)) hquotient

end BlendGraph.Text

namespace BlendGraph.Toml

open Text (Scan)
open Text.Scan

/-- No digit stands at the front, nor anything that joins digits. -/
def EndsDigits (rest : List Char) : Prop := ∀ c ∈ rest.head?, c.isDigit = false ∧ c ≠ '_'

theorem digits_append {cs rest : List Char} (hne : cs ≠ []) (hcs : ∀ c ∈ cs, c.isDigit = true)
    (hrest : EndsDigits rest) : digits Char.isDigit (cs ++ rest) = some (cs, rest) := by
  have hjoin : word "_" rest = none :=
    word_eq_none_of_head (show "_".toList = ['_'] from rfl) fun h => (hrest '_' h).2 rfl
  rw [digits, bind_eq (run1_append hne hcs fun c hc => (hrest c hc).1),
    bind_eq (many_eq_nil (seqRight_eq_none _ hjoin)), List.flatten_nil, List.append_nil]
  rfl

theorem wholeDigits_append {cs rest : List Char} (hne : cs ≠ [])
    (hcs : ∀ c ∈ cs, c.isDigit = true) (hzero : cs.head? = some '0' → cs.length = 1)
    (hrest : EndsDigits rest) : wholeDigits (cs ++ rest) = some (cs, rest) := by
  rw [wholeDigits, bind_eq (digits_append hne hcs hrest), if_neg fun h => h.2 (hzero h.1)]
  rfl

theorem head_ne_of_isDigit {cs : List Char} (h : ∀ c ∈ cs.head?, c.isDigit = true) {d : Char}
    (hd : d.isDigit = false) : cs.head? ≠ some d := by
  intro hhead
  rw [h d hhead] at hd
  cases hd

theorem sign_eq (negative : Bool) {cs : List Char} (h : ∀ c ∈ cs.head?, c.isDigit = true) :
    sign ((Number.signText negative).toList ++ cs) = some (negative, cs) := by
  cases negative with
  | true => rfl
  | false =>
    have hnone : one (fun c => c == '+' || c == '-') cs = none := by
      cases cs with
      | nil => rfl
      | cons c cs =>
        have hne : c ≠ '+' ∧ c ≠ '-' :=
          ⟨fun hc => head_ne_of_isDigit h (d := '+') rfl (congrArg some hc),
            fun hc => head_ne_of_isDigit h (d := '-') rfl (congrArg some hc)⟩
        simp [one, hne]
    have hoptional : Text.Scan.optional (one fun c => c == '+' || c == '-') cs
        = some (none, cs) := by
      rw [Text.Scan.optional, hnone]
    exact bind_eq hoptional

theorem endsDigits_cons {c : Char} (hdigit : c.isDigit = false) (hjoin : c ≠ '_')
    (cs : List Char) : EndsDigits (c :: cs) := by
  rintro _ ⟨⟩
  exact ⟨hdigit, hjoin⟩

/-! ### Dates and times -/

/-- The scanner takes digits only off the text. -/
def TakesDigits {β : Type} (p : Scan β) : Prop :=
  ∀ cs x rest, p cs = some (x, rest) → rest.dropWhile Char.isDigit = cs.dropWhile Char.isDigit

section

variable {β γ : Type}

theorem takesDigits_pure (x : β) : TakesDigits (pure x) := by
  rintro cs _ _ ⟨⟩
  rfl

theorem takesDigits_failure : TakesDigits (failure : Scan β) := nofun

theorem TakesDigits.bind {p : Scan β} {f : β → Scan γ} (hp : TakesDigits p)
    (hf : ∀ x, TakesDigits (f x)) : TakesDigits (p >>= f) := by
  intro cs y rest h
  obtain ⟨⟨x, more⟩, hx, hy⟩ := Option.bind_eq_some_iff.mp h
  rw [hf x more y rest hy, hp cs x more hx]

theorem takesDigits_one : TakesDigits (one Char.isDigit) := by
  rintro (_ | ⟨d, ds⟩) c rest h
  · cases h
  · rw [one] at h
    split at h
    · next hd =>
      obtain ⟨⟩ := h
      rw [List.dropWhile_cons_of_pos hd]
    · cases h

theorem takesDigits_exactDigits (count : Nat) : TakesDigits (exactDigits count) := by
  rw [exactDigits]
  induction count with
  | zero => exact takesDigits_pure []
  | succ count ih =>
    rw [List.replicate_succ, List.mapM_cons]
    exact takesDigits_one.bind fun _ => ih.bind fun _ => takesDigits_pure _

theorem takesDigits_twoDigits (low high : Nat) : TakesDigits (twoDigits low high) := by
  refine (takesDigits_exactDigits 2).bind fun cs => ?_
  dsimp only
  split
  · exact takesDigits_pure cs
  · exact takesDigits_failure

/-- Behind digits that no mark follows the mark is not found. -/
theorem TakesDigits.bind_eq_none {p : Scan β} (hp : TakesDigits p) (mark : Char)
    (hmark : mark.isDigit = false) {f : β → Scan γ} {cs : List Char}
    (h : (cs.dropWhile Char.isDigit).head? ≠ some mark) :
    (p >>= fun x => word (String.singleton mark) >>= fun _ => f x) cs = none := by
  rw [Option.eq_none_iff_forall_not_mem]
  rintro ⟨y, rest⟩ hy
  obtain ⟨⟨x, more⟩, hx, hy⟩ := Option.bind_eq_some_iff.mp hy
  obtain ⟨⟨_, tail⟩, hword, -⟩ := Option.bind_eq_some_iff.mp hy
  have hhead : more.head? = some mark := by
    by_contra hhead
    rw [word_eq_none_of_head (String.toList_singleton mark) hhead] at hword
    cases hword
  have hstop : more.dropWhile Char.isDigit = more := by
    refine (span_eq_nil fun c hc => ?_).2
    obtain rfl := Option.some.inj (hhead.symm.trans hc)
    exact hmark
  rw [← hp cs x more hx, hstop] at h
  exact h hhead

end

/-- A date has a dash behind its first digits, and a time has a colon there. -/
theorem datetimeLiteral_eq_none {cs : List Char}
    (h : ∀ c ∈ (cs.dropWhile Char.isDigit).head?, c ≠ '-' ∧ c ≠ ':') :
    datetimeLiteral cs = none := by
  have hdate : dateTime cs = none := by
    refine Text.Scan.bind_eq_none ?_
    exact (takesDigits_exactDigits 4).bind_eq_none '-' rfl fun hc => (h '-' hc).1 rfl
  have htime : time cs = none :=
    (takesDigits_twoDigits 0 23).bind_eq_none ':' rfl fun hc => (h ':' hc).2 rfl
  exact map_eq_none _ ((orElse_eq_right _ hdate).trans htime)

end BlendGraph.Toml

namespace BlendGraph

/-! ### Floats -/

/-- The decimal with at least one place. -/
def Decimal.pointed (d : Decimal) : Decimal :=
  if 0 ≤ d.exponent then ⟨d.digits * Nat.pow 10 (d.exponent.toNat + 1), -1⟩ else d

/-- The digits before and behind a point are those of the decimal, with a leading zero only in front
of the point. -/
structure Decimal.Spelled (d : Decimal) (whole places : List Char) : Prop where
  digits : ∀ c ∈ whole ++ places, c.isDigit = true
  whole_ne : whole ≠ []
  places_ne : places ≠ []
  leading : whole.head? = some '0' → whole.length = 1
  value : Text.ofDigits 10 (whole ++ places) = d.digits
  exponent : -(places.length : Int) = d.exponent

theorem Decimal.Spelled.isDigit_head {d : Decimal} {whole places : List Char}
    (h : d.Spelled whole places) (rest : List Char) :
    ∀ c ∈ (whole ++ rest).head?, c.isDigit = true := by
  intro c hc
  rw [List.head?_append_of_ne_nil _ h.whole_ne] at hc
  exact h.digits c (List.mem_append_left _ (List.mem_of_head? hc))

theorem Decimal.exists_spelled_insertPoint (n count : Nat) (hcount : 0 < count) :
    ∃ whole places, Decimal.Spelled ⟨n, -count⟩ whole places ∧
      insertPoint (Nat.toDigits 10 n) count = whole ++ '.' :: places := by
  let padded := List.replicate (count + 1 - (Nat.toDigits 10 n).length) '0' ++ Nat.toDigits 10 n
  have hlength : padded.length = max (count + 1) (Nat.toDigits 10 n).length := by
    rw [List.length_append, List.length_replicate]
    omega
  have hsplit := List.take_append_drop (padded.length - count) padded
  have hdigits : ∀ c ∈ padded, c.isDigit = true := by
    intro c hc
    rcases List.mem_append.mp hc with hc | hc
    · obtain rfl := List.eq_of_mem_replicate hc
      rfl
    · exact Text.isDigit_of_mem_toDigits hc
  have hwhole : (padded.take (padded.length - count)).length = padded.length - count := by
    rw [List.length_take]
    omega
  have hplaces : (padded.drop (padded.length - count)).length = count := by
    rw [List.length_drop]
    omega
  refine ⟨padded.take (padded.length - count), padded.drop (padded.length - count), ?_, ?_⟩
  · refine ⟨by rwa [hsplit], ?_, ?_, ?_, ?_, ?_⟩
    · exact List.ne_nil_of_length_pos (by omega)
    · exact List.ne_nil_of_length_pos (by omega)
    · intro hhead
      by_contra hlong
      have hmore : count + 1 < (Nat.toDigits 10 n).length := by omega
      have hnone : count + 1 - (Nat.toDigits 10 n).length = 0 := by omega
      have hpadded : padded = Nat.toDigits 10 n := by
        simp only [padded, hnone, List.replicate_zero, List.nil_append]
      rw [List.head?_take, if_neg (by omega), hpadded] at hhead
      obtain rfl : n = 0 := Nat.eq_zero_of_not_pos fun hn => Text.head_toDigits_ne hn hhead
      rw [Nat.toDigits_zero] at hmore
      exact absurd hmore (by simp)
    · rw [hsplit, Text.ofDigits_eq hdigits, Nat.ofDigitChars_append,
        Nat.ofDigitChars_replicate_zero, Nat.mul_zero,
        Nat.ofDigitChars_toDigits (by decide) (by decide)]
    · rw [hplaces]
  · rw [insertPoint, if_neg (Nat.ne_of_gt hcount)]

theorem Decimal.spelled_zeros {n count : Nat} (hzero : n = 0 → count = 0) :
    Decimal.Spelled ⟨n * Nat.pow 10 (count + 1), -1⟩
      (Nat.toDigits 10 n ++ List.replicate count '0') ['0'] := by
  have hzeros : List.replicate count '0' ++ ['0'] = List.replicate (count + 1) '0' :=
    List.replicate_succ'.symm
  have hdigits : ∀ c ∈ Nat.toDigits 10 n ++ List.replicate (count + 1) '0', c.isDigit = true := by
    intro c hc
    rcases List.mem_append.mp hc with hc | hc
    · exact Text.isDigit_of_mem_toDigits hc
    · obtain rfl := List.eq_of_mem_replicate hc
      rfl
  refine ⟨?_, ?_, List.cons_ne_nil _ _, ?_, ?_, rfl⟩
  · rwa [List.append_assoc, hzeros]
  · exact List.append_ne_nil_of_left_ne_nil Nat.toDigits_ne_nil _
  · intro hhead
    rw [List.head?_append_of_ne_nil _ Nat.toDigits_ne_nil] at hhead
    obtain rfl : n = 0 := Nat.eq_zero_of_not_pos fun hn => Text.head_toDigits_ne hn hhead
    rw [hzero rfl]
    rfl
  · rw [List.append_assoc, hzeros, Text.ofDigits_eq hdigits, Nat.ofDigitChars_append,
      Nat.ofDigitChars_replicate_zero, Nat.ofDigitChars_toDigits (by decide) (by decide),
      Nat.mul_comm]
    rfl

/-- A decimal that is zero has no exponent above zero, since it would be written with zeros. -/
theorem TomlFloat.exists_spelled (n : Numeral)
    (hzero : n.magnitude.digits = 0 → n.magnitude.exponent ≤ 0) :
    ∃ whole places, n.magnitude.pointed.Spelled whole places ∧
      (finite n).text.toList = (Number.signText n.negative).toList ++ (whole ++ '.' :: places) := by
  rw [text, Decimal.pointed, Decimal.positional]
  by_cases hexponent : 0 ≤ n.magnitude.exponent
  · rw [if_pos hexponent, if_pos hexponent, if_pos hexponent]
    exact ⟨_, _, Decimal.spelled_zeros fun h => by have := hzero h; omega, by simp⟩
  · rw [if_neg hexponent, if_neg hexponent, if_neg hexponent]
    obtain ⟨whole, places, spelled, htext⟩ := Decimal.exists_spelled_insertPoint
      n.magnitude.digits (-n.magnitude.exponent).toNat (by omega)
    have hexponent : -((-n.magnitude.exponent).toNat : Int) = n.magnitude.exponent := by omega
    rw [hexponent] at spelled
    exact ⟨whole, places, spelled, by simp [htext]⟩

namespace Toml

open Text (Scan)
open Text.Scan

theorem floatLiteral_finite {n : Numeral}
    (hzero : n.magnitude.digits = 0 → n.magnitude.exponent ≤ 0)
    (hfits : Numeral.fitsDouble ⟨n.negative, n.magnitude.pointed, false⟩ = true)
    (rest : List Char) :
    floatLiteral ((TomlFloat.finite n).text.toList ++ '\n' :: rest)
      = some (.finite ⟨n.negative, n.magnitude.pointed, false⟩, '\n' :: rest) := by
  obtain ⟨whole, places, spelled, htext⟩ := TomlFloat.exists_spelled n hzero
  obtain ⟨hwhole, hplaces⟩ := List.forall_mem_append.mp spelled.digits
  have hfirst := spelled.isDigit_head ('.' :: (places ++ '\n' :: rest))
  have hsign := sign_eq n.negative hfirst
  have hinf := word_eq_none_of_head (show "inf".toList = ['i', 'n', 'f'] from rfl)
    (head_ne_of_isDigit hfirst rfl)
  have hnan := word_eq_none_of_head (show "nan".toList = ['n', 'a', 'n'] from rfl)
    (head_ne_of_isDigit hfirst rfl)
  have hpoint : wholeDigits (whole ++ '.' :: (places ++ '\n' :: rest))
      = some (whole, '.' :: (places ++ '\n' :: rest)) :=
    wholeDigits_append spelled.whole_ne hwhole spelled.leading (endsDigits_cons rfl (by decide) _)
  have hfraction : Text.Scan.optional (word "." *> digits Char.isDigit)
      ('.' :: (places ++ '\n' :: rest)) = some (some places, '\n' :: rest) := by
    have hdigits : digits Char.isDigit (places ++ '\n' :: rest) = some (places, '\n' :: rest) :=
      digits_append spelled.places_ne hplaces (endsDigits_cons rfl (by decide) _)
    have hdot : word "." ('.' :: (places ++ '\n' :: rest)) = some ((), places ++ '\n' :: rest) :=
      rfl
    rw [Text.Scan.optional, seqRight_eq _ hdot, hdigits]
  have hexponent : Text.Scan.optional exponent ('\n' :: rest) = some (none, '\n' :: rest) := rfl
  have hvalue : Decimal.mk (Text.ofDigits 10 (whole ++ places)) (0 - places.length)
      = n.magnitude.pointed := by
    rw [spelled.value, Int.zero_sub, spelled.exponent]
  rw [htext, List.append_assoc, List.append_assoc, List.cons_append, floatLiteral, bind_eq hsign,
    orElse_eq_right _ (seqRight_eq_none _ hinf), orElse_eq_right _ (seqRight_eq_none _ hnan),
    bind_eq hpoint, bind_eq hfraction, bind_eq hexponent]
  simp only [Option.isNone_some, Option.getD_some, Option.getD_none, hvalue]
  rw [Bool.false_and, if_neg Bool.false_ne_true, if_pos (by rw [hfits, Bool.or_true])]
  rfl

/-! ### Natural numbers -/

theorem head_toDigits_isDigit (n : Nat) (rest : List Char) :
    ∀ c ∈ (Nat.toDigits 10 n ++ rest).head?, c.isDigit = true := by
  intro c hc
  rw [List.head?_append_of_ne_nil _ Nat.toDigits_ne_nil] at hc
  exact Text.isDigit_of_mem_toDigits (List.mem_of_head? hc)

theorem wholeDigits_toDigits (n : Nat) {rest : List Char} (hrest : EndsDigits rest) :
    wholeDigits (Nat.toDigits 10 n ++ rest) = some (Nat.toDigits 10 n, rest) := by
  refine wholeDigits_append Nat.toDigits_ne_nil (fun _ => Text.isDigit_of_mem_toDigits)
    (fun hhead => ?_) hrest
  obtain rfl : n = 0 := Nat.eq_zero_of_not_pos fun hn => Text.head_toDigits_ne hn hhead
  rfl

/-- Without a point or an exponent there is no float. -/
theorem floatLiteral_toDigits (n : Nat) (rest : List Char) :
    floatLiteral (Nat.toDigits 10 n ++ '\n' :: rest) = none := by
  have hfirst := head_toDigits_isDigit n ('\n' :: rest)
  have hsign := sign_eq false hfirst
  have hinf := word_eq_none_of_head (show "inf".toList = ['i', 'n', 'f'] from rfl)
    (head_ne_of_isDigit hfirst rfl)
  have hnan := word_eq_none_of_head (show "nan".toList = ['n', 'a', 'n'] from rfl)
    (head_ne_of_isDigit hfirst rfl)
  have hwhole := wholeDigits_toDigits n (endsDigits_cons (c := '\n') rfl (by decide) rest)
  have hfraction : Text.Scan.optional (word "." *> digits Char.isDigit) ('\n' :: rest)
      = some (none, '\n' :: rest) := rfl
  have hexponent : Text.Scan.optional exponent ('\n' :: rest) = some (none, '\n' :: rest) := rfl
  change floatLiteral ((Number.signText false).toList ++ (Nat.toDigits 10 n ++ '\n' :: rest)) = none
  rw [floatLiteral, bind_eq hsign, orElse_eq_right _ (seqRight_eq_none _ hinf),
    orElse_eq_right _ (seqRight_eq_none _ hnan), bind_eq hwhole, bind_eq hfraction,
    bind_eq hexponent]
  rfl

theorem basedInteger_toDigits (n : Nat) {mark : String} {c d : Char} (hmark : mark.toList = [c, d])
    (hd : d.isDigit = false ∧ d ≠ '\n') (base : Nat) (test : Char → Bool) (rest : List Char) :
    basedInteger mark base test (Nat.toDigits 10 n ++ '\n' :: rest) = none := by
  refine Text.Scan.bind_eq_none (word_eq_none fun hstart => ?_)
  rw [hmark] at hstart
  have hdigits : ∀ c ∈ Nat.toDigits 10 n, c.isDigit = true := fun _ => Text.isDigit_of_mem_toDigits
  match hn : Nat.toDigits 10 n with
  | [] => exact Nat.toDigits_ne_nil hn
  | [_] =>
    rw [hn] at hstart
    simp only [List.cons_append, List.nil_append, List.cons_prefix_cons] at hstart
    exact hd.2 hstart.2.1
  | _ :: e :: _ =>
    rw [hn] at hstart hdigits
    simp only [List.cons_append, List.cons_prefix_cons] at hstart
    have he := hdigits e (List.mem_cons_of_mem _ (List.mem_cons_self ..))
    rw [← hstart.2.1, hd.1] at he
    cases he

theorem integerLiteral_toDigits {n : Nat} (hn : n < wordBound) (rest : List Char) :
    integerLiteral (Nat.toDigits 10 n ++ '\n' :: rest) = some ((n : Int), '\n' :: rest) := by
  have hhex := basedInteger_toDigits n (show "0x".toList = ['0', 'x'] from rfl) (by decide) 16
    isHexDigit rest
  have hoctal := basedInteger_toDigits n (show "0o".toList = ['0', 'o'] from rfl) (by decide) 8
    isOctalDigit rest
  have hbinary := basedInteger_toDigits n (show "0b".toList = ['0', 'b'] from rfl) (by decide) 2
    isBinaryDigit rest
  have hdecimal : decimalInteger (Nat.toDigits 10 n ++ '\n' :: rest)
      = some ((n : Int), '\n' :: rest) := by
    have hsign := sign_eq false (head_toDigits_isDigit n ('\n' :: rest))
    have hwhole := wholeDigits_toDigits n (endsDigits_cons (c := '\n') rfl (by decide) rest)
    change decimalInteger
      ((Number.signText false).toList ++ (Nat.toDigits 10 n ++ '\n' :: rest)) = _
    rw [decimalInteger, bind_eq hsign, bind_eq hwhole, Text.ofDigits_toDigits]
    rfl
  have hrange : -(wordBound : Int) ≤ n ∧ (n : Int) < wordBound := by omega
  have hnumber : (basedInteger "0x" 16 isHexDigit <|> basedInteger "0o" 8 isOctalDigit
      <|> basedInteger "0b" 2 isBinaryDigit <|> decimalInteger)
        (Nat.toDigits 10 n ++ '\n' :: rest) = some ((n : Int), '\n' :: rest) := by
    rw [orElse_eq_right _ hhex, orElse_eq_right _ hoctal, orElse_eq_right _ hbinary, hdecimal]
  rw [integerLiteral, bind_eq hnumber, if_pos hrange]
  rfl

/-! ### Values -/

/-- In front of a line end the text of the one value is read as the other. -/
structure Rereads (v w : Toml) : Prop where
  opens : ∀ c ∈ v.text.toList.head?, isBlank c = false
  reads : ∀ rest, value nesting (v.text.toList ++ '\n' :: rest) = some (w, '\n' :: rest)

theorem value_eq_scalar (depth : Nat) {cs : List Char}
    (h : cs.head? ≠ some '[' ∧ cs.head? ≠ some '\x7b') :
    value depth cs = scalar cs := by
  cases depth with
  | zero => rfl
  | succ depth =>
    have hpeek : peek cs = some (cs.head?, cs) := rfl
    rw [value, bind_eq hpeek]
    refine congrFun ?_ cs
    split
    · next hc => exact absurd hc h.1
    · next hc => exact absurd hc h.2
    · rfl

theorem shortString_eq_none {cs : List Char} (h : cs.head? ≠ some '"' ∧ cs.head? ≠ some '\'') :
    shortString cs = none := by
  cases cs with
  | nil => rfl
  | cons c cs =>
    have hnext : next (c :: cs) = some (c, cs) := rfl
    rw [shortString, bind_eq hnext]
    change _ = (failure : Scan String) cs
    refine congrFun ?_ cs
    split
    · exact absurd rfl h.1
    · exact absurd rfl h.2
    · rfl

theorem scalar_eq_of_head {cs : List Char} (h : ∀ c ∈ ['"', '\'', 't', 'f'], cs.head? ≠ some c) :
    scalar cs = (datetime <$> datetimeLiteral <|> float <$> floatLiteral
      <|> integer <$> integerLiteral : Scan Toml) cs := by
  have hlong : longString cs = none := by
    refine Text.Scan.bind_eq_none ?_
    have hquote := word_eq_none_of_head (show "\"\"\"".toList = ['"', '"', '"'] from rfl)
      (h '"' (by decide))
    have hapostrophe := word_eq_none_of_head (show "'''".toList = ['\'', '\'', '\''] from rfl)
      (h '\'' (by decide))
    rw [orElse_eq_right _ (seqRight_eq_none _ hquote), seqRight_eq_none _ hapostrophe]
  have hshort := shortString_eq_none ⟨h '"' (by decide), h '\'' (by decide)⟩
  have htrue := word_eq_none_of_head (show "true".toList = ['t', 'r', 'u', 'e'] from rfl)
    (h 't' (by decide))
  have hfalse := word_eq_none_of_head (show "false".toList = ['f', 'a', 'l', 's', 'e'] from rfl)
    (h 'f' (by decide))
  rw [scalar, orElse_eq_right _ (map_eq_none _ hlong), orElse_eq_right _ (map_eq_none _ hshort),
    orElse_eq_right _ (seqRight_eq_none _ htrue), orElse_eq_right _ (seqRight_eq_none _ hfalse)]

theorem isBlank_of_isDigit {c : Char} (h : c.isDigit = true) : isBlank c = false := by
  have hhead : ∀ d ∈ [c].head?, d.isDigit = true := by
    rintro _ ⟨⟩
    exact h
  have hspace := head_ne_of_isDigit hhead (d := ' ') rfl
  have htab := head_ne_of_isDigit hhead (d := '\t') rfl
  rw [isBlank, beq_false_of_ne fun hc => hspace (congrArg some hc),
    beq_false_of_ne fun hc => htab (congrArg some hc)]
  rfl

theorem rereads_string (s : String) : Rereads (string s) (string s) where
  opens := by
    obtain ⟨escapes, cs, hquote⟩ := exists_quote_eq s
    rw [text, hquote]
    rintro _ ⟨⟩
    cases escapes <;> rfl
  reads rest := by
    have hline : ∀ escapes, ('\n' :: rest).head? ≠ some (mark escapes) := by
      intro escapes
      change some '\n' ≠ some (mark escapes)
      cases escapes <;> decide
    obtain ⟨escapes, cs, hquote⟩ := exists_quote_eq s
    have hopen : ((quote s).toList ++ '\n' :: rest).head? ≠ some '['
        ∧ ((quote s).toList ++ '\n' :: rest).head? ≠ some '\x7b' := by
      rw [hquote]
      change some (mark escapes) ≠ some '[' ∧ some (mark escapes) ≠ some '\x7b'
      cases escapes <;> decide
    rw [text, value_eq_scalar nesting hopen, scalar]
    rcases string_quote s hline with hlong | ⟨hlong, hshort⟩
    · exact orElse_eq_left _ (map_eq _ hlong)
    · rw [orElse_eq_right _ (map_eq_none _ hlong)]
      exact orElse_eq_left _ (map_eq _ hshort)

theorem rereads_boolean (b : Bool) : Rereads (boolean b) (boolean b) := by
  cases b
  · exact ⟨by rintro _ ⟨⟩; rfl, fun _ => rfl⟩
  · exact ⟨by rintro _ ⟨⟩; rfl, fun _ => rfl⟩

theorem rereads_empty : Rereads (array []) (array []) :=
  ⟨by rintro _ ⟨⟩; rfl, fun _ => rfl⟩

theorem toList_text_natural (n : Nat) : (integer n).text.toList = Nat.toDigits 10 n := by
  have htext : (integer n).text = Nat.repr n := by
    rw [text]
    rfl
  rw [htext, Nat.repr_eq_ofList_toDigits, String.toList_ofList]

theorem rereads_natural {n : Nat} (hn : n < wordBound) : Rereads (integer n) (integer n) where
  opens := by
    rw [toList_text_natural]
    exact fun c hc => isBlank_of_isDigit (Text.isDigit_of_mem_toDigits (List.mem_of_head? hc))
  reads rest := by
    have hfirst := head_toDigits_isDigit n ('\n' :: rest)
    have hdate : datetimeLiteral (Nat.toDigits 10 n ++ '\n' :: rest) = none := by
      refine datetimeLiteral_eq_none ?_
      rw [List.dropWhile_append_of_pos fun _ => Text.isDigit_of_mem_toDigits]
      rintro _ ⟨⟩
      decide
    have hmarks : ∀ c ∈ ['"', '\'', 't', 'f'], c.isDigit = false := by simp
    rw [toList_text_natural,
      value_eq_scalar nesting ⟨head_ne_of_isDigit hfirst rfl, head_ne_of_isDigit hfirst rfl⟩,
      scalar_eq_of_head fun c hc => head_ne_of_isDigit hfirst (hmarks c hc),
      orElse_eq_right _ (map_eq_none _ hdate),
      orElse_eq_right _ (map_eq_none _ (floatLiteral_toDigits n rest))]
    exact map_eq _ (integerLiteral_toDigits hn rest)

theorem rereads_infinite (negative : Bool) :
    Rereads (float (.infinite negative)) (float (.infinite negative)) := by
  cases negative
  · exact ⟨by rintro _ ⟨⟩; rfl, fun _ => rfl⟩
  · exact ⟨by rintro _ ⟨⟩; rfl, fun _ => rfl⟩

theorem rereads_finite {n : Numeral} (hzero : n.magnitude.digits = 0 → n.magnitude.exponent ≤ 0)
    (hfits : Numeral.fitsDouble ⟨n.negative, n.magnitude.pointed, false⟩ = true) :
    Rereads (float (.finite n)) (float (.finite ⟨n.negative, n.magnitude.pointed, false⟩)) := by
  obtain ⟨whole, places, spelled, htext⟩ := TomlFloat.exists_spelled n hzero
  obtain ⟨hwhole, -⟩ := List.forall_mem_append.mp spelled.digits
  refine ⟨?_, fun rest => ?_⟩
  · rw [text, htext]
    cases n.negative with
    | true =>
      rintro _ ⟨⟩
      rfl
    | false => exact fun c hc => isBlank_of_isDigit (spelled.isDigit_head _ c hc)
  have hfirst := spelled.isDigit_head ('.' :: (places ++ '\n' :: rest))
  have hmarks : ∀ c ∈ ['"', '\'', 't', 'f', '[', '\x7b'], c.isDigit = false ∧ '-' ≠ c := by simp
  have hread := floatLiteral_finite hzero hfits rest
  rw [htext, List.append_assoc, List.append_assoc, List.cons_append] at hread
  rw [text, htext, List.append_assoc, List.append_assoc, List.cons_append]
  have hhead : ∀ c ∈ ['"', '\'', 't', 'f', '[', '\x7b'], ((Number.signText n.negative).toList
      ++ (whole ++ '.' :: (places ++ '\n' :: rest))).head? ≠ some c := by
    intro c hc
    cases n.negative with
    | true => exact fun heq => (hmarks c hc).2 (Option.some.inj heq)
    | false => exact head_ne_of_isDigit hfirst (hmarks c hc).1
  have hdate : datetimeLiteral ((Number.signText n.negative).toList
      ++ (whole ++ '.' :: (places ++ '\n' :: rest))) = none := by
    cases n.negative with
    | true => rfl
    | false =>
      refine datetimeLiteral_eq_none ?_
      change ∀ c ∈ ((whole ++ '.' :: (places ++ '\n' :: rest)).dropWhile Char.isDigit).head?, _
      rw [List.dropWhile_append_of_pos hwhole]
      rintro _ ⟨⟩
      decide
  rw [value_eq_scalar nesting ⟨hhead '[' (by decide), hhead '\x7b' (by decide)⟩,
    scalar_eq_of_head fun c hc => hhead c (List.mem_append_left ['[', '\x7b'] hc),
    orElse_eq_right _ (map_eq_none _ hdate)]
  exact orElse_eq_left _ (map_eq _ hread)

end Toml

end BlendGraph
