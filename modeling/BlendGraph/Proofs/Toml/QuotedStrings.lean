import BlendGraph.Proofs.Text.Scanning
import BlendGraph.Toml.Quoted

/-!
# Quoted strings

Every string is read off its quotation as it is, whichever of the forms the quotation has. In a long
form up to two quotes may stand in front of the closing ones, where they are part of the string.
-/

set_option autoImplicit false

namespace BlendGraph.Toml

open Text (Scan)
open Text.Scan

/-- The reader takes the written piece off the text and adds the character. -/
def Takes (p : List Char → Option (List Char × List Char)) (written : List Char) (c : Char) :
    Prop :=
  ∀ rest, p (written ++ rest) = push (some c) (p rest)

/-! ### Single characters -/

/-- The four digits of a control character. -/
def controlDigits (n : Nat) : List Char :=
  ['0', '0', (Nat.digitChar (n / 16)).toUpper, (Nat.digitChar (n % 16)).toUpper]

theorem codePoint?_controlDigits :
    ∀ n < 0x80, codePoint? (controlDigits n) = some (Char.ofNat n) := by
  decide

theorem toNat_lt_of_isControl {c : Char} (h : isControl c = true) : c.toNat < 0x80 := by
  simp only [isControl, Bool.or_eq_true, Bool.and_eq_true, decide_eq_true_eq, beq_iff_eq] at h
  omega

theorem codePoint?_of_isControl {c : Char} (h : isControl c = true) :
    codePoint? (controlDigits c.toNat) = some c := by
  rw [codePoint?_controlDigits _ (toNat_lt_of_isControl h), Char.ofNat_toNat]

/-- The characters with an escape of their own, with what stands behind the backslash. -/
def shortEscapes : List (Char × Char) :=
  [('\x08', 'b'), ('\t', 't'), ('\n', 'n'), ('\x0c', 'f'), ('\r', 'r'), ('\\', '\\')]

/-- A character is written as it is, or as one of two kinds of escapes. -/
theorem escape_cases (c : Char) :
    (∃ e, (c, e) ∈ shortEscapes ∧ escape c = ['\\', e]) ∨
    (isControl c = true ∧ escape c = '\\' :: 'u' :: controlDigits c.toNat) ∨
    (isControl c = false ∧ c ≠ '\\' ∧ escape c = [c]) := by
  unfold escape
  split
  case h_7 _ _ _ _ _ hslash =>
    cases hc : isControl c with
    | true => exact .inr (.inl ⟨rfl, rfl⟩)
    | false => exact .inr (.inr ⟨rfl, hslash, rfl⟩)
  all_goals exact .inl ⟨_, by simp [shortEscapes], rfl⟩

/-- A reader of what stands between double quotes takes off each piece that is written there. -/
structure Unescapes (p : List Char → Option (List Char × List Char)) : Prop where
  short : ∀ ce ∈ ('"', '"') :: shortEscapes, Takes p ['\\', ce.2] ce.1
  code : ∀ c, isControl c = true → Takes p ('\\' :: 'u' :: controlDigits c.toNat) c
  plain : ∀ c, isControl c = false → c ≠ '\\' → c ≠ '"' → Takes p [c] c

theorem Unescapes.takes_escape {p : List Char → Option (List Char × List Char)} (h : Unescapes p)
    {c : Char} (hc : c ≠ '"') : Takes p (escape c) c := by
  rcases escape_cases c with ⟨e, hmem, heq⟩ | ⟨hcontrol, heq⟩ | ⟨hplain, hslash, heq⟩
  · rw [heq]
    exact h.short (c, e) (List.mem_cons_of_mem _ hmem)
  · rw [heq]
    exact h.code c hcontrol
  · rw [heq]
    exact h.plain c hplain hslash hc

theorem unescapes_basicRest : Unescapes basicRest where
  short := by
    simp only [shortEscapes, List.forall_mem_cons]
    refine ⟨?_, ?_, ?_, ?_, ?_, ?_, ?_, List.forall_mem_nil _⟩ <;>
      exact fun _ => by simp [basicRest, escape?]
  code c hc rest := by
    rw [← codePoint?_of_isControl hc]
    rfl
  plain c hplain hslash hquote rest := by
    rw [List.cons_append, List.nil_append, basicRest, hplain, if_neg Bool.false_ne_true]
    · exact hquote
    · exact fun _ _ _ _ _ h _ => hslash h
    · exact fun _ _ _ _ _ _ _ _ _ h _ => hslash h
    · exact fun _ _ h _ => hslash h

theorem atLineEnd_eq_false {c : Char} (hblank : isBlank c = false) (hline : c ≠ '\n')
    (hreturn : c ≠ '\r') (cs : List Char) : atLineEnd (c :: cs) = false := by
  rw [atLineEnd, List.dropWhile_cons, hblank, if_neg Bool.false_ne_true]
  split
  · next h => exact absurd (List.cons.inj h).1 hline
  · next h => exact absurd (List.cons.inj h).1 hreturn
  · rfl

theorem unescapes_longBasicRest : Unescapes (longBasicRest false) where
  short := by
    simp only [shortEscapes, List.forall_mem_cons]
    refine ⟨?_, ?_, ?_, ?_, ?_, ?_, ?_, List.forall_mem_nil _⟩ <;>
      exact fun _ => by simp [longBasicRest, escape?, atLineEnd_eq_false, isBlank]
  code c hc rest := by
    rw [← codePoint?_of_isControl hc]
    rfl
  plain c hplain hslash hquote rest := by
    have hcontrol : (isControl c && c != '\n') = false := by rw [hplain, Bool.false_and]
    have hreturn : c ≠ '\r' := by
      rintro rfl
      cases hplain
    rw [List.cons_append, List.nil_append, longBasicRest, Bool.false_and, hcontrol]
    · rfl
    all_goals simp [hquote, hslash, hreturn]

theorem takes_newline_longBasicRest : Takes (longBasicRest false) ['\n'] '\n' := fun _ => by
  simp [longBasicRest]

/-- A quote stands for itself if no two quotes follow. -/
theorem longBasicRest_quote {cs : List Char} (hcs : ¬ ['"', '"'] <+: cs) :
    longBasicRest false ('"' :: cs) = push (some '"') (longBasicRest false cs) := by
  rw [longBasicRest, Bool.false_and]
  · rfl
  · rintro _ - rfl
    exact hcs (by simp)
  · rintro _ - rfl
    exact hcs (by simp)
  · rintro _ - rfl
    exact hcs (by simp)
  all_goals simp

theorem longBasicRest_quotes {n : Nat} (hn : n ≤ 2) {cs : List Char} (hcs : cs.head? ≠ some '"') :
    longBasicRest false (List.replicate n '"' ++ cs)
      = (longBasicRest false cs).map fun r => (List.replicate n '"' ++ r.1, r.2) := by
  induction n with
  | zero => simp
  | succ n ih =>
    have hfew : ¬ ['"', '"'] <+: List.replicate n '"' ++ cs := by
      rintro ⟨rest, h⟩
      match n, hn with
      | 0, _ =>
        rw [← show '"' :: '"' :: rest = cs from h] at hcs
        exact hcs rfl
      | 1, _ =>
        rw [← show '"' :: rest = cs from (List.cons.inj h).2] at hcs
        exact hcs rfl
    rw [List.replicate_succ, List.cons_append, longBasicRest_quote hfew, ih (by omega)]
    cases longBasicRest false cs <;> rfl

/-! ### Whole strings -/

theorem escaped_of_plain (long : Bool) (n : Nat) {c : Char} (hquote : c ≠ '"') (hline : c ≠ '\n')
    (cs : List Char) : escaped long n (c :: cs) = escape c ++ escaped long 0 cs := by
  rw [escaped]
  · exact hquote
  · exact hline

/-- A short string with escapes is read up to its closing quote. -/
theorem basicRest_escaped (cs rest : List Char) :
    basicRest (escaped false 0 cs ++ '"' :: rest) = some (cs, rest) := by
  induction cs with
  | nil => rfl
  | cons c cs ih =>
    have hstep (written : List Char) (htakes : Takes basicRest written c)
        (heq : escaped false 0 (c :: cs) = written ++ escaped false 0 cs) :
        basicRest (escaped false 0 (c :: cs) ++ '"' :: rest) = some (c :: cs, rest) := by
      rw [heq, List.append_assoc, htakes, ih]
      rfl
    by_cases hquote : c = '"'
    · subst hquote
      exact hstep ['\\', '"'] (unescapes_basicRest.short ('"', '"') (List.mem_cons_self ..)) rfl
    by_cases hline : c = '\n'
    · subst hline
      exact hstep (escape '\n') (unescapes_basicRest.takes_escape (by decide)) rfl
    · exact hstep (escape c) (unescapes_basicRest.takes_escape hquote)
        (escaped_of_plain false 0 hquote hline cs)

theorem escape_eq_cons {c : Char} (hc : c ≠ '"') :
    ∃ d ds, escape c = d :: ds ∧ d ≠ '"' ∧ isControl d = false := by
  rcases escape_cases c with ⟨e, -, heq⟩ | ⟨-, heq⟩ | ⟨hplain, -, heq⟩
  · exact ⟨'\\', [e], heq, by decide, rfl⟩
  · exact ⟨'\\', _, heq, by decide, rfl⟩
  · exact ⟨c, [], heq, hc, hplain⟩

/-- Of up to five quotes the last three close a long string. -/
theorem longBasicRest_close {rest : List Char} (hrest : rest.head? ≠ some '"') {n : Nat}
    (hn : n ≤ 2) : longBasicRest false (List.replicate n '"' ++ '"' :: '"' :: '"' :: rest)
      = some (List.replicate n '"', rest) := by
  have hfour : ∀ ds, rest = '"' :: ds → False := by
    rintro _ rfl
    exact hrest rfl
  match n, hn with
  | 0, _ =>
    change longBasicRest false ('"' :: '"' :: '"' :: rest) = _
    rw [longBasicRest]
    · rfl
    · exact fun ds => hfour _
    · exact hfour
  | 1, _ =>
    change longBasicRest false ('"' :: '"' :: '"' :: '"' :: rest) = _
    rw [longBasicRest]
    · rfl
    · exact hfour
  | 2, _ => rfl

/-- A long string with escapes is read up to its closing quotes, behind quotes that wait for what
follows them. -/
theorem longBasicRest_escaped (cs rest : List Char) (hrest : rest.head? ≠ some '"') {n : Nat}
    (hn : n ≤ 2) :
    longBasicRest false (List.replicate n '"' ++ (escaped true n cs ++ '"' :: '"' :: '"' :: rest))
      = some (List.replicate n '"' ++ cs, rest) := by
  induction cs generalizing n with
  | nil => rw [escaped, List.nil_append, List.append_nil, longBasicRest_close hrest hn]
  | cons c cs ih =>
    have hstep (d : Char) (ds : List Char) (hd : d ≠ '"')
        (htakes : Takes (longBasicRest false) (d :: ds) c)
        (heq : escaped true n (c :: cs) = d :: ds ++ escaped true 0 cs) :
        longBasicRest false
            (List.replicate n '"' ++ (escaped true n (c :: cs) ++ '"' :: '"' :: '"' :: rest))
          = some (List.replicate n '"' ++ c :: cs, rest) := by
      have hread := ih (Nat.zero_le 2)
      rw [List.replicate_zero, List.nil_append, List.nil_append] at hread
      rw [heq, List.append_assoc, longBasicRest_quotes hn (by simpa using hd), htakes, hread]
      rfl
    by_cases hquote : c = '"'
    · subst hquote
      by_cases hfew : n < 2
      · have hmove (ds : List Char) :
            List.replicate n '"' ++ '"' :: ds = List.replicate (n + 1) '"' ++ ds := by
          rw [List.replicate_succ', List.append_assoc, List.singleton_append]
        rw [escaped, Bool.true_and, decide_eq_true hfew, if_pos rfl, List.cons_append, hmove, hmove]
        exact ih hfew
      · refine hstep '\\' ['"'] (by decide)
          (unescapes_longBasicRest.short ('"', '"') (List.mem_cons_self ..)) ?_
        rw [escaped, Bool.true_and, decide_eq_false hfew]
        rfl
    by_cases hline : c = '\n'
    · subst hline
      exact hstep '\n' [] (by decide) takes_newline_longBasicRest rfl
    · obtain ⟨d, ds, heq, hd, -⟩ := escape_eq_cons hquote
      refine hstep d ds hd (heq ▸ unescapes_longBasicRest.takes_escape hquote) ?_
      rw [← heq]
      exact escaped_of_plain true n hquote hline cs

/-- A short literal string is read up to its closing quote. -/
theorem literalRest_append {cs : List Char} (hcs : ∀ c ∈ cs, c ≠ '\'' ∧ isControl c = false)
    (rest : List Char) : literalRest (cs ++ '\'' :: rest) = some (cs, rest) := by
  induction cs with
  | nil => rfl
  | cons c cs ih =>
    obtain ⟨⟨hquote, hplain⟩, hcs⟩ := List.forall_mem_cons.mp hcs
    rw [List.cons_append, literalRest, hplain, if_neg Bool.false_ne_true, ih hcs]
    · rfl
    · exact hquote

theorem longLiteralRest_cons {c : Char} (hc : c = '\n' ∨ isControl c = false) {cs : List Char}
    (hquotes : ¬ ['\'', '\'', '\''] <+: c :: cs) :
    longLiteralRest (c :: cs) = push (some c) (longLiteralRest cs) := by
  have hplain : (isControl c && c != '\n') = false := by
    rcases hc with rfl | hc
    · rfl
    · rw [hc, Bool.false_and]
  have hreturn : c ≠ '\r' := by
    rintro rfl
    exact absurd hc (by decide)
  rw [longLiteralRest, hplain, if_neg Bool.false_ne_true]
  · rintro _ rfl rfl
    exact hquotes (by simp)
  · rintro _ rfl rfl
    exact hquotes (by simp)
  · rintro _ rfl rfl
    exact hquotes (by simp)
  · exact fun _ h _ => hreturn h

/-- A long literal string is read up to its closing quotes. -/
theorem longLiteralRest_append {cs : List Char}
    (hplain : ∀ c ∈ cs, c = '\n' ∨ isControl c = false)
    (hquotes : ¬ ['\'', '\'', '\''] <:+: cs) {rest : List Char} (hrest : rest.head? ≠ some '\'') :
    longLiteralRest (cs ++ '\'' :: '\'' :: '\'' :: rest) = some (cs, rest) := by
  have hfour : ∀ ds, rest = '\'' :: ds → False := by
    rintro _ rfl
    exact hrest rfl
  induction cs with
  | nil =>
    rw [List.nil_append, longLiteralRest]
    · exact fun ds => hfour _
    · exact hfour
  | cons c cs ih =>
    obtain ⟨hc, hplain⟩ := List.forall_mem_cons.mp hplain
    have hread := ih hplain fun h => hquotes (List.infix_cons h)
    by_cases hthree : ['\'', '\'', '\''] <+: c :: (cs ++ '\'' :: '\'' :: '\'' :: rest)
    · simp only [List.cons_prefix_cons] at hthree
      match cs with
      | [] =>
        obtain ⟨rfl, -⟩ := hthree
        change longLiteralRest ('\'' :: '\'' :: '\'' :: '\'' :: rest) = _
        rw [longLiteralRest]
        exact hfour
      | [d] =>
        obtain ⟨rfl, hd⟩ := hthree
        rw [List.cons_append, List.cons_prefix_cons] at hd
        obtain ⟨rfl, -⟩ := hd
        rfl
      | d :: e :: cs =>
        obtain ⟨rfl, hd⟩ := hthree
        simp only [List.cons_append, List.cons_prefix_cons] at hd
        obtain ⟨rfl, rfl, -⟩ := hd
        exact absurd ⟨[], cs, rfl⟩ hquotes
    · rw [List.cons_append, longLiteralRest_cons hc hthree, hread]
      rfl

/-! ### Forms -/

/-- What a form demands of a string that is written in it: without escapes there are no control
characters, nor anything that would close the string. -/
def QuoteForm.Fits (form : QuoteForm) (cs : List Char) : Prop :=
  form.escapes = false → (∀ c ∈ cs, c = '\n' ∨ isControl c = false) ∧
    if form.long then ¬ ['\'', '\'', '\''] <:+: cs else '\'' ∉ cs ∧ '\n' ∉ cs

theorem QuoteForm.fits_of (cs : List Char) : (QuoteForm.of cs).Fits cs := by
  have hplain (h : (cs.all fun c => c == '\n' || !isControl c) = true) :
      ∀ c ∈ cs, c = '\n' ∨ isControl c = false := by
    simpa using h
  unfold QuoteForm.of
  dsimp only
  split
  · exact nofun
  split
  · next h =>
    intro _
    simp only [Bool.and_eq_true, Bool.not_eq_true', List.contains_eq_mem,
      decide_eq_false_iff_not] at h
    exact ⟨hplain h.1.1, h.1.2, h.2⟩
  split
  · exact nofun
  split
  · next h =>
    intro _
    rw [Bool.and_eq_true, Bool.not_eq_true'] at h
    refine ⟨hplain h.1, fun hinfix => ?_⟩
    rw [Text.occursIn_iff.mpr hinfix] at h
    cases h.2
  · exact nofun

theorem newline_eq_none {cs : List Char} (h : ∀ c ∈ cs.head?, isControl c = false) :
    newline cs = none := by
  have hline := word_eq_none_of_head (show "\n".toList = ['\n'] from rfl) fun hc =>
    Bool.noConfusion (h '\n' hc)
  have hreturn := word_eq_none_of_head (show "\r\n".toList = ['\r', '\n'] from rfl) fun hc =>
    Bool.noConfusion (h '\r' hc)
  rw [newline, orElse_eq_right _ hline, hreturn]

/-- The kind of quote around a string. -/
def mark (escapes : Bool) : Char := if escapes then '"' else '\''

/-- A quotation that does not open with three quotes is no long one. -/
theorem longString_eq_none (escapes : Bool) {cs : List Char}
    (h : ¬ [mark escapes, mark escapes] <+: cs) : longString (mark escapes :: cs) = none := by
  have hthree {text : String} {d : Char} (htext : text.toList = [d, d, d]) :
      word text (mark escapes :: cs) = none := by
    refine word_eq_none fun hstart => ?_
    rw [htext, List.cons_prefix_cons] at hstart
    exact h (hstart.1 ▸ hstart.2)
  have hquote := hthree (show "\"\"\"".toList = ['"', '"', '"'] from rfl)
  have hapostrophe := hthree (show "'''".toList = ['\'', '\'', '\''] from rfl)
  refine bind_eq_none ?_
  rw [orElse_eq_right _ (seqRight_eq_none _ hquote)]
  exact seqRight_eq_none _ hapostrophe

/-- A long quotation is read behind the line end that may stand in front of the string. -/
theorem longString_eq {escapes : Bool} {before cs text rest : List Char}
    (hbefore : ∃ o, Text.Scan.optional newline (before ++ cs) = some (o, cs))
    (hread : (if escapes then longBasicRest false cs else longLiteralRest cs) = some (text, rest)) :
    longString (mark escapes :: mark escapes :: mark escapes :: (before ++ cs))
      = some (String.ofList text, rest) := by
  obtain ⟨o, hbefore⟩ := hbefore
  have hopen : (word "\"\"\"" *> pure true <|> word "'''" *> pure false : Scan Bool)
      (mark escapes :: mark escapes :: mark escapes :: (before ++ cs))
        = some (escapes, before ++ cs) := by
    cases escapes <;> rfl
  rw [longString, bind_eq hopen, bind_eq hbefore]
  cases escapes
  · exact bind_eq hread
  · exact bind_eq hread

theorem shortString_eq {escapes : Bool} {cs text rest : List Char}
    (hread : (if escapes then basicRest cs else literalRest cs) = some (text, rest)) :
    shortString (mark escapes :: cs) = some (String.ofList text, rest) := by
  have hnext : next (mark escapes :: cs) = some (mark escapes, cs) := rfl
  rw [shortString, bind_eq hnext]
  cases escapes
  · exact bind_eq hread
  · exact bind_eq hread

theorem isControl_head_escaped {cs : List Char} (hline : '\n' ∉ cs) (n : Nat) (rest : List Char) :
    ∀ c ∈ (escaped true n cs ++ '"' :: rest).head?, isControl c = false := by
  intro c hc
  cases cs with
  | nil =>
    obtain rfl := Option.some.inj hc
    rfl
  | cons d ds =>
    rw [List.mem_cons, not_or] at hline
    by_cases hquote : d = '"'
    · subst hquote
      rw [escaped] at hc
      split at hc
      · obtain rfl := Option.some.inj hc
        rfl
      · obtain rfl := Option.some.inj hc
        rfl
    · obtain ⟨e, es, heq, -, hplain⟩ := escape_eq_cons hquote
      rw [escaped_of_plain true n hquote (Ne.symm hline.1), heq] at hc
      obtain rfl := Option.some.inj hc
      exact hplain

/-- The characters between the quotes. -/
def body (form : QuoteForm) (cs : List Char) : List Char :=
  if form.escapes then escaped form.long 0 cs else cs

theorem toList_quote (s : String) : ∃ form : QuoteForm, form.Fits s.toList ∧
    (quote s).toList = if form.long then
      [mark form.escapes, mark form.escapes, mark form.escapes]
        ++ ((if '\n' ∈ s.toList then ['\n'] else []) ++ body form s.toList)
        ++ [mark form.escapes, mark form.escapes, mark form.escapes]
    else mark form.escapes :: (body form s.toList ++ [mark form.escapes]) := by
  refine ⟨QuoteForm.of s.toList, QuoteForm.fits_of s.toList, ?_⟩
  rw [quote]
  generalize QuoteForm.of s.toList = form
  obtain ⟨escapes, long⟩ := form
  by_cases hline : '\n' ∈ s.toList <;> cases escapes <;> cases long <;> simp [mark, body, hline]

theorem exists_quote_eq (s : String) : ∃ escapes cs, (quote s).toList = mark escapes :: cs := by
  obtain ⟨⟨escapes, long⟩, -, htext⟩ := toList_quote s
  cases long
  · exact ⟨escapes, _, htext⟩
  · exact ⟨escapes, _, htext⟩

theorem head_escaped_ne {cs : List Char} : (escaped false 0 cs).head? ≠ some '"' := by
  have hslash : some '\\' ≠ some '"' := by decide
  cases cs with
  | nil => exact nofun
  | cons c cs =>
    by_cases hquote : c = '"'
    · subst hquote
      exact hslash
    by_cases hline : c = '\n'
    · subst hline
      exact hslash
    · obtain ⟨d, ds, heq, hd, -⟩ := escape_eq_cons hquote
      rw [escaped_of_plain false 0 hquote hline, heq]
      exact fun h => hd (Option.some.inj h)

theorem head_body_ne {escapes : Bool} {cs : List Char}
    (hfits : QuoteForm.Fits ⟨escapes, false⟩ cs) :
    (body ⟨escapes, false⟩ cs).head? ≠ some (mark escapes) := by
  cases escapes with
  | true => exact head_escaped_ne
  | false =>
    intro hhead
    exact (hfits rfl).2.1 (List.mem_of_head? hhead)

theorem string_short {escapes : Bool} {cs rest : List Char}
    (hfits : QuoteForm.Fits ⟨escapes, false⟩ cs) (hrest : rest.head? ≠ some (mark escapes)) :
    longString (mark escapes :: (body ⟨escapes, false⟩ cs ++ mark escapes :: rest)) = none ∧
    shortString (mark escapes :: (body ⟨escapes, false⟩ cs ++ mark escapes :: rest))
      = some (String.ofList cs, rest) := by
  refine ⟨longString_eq_none escapes fun hstart => ?_, shortString_eq ?_⟩
  · have hhead := head_body_ne hfits
    cases hbody : body ⟨escapes, false⟩ cs with
    | nil =>
      rw [hbody, List.nil_append, List.cons_prefix_cons] at hstart
      obtain ⟨tail, htail⟩ := hstart.2
      rw [← htail] at hrest
      exact hrest rfl
    | cons d ds =>
      rw [hbody, List.cons_append, List.cons_prefix_cons] at hstart
      rw [hbody, ← hstart.1] at hhead
      exact hhead rfl
  · cases escapes with
    | true => exact basicRest_escaped cs rest
    | false =>
      refine literalRest_append (fun c hc => ?_) rest
      obtain ⟨hplain, hquote, hline⟩ := hfits rfl
      refine ⟨fun heq => hquote (heq ▸ hc), (hplain c hc).resolve_left fun heq => hline (heq ▸ hc)⟩

theorem string_long {escapes : Bool} {cs rest : List Char}
    (hfits : QuoteForm.Fits ⟨escapes, true⟩ cs) (hrest : rest.head? ≠ some (mark escapes)) :
    longString (mark escapes :: mark escapes :: mark escapes ::
        ((if '\n' ∈ cs then ['\n'] else []) ++ (body ⟨escapes, true⟩ cs
          ++ mark escapes :: mark escapes :: mark escapes :: rest)))
      = some (String.ofList cs, rest) := by
  refine longString_eq ?_ ?_
  · split
    · exact ⟨some (), rfl⟩
    · next hline =>
      refine ⟨none, ?_⟩
      have hnone : newline (body ⟨escapes, true⟩ cs
          ++ mark escapes :: mark escapes :: mark escapes :: rest) = none := by
        refine newline_eq_none ?_
        cases escapes with
        | true => exact isControl_head_escaped hline 0 _
        | false =>
          intro c hc
          cases cs with
          | nil =>
            obtain rfl := Option.some.inj hc
            rfl
          | cons d ds =>
            obtain rfl := Option.some.inj hc
            have hd := (hfits rfl).1 d (List.mem_cons_self ..)
            exact hd.resolve_left fun heq => hline (heq ▸ List.mem_cons_self ..)
      rw [List.nil_append, Text.Scan.optional, hnone]
  · cases escapes with
    | true => exact longBasicRest_escaped cs rest hrest (Nat.zero_le 2)
    | false => exact longLiteralRest_append (hfits rfl).1 (hfits rfl).2 hrest

/-- A string is read off its quotation, and as a short one only if it is no long one. -/
theorem string_quote (s : String) {rest : List Char}
    (hrest : ∀ escapes, rest.head? ≠ some (mark escapes)) :
    longString ((quote s).toList ++ rest) = some (s, rest) ∨
    longString ((quote s).toList ++ rest) = none ∧
      shortString ((quote s).toList ++ rest) = some (s, rest) := by
  obtain ⟨⟨escapes, long⟩, hfits, htext⟩ := toList_quote s
  cases long with
  | false =>
    have hread := string_short hfits (hrest escapes)
    rw [String.ofList_toList] at hread
    rw [htext, if_neg Bool.false_ne_true, List.cons_append, List.append_assoc]
    exact .inr hread
  | true =>
    have hread := string_long hfits (hrest escapes)
    rw [String.ofList_toList] at hread
    rw [htext, if_pos rfl, List.append_assoc, List.append_assoc, List.append_assoc]
    exact .inl hread

end BlendGraph.Toml
