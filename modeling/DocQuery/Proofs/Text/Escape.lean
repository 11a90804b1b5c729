import DocQuery.Text.Escape
import DocQuery.Proofs.Text.Digits
import Mathlib.Algebra.Ring.Parity
import Mathlib.Data.List.DropRight
import Mathlib.Data.List.Induction

/-!
# Escaped text reads back

What `Escape.escape` writes between two quotes is read back as the text it was written for,
whatever characters the text has. Escaped text is also safe to put between the quotes: a quote
stands in it only after a backslash.

Main names:

* `unescape_escape` — reading what was written;
* `QuotedText`, `quotedText_escape` — the shape of escaped text;
* `EndsInEscape`, `QuotesEscaped`, `quotedText_iff` — the same shape by the places in a text: no
  quote without a backslash that escapes it, and no backslash left over at the end;
* `exists_quotedText_append` — every text begins with as much of this shape as it has.
-/

namespace DocQuery.Text.Escape

/-! ## Reading single escapes -/

theorem unescape_cons {c : Char} (hc : c ≠ '\\') (rest : List Char) :
    unescape (c :: rest) = (do return c :: (← unescape rest)) := by
  rw [unescape]
  all_goals
    intros
    simp_all

theorem unescape_simple {letter c : Char} (hletter : letter ≠ 'u')
    (hsimple : simple? letter = some c) (rest : List Char) :
    unescape ('\\' :: letter :: rest) = (do return c :: (← unescape rest)) := by
  rw [unescape]
  · rw [hsimple]
  all_goals
    intros
    simp_all

/-- Control characters have codes below `0xa0`, so four hexadecimal digits hold them. -/
theorem codePoint_of_isControl {c : Char} (hc : isControl c = true) :
    codePoint (Digits.fixed 16 4 c.toNat) = .ok c := by
  have hall : ∀ n : Fin 0xa0, codeNumber? (Digits.fixed 16 4 n.val) = some n.val := by
    decide +kernel
  have hlt : c.toNat < 0xa0 := by
    simp only [isControl, Bool.or_eq_true, decide_eq_true_eq, Bool.and_eq_true] at hc
    omega
  unfold codePoint
  rw [hall ⟨c.toNat, hlt⟩]
  have hvalid : c.toNat.isValidChar := c.valid
  exact dif_pos hvalid

theorem unescape_control {c : Char} (hc : isControl c = true) (rest : List Char) :
    unescape ('\\' :: 'u' :: (Digits.fixed 16 4 c.toNat ++ rest)) =
      (do return c :: (← unescape rest)) := by
  have hpoint := codePoint_of_isControl hc
  show unescape ('\\' :: 'u' :: _ :: _ :: _ :: _ :: rest) = _
  rw [unescape]
  show (codePoint (Digits.fixed 16 4 c.toNat) >>= fun ch => _) = _
  rw [hpoint]
  rfl

/-! ## Reading what was written -/

/-- One character, whatever follows it. -/
theorem unescape_escapeChar {quote : Char} (hquote : simple? quote = some quote) (c : Char)
    (rest : List Char) :
    unescape (escapeChar quote c ++ rest) = (do return c :: (← unescape rest)) := by
  have hu : quote ≠ 'u' := by
    rintro rfl
    simp [simple?] at hquote
  unfold escapeChar
  -- The tests of the writer, one after the other.
  by_cases hq : c = quote
  · rw [if_pos hq, hq]
    exact unescape_simple hu hquote rest
  rw [if_neg hq]
  by_cases hbackslash : c = '\\'
  · rw [if_pos hbackslash, hbackslash]
    exact unescape_simple (by decide) rfl rest
  rw [if_neg hbackslash]
  by_cases hn : c = '\n'
  · rw [if_pos hn, hn]
    exact unescape_simple (by decide) rfl rest
  rw [if_neg hn]
  by_cases hr : c = '\r'
  · rw [if_pos hr, hr]
    exact unescape_simple (by decide) rfl rest
  rw [if_neg hr]
  by_cases ht : c = '\t'
  · rw [if_pos ht, ht]
    exact unescape_simple (by decide) rfl rest
  rw [if_neg ht]
  by_cases hcontrol : isControl c = true
  · rw [if_pos hcontrol]
    exact unescape_control hcontrol rest
  · rw [if_neg hcontrol]
    exact unescape_cons hbackslash rest

theorem unescape_escape {quote : Char} (hquote : simple? quote = some quote) (text : List Char) :
    unescape (escape quote text) = .ok text := by
  induction text with
  | nil => rfl
  | cons c text ih =>
      show unescape (escapeChar quote c ++ escape quote text) = _
      rw [unescape_escapeChar hquote, ih]
      rfl

/-! ## The shape of escaped text -/

/-- A quote or a backslash stands only after a backslash. -/
inductive QuotedText (quote : Char) : List Char → Prop
  | nil : QuotedText quote []
  | plain {c : Char} {text : List Char} (hquote : c ≠ quote) (hbackslash : c ≠ '\\')
      (htext : QuotedText quote text) : QuotedText quote (c :: text)
  | escaped {c : Char} {text : List Char} (htext : QuotedText quote text) :
      QuotedText quote ('\\' :: c :: text)

theorem QuotedText.append {quote : Char} {text text' : List Char} (htext : QuotedText quote text)
    (htext' : QuotedText quote text') : QuotedText quote (text ++ text') := by
  induction htext with
  | nil => exact htext'
  | plain hquote hbackslash _ ih => exact .plain hquote hbackslash ih
  | escaped _ ih => exact .escaped ih

/-- Characters that are neither a quote nor a backslash. -/
theorem quotedText_of_forall {quote : Char} {text : List Char}
    (htext : ∀ c ∈ text, c ≠ quote ∧ c ≠ '\\') : QuotedText quote text := by
  induction text with
  | nil => exact .nil
  | cons c text ih =>
      obtain ⟨hquote, hbackslash⟩ := htext c (List.mem_cons_self ..)
      exact .plain hquote hbackslash (ih fun c' hc' => htext c' (List.mem_cons_of_mem _ hc'))

theorem isHexDigit_of_mem_fixed {width n : Nat} {c : Char} (hc : c ∈ Digits.fixed 16 width n) :
    ∃ d, d < 16 ∧ c = Digits.digitChar d := by
  induction width generalizing n with
  | zero => cases hc
  | succ width ih =>
      rw [Digits.fixed, List.mem_append, List.mem_singleton] at hc
      rcases hc with hc | hc
      · exact ih hc
      · exact ⟨n % 16, by omega, hc⟩

theorem quotedText_escapeChar {quote : Char} (hquote : quote = '"' ∨ quote = '\'') (c : Char) :
    QuotedText quote (escapeChar quote c) := by
  unfold escapeChar
  split
  · exact .escaped .nil
  rename_i hne
  split
  · exact .escaped .nil
  rename_i hbackslash
  split
  · exact .escaped .nil
  split
  · exact .escaped .nil
  split
  · exact .escaped .nil
  split
  · refine .escaped (quotedText_of_forall ?_)
    intro d hd
    -- No hexadecimal digit is a quote or a backslash.
    have hall : ∀ n : Fin 16, Digits.digitChar n.val ≠ '"' ∧ Digits.digitChar n.val ≠ '\'' ∧
        Digits.digitChar n.val ≠ '\\' := by
      decide
    obtain ⟨n, hn, rfl⟩ := isHexDigit_of_mem_fixed hd
    obtain ⟨hdouble, hsingle, hslash⟩ := hall ⟨n, hn⟩
    rcases hquote with rfl | rfl
    · exact ⟨hdouble, hslash⟩
    · exact ⟨hsingle, hslash⟩
  · exact .plain hne hbackslash .nil

theorem quotedText_escape {quote : Char} (hquote : quote = '"' ∨ quote = '\'')
    (text : List Char) : QuotedText quote (escape quote text) := by
  induction text with
  | nil => exact .nil
  | cons c text ih => exact (quotedText_escapeChar hquote c).append ih

/-! ## Places in escaped text

`QuotedText` follows a scan from the front. Which characters a backslash escapes can be seen at
each place alone: the backslashes right before it escape each other in pairs, and only one that is
left over escapes what comes next. -/

/-- A text ends within an escape: the backslashes at its end are odd in number, so the last of
them still waits for a character. -/
def EndsInEscape (text : List Char) : Prop :=
  Odd (text.rtakeWhile (· = '\\')).length

instance (text : List Char) : Decidable (EndsInEscape text) :=
  inferInstanceAs (Decidable (Odd _))

/-- Wherever a quote stands in a text, a backslash before it escapes it. -/
def QuotesEscaped (quote : Char) (text : List Char) : Prop :=
  ∀ before after, text = before ++ quote :: after → EndsInEscape before

theorem not_endsInEscape_nil : ¬ EndsInEscape [] := by
  decide

theorem endsInEscape_concat_backslash (text : List Char) :
    EndsInEscape (text ++ ['\\']) ↔ ¬ EndsInEscape text := by
  unfold EndsInEscape
  rw [List.rtakeWhile_concat_pos _ _ _ (by decide), List.length_append, List.length_singleton,
    Nat.odd_add_one]

theorem not_endsInEscape_concat {c : Char} (hc : c ≠ '\\') (text : List Char) :
    ¬ EndsInEscape (text ++ [c]) := by
  unfold EndsInEscape
  rw [List.rtakeWhile_concat_neg _ _ _ (by simpa using hc)]
  decide

/-- What comes before a text does not matter, unless it ends within an escape itself. -/
theorem endsInEscape_append {text : List Char} (htext : ¬ EndsInEscape text)
    (text' : List Char) : EndsInEscape (text ++ text') ↔ EndsInEscape text' := by
  induction text' using List.reverseRecOn with
  | nil =>
      rw [List.append_nil]
      exact iff_of_false htext not_endsInEscape_nil
  | append_singleton text' c ih =>
      rw [← List.append_assoc]
      by_cases hc : c = '\\'
      · rw [hc, endsInEscape_concat_backslash, endsInEscape_concat_backslash, ih]
      · exact iff_of_false (not_endsInEscape_concat hc _) (not_endsInEscape_concat hc _)

theorem endsInEscape_cons {c : Char} (hc : c ≠ '\\') (text : List Char) :
    EndsInEscape (c :: text) ↔ EndsInEscape text :=
  endsInEscape_append (not_endsInEscape_concat hc []) text

theorem not_endsInEscape_escaped (c : Char) : ¬ EndsInEscape ['\\', c] := by
  by_cases hc : c = '\\'
  · rw [hc]
    decide
  · exact not_endsInEscape_concat hc ['\\']

theorem endsInEscape_escaped (c : Char) (text : List Char) :
    EndsInEscape ('\\' :: c :: text) ↔ EndsInEscape text :=
  endsInEscape_append (not_endsInEscape_escaped c) text

theorem QuotedText.not_endsInEscape {quote : Char} {text : List Char}
    (htext : QuotedText quote text) : ¬ EndsInEscape text := by
  induction htext with
  | nil => exact not_endsInEscape_nil
  | plain _ hbackslash _ ih => rwa [endsInEscape_cons hbackslash]
  | escaped _ ih => rwa [endsInEscape_escaped]

theorem QuotedText.quotesEscaped {quote : Char} (hquote : quote ≠ '\\') {text : List Char}
    (htext : QuotedText quote text) : QuotesEscaped quote text := by
  induction htext with
  | nil =>
      intro before after heq
      exact absurd heq.symm (List.append_ne_nil_of_right_ne_nil _ (List.cons_ne_nil _ _))
  | plain hne hbackslash _ ih =>
      intro before after heq
      cases before with
      | nil => exact absurd (List.cons.inj heq).1 hne
      | cons d before =>
          obtain ⟨rfl, hrest⟩ := List.cons.inj heq
          exact (endsInEscape_cons hbackslash before).mpr (ih before after hrest)
  | escaped _ ih =>
      intro before after heq
      match before with
      | [] => exact absurd (List.cons.inj heq).1.symm hquote
      | [d] =>
          -- The quote is the character that the backslash takes with it.
          obtain ⟨rfl, _⟩ := List.cons.inj heq
          decide
      | d :: e :: before =>
          obtain ⟨rfl, htail⟩ := List.cons.inj heq
          obtain ⟨rfl, hrest⟩ := List.cons.inj htail
          exact (endsInEscape_escaped _ before).mpr (ih before after hrest)

/-- Where a scan over quoted text comes to its end: at the end of the text, at a quote, or at a
backslash that has nothing to take with it. -/
inductive ContentStops (quote : Char) : List Char → Prop
  | nothing : ContentStops quote []
  | quote (rest : List Char) : ContentStops quote (quote :: rest)
  | dangling : ContentStops quote ['\\']

/-- Every text is quoted text up to where a scan over it ends. -/
theorem exists_quotedText_append (quote : Char) (text : List Char) :
    ∃ content rest, text = content ++ rest ∧ QuotedText quote content ∧
      ContentStops quote rest := by
  induction text using List.twoStepInduction with
  | nil => exact ⟨[], [], rfl, .nil, .nothing⟩
  | singleton c =>
      by_cases hquote : c = quote
      · exact ⟨[], [c], rfl, .nil, hquote ▸ .quote []⟩
      by_cases hbackslash : c = '\\'
      · exact ⟨[], [c], rfl, .nil, hbackslash ▸ .dangling⟩
      · exact ⟨[c], [], rfl, .plain hquote hbackslash .nil, .nothing⟩
  | cons_cons c d text ihescaped ihplain =>
      by_cases hquote : c = quote
      · exact ⟨[], c :: d :: text, rfl, .nil, hquote ▸ .quote (d :: text)⟩
      by_cases hbackslash : c = '\\'
      · obtain ⟨content, rest, rfl, hcontent, hrest⟩ := ihescaped
        exact ⟨c :: d :: content, rest, rfl, hbackslash ▸ .escaped hcontent, hrest⟩
      · obtain ⟨content, rest, heq, hcontent, hrest⟩ := ihplain d
        exact ⟨c :: content, rest, by rw [heq, List.cons_append],
          .plain hquote hbackslash hcontent, hrest⟩

/-- The shape of escaped text, by the places in it. -/
theorem quotedText_iff {quote : Char} (hquote : quote ≠ '\\') {text : List Char} :
    QuotedText quote text ↔ QuotesEscaped quote text ∧ ¬ EndsInEscape text := by
  constructor
  · intro htext
    exact ⟨htext.quotesEscaped hquote, htext.not_endsInEscape⟩
  · rintro ⟨hquotes, hend⟩
    obtain ⟨content, rest, rfl, hcontent, hrest⟩ := exists_quotedText_append quote text
    have hopen := endsInEscape_append hcontent.not_endsInEscape
    cases hrest with
    | nothing => rwa [List.append_nil]
    | quote rest => exact absurd (hquotes content rest rfl) hcontent.not_endsInEscape
    | dangling => exact absurd ((hopen ['\\']).mpr (by decide)) hend

end DocQuery.Text.Escape
