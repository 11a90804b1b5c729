import DocQuery.Number.Decimal
import DocQuery.Proofs.Language.Words

/-!
# Numbers in a text

Ints, decimals and floats begin alike, and the grammar tries decimals first, floats next and ints
last. What comes after the digits decides: a decimal has a `d` there, a float has a point or an
`e`, and an int is followed by something that may stand after a value.

Main names:

* `takes_signed`, `takes_mantissa` — a sign, digits, and a fraction;
* `takes_intLiteral`, `takes_decimalLiteral`, `takes_floatLiteral` — the three rules;
* `refuses_decimalLiteral`, `refuses_floatLiteral` — the alternatives that come first.
-/

namespace DocQuery.Language

open Grammar Text Text.Digits

variable {context : Grammar.Context} {rest : List Char}

/-! ## Signs, digits and fractions -/

/-- A text whose first character is a digit. -/
theorem not_prefix_digits {c : Char} (hc : c.isDigit = false) {digits : List Char}
    (hsome : digits ≠ []) (hdigits : ∀ d ∈ digits, d.isDigit = true) (chars rest : List Char) :
    ¬ (c :: chars) <+: digits ++ rest := by
  cases digits with
  | nil => exact absurd rfl hsome
  | cons d digits =>
      exact not_prefix_cons (ne_of_isDigit (hdigits d (List.mem_cons_self ..)) hc).symm chars _

/-- A sign before what another pattern takes. -/
theorem takes_signed (htight : context.Tight) {call : Rule → Runner Rule} {q : Pattern Rule}
    {text : List Char} {good : List (Node Rule) → Prop} (negative : Bool)
    (hunsigned : ¬ ['-'] <+: text ++ rest)
    (hq : Takes (q.run grammar.blank context call) text rest good) :
    Takes ((Pattern.seq (.optional (.text ['-'])) q).run grammar.blank context call)
      (minus negative ++ text) rest good := by
  exact takes_seq_tight htight (takes_minus negative hunsigned) hq leafless_then

/-- A sign before what another pattern refuses. -/
theorem refuses_signed (htight : context.Tight) {call : Rule → Runner Rule} {q : Pattern Rule}
    {text : List Char} (negative : Bool) (hunsigned : ¬ ['-'] <+: text)
    (hq : Refuses (q.run grammar.blank context call) text) :
    Refuses ((Pattern.seq (.optional (.text ['-'])) q).run grammar.blank context call)
      (minus negative ++ text) :=
  refuses_seq_tight htight (takes_minus negative hunsigned) hq

/-- The fraction of a number, where there is one. -/
abbrev fractionPattern : Pattern Rule :=
  .optional (.seq (.text ['.']) (.rule .digits))

/-- A fraction is taken if neither a digit nor a point follows. -/
theorem takes_fraction (p : PointedDigits) (hrest : Avoids .digit rest) (hpoint : ¬ ['.'] <+: rest)
    (fuel : Nat) :
    Takes (fractionPattern.run grammar.blank ⟨.token, false⟩ (runRule grammar (fuel + 1) .token))
      p.tail rest Leafless := by
  unfold PointedDigits.tail
  split
  · exact takes_optional_none (refuses_seq_left (refuses_text hpoint))
  · rename_i hsome
    refine takes_optional_some ?_
    exact takes_seq_tight (tight_token false) (takes_text ['.'])
      (takes_digits hsome p.isDigit_fraction hrest fuel) leafless_then

/-- Before a point or what follows the digits stands nothing of a class that has no point. -/
theorem PointedDigits.avoids_tail (p : PointedDigits) {members : CharClass}
    (hpoint : members.contains '.' = false) (hrest : Avoids members rest) :
    Avoids members (p.tail ++ rest) := by
  unfold PointedDigits.tail
  split
  · exact hrest
  · exact avoids_cons hpoint _

/-- Digits and a fraction before what another pattern takes. -/
theorem takes_mantissa {q : Pattern Rule} {text : List Char} {good : List (Node Rule) → Prop}
    (p : PointedDigits) (hnext : Avoids .digit (text ++ rest)) (hpoint : ¬ ['.'] <+: text ++ rest)
    (fuel : Nat)
    (hq : Takes (q.run grammar.blank ⟨.token, false⟩ (runRule grammar (fuel + 1) .token)) text rest
      good) :
    Takes ((Pattern.seq (.rule .digits) (.seq fractionPattern q)).run grammar.blank
      ⟨.token, false⟩ (runRule grammar (fuel + 1) .token)) (p.whole ++ (p.tail ++ text)) rest
      good := by
  have hwhole : Takes (runRule grammar (fuel + 1) .token .digits) p.whole
      ((p.tail ++ text) ++ rest) Leafless := by
    refine takes_digits p.whole_ne_nil p.isDigit_whole ?_ fuel
    rw [List.append_assoc]
    exact PointedDigits.avoids_tail p (by decide) hnext
  exact takes_seq_tight (tight_token false) hwhole (takes_seq_tight (tight_token false)
    (takes_fraction p hnext hpoint fuel) hq leafless_then) leafless_then

/-- Digits and a fraction before what another pattern refuses. -/
theorem refuses_mantissa {q : Pattern Rule} (p : PointedDigits) (hnext : Avoids .digit rest)
    (hpoint : ¬ ['.'] <+: rest) (fuel : Nat)
    (hq : Refuses (q.run grammar.blank ⟨.token, false⟩ (runRule grammar (fuel + 1) .token)) rest) :
    Refuses ((Pattern.seq (.rule .digits) (.seq fractionPattern q)).run grammar.blank
      ⟨.token, false⟩ (runRule grammar (fuel + 1) .token)) (p.whole ++ (p.tail ++ rest)) := by
  have hwhole : Takes (runRule grammar (fuel + 1) .token .digits) p.whole
      (p.tail ++ rest) Leafless :=
    takes_digits p.whole_ne_nil p.isDigit_whole (PointedDigits.avoids_tail p (by decide) hnext) fuel
  exact refuses_seq_tight (tight_token false) hwhole
    (refuses_seq_tight (tight_token false) (takes_fraction p hnext hpoint fuel) hq)

/-! ## Ints -/

/-- An int is a sign and digits. -/
theorem takes_intLiteral (negative : Bool) {digits : List Char} (hsome : digits ≠ [])
    (hdigits : ∀ c ∈ digits, c.isDigit = true) (hrest : Avoids .digit rest) (fuel : Nat)
    {outer : Atomicity} (houter : outer ≠ .token) :
    Takes (runRule grammar (fuel + 2) outer .intLiteral) (minus negative ++ digits) rest
      (IsNode .intLiteral (minus negative ++ digits) Leafless) := by
  refine takes_node (by decide) (Or.inl houter) ?_
  exact takes_signed (tight_token false) _ (not_prefix_digits (by decide) hsome hdigits _ _)
    (takes_digits hsome hdigits hrest fuel)

/-! ## Decimals -/

/-- The mark of a decimal with its exponent. -/
abbrev decimalMark : Pattern Rule :=
  .seq Rule.letterD (.seq (.optional (.rule .sign)) (.rule .digits))

theorem takes_sign {c : Char} (hc : c = '+' ∨ c = '-') (rest : List Char) (fuel : Nat) :
    Takes (runRule grammar (fuel + 1) .token .sign) [c] rest Leafless := by
  refine takes_within_token (Or.inl rfl) ?_
  show Takes ((Pattern.choice (.text ['+']) (.text ['-'])).run grammar.blank ⟨.token, true⟩
    (runRule grammar fuel .token)) [c] rest Leafless
  rcases hc with rfl | rfl
  · exact takes_choice_left (takes_text ['+'])
  · exact takes_choice_right (refuses_text (not_prefix_cons (by decide) _ _)) (takes_text ['-'])

theorem refuses_sign {digits : List Char} (hsome : digits ≠ [])
    (hdigits : ∀ c ∈ digits, c.isDigit = true) (rest : List Char) (fuel : Nat) :
    Refuses (runRule grammar (fuel + 1) .token .sign) (digits ++ rest) := by
  refine refuses_rule ?_
  exact refuses_choice (refuses_text (not_prefix_digits (by decide) hsome hdigits _ _))
    (refuses_text (not_prefix_digits (by decide) hsome hdigits _ _))

/-- An exponent: a sign, where there is one, and digits. -/
theorem takes_exponent (k : Int) (hrest : Avoids .digit rest) (fuel : Nat) :
    Takes ((Pattern.seq (.optional (.rule .sign)) (.rule .digits)).run grammar.blank
      ⟨.token, false⟩ (runRule grammar (fuel + 1) .token)) (Digits.ofInt k) rest Leafless := by
  have hsome := ofNat_ne_nil k.natAbs
  have hdigits : ∀ c ∈ Digits.ofNat k.natAbs, c.isDigit = true := fun c hc =>
    isDigit_of_mem_ofNat hc
  have htakes := takes_digits hsome hdigits hrest fuel
  unfold Digits.ofInt
  split
  · exact takes_seq_tight (tight_token false)
      (takes_optional_some (takes_call (takes_sign (Or.inr rfl) _ fuel))) htakes
      leafless_then
  · exact takes_seq_tight (tight_token false)
      (takes_optional_none (refuses_call (refuses_sign hsome hdigits _ fuel))) htakes
      leafless_then

theorem takes_decimalLiteral (negative : Bool) (p : PointedDigits) (hrest : Avoids .digit rest)
    (fuel : Nat) {outer : Atomicity} (houter : outer ≠ .token) :
    Takes (runRule grammar (fuel + 2) outer .decimalLiteral)
      (minus negative ++ (p.whole ++ (p.tail ++ ['d', '0']))) rest
      (IsNode .decimalLiteral (minus negative ++ (p.whole ++ (p.tail ++ ['d', '0']))) Leafless) := by
  have hmark : Takes (decimalMark.run grammar.blank ⟨.token, false⟩
      (runRule grammar (fuel + 1) .token)) ['d', '0'] rest Leafless :=
    takes_seq_tight (tight_token false) (takes_one (by decide)) (takes_exponent 0 hrest fuel)
      leafless_then
  refine takes_node (by decide) (Or.inl houter) ?_
  refine takes_signed (tight_token false) negative ?_ (takes_mantissa p ?_ ?_ fuel hmark)
  · rw [List.append_assoc]
    exact not_prefix_digits (by decide) p.whole_ne_nil p.isDigit_whole _ _
  · exact avoids_cons (by decide) _
  · exact not_prefix_cons (by decide) _ _

/-- A number that is not followed by a `d` is no decimal. -/
theorem refuses_decimalLiteral (negative : Bool) (p : PointedDigits) (hdigit : Avoids .digit rest)
    (hpoint : Avoids (.oneOf ['.']) rest) (hmark : Avoids (.oneOf ['d', 'D']) rest) (fuel : Nat)
    (outer : Atomicity) :
    Refuses (runRule grammar (fuel + 2) outer .decimalLiteral)
      (minus negative ++ (p.whole ++ (p.tail ++ rest))) := by
  refine refuses_rule ?_
  refine refuses_signed (tight_token false) negative
    (not_prefix_digits (by decide) p.whole_ne_nil p.isDigit_whole _ _) ?_
  refine refuses_mantissa p hdigit (hpoint.not_prefix (by decide) []) fuel ?_
  exact refuses_seq_left (refuses_one hmark)

/-! ## Floats -/

/-- The mark of a float with its exponent. -/
abbrev floatMark : Pattern Rule :=
  .seq Rule.letterE (.seq (.optional (.rule .sign)) (.rule .digits))

/-- What makes a number a float. -/
abbrev floatTail : Pattern Rule :=
  .choice (.seq (.text ['.']) (.seq (.rule .digits) (.optional floatMark))) floatMark

/-- The exponent of a float with its mark. -/
def exponentText : Option Int → List Char
  | none => []
  | some k => 'e' :: Digits.ofInt k

theorem takes_floatMark (k : Int) (hrest : Avoids .digit rest) (fuel : Nat) :
    Takes (floatMark.run grammar.blank ⟨.token, false⟩ (runRule grammar (fuel + 1) .token))
      ('e' :: Digits.ofInt k) rest Leafless :=
  takes_seq_tight (tight_token false) (takes_one (by decide)) (takes_exponent k hrest fuel)
    leafless_then

/-- A point or an exponent is taken if nothing that belongs to a number follows. -/
theorem takes_floatTail (p : PointedDigits) (power : Option Int)
    (hmarked : p.fraction ≠ [] ∨ power.isSome = true) (hdigit : Avoids .digit rest)
    (hmark : Avoids (.oneOf ['e', 'E']) rest) (fuel : Nat) :
    Takes (floatTail.run grammar.blank ⟨.token, false⟩ (runRule grammar (fuel + 1) .token))
      (p.tail ++ exponentText power) rest Leafless := by
  unfold PointedDigits.tail
  by_cases hfraction : p.fraction = []
  · -- Without a point there is an exponent.
    rw [if_pos hfraction, List.nil_append]
    cases power with
    | none => simp [hfraction] at hmarked
    | some k =>
        refine takes_choice_right (refuses_seq_left (refuses_text ?_))
          (takes_floatMark k hdigit fuel)
        exact not_prefix_cons (by decide) _ _
  · rw [if_neg hfraction, List.cons_append]
    refine takes_choice_left (takes_seq_tight (tight_token false) (takes_text ['.']) ?_
      leafless_then)
    cases power with
    | none =>
        exact takes_seq_tight (tight_token false)
          (takes_call (takes_digits hfraction p.isDigit_fraction hdigit fuel))
          (takes_optional_none (refuses_seq_left (refuses_one hmark))) leafless_then
    | some k =>
        have hnext : Avoids .digit (exponentText (some k) ++ rest) := avoids_cons (by decide) _
        exact takes_seq_tight (tight_token false)
          (takes_call (takes_digits hfraction p.isDigit_fraction hnext fuel))
          (takes_optional_some (takes_floatMark k hdigit fuel)) leafless_then

theorem avoids_exponentText (power : Option Int) {members : CharClass}
    (hmark : members.contains 'e' = false) (hrest : Avoids members rest) :
    Avoids members (exponentText power ++ rest) := by
  cases power with
  | none => exact hrest
  | some k => exact avoids_cons hmark _

theorem takes_floatLiteral (negative : Bool) (p : PointedDigits) (power : Option Int)
    (hmarked : p.fraction ≠ [] ∨ power.isSome = true) (hdigit : Avoids .digit rest)
    (hmark : Avoids (.oneOf ['e', 'E']) rest) (fuel : Nat) {outer : Atomicity}
    (houter : outer ≠ .token) :
    Takes (runRule grammar (fuel + 2) outer .floatLiteral)
      (minus negative ++ (p.whole ++ (p.tail ++ exponentText power))) rest
      (IsNode .floatLiteral (minus negative ++ (p.whole ++ (p.tail ++ exponentText power)))
        Leafless) := by
  have hnext : Avoids .digit ((p.tail ++ exponentText power) ++ rest) := by
    rw [List.append_assoc]
    exact PointedDigits.avoids_tail p (by decide) (avoids_exponentText power (by decide) hdigit)
  have hwhole := takes_digits p.whole_ne_nil p.isDigit_whole hnext fuel
  have htail := takes_floatTail p power hmarked hdigit hmark fuel
  refine takes_node (by decide) (Or.inl houter) ?_
  refine takes_signed (tight_token false) negative ?_ (takes_seq_tight (tight_token false)
    (takes_call hwhole) htail leafless_then)
  rw [List.append_assoc]
  exact not_prefix_digits (by decide) p.whole_ne_nil p.isDigit_whole _ _

/-- Digits that are followed by neither a point nor an `e` are no float. -/
theorem refuses_floatLiteral (negative : Bool) {digits : List Char} (hsome : digits ≠ [])
    (hdigits : ∀ c ∈ digits, c.isDigit = true) (hdigit : Avoids .digit rest)
    (hpoint : Avoids (.oneOf ['.']) rest) (hmark : Avoids (.oneOf ['e', 'E']) rest) (fuel : Nat)
    (outer : Atomicity) :
    Refuses (runRule grammar (fuel + 2) outer .floatLiteral) (minus negative ++ (digits ++ rest)) := by
  have hwhole := takes_digits hsome hdigits hdigit fuel
  have htail : Refuses (floatTail.run grammar.blank ⟨.token, false⟩
      (runRule grammar (fuel + 1) .token)) rest :=
    refuses_choice (refuses_seq_left (refuses_text (hpoint.not_prefix (by decide) [])))
      (refuses_seq_left (refuses_one hmark))
  refine refuses_rule ?_
  refine refuses_signed (tight_token false) negative
    (not_prefix_digits (by decide) hsome hdigits _ _) ?_
  exact refuses_seq_tight (tight_token false) (takes_call hwhole) htail

end DocQuery.Language
