import DocQuery.Language.Grammar
import DocQuery.Language.Tree
import DocQuery.Proofs.Grammar.Heads
import DocQuery.Proofs.Grammar.Settled
import DocQuery.Proofs.Text.Pointed
import DocQuery.Text.Name
import Mathlib.Data.List.Forall2

/-!
# Digits, names and signs in a text

The smallest parts of the language as the grammar takes them: runs of digits, names, signs and
the ends of words. What follows a value in a text is described by `Stops`: nothing, or one of the
few characters that may stand after a value.

Main names:

* `Stops` — what may follow a value;
* `takes_digits`, `takes_minus`, `takes_identifier` — the parts;
* `refuses_of_mem` — alternatives refused at the first character, found by evaluation.
-/

namespace DocQuery.Language

open Grammar Text

/-! ## Characters -/

/-- The decimal digits. -/
def digitChars : List Char := "0123456789".toList

/-- The characters that begin a name. -/
def nameStarts : List Char :=
  "ABCDEFGHIJKLMNOPQRSTUVWXYZabcdefghijklmnopqrstuvwxyz_".toList

/-- The characters that may stand after a value. -/
def stopChars : List Char := [',', ']', ')', '\x7d', ' ', '\n']

theorem mem_digitChars {c : Char} (hc : c.isDigit = true) : c ∈ digitChars := by
  have hall : ∀ n : Fin 10, Char.ofNat (48 + n.val) ∈ digitChars := by
    decide
  simp only [Char.isDigit, Bool.and_eq_true, decide_eq_true_eq] at hc
  have hlow : 48 ≤ c.toNat := hc.1
  have hhigh : c.toNat ≤ 57 := hc.2
  have hmem := hall ⟨c.toNat - 48, by omega⟩
  rw [show 48 + (c.toNat - 48) = c.toNat by omega, Char.ofNat_toNat] at hmem
  exact hmem

theorem mem_nameStarts {c : Char} (hc : isNameStart c = true) : c ∈ nameStarts := by
  have hupper : ∀ n : Fin 26, Char.ofNat (65 + n.val) ∈ nameStarts := by
    decide
  have hlower : ∀ n : Fin 26, Char.ofNat (97 + n.val) ∈ nameStarts := by
    decide
  rw [isNameStart, Bool.or_eq_true, beq_iff_eq] at hc
  rcases hc with hletter | rfl
  rcases (Bool.or_eq_true _ _).mp hletter with hcase | hcase
  · have hlow : 65 ≤ c.toNat := (of_decide_eq_true hcase).1
    have hhigh : c.toNat ≤ 90 := (of_decide_eq_true hcase).2
    have hmem := hupper ⟨c.toNat - 65, by omega⟩
    rw [show 65 + (c.toNat - 65) = c.toNat by omega, Char.ofNat_toNat] at hmem
    exact hmem
  · have hlow : 97 ≤ c.toNat := of_decide_eq_true ((Bool.and_eq_true _ _).mp hcase).1
    have hhigh : c.toNat ≤ 122 := of_decide_eq_true ((Bool.and_eq_true _ _).mp hcase).2
    have hmem := hlower ⟨c.toNat - 97, by omega⟩
    rw [show 97 + (c.toNat - 97) = c.toNat by omega, Char.ofNat_toNat] at hmem
    exact hmem
  · decide

/-- Nothing follows a value, or a character that may stand after one. -/
def Stops (rest : List Char) : Prop :=
  StopsAt stopChars rest

theorem stops_nil : Stops [] := stopsAt_nil stopChars

theorem stops_cons {c : Char} (hc : c ∈ stopChars) (text : List Char) : Stops (c :: text) := by
  intro c' text' heq
  cases heq
  exact hc

theorem Stops.avoids {rest : List Char} (hrest : Stops rest) {members : CharClass}
    (hmembers : ∀ c ∈ stopChars, members.contains c = false) : Avoids members rest :=
  fun c text heq => hmembers c (hrest c text heq)

theorem Stops.not_prefix {rest : List Char} (hrest : Stops rest) {c : Char} (hc : c ∉ stopChars)
    (chars : List Char) : ¬ (c :: chars) <+: rest := by
  intro hstart
  cases rest with
  | nil => exact List.cons_ne_nil _ _ (List.prefix_nil.mp hstart)
  | cons c' rest =>
      obtain ⟨rfl, _⟩ := List.cons_prefix_cons.mp hstart
      exact hc (hrest c rest rfl)

/-! ## Verdicts on first characters -/

/-- How deep rules are followed for a verdict. -/
abbrev headDepth : Nat := 6

/-- Rules that cannot begin with some characters refuse every text that begins with one. -/
theorem refuses_of_mem (chars : List Char) (rules : List Rule)
    (hverdict : ∀ c ∈ chars, ∀ r ∈ rules, grammar.onHead c headDepth r = .refused)
    (hblank : ∀ c ∈ chars, grammar.blank.contains c = false) {c : Char} (hc : c ∈ chars)
    {rule : Rule} (hrule : rule ∈ rules) (text : List Char) (fuel : Nat) (outer : Atomicity) :
    Refuses (runRule grammar (fuel + headDepth) outer rule) (c :: text) :=
  Grammar.refuses_of_head (hverdict c hc rule hrule) (hblank c hc) text (Nat.le_add_left _ _) outer

/-! ## Blanks -/

/-- A text of blanks. -/
def IsBlank (gap : List Char) : Prop :=
  ∀ c ∈ gap, grammar.blank.contains c = true

instance (gap : List Char) : Decidable (IsBlank gap) :=
  inferInstanceAs (Decidable (∀ c ∈ gap, _))

theorem isBlank_nil : IsBlank [] :=
  fun _ hc => absurd hc List.not_mem_nil

/-- Blanks between two parts, where they may stand. -/
theorem between_blank {gap rest : List Char} (hgap : IsBlank gap)
    (hrest : Avoids grammar.blank rest) : Between grammar.blank ⟨.loose, true⟩ gap rest :=
  ⟨hgap, hrest⟩

/-! ## Trees one after the other -/

/-- A tree for every member of a list, in the same order. -/
theorem forall₂_append_one {α : Type} {reads : α → Tree → Prop} (a : α) (as : List α)
    (nodes nodes' : List Tree) (hnodes : IsOne (reads a) nodes)
    (hnodes' : List.Forall₂ reads as nodes') : List.Forall₂ reads (a :: as) (nodes ++ nodes') := by
  obtain ⟨tree, rfl, htree⟩ := hnodes
  exact .cons htree hnodes'

/-! ## Parts -/

theorem avoids_digit {c : Char} (hc : c.isDigit = false) (rest : List Char) :
    Avoids .digit (c :: rest) := by
  refine avoids_cons ?_ rest
  exact hc

/-- A run of digits, all of which are taken. -/
theorem takes_plus_digit {context : Grammar.Context} (htight : context.Tight) {call : Rule → Runner Rule}
    {digits rest : List Char} (hsome : digits ≠ []) (hdigits : ∀ c ∈ digits, c.isDigit = true)
    (hrest : Avoids .digit rest) :
    Takes ((Pattern.plus (.one .digit)).run grammar.blank context call) digits rest Leafless := by
  cases digits with
  | nil => exact absurd rfl hsome
  | cons c digits =>
      show Takes _ ([c] ++ digits) rest Leafless
      refine takes_seq_tight htight (takes_one (hdigits c (List.mem_cons_self ..))) ?_
        leafless_then
      refine takes_star_chars htight ?_ (refuses_one hrest)
      intro c' hc' rest'
      exact takes_one (hdigits c' (List.mem_cons_of_mem _ hc'))

theorem takes_digits {digits rest : List Char} (hsome : digits ≠ [])
    (hdigits : ∀ c ∈ digits, c.isDigit = true) (hrest : Avoids .digit rest) (fuel : Nat) :
    Takes (runRule grammar (fuel + 1) .token .digits) digits rest Leafless :=
  takes_within_token (Or.inl rfl) (takes_plus_digit (tight_token true) hsome hdigits hrest)

theorem refuses_digits {text : List Char} (htext : Avoids .digit text) (fuel : Nat)
    (outer : Atomicity) : Refuses (runRule grammar (fuel + 1) outer .digits) text := by
  refine refuses_rule ?_
  exact refuses_seq_left (refuses_one htext)

/-- A sign that may stand before digits. -/
theorem takes_minus {context : Grammar.Context} {call : Rule → Runner Rule} (negative : Bool)
    {rest : List Char} (hrest : ¬ ['-'] <+: rest) :
    Takes ((Pattern.optional (.text ['-'])).run grammar.blank context call) (Digits.minus negative) rest
      Leafless := by
  cases negative with
  | true => exact takes_optional_some (takes_text ['-'])
  | false => exact takes_optional_none (refuses_text hrest)

/-! ## Names -/

theorem isNameStart_of_isName {c : Char} {text : List Char} (hname : isName (c :: text) = true) :
    isNameStart c = true := by
  simp only [isName, Bool.and_eq_true] at hname
  exact hname.1

theorem contains_nameChar (c : Char) : Rule.nameChar.contains c = isNameChar c := by
  rw [Bool.eq_iff_iff]
  simp [Rule.nameChar, CharClass.contains, isNameChar]

theorem takes_identStart {c : Char} (hc : isNameStart c = true) (rest : List Char) (fuel : Nat) :
    Takes (runRule grammar (fuel + 1) .token .identStart) [c] rest Leafless := by
  refine takes_within_token (Or.inl rfl) ?_
  show Takes ((Pattern.choice (.one .letter) (.text ['_'])).run grammar.blank ⟨.token, true⟩
    (runRule grammar fuel .token)) [c] rest Leafless
  by_cases hletter : c.isAlpha = true
  · exact takes_choice_left (takes_one hletter)
  · have hunderscore : c = '_' := by
      simpa [isNameStart, hletter] using hc
    subst hunderscore
    refine takes_choice_right (refuses_one (avoids_cons ?_ _)) (takes_text ['_'])
    decide

theorem takes_identChar {c : Char} (hc : isNameChar c = true) (rest : List Char) (fuel : Nat) :
    Takes (runRule grammar (fuel + 1) .token .identChar) [c] rest Leafless := by
  refine takes_within_token (Or.inl rfl) ?_
  show Takes ((Pattern.choice (.one .alphanumeric) (.text ['_'])).run grammar.blank
    ⟨.token, true⟩ (runRule grammar fuel .token)) [c] rest Leafless
  by_cases hletter : c.isAlphanum = true
  · exact takes_choice_left (takes_one hletter)
  · have hunderscore : c = '_' := by
      simpa [isNameChar, hletter] using hc
    subst hunderscore
    refine takes_choice_right (refuses_one (avoids_cons ?_ _)) (takes_text ['_'])
    decide

theorem refuses_identChar {rest : List Char} (hrest : Avoids Rule.nameChar rest) (fuel : Nat) :
    Refuses (runRule grammar (fuel + 1) .token .identChar) rest := by
  refine refuses_rule ?_
  show Refuses ((Pattern.choice (.one .alphanumeric) (.text ['_'])).run grammar.blank
    ⟨.token, true⟩ (runRule grammar fuel .token)) rest
  have hnext : ∀ c text, rest = c :: text → c.isAlphanum = false ∧ c ≠ '_' := by
    intro c text heq
    have hc := hrest c text heq
    rw [contains_nameChar] at hc
    simpa [isNameChar] using hc
  refine refuses_choice (refuses_one fun c text heq => (hnext c text heq).1) (refuses_text ?_)
  intro hstart
  cases rest with
  | nil => exact List.cons_ne_nil _ _ (List.prefix_nil.mp hstart)
  | cons c rest =>
      obtain ⟨rfl, _⟩ := List.cons_prefix_cons.mp hstart
      exact (hnext '_' rest rfl).2 rfl

/-- A name is taken as a whole if no further character of a name follows. -/
theorem takes_identifier {name rest : List Char} (hname : isName name = true)
    (hrest : Avoids Rule.nameChar rest) (fuel : Nat) {outer : Atomicity} (houter : outer ≠ .token) :
    Takes (runRule grammar (fuel + 2) outer .identifier) name rest
      (IsNode .identifier name Leafless) := by
  refine takes_node (by decide) (Or.inl houter) ?_
  cases name with
  | nil => cases hname
  | cons c name =>
      simp only [isName, Bool.and_eq_true, List.all_eq_true] at hname
      show Takes ((Pattern.seq (.rule .identStart) (.star (.rule .identChar))).run grammar.blank
        ⟨.token, false⟩ (runRule grammar (fuel + 1) .token)) ([c] ++ name) rest Leafless
      refine takes_seq_tight rfl (takes_identStart hname.1 _ fuel) ?_ leafless_then
      refine takes_star_chars rfl ?_ (refuses_identChar hrest fuel)
      intro c' hc' rest'
      exact takes_identChar (hname.2 c' hc') rest' fuel

/-- The end of a word. -/
theorem takes_wordEnd {context : Grammar.Context} {call : Rule → Runner Rule} {rest : List Char}
    (hrest : Avoids Rule.nameChar rest) :
    Takes (Rule.wordEnd.run grammar.blank context call) [] rest Leafless :=
  takes_absent hrest

theorem Stops.wordEnd {rest : List Char} (hrest : Stops rest) : Avoids Rule.nameChar rest :=
  hrest.avoids (by decide)

end DocQuery.Language
