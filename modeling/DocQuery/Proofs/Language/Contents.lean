import DocQuery.Proofs.Grammar.Inversion
import DocQuery.Proofs.Language.Quotes
import DocQuery.Proofs.Language.Shape

/-!
# Escaped text as the content of quoted text

Writing escapes a text for the quote around it, the grammar looks for the quote that ends the
content, and reading undoes the escapes. The three agree on every text. The rule for a content
takes precisely the texts in which every quote is escaped and no backslash is left over, and stops
at the first place where such a text cannot go on; escaped text is one of them.

Main names:

* `Quote.matches_content_iff` — what the rule matches, and what follows it;
* `Quote.escape_faithful` — escaped text is read back, and is a content as a whole.
-/

namespace DocQuery.Language

open Grammar Text

namespace Quote

variable (quote : Quote)

theorem simple_mark : Escape.simple? quote.mark = some quote.mark := by
  cases quote <;> rfl

theorem quotedText_escape (text : List Char) :
    Escape.QuotedText quote.mark (Escape.escape quote.mark text) := by
  refine Escape.quotedText_escape ?_ text
  cases quote with
  | double => exact Or.inl rfl
  | single => exact Or.inr rfl

variable {text rest : List Char} {outer : Atomicity}

/-- What the rule for a content matches, and what comes after it. A text with a bare quote or with
a backslash left over at its end is never matched as a whole. -/
theorem matches_content_iff (houter : outer ≠ .token) (fuel : Nat) :
    (∃ nodes, Matches (runRule grammar (fuel + 1) outer quote.content) text rest nodes) ↔
      (Escape.QuotesEscaped quote.mark text ∧ ¬ Escape.EndsInEscape text) ∧
        Escape.ContentStops quote.mark rest := by
  rw [← Escape.quotedText_iff quote.mark_ne_backslash]
  constructor
  · rintro ⟨nodes, hmatches⟩
    -- The rule stops where a scan from the front does, so it has stopped there.
    obtain ⟨taken, left, hsame, htaken, hleft⟩ :=
      Escape.exists_quotedText_append quote.mark (text ++ rest)
    have hscan := quote.takes_content houter htaken hleft fuel
    obtain ⟨rfl, rfl, _⟩ := hscan.eq_of_matches hmatches hsame.symm
    exact ⟨htaken, hleft⟩
  · rintro ⟨htext, hrest⟩
    obtain ⟨nodes, attempts, hrun, _⟩ := quote.takes_content houter htext hrest fuel .first .none
    exact ⟨nodes, .first, .none, attempts, hrun⟩

/-- A text without bare quotes and without a backslash left over is a content as a whole. -/
theorem parse_content (htext : Escape.QuotedText quote.mark text) :
    ∃ place attempts, grammar.parse quote.content text =
      (.matched ⟨Place.first.past text, []⟩ [.mk quote.content text place []], attempts) := by
  have htakes : Takes (grammar.call .loose quote.content) text []
      (IsNode quote.content text Leafless) :=
    (quote.takes_content (by decide) htext .nothing 0).call grammar_grounded
  obtain ⟨nodes, attempts, hrun, place, children, rfl, rfl⟩ := htakes .first .none
  rw [List.append_nil] at hrun
  exact ⟨place, attempts, hrun⟩

/-- Whatever the text, escaping it for a quote is undone by reading, and the escaped text is a
content as a whole: by itself, and before the quote that ends it whatever follows. Every quote in
it stands after a backslash that escapes it, and no backslash is left over at its end. -/
theorem escape_faithful (text : List Char) :
    Escape.unescape (Escape.escape quote.mark text) = .ok text ∧
      (∃ place attempts, grammar.parse quote.content (Escape.escape quote.mark text) =
        (.matched ⟨Place.first.past (Escape.escape quote.mark text), []⟩
          [.mk quote.content (Escape.escape quote.mark text) place []], attempts)) ∧
      (∀ fuel rest, Takes (runRule grammar (fuel + 1) .compound quote.content)
        (Escape.escape quote.mark text) (quote.mark :: rest)
        (IsNode quote.content (Escape.escape quote.mark text) Leafless)) ∧
      Escape.QuotesEscaped quote.mark (Escape.escape quote.mark text) ∧
      ¬ Escape.EndsInEscape (Escape.escape quote.mark text) := by
  have hquoted := quote.quotedText_escape text
  refine ⟨Escape.unescape_escape quote.simple_mark text, quote.parse_content hquoted, ?_,
    hquoted.quotesEscaped quote.mark_ne_backslash, hquoted.not_endsInEscape⟩
  intro fuel rest
  exact quote.takes_content (by decide) hquoted (.quote rest) fuel

example : Escape.escape Quote.single.mark ['i', '\'', '\\', '"', '\n', '\x7f'] =
    "i\\'\\\\\"\\n\\u007f".toList := by decide

end Quote

end DocQuery.Language
