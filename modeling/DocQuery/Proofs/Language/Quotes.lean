import DocQuery.Proofs.Language.Words
import DocQuery.Proofs.Text.Escape
import DocQuery.Value.Literal

/-!
# Quoted text in a text

Strings and quoted symbols differ in their quote only. Their content is taken up to the quote that
ends it, because escaped text has a quote only after a backslash, and it is read back by the
inverse of escaping.

Main names:

* `Quote` — the two quotes, each with its rules;
* `Quote.takes_content` — escaped text, up to where the rule for it stops;
* `Quote.takes_literal` — a quote, escaped text and a quote;
* `takes_stringLiteral`, `takes_quotedSymbol` — the two rules;
* `readQuoted_of_unescape`, `readQuoted_node` — what their trees are read as.
-/

namespace DocQuery.Language

open Grammar Text

/-! ## The quotes -/

/-- The quotes of the language. -/
inductive Quote
  /-- The quote around strings. -/
  | double
  /-- The quote around symbols. -/
  | single
  deriving DecidableEq, Repr

namespace Quote

/-- The character that is written for a quote. -/
def mark : Quote → Char
  | double => '"'
  | single => '\''

/-- The rule for a text with its quotes. -/
def literal : Quote → Rule
  | double => .stringLiteral
  | single => .quotedSymbol

/-- The rule for what stands between two quotes. -/
def content : Quote → Rule
  | double => .stringContent
  | single => .symbolContent

variable (quote : Quote)

theorem mark_ne_backslash : quote.mark ≠ '\\' := by
  cases quote <;> decide

theorem mode_literal : grammar.mode quote.literal = .compound := by
  cases quote <;> rfl

theorem body_literal : grammar.body quote.literal =
    .seq (.text [quote.mark]) (.seq (.rule quote.content) (.text [quote.mark])) := by
  cases quote <;> rfl

theorem mode_content : grammar.mode quote.content = .token := by
  cases quote <;> rfl

theorem body_content : grammar.body quote.content = Rule.quotedUntil quote.mark := by
  cases quote <;> rfl

end Quote

/-! ## What the grammar takes -/

/-- The content goes no further where it has come to its end. -/
theorem refuses_quotedUntil_round {quote : Char} (hquote : quote ≠ '\\')
    {context : Grammar.Context} (htight : context.Tight) {call : Rule → Runner Rule}
    {rest : List Char} (hrest : Escape.ContentStops quote rest) :
    Refuses ((Pattern.firstOf [.inOrder [.absent (.oneOf [quote, '\\']), .one .any],
      .inOrder [.lit "\\", .one .any]]).run grammar.blank context call) rest := by
  cases hrest with
  | nothing =>
      refine refuses_choice ?_ (refuses_seq_left (refuses_text (by decide)))
      exact refuses_seq_tight htight (takes_absent (avoids_nil _)) (refuses_one (avoids_nil _))
  | quote rest =>
      refine refuses_choice (refuses_seq_left (refuses_absent ?_ rest))
        (refuses_seq_left (refuses_text (not_prefix_cons hquote.symm [] rest)))
      simp [CharClass.contains]
  | dangling =>
      refine refuses_choice (refuses_seq_left (refuses_absent ?_ [])) ?_
      · simp [CharClass.contains]
      · exact refuses_seq_tight htight (takes_text ['\\']) (refuses_one (avoids_nil _))

/-- The content of quoted text, up to where it ends. -/
theorem takes_quotedUntil {quote : Char} (hquote : quote ≠ '\\') {context : Grammar.Context}
    (htight : context.Tight) {call : Rule → Runner Rule} {content rest : List Char}
    (hcontent : Escape.QuotedText quote content) (hrest : Escape.ContentStops quote rest) :
    Takes ((Rule.quotedUntil quote).run grammar.blank context call) content rest Leafless := by
  refine takes_star_of_repeats (between_tight htight) ?_
  induction hcontent with
  | nil =>
      exact Repeats.done [] (between_tight htight) (refuses_quotedUntil_round hquote htight hrest)
        rfl
  | plain hne hbackslash htext ih =>
      rename_i c content
      refine Repeats.round [] [c] (between_tight htight) (List.cons_ne_nil _ _) ?_ ih
        leafless_then
      have habsent : Avoids (.oneOf [quote, '\\']) ([c] ++ (content ++ rest)) := by
        refine avoids_cons ?_ _
        simp [CharClass.contains, hne, hbackslash]
      exact takes_choice_left (takes_seq_tight htight (takes_absent habsent) (takes_one rfl)
        leafless_then)
  | escaped htext ih =>
      rename_i c content
      refine Repeats.round [] ['\\', c] (between_tight htight) (List.cons_ne_nil _ _) ?_ ih
        leafless_then
      refine takes_choice_right (refuses_seq_left (refuses_absent ?_ _)) ?_
      · simp [CharClass.contains]
      · exact takes_seq_tight htight (takes_text ['\\']) (takes_one rfl)
          leafless_then

/-- The rule for a content takes it up to where it ends. -/
theorem Quote.takes_content (quote : Quote) {outer : Atomicity} (houter : outer ≠ .token)
    {text rest : List Char} (htext : Escape.QuotedText quote.mark text)
    (hrest : Escape.ContentStops quote.mark rest) (fuel : Nat) :
    Takes (runRule grammar (fuel + 1) outer quote.content) text rest
      (IsNode quote.content text Leafless) := by
  refine takes_node (by rw [quote.mode_content]; decide) (Or.inl houter) ?_
  unfold Grammar.runBody
  rw [quote.mode_content, quote.body_content]
  exact takes_quotedUntil quote.mark_ne_backslash (by rfl) htext hrest

/-- Nodes of a quoted text: one node, with a node for the content below it. -/
abbrev IsQuoted (rule part : Rule) (quote : Char) (text : List Char) : List (Node Rule) → Prop :=
  IsNode rule (quote :: (text ++ [quote])) (IsNode part text Leafless)

/-- Quoted text is taken by its rule, whatever follows it. -/
theorem Quote.takes_literal (quote : Quote) {text : List Char}
    (htext : Escape.QuotedText quote.mark text) (rest : List Char) (fuel : Nat)
    (outer : Atomicity) :
    Takes (runRule grammar (fuel + 2) outer quote.literal)
      (quote.mark :: (text ++ [quote.mark])) rest
      (IsQuoted quote.literal quote.content quote.mark text) := by
  have hinner : Takes (runRule grammar (fuel + 1) .compound quote.content) text
      (quote.mark :: rest) (IsNode quote.content text Leafless) :=
    quote.takes_content (by decide) htext (.quote rest) fuel
  refine takes_node (by rw [quote.mode_literal]; decide) (Or.inr (Or.inl quote.mode_literal)) ?_
  unfold Grammar.runBody
  rw [quote.mode_literal, quote.body_literal]
  have hclosed : Takes (Pattern.run grammar.blank ⟨.compound, false⟩
      (runRule grammar (fuel + 1) .compound) (.seq (.rule quote.content) (.text [quote.mark])))
      (text ++ [quote.mark]) rest (IsNode quote.content text Leafless) := by
    exact takes_seq_tight rfl hinner (takes_text [quote.mark]) then_leafless
  exact takes_seq_tight (by rfl) (takes_text [quote.mark]) hclosed leafless_then

theorem takes_stringLiteral {text : List Char} (htext : Escape.QuotedText '"' text)
    (rest : List Char) (fuel : Nat) (outer : Atomicity) :
    Takes (runRule grammar (fuel + 2) outer .stringLiteral) ('"' :: (text ++ ['"'])) rest
      (IsQuoted .stringLiteral .stringContent '"' text) :=
  Quote.double.takes_literal htext rest fuel outer

theorem takes_quotedSymbol {text : List Char} (htext : Escape.QuotedText '\'' text)
    (rest : List Char) (fuel : Nat) (outer : Atomicity) :
    Takes (runRule grammar (fuel + 2) outer .quotedSymbol) ('\'' :: (text ++ ['\''])) rest
      (IsQuoted .quotedSymbol .symbolContent '\'' text) :=
  Quote.single.takes_literal htext rest fuel outer

/-! ## What its trees are read as -/

/-- The tree of a quoted text is read as what its escapes stand for. -/
theorem readQuoted_of_unescape {rule part : Rule}
    (hpart : part = .stringContent ∨ part = .symbolContent) (sort : LiteralKind)
    {raw whole text : List Char} (htext : Escape.unescape raw = .ok text) {place place' : Place} :
    Scalar.readQuoted sort (.mk rule whole place [.mk part raw place' []]) =
      .ok (String.ofList text) := by
  have hfind : ([Node.mk part raw place' []] : List Tree).find?
      (fun part => part.rule == .stringContent || part.rule == .symbolContent) =
        some (.mk part raw place' []) := by
    rcases hpart with rfl | rfl <;> rfl
  unfold Scalar.readQuoted
  simp only [Node.children, hfind, Option.map_some, Option.getD_some, Node.text, htext]

/-- The tree of escaped text is read as the text. -/
theorem readQuoted_node {quote : Char} (hquote : Escape.simple? quote = some quote)
    {rule part : Rule} (hpart : part = .stringContent ∨ part = .symbolContent)
    (sort : LiteralKind) {text raw : List Char} {place place' : Place} :
    Scalar.readQuoted sort (.mk rule raw place
      [.mk part (Escape.escape quote text) place' []]) = .ok (String.ofList text) :=
  readQuoted_of_unescape hpart sort (Escape.unescape_escape hquote text)

end DocQuery.Language
