import DocQuery.Proofs.Language.Quotes
import DocQuery.Proofs.Text.Base64
import DocQuery.Value.Printer
import DocQuery.Value.Reader

/-!
# Bytes in a text

Blobs and clobs stand between double braces, and a struct begins with a brace too. A clob has a
string after the braces and is tried first; a blob has letters, digits and signs there, and a
struct has no second brace.

Main names:

* `takes_clobLiteral`, `takes_blobLiteral` — bytes as they are written;
* `refuses_clobLiteral` — a blob is no clob;
* `refuses_lobs` — what begins with one brace only is neither.
-/

namespace DocQuery.Language

open Grammar Text

variable {rest : List Char}

/-- Blanks may stand at a place where there are none. -/
theorem takes_noBlanks (hrest : Avoids grammar.blank rest) (context : Grammar.Context) (fuel : Nat)
    (outer : Atomicity) :
    Takes ((Pattern.star (.rule .blank)).run grammar.blank context
      (runRule grammar (fuel + 1) outer)) [] rest Leafless := by
  have hblank : ∀ c, grammar.blank.contains c = true → ¬ [c] <+: rest := fun c hc =>
    hrest.not_prefix hc []
  refine takes_star_none (refuses_call (refuses_rule ?_))
  exact refuses_choice (refuses_text (hblank ' ' (by decide)))
    (refuses_choice (refuses_text (hblank '\t' (by decide)))
      (refuses_choice (refuses_text (hblank '\r' (by decide)))
        (refuses_text (hblank '\n' (by decide)))))

/-- What both kinds of bytes have in common: braces around a rule, with blanks where there are
none. -/
abbrev lobPattern (content : Rule) : Pattern Rule :=
  .seq (.text Value.openLob) (.seq (.star (.rule .blank)) (.seq (.rule content)
    (.seq (.star (.rule .blank)) (.text Value.closeLob))))

theorem takes_lobPattern {content : Rule} {text : List Char} {good : List (Node Rule) → Prop}
    {fuel : Nat} (htext : Avoids grammar.blank (text ++ (Value.closeLob ++ rest)))
    (hcontent : Takes (runRule grammar (fuel + 1) .compound content) text (Value.closeLob ++ rest)
      good) :
    Takes ((lobPattern content).run grammar.blank ⟨.compound, false⟩
      (runRule grammar (fuel + 1) .compound)) (Value.openLob ++ (text ++ Value.closeLob)) rest
      good := by
  have htight := tight_compound false
  have hclose : Takes ((Pattern.seq (.star (.rule .blank)) (.text Value.closeLob)).run
      grammar.blank ⟨.compound, false⟩ (runRule grammar (fuel + 1) .compound))
      ([] ++ Value.closeLob) rest Leafless :=
    takes_seq_tight htight (takes_noBlanks (avoids_cons (by decide) _) _ fuel _) (takes_text _)
      leafless_then
  have hinner : Takes ((Pattern.seq (.rule content) (.seq (.star (.rule .blank))
      (.text Value.closeLob))).run grammar.blank ⟨.compound, false⟩
      (runRule grammar (fuel + 1) .compound)) (text ++ ([] ++ Value.closeLob)) rest good := by
    exact takes_seq_tight htight (takes_call hcontent) hclose then_leafless
  have hblanks : Avoids grammar.blank ((text ++ ([] ++ Value.closeLob)) ++ rest) := by
    rw [List.append_assoc]
    exact htext
  show Takes _ (Value.openLob ++ ([] ++ (text ++ ([] ++ Value.closeLob)))) rest good
  exact takes_seq_tight htight (takes_text _)
    (takes_seq_tight htight (takes_noBlanks hblanks _ fuel _) hinner leafless_then) leafless_then

/-! ## Clobs -/

theorem takes_clobLiteral (text rest : List Char) (fuel : Nat) (outer : Atomicity) :
    Takes (runRule grammar (fuel + 3) outer .clobLiteral)
      (Value.openLob ++ (Value.writeQuoted '"' text ++ Value.closeLob)) rest
      (IsNode .clobLiteral (Value.openLob ++ (Value.writeQuoted '"' text ++ Value.closeLob))
        (IsQuoted .stringLiteral .stringContent '"' (Escape.escape '"' text))) := by
  refine takes_node (by decide) (Or.inr (Or.inl rfl)) ?_
  exact takes_lobPattern (avoids_cons (by decide) _)
    (takes_stringLiteral (Escape.quotedText_escape (Or.inl rfl) text) _ fuel _)

/-- The tree of a clob is read as the bytes of the text in it. -/
theorem readClob_node {text raw : List Char} {place : Place} {children : List (Node Rule)}
    (hchildren : IsQuoted .stringLiteral .stringContent '"' (Escape.escape '"' text) children) :
    Value.readClob (.mk .clobLiteral raw place children) = .ok (.clob (Utf8.encode text)) := by
  obtain ⟨place', children', rfl, place'', children'', rfl, rfl⟩ := hchildren
  show (do return Scalar.clob (Utf8.encode (← Scalar.readQuoted .clob _).toList)) = _
  rw [readQuoted_node (by rfl) (Or.inl rfl) .clob]
  show Except.ok (Scalar.clob (Utf8.encode (String.ofList text).toList)) = _
  rw [String.toList_ofList]

/-- What has no string after the braces is no clob. -/
theorem refuses_clobLiteral {text : List Char} (hblank : Avoids grammar.blank text)
    (hquote : ¬ ['"'] <+: text) (fuel : Nat) (outer : Atomicity) :
    Refuses (runRule grammar (fuel + 2) outer .clobLiteral) (Value.openLob ++ text) := by
  have htight := tight_compound false
  refine refuses_rule ?_
  refine refuses_seq_tight htight (takes_text _) ?_
  show Refuses _ ([] ++ text)
  refine refuses_seq_tight htight (takes_noBlanks hblank _ fuel _) ?_
  exact refuses_seq_left (refuses_call (refuses_rule (refuses_seq_left (refuses_text hquote))))

/-! ## Blobs -/

/-- A character of encoded bytes. -/
theorem takes_alphabet {c : Char} (hc : Base64.isAlphabet c = true) (context : Grammar.Context)
    (call : Rule → Runner Rule) (rest : List Char) :
    Takes ((Pattern.firstOf [.one .alphanumeric, .text ['+'], .text ['/'], .text ['=']]).run
      grammar.blank context call) [c] rest Leafless := by
  by_cases hletter : c.isAlphanum = true
  · exact takes_choice_left (takes_one hletter)
  · have hsign : (c = '+' ∨ c = '/') ∨ c = '=' := by
      simpa [Base64.isAlphabet, hletter] using hc
    have hnone : ∀ d text, CharClass.alphanumeric.contains d = false →
        Refuses ((Pattern.one .alphanumeric).run grammar.blank context call) (d :: text) :=
      fun d text hd => refuses_one (avoids_cons hd text)
    rcases hsign with (rfl | rfl) | rfl
    · exact takes_choice_right (hnone _ _ (by decide)) (takes_choice_left (takes_text _))
    · exact takes_choice_right (hnone _ _ (by decide)) (takes_choice_right
        (refuses_text (not_prefix_cons (by decide) _ _)) (takes_choice_left (takes_text _)))
    · exact takes_choice_right (hnone _ _ (by decide)) (takes_choice_right
        (refuses_text (not_prefix_cons (by decide) _ _)) (takes_choice_right
          (refuses_text (not_prefix_cons (by decide) _ _)) (takes_text _)))

theorem takes_blobContent (bytes : List UInt8) (rest : List Char) (fuel : Nat) :
    Takes (runRule grammar (fuel + 1) .compound .blobContent) (Base64.encode bytes)
      (Value.closeLob ++ rest) (IsNode .blobContent (Base64.encode bytes) Leafless) := by
  refine takes_node (by decide) (Or.inl (by decide)) ?_
  refine takes_star_chars (tight_token false)
    (fun c hc rest' => takes_alphabet (Base64.encode_alphabet hc) _ _ rest') ?_
  have hsign : ∀ d text, d ≠ '\x7d' →
      Refuses ((Pattern.text [d]).run grammar.blank ⟨.token, false⟩ (runRule grammar fuel .token))
        ('\x7d' :: text) := fun d text hd => refuses_text (not_prefix_cons hd _ _)
  exact refuses_choice (refuses_one (avoids_cons (by decide) _))
    (refuses_choice (hsign _ _ (by decide)) (refuses_choice (hsign _ _ (by decide))
      (hsign _ _ (by decide))))

/-- Encoded bytes and what closes them begin with neither a blank nor a quote. -/
theorem avoids_content (bytes : List UInt8) (rest : List Char) :
    Avoids (.either grammar.blank (.oneOf ['"'])) (Base64.encode bytes ++ (Value.closeLob ++ rest)) := by
  cases htext : Base64.encode bytes with
  | nil => exact avoids_cons (by decide) _
  | cons c text =>
      have hc : Base64.isAlphabet c = true := Base64.encode_alphabet (htext ▸ List.mem_cons_self ..)
      refine avoids_cons ?_ _
      rw [← Bool.not_eq_true]
      intro hmem
      have hcases : ((c = ' ' ∨ c = '\t' ∨ c = '\r' ∨ c = '\n') ∨ c = '"') := by
        simpa [grammar, CharClass.contains] using hmem
      rcases hcases with (rfl | rfl | rfl | rfl) | rfl <;> exact absurd hc (by decide)

theorem takes_blobLiteral (bytes : List UInt8) (rest : List Char) (fuel : Nat)
    (outer : Atomicity) :
    Takes (runRule grammar (fuel + 2) outer .blobLiteral)
      (Value.openLob ++ (Base64.encode bytes ++ Value.closeLob)) rest
      (IsNode .blobLiteral (Value.openLob ++ (Base64.encode bytes ++ Value.closeLob))
        (IsNode .blobContent (Base64.encode bytes) Leafless)) := by
  refine takes_node (by decide) (Or.inr (Or.inl rfl)) ?_
  exact takes_lobPattern (avoids_content bytes rest).left (takes_blobContent bytes rest fuel)

/-- The tree of a blob is read as its bytes. -/
theorem readBlob_node {bytes : List UInt8} {raw : List Char} {place : Place}
    {children : List (Node Rule)}
    (hchildren : IsNode .blobContent (Base64.encode bytes) Leafless children) :
    Value.readBlob (.mk .blobLiteral raw place children) = .ok (.blob bytes) := by
  obtain ⟨place', children', rfl, rfl⟩ := hchildren
  have hcontent : Tree.partText? .blobContent (.mk .blobLiteral raw place
      [.mk .blobContent (Base64.encode bytes) place' []]) = some (Base64.encode bytes) := rfl
  rw [Value.readBlob, hcontent, Option.getD_some, Base64.decode_encode]

theorem refuses_clobLiteral_blob (bytes : List UInt8) (rest : List Char) (fuel : Nat)
    (outer : Atomicity) :
    Refuses (runRule grammar (fuel + 2) outer .clobLiteral)
      (Value.openLob ++ (Base64.encode bytes ++ (Value.closeLob ++ rest))) :=
  refuses_clobLiteral (avoids_content bytes rest).left
    ((avoids_content bytes rest).right.not_prefix (by decide) []) fuel outer

/-! ## Structs -/

/-- One brace without another one after it opens no bytes. -/
theorem refuses_lobs {rule : Rule} (hrule : rule = .clobLiteral ∨ rule = .blobLiteral) {c : Char}
    (hc : c ≠ '\x7b') (text : List Char) (fuel : Nat) (outer : Atomicity) :
    Refuses (runRule grammar (fuel + 1) outer rule) ('\x7b' :: c :: text) := by
  have hstart : ¬ Value.openLob <+: '\x7b' :: c :: text := by
    intro hstart
    obtain ⟨_, hnext⟩ := List.cons_prefix_cons.mp hstart
    exact hc (List.cons_prefix_cons.mp hnext).1.symm
  rcases hrule with rfl | rfl
  · exact refuses_rule (refuses_seq_left (refuses_text hstart))
  · exact refuses_rule (refuses_seq_left (refuses_text hstart))

end DocQuery.Language
