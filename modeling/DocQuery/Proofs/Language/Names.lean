import DocQuery.Proofs.Grammar.Following
import DocQuery.Proofs.Language.Shape
import DocQuery.Proofs.Language.Symbols

/-!
# What was taken as a name

A name in a text goes as far as it can, and it is none of the keywords that the grammar tries first,
nor a duration, if neither a point nor a further character of a name comes after it.

Main names:

* `matches_identifier` — what was taken as a name;
* `settled_durationLiteral` — whether a name is a duration does not depend on what follows it;
* `takes_durationLiteral_of_name` — where a name is a duration, it is taken as one;
* `takes_keywordLiteral` — names that are keywords.
-/

namespace DocQuery.Language

open Grammar Text

variable {text name rest : List Char} {nodes : List (Node Rule)}

/-! ## Names -/

theorem refuses_identStart (htext : ∀ c tail, text = c :: tail → isNameStart c = false)
    (fuel : Nat) : Refuses (runRule grammar (fuel + 1) .token .identStart) text := by
  refine refuses_rule ?_
  show Refuses ((Pattern.choice (.one .letter) (.text ['_'])).run grammar.blank ⟨.token, true⟩
    (runRule grammar fuel .token)) text
  have hnext : ∀ c tail, text = c :: tail → c.isAlpha = false ∧ c ≠ '_' := by
    intro c tail heq
    simpa [isNameStart] using htext c tail heq
  refine refuses_choice (refuses_one fun c tail heq => (hnext c tail heq).1) (refuses_text ?_)
  rintro ⟨tail, heq⟩
  exact (hnext '_' tail heq.symm).2 rfl

theorem refuses_identifier (htext : ∀ c tail, text = c :: tail → isNameStart c = false)
    (fuel : Nat) (outer : Atomicity) :
    Refuses (runRule grammar (fuel + 2) outer .identifier) text :=
  refuses_rule (refuses_seq_left (refuses_call (refuses_identStart htext fuel)))

/-- A text that begins like a name begins with a name that goes as far as it can. -/
theorem exists_name {c : Char} (hc : isNameStart c = true) (tail : List Char) :
    ∃ name rest, c :: tail = name ++ rest ∧ isName name = true ∧ Avoids Rule.nameChar rest := by
  refine ⟨c :: tail.takeWhile isNameChar, tail.dropWhile isNameChar, ?_, ?_, ?_⟩
  · rw [List.cons_append, List.takeWhile_append_dropWhile]
  · rw [isName, hc, List.all_takeWhile]
    rfl
  · intro d after hdrop
    have hhead := List.head?_dropWhile_not isNameChar tail
    rw [hdrop] at hhead
    rw [contains_nameChar]
    simpa using hhead

theorem matches_identifier (hrun : Matches (grammar.call .loose .identifier) name rest nodes) :
    isName name = true ∧ Avoids Rule.nameChar rest := by
  by_cases hstart : ∃ c tail, name ++ rest = c :: tail ∧ isNameStart c = true
  · obtain ⟨c, tail, hinput, hc⟩ := hstart
    obtain ⟨name', rest', hsplit, hname, hrest⟩ := exists_name hc tail
    have htakes : Takes (grammar.call .loose .identifier) name' rest' _ :=
      Takes.call grammar_grounded (takes_identifier hname hrest 0 (by decide))
    obtain ⟨rfl, rfl, _⟩ := htakes.eq_of_matches hrun (hsplit.symm.trans hinput.symm)
    exact ⟨hname, hrest⟩
  · have hrefuses : Refuses (grammar.call .loose .identifier) (name ++ rest) := by
      refine Refuses.call grammar_grounded (refuses_identifier (fun c tail hinput => ?_) 0 .loose)
      by_cases hc : isNameStart c = true
      · exact absurd ⟨c, tail, hinput, hc⟩ hstart
      · simpa using hc
    exact absurd hrun hrefuses.not_matches

/-! ## Durations -/

/-- A duration after its sign. -/
def unsignedDuration : Pattern Rule :=
  .inOrder [.lit "P", .firstOf [.inOrder [.rule .digits, .lit "W"],
    .inOrder [.rule .durationDays, .optional (.rule .durationClock)], .rule .durationClock],
    Rule.wordEnd]

section Stops

variable {stops : List Char} (hstops : ∀ c ∈ stops, isNameChar c = false ∧ c ≠ '.')

theorem isClosed_seq {p q : Pattern Rule} {closed : Rule → Bool}
    (hp : p.isClosed stops closed = true) (hq : q.isClosed stops closed = true) :
    (p.seq q).isClosed stops closed = true := by
  rw [Pattern.isClosed, hp, hq]
  rfl

theorem isClosed_choice {p q : Pattern Rule} {closed : Rule → Bool}
    (hp : p.isClosed stops closed = true) (hq : q.isClosed stops closed = true) :
    (p.choice q).isClosed stops closed = true :=
  isClosed_seq hp hq

theorem isClosed_silent {rule : Rule} {depth : Nat} (hmode : grammar.mode rule = .silent)
    (hbody : (grammar.body rule).isClosed stops (grammar.isClosed stops depth) = true) :
    grammar.isClosed stops (depth + 1) rule = true := by
  rw [Grammar.isClosed, hmode, hbody]
  rfl

include hstops in
/-- Of what a duration consists, only its sign may be a character that cannot stand in a name. -/
theorem isClosed_unsignedDuration :
    unsignedDuration.isClosed stops (grammar.isClosed stops 3) = true := by
  have hletter : ∀ (c : Char) (closed : Rule → Bool), isNameChar c = true ∨ c = '.' →
      (Pattern.text [c]).isClosed stops closed = true := by
    intro c closed hc
    have hmem : c ∉ stops := by
      intro hmem
      obtain ⟨hother, hpoint⟩ := hstops c hmem
      rcases hc with hc | hc
      · rw [hother] at hc
        cases hc
      · exact hpoint hc
    simpa [Pattern.isClosed] using hmem
  have hword : ∀ closed, Rule.wordEnd.isClosed stops closed = true := by
    intro closed
    simp only [Rule.wordEnd, Pattern.isClosed, CharClass.excludes, List.all_eq_true,
      contains_nameChar]
    intro c hc
    simp [(hstops c hc).1]
  have hdigit : CharClass.digit.excludes stops = true := by
    simp only [CharClass.excludes, List.all_eq_true, CharClass.contains]
    intro c hc
    have hother := (hstops c hc).1
    simp only [isNameChar, Char.isAlphanum, Bool.or_eq_false_iff] at hother
    simp [hother.1.2]
  have hdigits : ∀ depth, grammar.isClosed stops (depth + 1) .digits = true := fun depth =>
    isClosed_silent rfl (isClosed_seq hdigit hdigit)
  -- Digits with a letter after them.
  have hpart : ∀ (c : Char) depth, isNameChar c = true →
      (Pattern.seq (.rule .digits) (.text [c])).isClosed stops
        (grammar.isClosed stops (depth + 1)) = true := fun c depth hc =>
    isClosed_seq (hdigits depth) (hletter c _ (Or.inl hc))
  have hdays : grammar.isClosed stops 3 .durationDays = true :=
    isClosed_silent rfl (hpart 'D' 1 (by decide))
  have hhours : grammar.isClosed stops 2 .durationHours = true :=
    isClosed_silent rfl (hpart 'H' 0 (by decide))
  have hminutes : grammar.isClosed stops 2 .durationMinutes = true :=
    isClosed_silent rfl (hpart 'M' 0 (by decide))
  have hseconds : grammar.isClosed stops 2 .durationSeconds = true :=
    isClosed_silent rfl (isClosed_seq (hdigits 0) (isClosed_seq
      (isClosed_seq (hletter '.' _ (Or.inr rfl)) (hdigits 0)) (hletter 'S' _ (Or.inl (by decide)))))
  have hclock : grammar.isClosed stops 3 .durationClock = true :=
    isClosed_silent rfl (isClosed_seq (hletter 'T' _ (Or.inl (by decide)))
      (isClosed_choice (isClosed_seq hhours (isClosed_seq hminutes hseconds))
        (isClosed_choice (isClosed_seq hminutes hseconds) hseconds)))
  exact isClosed_seq (hletter 'P' _ (Or.inl (by decide))) (isClosed_seq
    (isClosed_choice (hpart 'W' 2 (by decide)) (isClosed_choice (isClosed_seq hdays hclock) hclock))
    (hword _))

include hstops in
/-- Before characters that cannot go on with a number or a name, a name is a duration or not
whatever follows. -/
theorem settled_durationLiteral (hname : isName name = true) :
    Settled stops (fun i : Nat × Atomicity =>
      runRule grammar (durationDepth + i.1) i.2 .durationLiteral) name := by
  have hsign : Settled stops (fun i : Nat × Atomicity => (Pattern.optional (.text ['-'])).run
      grammar.blank ⟨.token, false⟩ (runRule grammar (3 + i.1) .token)) name := by
    refine Or.inr ⟨[], name, rfl, fun i rest _ => ?_⟩
    refine (takes_optional_none (refuses_text ?_)).imp fun _ _ => trivial
    -- A name has no sign.
    cases name with
    | nil => cases hname
    | cons c tail =>
        apply not_prefix_cons
        rintro rfl
        exact absurd (isNameStart_of_isName hname) (by decide)
  have hbody : Settled stops (fun i : Nat × Atomicity =>
      (Pattern.seq (.optional (.text ['-'])) unsignedDuration).run grammar.blank ⟨.token, false⟩
        (runRule grammar (3 + i.1) .token)) name :=
    settled_seq (tight_token false) hsign fun text =>
      Pattern.settled_of_isClosed (tight_token false)
        (fun r hr text => (Grammar.settled_within_token hr text).reindex Prod.fst) _
        (isClosed_unsignedDuration hstops) text
  have hfuel : ∀ i, durationDepth + i = 3 + i + 1 := fun i => by
    unfold durationDepth
    omega
  simp only [hfuel]
  exact settled_tracked hbody

end Stops

theorem matches_of_isDurationText (hduration : isDurationText text = true) :
    ∃ nodes, Matches (grammar.call .loose .durationLiteral) text [] nodes := by
  unfold isDurationText at hduration
  split at hduration
  · rename_i cursor nodes attempts hparse
    rw [Grammar.parse_eq_call] at hparse
    obtain ⟨taken, hpasses⟩ := call_splits grammar .loose .durationLiteral _ _ _ _ _ hparse
    have hrest : cursor.rest = [] := List.isEmpty_iff.mp hduration
    have hmatches := hpasses.matches hparse
    have htext : text = taken ++ cursor.rest := hpasses.rest
    rw [hrest] at hmatches htext
    rw [List.append_nil] at htext
    exact ⟨nodes, htext ▸ hmatches⟩
  · cases hduration

/-- A name that is a duration by itself is one wherever neither a point nor a further character of
a name follows. -/
theorem takes_durationLiteral_of_name (hname : isName name = true)
    (hduration : isDurationText name = true) (hword : Avoids Rule.nameChar rest)
    (hpoint : Spares '.' rest) :
    Takes (grammar.call .loose .durationLiteral) name rest fun _ => True := by
  have hstops : ∀ c ∈ rest.take 1, isNameChar c = false ∧ c ≠ '.' := by
    cases rest with
    | nil => exact nofun
    | cons c tail =>
        intro d hd
        obtain rfl : d = c := by simpa using hd
        rw [← contains_nameChar]
        exact ⟨hword d tail rfl, by simpa [CharClass.contains] using hpoint d tail rfl⟩
  have hrest : StopsAt (rest.take 1) rest := by
    rintro c tail rfl
    exact List.mem_cons_self ..
  obtain ⟨nodes, hmatches⟩ := matches_of_isDurationText hduration
  rcases settled_durationLiteral hstops hname with hrefuses | ⟨taken, left, hsplit, htakes⟩
  · have hnever := hrefuses (0, .loose) [] (stopsAt_nil _)
    exact absurd hmatches (Refuses.call grammar_grounded hnever).not_matches
  · have halone := Takes.call grammar_grounded (htakes (0, .loose) [] (stopsAt_nil _))
    obtain ⟨rfl, hleft, _⟩ := halone.eq_of_matches hmatches (by simp [hsplit])
    obtain rfl : left = [] := by simpa using hleft
    exact Takes.call grammar_grounded (htakes (0, .loose) rest hrest)

/-! ## Keywords -/

/-- A name that is a keyword for a literal is taken as the literal, if neither a point nor a further
character of a name follows. -/
theorem takes_keywordLiteral (hname : name ∈ ["null".toList, "true".toList, "false".toList])
    (hword : Avoids Rule.nameChar rest) (hpoint : Spares '.' rest) :
    ∃ rule ∈ [Rule.nullLiteral, .boolLiteral],
      Takes (grammar.call .loose rule) name rest fun _ => True := by
  have hnull : ¬ ['.'] <+: rest := by
    rintro ⟨tail, rfl⟩
    exact absurd (hpoint '.' tail rfl) (by decide)
  simp only [List.mem_cons, List.not_mem_nil, or_false] at hname
  rcases hname with rfl | rfl | rfl
  · refine ⟨.nullLiteral, by decide, ?_⟩
    exact (Takes.call grammar_grounded (takes_nullLiteral hword hnull 0 .loose)).imp
      fun _ _ => trivial
  · refine ⟨.boolLiteral, by decide, ?_⟩
    exact (Takes.call grammar_grounded (takes_boolLiteral true hword 0 (by decide))).imp
      fun _ _ => trivial
  · refine ⟨.boolLiteral, by decide, ?_⟩
    exact (Takes.call grammar_grounded (takes_boolLiteral false hword 0 (by decide))).imp
      fun _ _ => trivial

end DocQuery.Language
