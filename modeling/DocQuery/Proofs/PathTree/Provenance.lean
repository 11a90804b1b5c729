import DocQuery.PathTree.Provenance
import DocQuery.Proofs.Text.Digits

/-!
# The record of provenance

Indices that are recorded among annotations are found there again, whatever mark is used and
whatever annotations stood there before, among them records that are stale, repeated or no
records at all. A second record takes the place of the first.

Main names:

* `Provenance.splitCommas_intercalate` — parts without commas are divided where they were joined;
* `Provenance.recorded_record` — the record is read back;
* `Provenance.record_record` — only the last record stays.
-/

namespace DocQuery.Provenance

open Text

/-! ## Parts between commas -/

theorem splitCommas_cons_of_ne {c : Char} (hc : c ≠ ',') (text : List Char) :
    splitCommas (c :: text) = match splitCommas text with
      | part :: rest => (c :: part) :: rest
      | [] => [[c]] := by
  rw [splitCommas, List.foldr_cons, if_neg hc]
  rfl

theorem splitCommas_comma (text : List Char) :
    splitCommas (',' :: text) = [] :: splitCommas text := by
  rw [splitCommas, List.foldr_cons, if_pos rfl]
  rfl

/-- A part without commas goes to the first of the parts that follow. -/
theorem splitCommas_append {part : List Char} (hpart : ',' ∉ part) {text first : List Char}
    {rest : List (List Char)} (htext : splitCommas text = first :: rest) :
    splitCommas (part ++ text) = (part ++ first) :: rest := by
  induction part with
  | nil => exact htext
  | cons c part ih =>
      rw [List.mem_cons, not_or] at hpart
      rw [List.cons_append, splitCommas_cons_of_ne (Ne.symm hpart.1), ih hpart.2]
      rfl

theorem intercalate_singleton (part : List Char) : [','].intercalate [part] = part := by
  simp [List.intercalate]

theorem intercalate_cons (part next : List Char) (parts : List (List Char)) :
    [','].intercalate (part :: next :: parts) = part ++ ',' :: [','].intercalate (next :: parts) := by
  simp [List.intercalate]

/-- Parts without commas are divided where they were joined. -/
theorem splitCommas_intercalate {part : List Char} {parts : List (List Char)}
    (hparts : ∀ p ∈ part :: parts, ',' ∉ p) :
    splitCommas ([','].intercalate (part :: parts)) = part :: parts := by
  induction parts generalizing part with
  | nil =>
      have hsplit := splitCommas_append (hparts part (List.mem_cons_self ..))
        (show splitCommas [] = [] :: [] from rfl)
      rw [List.append_nil] at hsplit
      rw [intercalate_singleton]
      exact hsplit
  | cons next parts ih =>
      have hrest := ih fun p hp => hparts p (List.mem_cons_of_mem _ hp)
      have hcomma := splitCommas_comma ([','].intercalate (next :: parts))
      rw [hrest] at hcomma
      have hsplit := splitCommas_append (hparts part (List.mem_cons_self ..)) hcomma
      rw [List.append_nil] at hsplit
      rw [intercalate_cons]
      exact hsplit

/-! ## Indices -/

theorem comma_not_mem_ofNat (n : Nat) : ',' ∉ Digits.ofNat n := by
  intro hcomma
  have hdigit := Digits.isDigit_of_mem_ofNat hcomma
  simp [Char.isDigit] at hdigit

/-- An index of 64 bits is read back. -/
theorem readIndex_ofNat {n : Nat} (hn : n < 2 ^ 64) : readIndex? (Digits.ofNat n) = some n := by
  have hall : (Digits.ofNat n).all Char.isDigit = true :=
    List.all_eq_true.mpr fun c hc => Digits.isDigit_of_mem_ofNat hc
  have hsome : (Digits.ofNat n).isEmpty = false := by
    rw [List.isEmpty_eq_false_iff]
    exact Digits.ofNat_ne_nil n
  have hvalue := Digits.value_ofNat n
  generalize Digits.ofNat n = digits at hall hsome hvalue
  unfold readIndex?
  split
  · rw [List.all_cons] at hall
    cases hall
  · simp only [hall, hsome, hvalue, hn, if_true, Bool.not_true, Bool.or_self,
      Bool.false_eq_true, if_false]

theorem mapM_readIndex {indices : List Nat} (hindices : ∀ n ∈ indices, n < 2 ^ 64) :
    (indices.map Digits.ofNat).mapM readIndex? = some indices := by
  induction indices with
  | nil => rfl
  | cons n indices ih =>
      have hrest := ih fun m hm => hindices m (List.mem_cons_of_mem _ hm)
      rw [List.map_cons, List.mapM_cons, readIndex_ofNat (hindices n (List.mem_cons_self ..)),
        hrest]
      rfl

/-- Indices joined by commas are read back. No index at all is an empty text. -/
theorem readIndices_intercalate {indices : List Nat} (hindices : ∀ n ∈ indices, n < 2 ^ 64) :
    readIndices? ([','].intercalate (indices.map Digits.ofNat)) = some indices := by
  cases indices with
  | nil => rfl
  | cons n indices =>
      have hsome : ([','].intercalate ((n :: indices).map Digits.ofNat)).isEmpty = false := by
        rw [List.isEmpty_eq_false_iff]
        intro hnil
        have hfirst := Digits.ofNat_ne_nil n
        cases indices with
        | nil =>
            rw [List.map_cons, List.map_nil, intercalate_singleton] at hnil
            exact hfirst hnil
        | cons m indices =>
            rw [List.map_cons, List.map_cons, intercalate_cons] at hnil
            simp at hnil
      unfold readIndices?
      rw [hsome, if_neg Bool.false_ne_true, List.map_cons, splitCommas_intercalate, ← List.map_cons]
      · exact mapM_readIndex hindices
      · intro part hpart
        rw [← List.map_cons, List.mem_map] at hpart
        obtain ⟨m, _, rfl⟩ := hpart
        exact comma_not_mem_ofNat m

/-! ## Records -/

theorem afterMark_write (mark : String) (indices : List Nat) :
    afterMark? mark (write mark indices) =
      some ([','].intercalate (indices.map Digits.ofNat)) := by
  have hprefix : mark.toList.isPrefixOf
      (mark.toList ++ [','].intercalate (indices.map Digits.ofNat)) = true := by
    rw [List.isPrefixOf_iff_prefix]
    exact List.prefix_append _ _
  unfold afterMark? write
  rw [String.toList_append, String.toList_ofList, if_pos hprefix, List.drop_left]

/-- The record of indices is read back, whatever annotations there were. -/
theorem recorded_record (mark : String) {indices : List Nat} (annotations : List String)
    (hindices : ∀ n ∈ indices, n < 2 ^ 64) :
    recorded? mark (record mark indices annotations) = some indices := by
  have hothers : (annotations.filter fun name => (afterMark? mark name).isNone).findSome?
      (afterMark? mark) = none := by
    rw [List.findSome?_eq_none_iff]
    intro name hname
    rw [List.mem_filter, Option.isNone_iff_eq_none] at hname
    exact hname.2
  unfold recorded? record
  rw [List.findSome?_append, hothers, Option.none_or]
  simp only [List.findSome?_cons, afterMark_write]
  exact readIndices_intercalate hindices

/-- A second record takes the place of the first. -/
theorem record_record (mark : String) (indices indices' : List Nat) (annotations : List String) :
    record mark indices (record mark indices' annotations) = record mark indices annotations := by
  unfold record
  rw [List.filter_append, List.filter_filter]
  simp [afterMark_write]

end DocQuery.Provenance
