import DocQuery.Text.Utf8

/-!
# UTF-8 reads back

The bytes of a text are read as that text. Reading keeps a pending character with the range of
its next byte; the ranges after the first bytes `0xe0`, `0xed`, `0xf0` and `0xf4` are narrower,
and the code of a character stays in them because it is neither too small for its length nor a
surrogate.

Main names:

* `decodeFrom_utf8EncodeChar` — one character, whatever follows;
* `decode_encode` — whole texts.
-/

namespace DocQuery.Text.Utf8

theorem toNat_ofNat_of_lt {n : Nat} (hn : n < 256) : (UInt8.ofNat n).toNat = n := by
  rw [UInt8.toNat_ofNat']
  exact Nat.mod_eq_of_lt hn

/-! ## Single bytes -/

theorem decodeFrom_ascii {n : Nat} (hn : n < 0x80) (rest : List UInt8) :
    decodeFrom none (UInt8.ofNat n :: rest) = Char.ofNat n :: decodeFrom none rest := by
  rw [decodeFrom, toNat_ofNat_of_lt (by omega)]
  simp only [step, start, hn, if_true]
  rfl

theorem decodeFrom_lead {n : Nat} {p : Pending} (hlow : 0x80 ≤ n) (hhigh : n < 256)
    (hlead : Pending.ofLead? n = some p) (rest : List UInt8) :
    decodeFrom none (UInt8.ofNat n :: rest) = decodeFrom (some p) rest := by
  rw [decodeFrom, toNat_ofNat_of_lt hhigh]
  simp only [step, start, hlead, if_neg (Nat.not_lt.mpr hlow)]
  rfl

theorem decodeFrom_middle {owed code least greatest n : Nat} (hleast : least ≤ n)
    (hgreatest : n ≤ greatest) (hn : n < 256) (rest : List UInt8) :
    decodeFrom (some ⟨owed + 2, code, least, greatest⟩) (UInt8.ofNat n :: rest) =
      decodeFrom (some ⟨owed + 1, code * 64 + (n - 0x80), 0x80, 0xbf⟩) rest := by
  rw [decodeFrom, toNat_ofNat_of_lt hn]
  have howed : ¬ owed + 2 ≤ 1 := by omega
  simp only [step, hleast, hgreatest, and_self, if_true, if_neg howed]
  rfl

theorem decodeFrom_last {code least greatest n : Nat} (hleast : least ≤ n)
    (hgreatest : n ≤ greatest) (hn : n < 256) (rest : List UInt8) :
    decodeFrom (some ⟨1, code, least, greatest⟩) (UInt8.ofNat n :: rest) =
      Char.ofNat (code * 64 + (n - 0x80)) :: decodeFrom none rest := by
  rw [decodeFrom, toNat_ofNat_of_lt hn]
  simp only [step, hleast, hgreatest, and_self, if_true, Nat.le_refl]
  rfl

/-! ## First bytes -/

/-- A first byte of two. -/
theorem ofLead_two {n : Nat} (hlow : 2 ≤ n) (hhigh : n < 32) :
    Pending.ofLead? (n + 0xc0) = some ⟨1, n, 0x80, 0xbf⟩ := by
  have hall : ∀ n : Fin 32, 2 ≤ n.val →
      Pending.ofLead? (n.val + 0xc0) = some ⟨1, n.val, 0x80, 0xbf⟩ := by
    intro n hn
    have hrange : 0xc2 ≤ n.val + 0xc0 ∧ n.val + 0xc0 ≤ 0xdf := by omega
    unfold Pending.ofLead?
    rw [if_pos hrange, Nat.add_sub_cancel]
  exact hall ⟨n, hhigh⟩ hlow

/-- A first byte of three: the second byte of a character that is long enough and no surrogate
is in range. -/
theorem ofLead_three (n next : Nat) (hn : n < 16) (hnext : next < 64)
    (hlong : 0x20 ≤ n * 64 + next) (hvalid : n * 64 + next < 0x360 ∨ 0x380 ≤ n * 64 + next) :
    ∃ least greatest, Pending.ofLead? (n + 0xe0) = some ⟨2, n, least, greatest⟩ ∧
      least ≤ next + 0x80 ∧ next + 0x80 ≤ greatest := by
  have hnot : ¬ (0xc2 ≤ n + 0xe0 ∧ n + 0xe0 ≤ 0xdf) := by omega
  unfold Pending.ofLead?
  rw [if_neg hnot]
  by_cases hfirst : n + 0xe0 = 0xe0
  · rw [if_pos hfirst]
    refine ⟨0xa0, 0xbf, ?_, by omega, by omega⟩
    rw [show n = 0 by omega]
  rw [if_neg hfirst]
  by_cases hsurrogate : n + 0xe0 = 0xed
  · rw [if_pos hsurrogate]
    refine ⟨0x80, 0x9f, ?_, by omega, by omega⟩
    rw [show n = 0xd by omega]
  · rw [if_neg hsurrogate, if_pos (by omega), Nat.add_sub_cancel]
    exact ⟨0x80, 0xbf, rfl, by omega, by omega⟩

/-- A first byte of four, likewise. -/
theorem ofLead_four (n next : Nat) (hnext : next < 64) (hlong : 0x10 ≤ n * 64 + next)
    (hshort : n * 64 + next < 0x110) :
    ∃ least greatest, Pending.ofLead? (n + 0xf0) = some ⟨3, n, least, greatest⟩ ∧
      least ≤ next + 0x80 ∧ next + 0x80 ≤ greatest := by
  unfold Pending.ofLead?
  rw [if_neg (by omega), if_neg (by omega), if_neg (by omega), if_neg (by omega)]
  by_cases hfirst : n + 0xf0 = 0xf0
  · rw [if_pos hfirst]
    refine ⟨0x90, 0xbf, ?_, by omega, by omega⟩
    rw [show n = 0 by omega]
  rw [if_neg hfirst]
  by_cases hlast : n = 4
  · rw [if_neg (by omega), if_pos (by omega)]
    refine ⟨0x80, 0x8f, ?_, by omega, by omega⟩
    rw [hlast]
  · rw [if_pos (by omega), Nat.add_sub_cancel]
    exact ⟨0x80, 0xbf, rfl, by omega, by omega⟩

/-! ## Characters and texts -/

theorem decodeFrom_utf8EncodeChar (c : Char) (rest : List UInt8) :
    decodeFrom none (String.utf8EncodeChar c ++ rest) = c :: decodeFrom none rest := by
  have hvalid : c.toNat < 0xd800 ∨ 0xdfff < c.toNat ∧ c.toNat < 0x110000 := c.valid
  have hc : Char.ofNat c.toNat = c := Char.ofNat_toNat c
  have hval : c.val.toNat = c.toNat := rfl
  unfold String.utf8EncodeChar
  simp only [hval]
  -- One case for each number of bytes; in each the lead byte is followed by bytes of six bits.
  generalize hv : c.toNat = v at hvalid hc
  by_cases hone : v ≤ 0x7f
  · rw [if_pos hone, List.singleton_append, decodeFrom_ascii (by omega), hc]
  rw [if_neg hone]
  by_cases htwo : v ≤ 0x7ff
  · have hcode : v / 64 % 0x20 * 64 + (v % 0x40 + 0x80 - 0x80) = v := by omega
    rw [if_pos htwo, List.cons_append, List.singleton_append,
      decodeFrom_lead (by omega) (by omega) (ofLead_two (by omega) (by omega)),
      decodeFrom_last (by omega) (by omega) (by omega), hcode, hc]
  rw [if_neg htwo]
  by_cases hthree : v ≤ 0xffff
  · obtain ⟨least, greatest, hlead, hleast, hgreatest⟩ :=
      ofLead_three (v / 4096 % 0x10) (v / 64 % 0x40) (by omega) (by omega) (by omega)
        (by omega)
    have hcode : (v / 4096 % 0x10 * 64 + (v / 64 % 0x40 + 0x80 - 0x80)) * 64 +
        (v % 0x40 + 0x80 - 0x80) = v := by omega
    rw [if_pos hthree, List.cons_append, List.cons_append, List.singleton_append,
      decodeFrom_lead (by omega) (by omega) hlead,
      decodeFrom_middle hleast hgreatest (by omega),
      decodeFrom_last (by omega) (by omega) (by omega), hcode, hc]
  · obtain ⟨least, greatest, hlead, hleast, hgreatest⟩ :=
      ofLead_four (v / 262144 % 0x08) (v / 4096 % 0x40) (by omega) (by omega)
        (by omega)
    have hcode : ((v / 262144 % 0x08 * 64 + (v / 4096 % 0x40 + 0x80 - 0x80)) * 64 +
        (v / 64 % 0x40 + 0x80 - 0x80)) * 64 + (v % 0x40 + 0x80 - 0x80) = v := by omega
    rw [if_neg hthree, List.cons_append, List.cons_append, List.cons_append,
      List.singleton_append, decodeFrom_lead (by omega) (by omega) hlead,
      decodeFrom_middle hleast hgreatest (by omega),
      decodeFrom_middle (by omega) (by omega) (by omega),
      decodeFrom_last (by omega) (by omega) (by omega), hcode, hc]

theorem decode_encode (text : List Char) : decode (encode text) = text := by
  unfold decode
  induction text with
  | nil => rfl
  | cons c text ih =>
      show decodeFrom none (String.utf8EncodeChar c ++ encode text) = _
      rw [decodeFrom_utf8EncodeChar, ih]

end DocQuery.Text.Utf8
