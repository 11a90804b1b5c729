import DocQuery.Text.Base64

/-!
# Base64 reads back

Bytes written in base64 are read back as the bytes they were. Reading takes whole groups of four
symbols while a fifth follows, so that the last group, padded or not, is read on its own; the
induction follows the groups of three bytes that writing takes.

Main names:

* `decode_encode` — reading what was written;
* `encode_alphabet` — the characters that are written.
-/

namespace DocQuery.Text.Base64

/-! ## Symbols -/

theorem symbolValue_symbol {n : Nat} (hn : n < 64) : symbolValue? (symbol n) = some n := by
  have hall : ∀ n : Fin 64, symbolValue? (symbol n.val) = some n.val := by
    decide
  exact hall ⟨n, hn⟩

theorem symbol_ne_padding {n : Nat} (hn : n < 64) : symbol n ≠ '=' := by
  have hall : ∀ n : Fin 64, symbol n.val ≠ '=' := by
    decide
  exact hall ⟨n, hn⟩

theorem valueAt_symbol (offset : Nat) {n : Nat} (hn : n < 64) :
    valueAt offset (symbol n) = .ok n := by
  unfold valueAt
  rw [symbolValue_symbol hn]

/-! ## The last group -/

theorem lastGroup_padding {offset padding count : Nat} {values : List Nat}
    (hvalues : 2 ≤ values.length) :
    lastGroup offset values padding (List.replicate count '=') = .ok (values, padding + count) := by
  induction count generalizing padding with
  | zero => rfl
  | succ count ih =>
      rw [List.replicate_succ, lastGroup, if_pos rfl, if_neg (by omega), ih]
      congr 2
      omega

theorem lastGroup_symbol {offset n : Nat} (hn : n < 64) (values : List Nat) (rest : List Char) :
    lastGroup offset values 0 (symbol n :: rest) = lastGroup offset (values ++ [n]) 0 rest := by
  rw [lastGroup, if_neg (symbol_ne_padding hn), if_neg (by omega), valueAt_symbol _ hn]
  rfl

theorem ofNat_toNat_of_eq {n : Nat} {b : UInt8} (hn : n = b.toNat) : UInt8.ofNat n = b := by
  rw [hn, UInt8.ofNat_toNat]

theorem decodeLast_pair {offset a b : Nat} {group : List Char}
    (hgroup : lastGroup offset [] 0 group = .ok ([a, b], 2)) (hbits : b % 16 = 0) :
    decodeLast offset group = .ok [UInt8.ofNat (a * 4 + b / 16)] := by
  unfold decodeLast
  rw [hgroup]
  simp [bind, Except.bind, pure, Except.pure, hbits]

theorem decodeLast_triple {offset a b c : Nat} {group : List Char}
    (hgroup : lastGroup offset [] 0 group = .ok ([a, b, c], 1)) (hbits : c % 4 = 0) :
    decodeLast offset group =
      .ok [UInt8.ofNat ((a * 1024 + b * 16 + c / 4) / 256),
        UInt8.ofNat ((a * 1024 + b * 16 + c / 4) % 256)] := by
  unfold decodeLast
  rw [hgroup]
  simp [bind, Except.bind, pure, Except.pure, hbits]

theorem decodeLast_quad {offset a b c d : Nat} {group : List Char}
    (hgroup : lastGroup offset [] 0 group = .ok ([a, b, c, d], 0)) :
    decodeLast offset group =
      .ok [UInt8.ofNat ((a * 262144 + b * 4096 + c * 64 + d) / 65536),
        UInt8.ofNat ((a * 262144 + b * 4096 + c * 64 + d) / 256 % 256),
        UInt8.ofNat ((a * 262144 + b * 4096 + c * 64 + d) % 256)] := by
  unfold decodeLast
  rw [hgroup]
  simp [bind, Except.bind, pure, Except.pure]

theorem decodeLast_one (offset : Nat) (a : UInt8) :
    decodeLast offset (encode [a]) = .ok [a] := by
  have ha := a.toNat_lt
  have hgroup : lastGroup offset [] 0 (encode [a]) =
      .ok ([a.toNat * 16 / 64, a.toNat * 16 % 64], 2) := by
    show lastGroup offset [] 0 (symbol _ :: symbol _ :: List.replicate 2 '=') = _
    rw [lastGroup_symbol (by omega), lastGroup_symbol (by omega)]
    exact lastGroup_padding (Nat.le_refl 2)
  rw [decodeLast_pair hgroup (by omega)]
  congr 2
  exact ofNat_toNat_of_eq (by omega)

theorem decodeLast_two (offset : Nat) (a b : UInt8) :
    decodeLast offset (encode [a, b]) = .ok [a, b] := by
  have ha := a.toNat_lt
  have hb := b.toNat_lt
  have hgroup : lastGroup offset [] 0 (encode [a, b]) =
      .ok ([(a.toNat * 256 + b.toNat) * 4 / 4096, (a.toNat * 256 + b.toNat) * 4 / 64 % 64,
        (a.toNat * 256 + b.toNat) * 4 % 64], 1) := by
    show lastGroup offset [] 0 (symbol _ :: symbol _ :: symbol _ :: List.replicate 1 '=') = _
    rw [lastGroup_symbol (by omega), lastGroup_symbol (by omega), lastGroup_symbol (by omega)]
    exact lastGroup_padding (Nat.le_succ 2)
  rw [decodeLast_triple hgroup (by omega)]
  congr 2
  · exact ofNat_toNat_of_eq (by omega)
  · congr 1
    exact ofNat_toNat_of_eq (by omega)

/-! ## Whole groups -/

theorem bytes_of_symbols {a b c n : Nat} (_ : a < 256) (hb : b < 256) (hc : c < 256)
    (hn : n = (a * 256 + b) * 256 + c) :
    n / 262144 * 262144 + n / 4096 % 64 * 4096 + n / 64 % 64 * 64 + n % 64 = n ∧
      n / 65536 = a ∧ n / 256 % 256 = b ∧ n % 256 = c := by
  omega

theorem decodeLast_three (offset : Nat) (a b c : UInt8) :
    decodeLast offset (encode [a, b, c]) = .ok [a, b, c] := by
  have ha := a.toNat_lt
  have hb := b.toNat_lt
  have hc := c.toNat_lt
  obtain ⟨n, hn⟩ : ∃ n, n = (a.toNat * 256 + b.toNat) * 256 + c.toNat := ⟨_, rfl⟩
  obtain ⟨hwhole, hfirst, hsecond, hthird⟩ := bytes_of_symbols ha hb hc hn
  have hgroup : lastGroup offset [] 0 (encode [a, b, c]) =
      .ok ([n / 262144, n / 4096 % 64, n / 64 % 64, n % 64], 0) := by
    simp only [encode, ← hn]
    rw [lastGroup_symbol (by omega), lastGroup_symbol (by omega), lastGroup_symbol (by omega),
      lastGroup_symbol (by omega)]
    rfl
  rw [decodeLast_quad hgroup, hwhole, hfirst, hsecond, hthird, UInt8.ofNat_toNat,
    UInt8.ofNat_toNat, UInt8.ofNat_toNat]

theorem decodeFrom_three (offset : Nat) (a b c : UInt8) {rest : List Char} (hrest : rest ≠ []) :
    decodeFrom offset (encode [a, b, c] ++ rest) =
      (do return a :: b :: c :: (← decodeFrom (offset + 4) rest)) := by
  have ha := a.toNat_lt
  have hb := b.toNat_lt
  have hc := c.toNat_lt
  obtain ⟨n, hn⟩ : ∃ n, n = (a.toNat * 256 + b.toNat) * 256 + c.toNat := ⟨_, rfl⟩
  obtain ⟨hwhole, hfirst, hsecond, hthird⟩ := bytes_of_symbols ha hb hc hn
  cases rest with
  | nil => exact absurd rfl hrest
  | cons e rest =>
      simp only [encode, ← hn, List.cons_append, List.nil_append]
      rw [decodeFrom, valueAt_symbol _ (by omega), valueAt_symbol _ (by omega),
        valueAt_symbol _ (by omega), valueAt_symbol _ (by omega)]
      show (do return UInt8.ofNat (_ / 65536) :: UInt8.ofNat (_ / 256 % 256) ::
        UInt8.ofNat (_ % 256) :: (← decodeFrom (offset + 4) (e :: rest))) = _
      rw [hwhole, hfirst, hsecond, hthird, UInt8.ofNat_toNat, UInt8.ofNat_toNat,
        UInt8.ofNat_toNat]

/-! ## Reading what was written -/

theorem encode_ne_nil (b : UInt8) (bytes : List UInt8) : encode (b :: bytes) ≠ [] := by
  rcases bytes with _ | ⟨_, _ | ⟨_, _⟩⟩ <;> simp [encode]

theorem decodeFrom_encode (offset : Nat) (bytes : List UInt8) :
    decodeFrom offset (encode bytes) = .ok bytes := by
  induction bytes using encode.induct generalizing offset with
  | case1 => rfl
  | case2 a => exact decodeLast_one offset a
  | case3 a b => exact decodeLast_two offset a b
  | case4 a b c rest ih =>
      cases rest with
      | nil => exact decodeLast_three offset a b c
      | cons d rest =>
          show decodeFrom offset (encode [a, b, c] ++ encode (d :: rest)) = _
          rw [decodeFrom_three offset a b c (encode_ne_nil d rest), ih]
          rfl

theorem decode_encode (bytes : List UInt8) : decode (encode bytes) = .ok bytes :=
  decodeFrom_encode 0 bytes

/-- Letters, digits and the signs `+`, `/` and `=`. -/
def isAlphabet (c : Char) : Bool :=
  c.isAlphanum || c == '+' || c == '/' || c == '='

theorem isAlphabet_symbol {n : Nat} (hn : n < 64) : isAlphabet (symbol n) = true := by
  have hall : ∀ n : Fin 64, isAlphabet (symbol n.val) = true := by
    decide
  exact hall ⟨n, hn⟩

theorem encode_alphabet {bytes : List UInt8} {c : Char} (hc : c ∈ encode bytes) :
    isAlphabet c = true := by
  -- One case for each number of bytes in the last group.
  induction bytes using encode.induct with
  | case1 => cases hc
  | case2 a =>
      have ha := a.toNat_lt
      simp only [encode, List.mem_cons, List.not_mem_nil, or_false] at hc
      rcases hc with rfl | rfl | rfl | rfl
      · exact isAlphabet_symbol (by omega)
      · exact isAlphabet_symbol (by omega)
      · rfl
      · rfl
  | case3 a b =>
      have ha := a.toNat_lt
      have hb := b.toNat_lt
      simp only [encode, List.mem_cons, List.not_mem_nil, or_false] at hc
      rcases hc with rfl | rfl | rfl | rfl
      · exact isAlphabet_symbol (by omega)
      · exact isAlphabet_symbol (by omega)
      · exact isAlphabet_symbol (by omega)
      · rfl
  | case4 a b c' rest ih =>
      have ha := a.toNat_lt
      have hb := b.toNat_lt
      have hc' := c'.toNat_lt
      simp only [encode, List.mem_cons] at hc
      rcases hc with rfl | rfl | rfl | rfl | hc
      · exact isAlphabet_symbol (by omega)
      · exact isAlphabet_symbol (by omega)
      · exact isAlphabet_symbol (by omega)
      · exact isAlphabet_symbol (by omega)
      · exact ih hc

end DocQuery.Text.Base64
