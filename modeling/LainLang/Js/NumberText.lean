import LainLang.Js.Json
import Mathlib.Tactic.Ring
/-!
# Numbers and their texts

The text of a finite number is read back: its digits, with the point where it
stands and the exponent, give the decimal, so two numbers with one text are the
same, up to the sign of zero.
-/

namespace LainLang.Js

/-! ## Reading a text -/

/-- The digits of a text without an exponent, and the place of its point. -/
def readBody (body : List Char) : ℕ × ℤ :=
  let fraction := (body.dropWhile (· ≠ '.')).drop 1
  (Nat.ofDigitChars 10 (body.takeWhile (· ≠ '.') ++ fraction) 0, -fraction.length)

/-- The exponent behind the `e`, if there is one. -/
def readExponent (tail : List Char) : ℤ :=
  let digits := Nat.ofDigitChars 10 (tail.drop 2) 0
  if tail[1]? = some '-' then -digits else digits

/-- A mantissa and an exponent of a text without a sign. -/
def readUnsigned (cs : List Char) : ℕ × ℤ :=
  let body := readBody (cs.takeWhile (· ≠ 'e'))
  (body.1, body.2 + readExponent (cs.dropWhile (· ≠ 'e')))

/-- All characters are digits. -/
def Digits (cs : List Char) : Prop := ∀ c ∈ cs, c.isDigit = true

theorem Digits.ne {cs : List Char} (h : Digits cs) {marker : Char} (hm : marker.isDigit = false) :
    ∀ c ∈ cs, decide (c ≠ marker) = true := by
  intro c hc
  refine decide_eq_true ?_
  rintro rfl
  rw [h c hc] at hm
  cases hm

theorem digits_zeros (n : ℕ) : Digits (zeros n) := by
  intro c hc
  rw [List.eq_of_mem_replicate hc]
  rfl

theorem digits_toDigits (n : ℕ) : Digits (Nat.toDigits 10 n) := fun _ hc =>
  Nat.isDigit_of_mem_toDigits (by omega) (by omega) hc

/-- A text splits where the first marker stands. -/
theorem split_marker {before : List Char} {marker : Char} (h : ∀ c ∈ before, decide (c ≠ marker) = true)
    {after : List Char} (hafter : ∀ c ∈ after.head?, c = marker) :
    (before ++ after).takeWhile (· ≠ marker) = before ∧ (before ++ after).dropWhile (· ≠ marker) = after := by
  rw [List.takeWhile_append_of_pos h, List.dropWhile_append_of_pos h]
  cases after with
  | nil => simp
  | cons c after =>
    obtain rfl := hafter c rfl
    simp

theorem readBody_digits {digits : List Char} (h : Digits digits) : readBody digits = (Nat.ofDigitChars 10 digits 0, 0) := by
  have hsplit := @split_marker digits '.' (h.ne rfl) [] (by simp)
  rw [List.append_nil] at hsplit
  simp only [readBody, hsplit.1, hsplit.2]
  simp

theorem readBody_point {before after : List Char} (h : Digits before) :
    readBody (before ++ '.' :: after) = (Nat.ofDigitChars 10 (before ++ after) 0, -(after.length : ℤ)) := by
  have hsplit := @split_marker before '.' (h.ne rfl) ('.' :: after) (by simp)
  simp only [readBody, hsplit.1, hsplit.2]
  rfl

theorem readUnsigned_append {body tail : List Char} (hbody : ∀ c ∈ body, decide (c ≠ 'e') = true)
    (htail : ∀ c ∈ tail.head?, c = 'e') :
    readUnsigned (body ++ tail) = ((readBody body).1, (readBody body).2 + readExponent tail) := by
  obtain ⟨htake, hdrop⟩ := split_marker hbody htail
  rw [readUnsigned, htake, hdrop]

theorem readUnsigned_body {body : List Char} (hbody : ∀ c ∈ body, decide (c ≠ 'e') = true) :
    readUnsigned body = readBody body := by
  have := @readUnsigned_append body [] hbody (by simp)
  rw [List.append_nil] at this
  simpa [readExponent] using this

/-- Digits with a point among them have no `e`. -/
theorem point_ne {before after : List Char} (hbefore : Digits before) (hafter : Digits after) :
    ∀ c ∈ before ++ '.' :: after, decide (c ≠ 'e') = true := by
  intro c hc
  rcases List.mem_append.1 hc with hc | hc
  · exact hbefore.ne rfl c hc
  rcases List.mem_cons.1 hc with rfl | hc
  · rfl
  · exact hafter.ne rfl c hc

theorem Digits.append {before after : List Char} (hbefore : Digits before) (hafter : Digits after) : Digits (before ++ after) :=
  fun c hc => (List.mem_append.1 hc).elim (hbefore c) (hafter c)

theorem readUnsigned_zeros {digits : List Char} (h : Digits digits) (k : ℕ) :
    readUnsigned (digits ++ zeros k) = (Nat.ofDigitChars 10 digits 0 * 10 ^ k, 0) := by
  have hdigits : Digits (digits ++ zeros k) := h.append (digits_zeros k)
  rw [readUnsigned_body (hdigits.ne rfl), readBody_digits hdigits, Nat.ofDigitChars_append, zeros,
    Nat.ofDigitChars_replicate_zero, mul_comm]

theorem readUnsigned_point {before after : List Char} (hbefore : Digits before) (hafter : Digits after) :
    readUnsigned (before ++ '.' :: after) = (Nat.ofDigitChars 10 (before ++ after) 0, -(after.length : ℤ)) := by
  rw [readUnsigned_body (point_ne hbefore hafter), readBody_point hbefore]

/-- Zeros in front of the digits do not change their number. -/
theorem ofDigitChars_zeros (k : ℕ) (digits : List Char) :
    Nat.ofDigitChars 10 (['0'] ++ (zeros k ++ digits)) 0 = Nat.ofDigitChars 10 digits 0 := by
  rw [Nat.ofDigitChars_append, Nat.ofDigitChars_append, zeros, Nat.ofDigitChars_replicate_zero]
  rfl

theorem readExponent_text (m : ℤ) :
    readExponent ('e' :: (if m < 0 then '-' else '+') :: Nat.toDigits 10 m.natAbs) = m := by
  rw [readExponent]
  simp only [List.drop_succ_cons, List.drop_zero, Nat.ofDigitChars_ten_toDigits, List.getElem?_cons_succ,
    List.getElem?_cons_zero, Option.some.injEq]
  split_ifs <;> first | omega | simp_all

/-- The first digit and the others behind the point. -/
theorem readBody_first {digits : List Char} (h : Digits digits) (hlen : 0 < digits.length) :
    (∀ c ∈ digits.take 1 ++ (if digits.length = 1 then [] else '.' :: digits.drop 1), decide (c ≠ 'e') = true) ∧
      readBody (digits.take 1 ++ (if digits.length = 1 then [] else '.' :: digits.drop 1)) =
        (Nat.ofDigitChars 10 digits 0, 1 - (digits.length : ℤ)) := by
  have htake : Digits (digits.take 1) := fun c hc => h c (List.mem_of_mem_take hc)
  have hdrop : Digits (digits.drop 1) := fun c hc => h c (List.mem_of_mem_drop hc)
  split
  · rename_i hone
    have hall : digits.take 1 = digits := List.take_of_length_le (by omega)
    rw [hall, List.append_nil, readBody_digits h, hone]
    exact ⟨h.ne rfl, rfl⟩
  · refine ⟨point_ne htake hdrop, ?_⟩
    rw [readBody_point htake, List.take_append_drop, List.length_drop]
    congr 1
    omega

/-- The digits come back, with zeros where the text has some behind them. -/
theorem readUnsigned_placePoint {digits : List Char} (h : Digits digits) (hne : digits ≠ []) (n : ℤ) :
    ∃ a : ℕ, readUnsigned (placePoint digits n) = (Nat.ofDigitChars 10 digits 0 * 10 ^ a, n - digits.length - a) := by
  have hlen : 0 < digits.length := List.length_pos_iff.2 hne
  have htake : ∀ i, Digits (digits.take i) := fun i c hc => h c (List.mem_of_mem_take hc)
  have hdrop : ∀ i, Digits (digits.drop i) := fun i c hc => h c (List.mem_of_mem_drop hc)
  unfold placePoint
  dsimp only
  split
  · -- A whole number, with zeros up to the point.
    refine ⟨(n - digits.length).toNat, ?_⟩
    rw [readUnsigned_zeros h]
    congr 1
    omega
  split
  · -- The point is among the digits.
    refine ⟨0, ?_⟩
    rw [readUnsigned_point (htake _) (hdrop _), List.take_append_drop]
    simp only [pow_zero, mul_one, List.length_drop]
    congr 1
    omega
  split
  · -- `0.`, zeros and the digits.
    refine ⟨0, ?_⟩
    have hread := @readUnsigned_point ['0'] _ (by simp [Digits]) ((digits_zeros (-n).toNat).append h)
    rw [ofDigitChars_zeros] at hread
    refine hread.trans ?_
    simp only [pow_zero, mul_one, List.length_append, zeros, List.length_replicate]
    congr 1
    omega
  · -- The first digit, the others behind the point, and an exponent.
    refine ⟨0, ?_⟩
    obtain ⟨hbody, hread⟩ := readBody_first h hlen
    rw [readUnsigned_append hbody (by simp), hread, readExponent_text]
    simp only [pow_zero, mul_one]
    congr 1
    omega

/-! ## The sign -/

/-- An unsigned text starts with a digit. -/
theorem placePoint_head {digits : List Char} (h : Digits digits) (hne : digits ≠ []) (n : ℤ) :
    ∃ c ∈ (placePoint digits n).head?, c.isDigit = true := by
  obtain ⟨c, cs, rfl⟩ := List.exists_cons_of_ne_nil hne
  have hc : c.isDigit = true := h c List.mem_cons_self
  unfold placePoint
  dsimp only
  split
  · exact ⟨c, by simp, hc⟩
  split
  · rename_i hn
    obtain ⟨m, hm⟩ : ∃ m, n.toNat = m + 1 := ⟨n.toNat - 1, by omega⟩
    exact ⟨c, by simp [hm], hc⟩
  split
  · exact ⟨'0', by simp, rfl⟩
  · exact ⟨c, by simp, hc⟩

/-- What a text says: the sign, the digits and the place of the point. -/
def readText (cs : List Char) : Bool × ℕ × ℤ :=
  if cs.head? = some '-' then (true, readUnsigned cs.tail) else (false, readUnsigned cs)

theorem readText_text {d : Decimal} (h : d.mantissa ≠ 0) :
    ∃ a : ℕ, readText d.text = (d.negative, d.mantissa * 10 ^ a, d.exponent - a) := by
  have hdigits := digits_toDigits d.mantissa
  have hne : Nat.toDigits 10 d.mantissa ≠ [] := Nat.toDigits_ne_nil
  obtain ⟨a, ha⟩ := readUnsigned_placePoint hdigits hne ((Nat.toDigits 10 d.mantissa).length + d.exponent)
  rw [Nat.ofDigitChars_ten_toDigits, add_sub_cancel_left] at ha
  obtain ⟨c, hc, hdigit⟩ := placePoint_head hdigits hne ((Nat.toDigits 10 d.mantissa).length + d.exponent)
  refine ⟨a, ?_⟩
  rw [Decimal.text, if_neg h, readText]
  dsimp only
  cases d.negative with
  | true => simp [ha]
  | false =>
    have hminus : (placePoint (Nat.toDigits 10 d.mantissa) ((Nat.toDigits 10 d.mantissa).length + d.exponent)).head? ≠
        some '-' := by
      rw [Option.mem_def.1 hc]
      rintro heq
      obtain rfl := Option.some.inj heq
      cases hdigit
    simp [ha, hminus]

/-- A number whose last digit is not zero, with zeros behind it. -/
theorem mul_pow_inj {m m' a a' : ℕ} (hm : m % 10 ≠ 0) (hm' : m' % 10 ≠ 0) (h : m * 10 ^ a = m' * 10 ^ a') :
    m = m' ∧ a = a' := by
  induction a generalizing a' with
  | zero =>
    cases a' with
    | zero => simpa using h
    | succ a' =>
      rw [pow_zero, mul_one, pow_succ, ← mul_assoc] at h
      omega
  | succ a ih =>
    cases a' with
    | zero =>
      rw [pow_zero, mul_one, pow_succ, ← mul_assoc] at h
      omega
    | succ a' =>
      rw [pow_succ, pow_succ, ← mul_assoc, ← mul_assoc] at h
      have heq : m * 10 ^ a = m' * 10 ^ a' := by omega
      obtain ⟨hmm, haa⟩ := ih heq
      exact ⟨hmm, congrArg (· + 1) haa⟩

/-- Two finite numbers with the same text are the same number or both a zero. -/
theorem Decimal.text_inj {d d' : Decimal} (h : d.text = d'.text) : d = d' ∨ d.mantissa = 0 ∧ d'.mantissa = 0 := by
  have hzero : ∀ {d d' : Decimal}, d.text = d'.text → d.mantissa = 0 → d'.mantissa = 0 := by
    intro d d' h hd
    by_contra hd'
    obtain ⟨a, ha⟩ := readText_text hd'
    rw [← h, Decimal.text, if_pos hd] at ha
    have hread : readText ['0'] = (false, 0, 0) := by decide
    rw [hread] at ha
    simp only [Prod.mk.injEq] at ha
    have hpos : 0 < d'.mantissa * 10 ^ a := Nat.mul_pos (Nat.pos_of_ne_zero hd') (by positivity)
    omega
  by_cases hd : d.mantissa = 0
  · exact .inr ⟨hd, hzero h hd⟩
  · have hd' : d'.mantissa ≠ 0 := fun hd' => hd (hzero h.symm hd')
    obtain ⟨a, ha⟩ := readText_text hd
    obtain ⟨a', ha'⟩ := readText_text hd'
    rw [h, ha'] at ha
    simp only [Prod.mk.injEq] at ha
    obtain ⟨hsign, hmantissa, hexponent⟩ := ha
    obtain ⟨hm, rfl⟩ := mul_pow_inj (d'.canonical.resolve_right fun hz => hd' hz.1)
      (d.canonical.resolve_right fun hz => hd hz.1) hmantissa
    obtain ⟨negative, mantissa, exponent, canonical⟩ := d
    obtain ⟨negative', mantissa', exponent', canonical'⟩ := d'
    dsimp only at hsign hm hexponent
    obtain rfl : exponent' = exponent := by omega
    subst hsign hm
    exact .inl rfl

/-! ## Natural numbers -/

/-- A natural number below `10 ^ 21` is written with its digits only. -/
theorem Decimal.text_ofNat {n : ℕ} (hn : n < 10 ^ 21) :
    Digits (Decimal.ofNat n).text ∧ (Decimal.ofNat n).text ≠ [] ∧ Nat.ofDigitChars 10 (Decimal.ofNat n).text 0 = n := by
  rcases Nat.eq_zero_or_pos n with rfl | hpos
  · exact ⟨by simp [Digits, Decimal.text, Decimal.ofNat], by simp [Decimal.text, Decimal.ofNat], rfl⟩
  obtain ⟨hmul, hmod⟩ := div_trailingZeros hpos
  set m := n / 10 ^ trailingZeros n n with hm
  set k := trailingZeros n n with hk
  have hm0 : m ≠ 0 := fun h => hmod (by rw [h])
  have hlen : (Nat.toDigits 10 m).length + k ≤ 21 := by
    have hk21 : k < 21 := by
      by_contra hge
      have hpow : 10 ^ 21 ≤ 10 ^ k := Nat.pow_le_pow_right (by decide) (by omega)
      have hle : 1 * 10 ^ k ≤ m * 10 ^ k := Nat.mul_le_mul_right _ (Nat.pos_of_ne_zero hm0)
      omega
    have hlt : m < 10 ^ (21 - k) := by
      refine Nat.lt_of_mul_lt_mul_right (a := 10 ^ k) ?_
      rwa [hmul, ← pow_add, Nat.sub_add_cancel hk21.le]
    have := (Nat.length_toDigits_le_iff (by decide) (by omega)).2 hlt
    omega
  have htext : (Decimal.ofNat n).text = Nat.toDigits 10 m ++ zeros k := by
    have hmantissa : (Decimal.ofNat n).mantissa = m := rfl
    have hexponent : (Decimal.ofNat n).exponent = k := by simp [Decimal.ofNat, hpos.ne', hk]
    rw [Decimal.text, if_neg (by rw [hmantissa]; exact hm0), hmantissa, hexponent]
    simp only [Decimal.ofNat, Bool.false_eq_true, if_false, List.nil_append]
    rw [placePoint, if_pos ⟨by omega, by omega⟩]
    congr 2
    omega
  rw [htext]
  refine ⟨(digits_toDigits m).append (digits_zeros k), by simp [Nat.toDigits_ne_nil], ?_⟩
  rw [Nat.ofDigitChars_append, Nat.ofDigitChars_ten_toDigits, zeros, Nat.ofDigitChars_replicate_zero, mul_comm, hmul]

/-! ## The characters of a text -/

/-- A character that stands in the text of a number. -/
def NumberChar (c : Char) : Prop := c.isDigit = true ∨ c ∈ ['-', '+', '.', 'e']

theorem Digits.numberChar {cs : List Char} (h : Digits cs) : ∀ c ∈ cs, NumberChar c := fun c hc => .inl (h c hc)

theorem placePoint_chars {digits : List Char} (h : Digits digits) (n : ℤ) : ∀ c ∈ placePoint digits n, NumberChar c := by
  have hzeros : ∀ k, ∀ c ∈ zeros k, NumberChar c := fun k => (digits_zeros k).numberChar
  have htake : ∀ k, ∀ c ∈ digits.take k, NumberChar c := fun k c hc => h.numberChar c (List.mem_of_mem_take hc)
  have hdrop : ∀ k, ∀ c ∈ digits.drop k, NumberChar c := fun k c hc => h.numberChar c (List.mem_of_mem_drop hc)
  have hexponent : ∀ m, ∀ c ∈ Nat.toDigits 10 m, NumberChar c := fun m => (digits_toDigits m).numberChar
  intro c hc
  unfold placePoint at hc
  dsimp only at hc
  split at hc
  · exact (List.mem_append.1 hc).elim (h.numberChar c) (hzeros _ c)
  split at hc
  · rcases List.mem_append.1 hc with hc | hc
    · exact htake _ c hc
    · rcases List.mem_cons.1 hc with rfl | hc
      · exact .inr (by simp)
      · exact hdrop _ c hc
  split at hc
  · simp only [List.mem_cons, List.mem_append] at hc
    rcases hc with rfl | rfl | hc | hc
    · exact .inl rfl
    · exact .inr (by simp)
    · exact hzeros _ c hc
    · exact h.numberChar c hc
  · simp only [List.mem_append, List.mem_cons] at hc
    rcases hc with (hc | hc) | rfl | rfl | hc
    · exact htake _ c hc
    · split at hc
      · cases hc
      · rcases List.mem_cons.1 hc with rfl | hc
        · exact .inr (by simp)
        · exact hdrop _ c hc
    · exact .inr (by simp)
    · exact .inr (by split <;> simp)
    · exact hexponent _ c hc

theorem Decimal.text_chars (d : Decimal) : ∀ c ∈ d.text, NumberChar c := by
  intro c hc
  unfold Decimal.text at hc
  split at hc
  · obtain rfl := List.mem_singleton.1 hc
    exact .inl rfl
  · rcases List.mem_append.1 hc with hc | hc
    · split at hc
      · obtain rfl := List.mem_singleton.1 hc
        exact .inr (by simp)
      · cases hc
    · exact placePoint_chars (digits_toDigits _) _ c hc

theorem Decimal.text_head (d : Decimal) : ∃ c ∈ d.text.head?, NumberChar c := by
  have hne : d.text ≠ [] := by
    unfold Decimal.text
    split
    · simp
    · obtain ⟨c, hc, -⟩ := placePoint_head (digits_toDigits d.mantissa) Nat.toDigits_ne_nil
        ((Nat.toDigits 10 d.mantissa).length + d.exponent)
      intro h
      rw [(List.append_eq_nil_iff.1 h).2] at hc
      cases hc
  obtain ⟨c, cs, hcs⟩ := List.exists_cons_of_ne_nil hne
  exact ⟨c, by simp [hcs], d.text_chars c (by simp [hcs])⟩

end LainLang.Js
