/-!
# `Text/Numeral.lean` — decimal numerals with one spelling per number

A position is written in decimal, and each number has one spelling only: digits alone, no sign and
no leading zero. That is what makes a stored row the spelling of one path, so that two rows are
equal as texts exactly when they mean the same.

`numeral` writes a number, `isNumeral` recognises the spellings and `numeralValue` reads them.
`isNumeral_numeral`, `numeralValue_numeral` and `numeral_numeralValue` say that writing and reading
are inverse on exactly the recognised texts.

Characters that are written by their number use hexadecimal digits; `hexValue?` reads one of them.
-/

set_option autoImplicit false

namespace Playlists.Text

def numeral (n : Nat) : List Char :=
  Nat.toDigits 10 n

/-- Whether a text is the spelling of a number: a single digit, or digits that begin with one other
than zero. -/
def isNumeral : List Char → Bool
  | [] => false
  | [d] => d.isDigit
  | d :: rest => d.isDigit && d != '0' && rest.all Char.isDigit

def numeralValue (digits : List Char) : Nat :=
  Nat.ofDigitChars 10 digits 0

theorem isDigit_iff {c : Char} : c.isDigit = true ↔ '0' ≤ c ∧ c ≤ '9' := by
  simp [Char.isDigit, Char.le_def]

theorem isNumeral_iff {digits : List Char} : isNumeral digits = true ↔
    digits ≠ [] ∧ (∀ c ∈ digits, c.isDigit = true) ∧
      (digits.head? = some '0' → digits = ['0']) := by
  match digits with
  | [] => simp [isNumeral]
  | [d] => simp [isNumeral]
  | d :: e :: rest => simp [isNumeral, and_comm, and_assoc, and_left_comm]

/-- The value of a hexadecimal digit, in either case. -/
def hexValue? (c : Char) : Option Nat :=
  if c.isDigit then some (c.toNat - '0'.toNat)
  else if 'a' ≤ c ∧ c ≤ 'f' then some (c.toNat - 'a'.toNat + 10)
  else if 'A' ≤ c ∧ c ≤ 'F' then some (c.toNat - 'A'.toNat + 10)
  else none

/-! ## Writing, then reading -/

theorem numeralValue_numeral (n : Nat) : numeralValue (numeral n) = n :=
  Nat.ofDigitChars_ten_toDigits

theorem isDigit_of_mem_numeral {n : Nat} {c : Char} (h : c ∈ numeral n) : c.isDigit = true :=
  Nat.isDigit_of_mem_toDigits (by decide) (by decide) h

/-- A numeral begins with zero only if it spells zero. -/
theorem head?_numeral {n : Nat} (h : 0 < n) : (numeral n).head? ≠ some '0' := by
  induction n using Nat.strongRecOn with
  | _ n ih =>
    by_cases hlt : n < 10
    · rw [numeral, Nat.toDigits_of_lt_base hlt]
      intro hzero
      have hchar : n.digitChar = '0' := by simpa using hzero
      have hval := Nat.toNat_digitChar_of_lt_ten hlt
      rw [hchar] at hval
      change 48 = 48 + n at hval
      omega
    -- The first digit of a longer numeral is that of the numeral of a tenth.
    · have hdiv := ih (n / 10) (by omega) (by omega)
      rw [numeral, Nat.toDigits_of_base_le (by decide) (by omega)]
      cases h : Nat.toDigits 10 (n / 10) with
      | nil => exact absurd h Nat.toDigits_ne_nil
      | cons d rest =>
        rw [numeral, h] at hdiv
        simpa using hdiv

theorem isNumeral_numeral (n : Nat) : isNumeral (numeral n) = true := by
  have hdigit : ∀ c ∈ numeral n, c.isDigit = true := fun c => isDigit_of_mem_numeral
  have hne : numeral n ≠ [] := Nat.toDigits_ne_nil
  by_cases hzero : n = 0
  · subst hzero
    decide
  · have hhead := head?_numeral (Nat.pos_of_ne_zero hzero)
    cases h : numeral n with
    | nil => exact absurd h hne
    | cons d rest =>
      rw [h] at hdigit hhead
      cases rest with
      | nil => exact hdigit d (by simp)
      | cons e rest =>
        have hd : d ≠ '0' := by simpa using hhead
        simp only [isNumeral, Bool.and_eq_true, List.all_eq_true, bne_iff_ne]
        exact ⟨⟨hdigit d (by simp), hd⟩, fun c hc => hdigit c (by simp [hc])⟩

/-! ## Reading, then writing -/

theorem toNat_bounds_of_isDigit {c : Char} (h : c.isDigit = true) :
    '0'.toNat ≤ c.toNat ∧ c.toNat ≤ '9'.toNat := by
  simp only [Char.isDigit, ge_iff_le, Bool.and_eq_true, decide_eq_true_eq] at h
  exact ⟨h.1, h.2⟩

theorem digit_value_lt_ten {c : Char} (h : c.isDigit = true) : c.toNat - '0'.toNat < 10 := by
  obtain ⟨hzero, hnine⟩ := toNat_bounds_of_isDigit h
  have : '9'.toNat = '0'.toNat + 9 := rfl
  omega

/-- The digit that spells the value of a digit is that digit. -/
theorem digitChar_toNat_sub {c : Char} (h : c.isDigit = true) :
    (c.toNat - '0'.toNat).digitChar = c := by
  obtain ⟨hzero, -⟩ := toNat_bounds_of_isDigit h
  apply Char.toNat_inj.1
  rw [Nat.toNat_digitChar_of_lt_ten (digit_value_lt_ten h)]
  show '0'.toNat + (c.toNat - '0'.toNat) = c.toNat
  omega

theorem numeralValue_concat (digits : List Char) (d : Char) :
    numeralValue (digits ++ [d]) = 10 * numeralValue digits + (d.toNat - '0'.toNat) := by
  simp [numeralValue, Nat.ofDigitChars_append, Nat.ofDigitChars_cons, Nat.ofDigitChars_nil]

/-- Digits that begin with one other than zero spell a positive number. -/
theorem numeralValue_pos {d : Char} {rest : List Char} (hd : d.isDigit = true) (hz : d ≠ '0') :
    0 < numeralValue (d :: rest) := by
  have hpos : 0 < d.toNat - '0'.toNat := by
    have hne : d.toNat - '0'.toNat ≠ 0 := by
      intro h
      have := digitChar_toNat_sub hd
      rw [h] at this
      exact hz this.symm
    omega
  rw [numeralValue, Nat.ofDigitChars_cons, Nat.ofDigitChars_eq_ofDigitChars_zero]
  have hpow : 0 < 10 ^ rest.length := Nat.pow_pos (by decide)
  have := Nat.mul_pos hpow (by omega : 0 < 10 * 0 + (d.toNat - '0'.toNat))
  omega

/-- Digits with the leading one other than zero are the numeral of what they spell. -/
theorem numeral_numeralValue_of_head_ne {d : Char} {rest : List Char} (hd : d.isDigit = true)
    (hz : d ≠ '0') (hrest : ∀ c ∈ rest, c.isDigit = true) :
    numeral (numeralValue (d :: rest)) = d :: rest := by
  -- The induction takes digits off at the end, where dividing by ten does; the head stays.
  induction hn : rest.length generalizing rest with
  | zero =>
    have : rest = [] := List.eq_nil_of_length_eq_zero hn
    subst this
    have hlt := digit_value_lt_ten hd
    have hv : numeralValue [d] = d.toNat - '0'.toNat := by
      simp [numeralValue, Nat.ofDigitChars_cons, Nat.ofDigitChars_nil]
    rw [hv, numeral, Nat.toDigits_of_lt_base hlt, digitChar_toNat_sub hd]
  | succ k ih =>
    have hne : rest ≠ [] := by
      intro h
      rw [h] at hn
      cases hn
    obtain ⟨lead, e, rfl⟩ : ∃ lead e, rest = lead ++ [e] :=
      ⟨rest.dropLast, rest.getLast hne, (List.dropLast_concat_getLast hne).symm⟩
    have hlead : ∀ c ∈ lead, c.isDigit = true := fun c hc => hrest c (by simp [hc])
    have he : e.isDigit = true := hrest e (by simp)
    have hlen : lead.length = k := by simpa using hn
    have hprev := ih hlead hlen
    have hpos := @numeralValue_pos d lead hd hz
    have hlt := digit_value_lt_ten he
    rw [← List.cons_append, numeralValue_concat, numeral,
      Nat.toDigits_of_base_le (by decide) (by omega)]
    have hdiv : (10 * numeralValue (d :: lead) + (e.toNat - '0'.toNat)) / 10
        = numeralValue (d :: lead) := by omega
    have hmod : (10 * numeralValue (d :: lead) + (e.toNat - '0'.toNat)) % 10
        = e.toNat - '0'.toNat := by omega
    rw [hdiv, hmod, digitChar_toNat_sub he]
    show numeral (numeralValue (d :: lead)) ++ [e] = d :: lead ++ [e]
    rw [hprev]

theorem numeral_numeralValue {digits : List Char} (h : isNumeral digits = true) :
    numeral (numeralValue digits) = digits := by
  match digits, h with
  | [d], h =>
    have hlt := digit_value_lt_ten h
    have hv : numeralValue [d] = d.toNat - '0'.toNat := by
      simp [numeralValue, Nat.ofDigitChars_cons, Nat.ofDigitChars_nil]
    rw [hv, numeral, Nat.toDigits_of_lt_base hlt, digitChar_toNat_sub h]
  | d :: e :: rest, h =>
    simp only [isNumeral, Bool.and_eq_true, List.all_eq_true, bne_iff_ne] at h
    exact numeral_numeralValue_of_head_ne h.1.1 h.1.2 h.2

end Playlists.Text
