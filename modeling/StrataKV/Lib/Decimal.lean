import Mathlib.Data.Nat.Digits.Lemmas

/-!
# Decimal numerals over bytes

- `toDecimal` — the numeral without leading zeros, as `std::to_string` prints it;
- `padDecimal w` — the numeral filled with zeros on the left to `w` digits;
- `strtoull` — the parser of the C library in base ten: leading blanks, an optional
  sign, then as many digits as there are, saturating at `2 ^ 64 - 1`.

Parsing a printed numeral gives the number back, also before a byte that is no digit.
-/

namespace StrataKV

open List Nat

/-- A byte string, as `std::string` holds it. -/
abbrev Bytes := List UInt8

namespace Decimal

/-- The byte of the decimal digit `d`. -/
def digitByte (d : ℕ) : UInt8 := UInt8.ofNat (48 + d)

def isDigit (b : UInt8) : Bool := 48 ≤ b && b ≤ 57

/-- `isspace` in the C locale. -/
def isSpace (b : UInt8) : Bool := (9 ≤ b && b ≤ 13) || b == 32

/-- The decimal numeral of `n`, without leading zeros. -/
def toDecimal (n : ℕ) : Bytes :=
  if n = 0 then [digitByte 0] else (Nat.digits 10 n).reverse.map digitByte

/-- The numeral of `n` with zeros on the left up to width `w`. -/
def padDecimal (w n : ℕ) : Bytes :=
  List.replicate (w - (toDecimal n).length) (digitByte 0) ++ toDecimal n

/-- The value of a string of digits. -/
def decimalValue (bs : Bytes) : ℕ := Nat.ofDigits 10 (bs.reverse.map fun b => b.toNat - 48)

/-- An optional sign: whether it is `-`, and what follows it. -/
def splitSign : Bytes → Bool × Bytes
  | [] => (false, [])
  | b :: rest => if b = 45 then (true, rest) else if b = 43 then (false, rest) else (false, b :: rest)

/-- `strtoull(s, nullptr, 10)`. -/
def strtoull (s : Bytes) : UInt64 :=
  let signed := splitSign (s.dropWhile isSpace)
  let n := decimalValue (signed.2.takeWhile isDigit)
  if 2 ^ 64 ≤ n then UInt64.ofNat (2 ^ 64 - 1)
  else if signed.1 then -UInt64.ofNat n else UInt64.ofNat n

/-! ## Digits -/

lemma digitByte_toNat {d : ℕ} (h : d < 10) : (digitByte d).toNat = 48 + d := by
  simp only [digitByte, UInt8.toNat_ofNat']
  omega

lemma isDigit_digitByte {d : ℕ} (h : d < 10) : isDigit (digitByte d) = true := by
  have hd := digitByte_toNat h
  simp only [isDigit, UInt8.le_iff_toNat_le, hd, Bool.and_eq_true, decide_eq_true_eq]
  constructor
  · exact le_add_right _ _
  · simp
    omega

/-- A number is written with digits only. -/
lemma mem_toDecimal {n : ℕ} {b : UInt8} (h : b ∈ toDecimal n) : isDigit b = true := by
  unfold toDecimal at h
  split at h
  · rw [mem_singleton] at h
    rw [h]
    exact isDigit_digitByte (by decide)
  · obtain ⟨d, hd, rfl⟩ := mem_map.1 h
    exact isDigit_digitByte (digits_lt_base (by decide) (mem_reverse.1 hd))

lemma mem_padDecimal {w n : ℕ} {b : UInt8} (h : b ∈ padDecimal w n) : isDigit b = true := by
  rcases mem_append.1 h with h | h
  · rw [eq_of_mem_replicate h]
    exact isDigit_digitByte (by decide)
  · exact mem_toDecimal h

lemma toDecimal_ne_nil (n : ℕ) : toDecimal n ≠ [] := by
  unfold toDecimal
  split
  · simp
  · simpa using digits_ne_nil_iff_ne_zero.2 ‹_›

/-- A number below `10 ^ k` has up to `k` digits. -/
lemma length_toDecimal_le {k n : ℕ} (hk : 0 < k) (h : n < 10 ^ k) : (toDecimal n).length ≤ k := by
  unfold toDecimal
  split
  · simpa using succ_le_of_lt hk
  · simpa using (digits_length_le_iff (by decide) n).2 h

/-! ## Parsing what was printed -/

/-- The digits have the value of the number. -/
lemma decimalValue_toDecimal (n : ℕ) : decimalValue (toDecimal n) = n := by
  unfold toDecimal
  split
  · subst n
    decide
  · have hmap : (digits 10 n).map (fun d => (digitByte d).toNat - 48) = digits 10 n := by
      conv_rhs => rw [← map_id (digits 10 n)]
      refine map_congr_left fun d hd => ?_
      rw [digitByte_toNat (digits_lt_base (by decide) hd)]
      simp
    simp only [decimalValue, map_reverse, reverse_reverse, map_map]
    exact (congrArg (ofDigits 10) hmap).trans (ofDigits_digits 10 n)

lemma decimalValue_padDecimal (w n : ℕ) : decimalValue (padDecimal w n) = n := by
  have h := decimalValue_toDecimal n
  unfold decimalValue at h ⊢
  simp only [padDecimal, reverse_append, map_append, reverse_replicate, map_replicate]
  rw [show (digitByte 0).toNat - 48 = 0 from by decide, ofDigits_append, ofDigits_replicate_zero, h]
  simp

/-- A run of digits up to a byte that is no digit parses to its value. -/
lemma strtoull_digits {ds : Bytes} (rest : Bytes) (hne : ds ≠ []) (hds : ∀ b ∈ ds, isDigit b = true)
    (hrest : ∀ b ∈ rest.head?, isDigit b = false) (hlt : decimalValue ds < 2 ^ 64) :
    strtoull (ds ++ rest) = UInt64.ofNat (decimalValue ds) := by
  obtain ⟨d, ds', rfl⟩ := exists_cons_of_ne_nil hne
  have hd : isDigit d = true := hds d (by simp)
  have hrange : 48 ≤ d.toNat ∧ d.toNat ≤ 57 := by simpa [isDigit, UInt8.le_iff_toNat_le] using hd
  have hspace : isSpace d = false := by
    simp only [isSpace, UInt8.le_iff_toNat_le, Bool.or_eq_false_iff, Bool.and_eq_false_iff,
      decide_eq_false_iff_not, beq_eq_false_iff_ne, ne_eq, ← UInt8.toNat_inj]
    simp
    omega
  have hsign : d ≠ 45 ∧ d ≠ 43 := by
    simp only [ne_eq, ← UInt8.toNat_inj]
    simp
    omega
  have htake : (d :: (ds' ++ rest)).takeWhile isDigit = d :: ds' := by
    rw [← cons_append, takeWhile_append_of_pos hds]
    cases rest with
    | nil => simp
    | cons r rest => simp [hrest r (by simp)]
  have hsplit : splitSign ((d :: ds' ++ rest).dropWhile isSpace) = (false, d :: (ds' ++ rest)) := by
    simp [splitSign, hspace, hsign.1, hsign.2]
  simp only [strtoull, hsplit, htake, if_neg (not_le.2 hlt), Bool.false_eq_true, if_false]

/-- `strtoull` reads a number up to the first other byte. -/
lemma strtoull_toDecimal_append {n : ℕ} (rest : Bytes) (hn : n < 2 ^ 64)
    (hrest : ∀ b ∈ rest.head?, isDigit b = false) :
    strtoull (toDecimal n ++ rest) = UInt64.ofNat n := by
  have hval := decimalValue_toDecimal n
  rw [strtoull_digits rest (toDecimal_ne_nil n) (fun b => mem_toDecimal) hrest (by rwa [hval]),
    hval]

@[simp] lemma strtoull_toDecimal (n : UInt64) : strtoull (toDecimal n.toNat) = n := by
  have := strtoull_toDecimal_append [] n.toNat_lt (by simp)
  simpa using this

lemma strtoull_padDecimal (w : ℕ) (n : UInt64) : strtoull (padDecimal w n.toNat) = n := by
  have hval := decimalValue_padDecimal w n.toNat
  have hne : padDecimal w n.toNat ≠ [] := by simp [padDecimal, toDecimal_ne_nil]
  have := strtoull_digits [] hne (fun b => mem_padDecimal) (by simp)
    (by rw [hval]; exact n.toNat_lt)
  simpa [hval] using this

end Decimal

end StrataKV
