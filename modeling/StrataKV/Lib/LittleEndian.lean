import StrataKV.Lib.Decimal

/-!
# Little-endian numbers in byte strings

- `toBytes w n` — the `w` low bytes of a number, as a machine stores it;
- `readUint w data` — the number in the first `w` bytes of a string, and what follows them.

A number is read exactly where its bytes stand (`readUint_eq_some`).
-/

namespace StrataKV.LittleEndian

open List

def toBytes : ℕ → ℕ → Bytes
  | 0, _ => []
  | w + 1, n => UInt8.ofNat n :: toBytes w (n / 256)

def ofBytes (bs : Bytes) : ℕ := Nat.ofDigits 256 (bs.map UInt8.toNat)

def readUint (w : ℕ) (data : Bytes) : Option (ℕ × Bytes) :=
  if data.length < w then none else some (ofBytes (data.take w), data.drop w)

@[simp] lemma length_toBytes (w n : ℕ) : (toBytes w n).length = w := by
  induction w generalizing n with
  | zero => rfl
  | succ w ih => rw [toBytes, length_cons, ih]

lemma ofBytes_cons (b : UInt8) (bs : Bytes) : ofBytes (b :: bs) = b.toNat + 256 * ofBytes bs :=
  Nat.ofDigits_cons

/-- A number that fits is read back. -/
lemma ofBytes_toBytes {w n : ℕ} (h : n < 256 ^ w) : ofBytes (toBytes w n) = n := by
  induction w generalizing n with
  | zero =>
    rw [pow_zero, Nat.lt_one_iff] at h
    rw [h]
    rfl
  | succ w ih =>
    rw [toBytes, ofBytes_cons, ih (Nat.div_lt_of_lt_mul (by rwa [pow_succ'] at h)),
      UInt8.toNat_ofNat']
    exact Nat.mod_add_div n 256

/-- Bytes are those of their number. -/
lemma toBytes_ofBytes (bs : Bytes) : toBytes bs.length (ofBytes bs) = bs := by
  induction bs with
  | nil => rfl
  | cons b bs ih =>
    have hb := b.toNat_lt
    have hlow : UInt8.ofNat (b.toNat + 256 * ofBytes bs) = b := by
      rw [← UInt8.toNat_inj, UInt8.toNat_ofNat']
      omega
    have hhigh : (b.toNat + 256 * ofBytes bs) / 256 = ofBytes bs := by omega
    rw [length_cons, ofBytes_cons, toBytes, hlow, hhigh, ih]

lemma ofBytes_lt (bs : Bytes) : ofBytes bs < 256 ^ bs.length := by
  induction bs with
  | nil => exact Nat.one_pos
  | cons b bs ih =>
    have hb := b.toNat_lt
    rw [ofBytes_cons, length_cons, pow_succ]
    omega

/-- Reading takes exactly the bytes of the number. -/
lemma readUint_eq_some {w n : ℕ} {data rest : Bytes} :
    readUint w data = some (n, rest) ↔ n < 256 ^ w ∧ data = toBytes w n ++ rest := by
  unfold readUint
  constructor
  · intro h
    split_ifs at h with hshort
    cases h
    have hlength : (data.take w).length = w := length_take_of_le (Nat.not_lt.1 hshort)
    have hlt := ofBytes_lt (data.take w)
    have hbytes := toBytes_ofBytes (data.take w)
    rw [hlength] at hlt hbytes
    rw [hbytes, take_append_drop]
    exact ⟨hlt, rfl⟩
  · rintro ⟨hn, rfl⟩
    have hlength := length_toBytes w n
    rw [if_neg (by simp), take_left' hlength, drop_left' hlength, ofBytes_toBytes hn]

end StrataKV.LittleEndian
