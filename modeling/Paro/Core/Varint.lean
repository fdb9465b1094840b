import Mathlib.Algebra.Order.Ring.Int
import Mathlib.Data.Nat.Bitwise
import Mathlib.Tactic.Ring

/-!
# Base-128 varints

Seven payload bits a byte, lowest first, with the top bit set on every byte but the last. The reader collects the
payload in a number of `width` bits and may refuse a continuation that would need a shift it does not support.

* `readVarint_putVarint`: a number that fits is read back, with any bytes behind it.
-/
namespace Paro.Varint

open UInt8 Nat

def putVarint (n : Nat) : List UInt8 :=
  if n < 128 then [UInt8.ofNat n] else (UInt8.ofNat n ||| 0x80) :: putVarint (n / 128)
termination_by n
decreasing_by omega

inductive ReadError
  /-- A continuation needs a shift that the reader does not support. -/
  | tooLong
  /-- The bytes end inside a number. -/
  | incomplete
deriving DecidableEq, Repr

/-- The reader from a shift on, on the rest of the bytes: the number, and the bytes behind it. -/
def readVarint (width : Nat) (tooLong : Nat → Bool) (result shift : Nat) :
    List UInt8 → Except ReadError (Nat × List UInt8)
  | [] => .error .incomplete
  | byte :: rest =>
    let result := result ||| (((byte &&& 0x7F).toNat <<< shift) % 2 ^ width)
    if byte < 0x80 then .ok (result, rest)
    else if tooLong (shift + 7) then .error .tooLong
    else readVarint width tooLong result (shift + 7) rest

theorem putVarint_ne_nil (n : Nat) : putVarint n ≠ [] := by
  rw [putVarint]
  split <;> nofun

theorem toNat_and_7F (byte : UInt8) : (byte &&& 0x7F).toNat = byte.toNat % 128 := by
  rw [UInt8.toNat_and]
  exact and_two_pow_sub_one_eq_mod byte.toNat 7

theorem toNat_or_80 (n : Nat) : (UInt8.ofNat n ||| 0x80).toNat = n % 128 + 128 := by
  have hbits : ∀ k : Fin 256, k.val ||| 128 = k.val % 128 + 128 := by decide +kernel
  have hlt : n % 2 ^ 8 < 256 := mod_lt n (by decide)
  rw [UInt8.toNat_or, toNat_ofNat']
  refine (hbits ⟨n % 2 ^ 8, hlt⟩).trans ?_
  show n % 2 ^ 8 % 128 + 128 = n % 128 + 128
  omega

theorem or_shift {result shift payload : Nat} (h : result < 2 ^ shift) :
    result ||| payload <<< shift = result + payload * 2 ^ shift := by
  rw [shiftLeft_eq, Nat.or_comm, Nat.mul_comm payload, ← two_pow_add_eq_or_of_lt h]
  ring

section
variable {width result shift n : Nat} {tooLong : Nat → Bool}

theorem readVarint_putVarint (rest : List UInt8)
    (hlong : ∀ s < width, tooLong s = false) (hresult : result < 2 ^ shift) (hn : n * 2 ^ shift < 2 ^ width) :
    readVarint width tooLong result shift (putVarint n ++ rest) = .ok (result + n * 2 ^ shift, rest) := by
  induction n using Nat.strongRecOn generalizing result shift with
  | ind n ih =>
    rw [putVarint]
    split
    · rename_i hsmall
      have hbyte : (UInt8.ofNat n).toNat = n := by
        rw [toNat_ofNat']
        omega
      have hlast : UInt8.ofNat n < 0x80 := by
        rw [lt_iff_toNat_lt, hbyte]
        exact hsmall
      rw [List.singleton_append, readVarint, if_pos hlast, toNat_and_7F, hbyte, mod_eq_of_lt hsmall,
        mod_eq_of_lt (by rwa [shiftLeft_eq]), or_shift hresult]
    · rename_i hbig
      have hbyte := toNat_or_80 n
      have hmore : ¬ (UInt8.ofNat n ||| 0x80) < 0x80 := by
        rw [lt_iff_toNat_lt, hbyte]
        show ¬ n % 128 + 128 < 128
        omega
      have hpow : 2 ^ (shift + 7) = 2 ^ shift * 128 := by rw [Nat.pow_add]
      -- the rest of the number still fits above the seven bits read here
      have hrest : n / 128 * 2 ^ (shift + 7) < 2 ^ width := by
        refine lt_of_le_of_lt ?_ hn
        rw [hpow, Nat.mul_comm (2 ^ shift), ← Nat.mul_assoc]
        exact Nat.mul_le_mul_right _ (div_mul_le_self n 128)
      have hshift : shift + 7 < width := by
        have hone : 1 ≤ n / 128 := by omega
        have := lt_of_le_of_lt (Nat.le_mul_of_pos_left _ hone) hrest
        exact (Nat.pow_lt_pow_iff_right (by decide)).1 this
      have hlow : n % 128 * 2 ^ shift < 2 ^ width := by
        refine lt_of_le_of_lt ?_ hn
        exact Nat.mul_le_mul_right _ (mod_le n 128)
      have hpayload : (UInt8.ofNat n ||| 0x80).toNat % 128 = n % 128 := by omega
      rw [List.cons_append, readVarint, if_neg hmore, hlong _ hshift, toNat_and_7F, hpayload,
        mod_eq_of_lt (by rwa [shiftLeft_eq]), or_shift hresult]
      have hnext : result + n % 128 * 2 ^ shift < 2 ^ (shift + 7) := by
        have : n % 128 * 2 ^ shift ≤ 127 * 2 ^ shift := Nat.mul_le_mul_right _ (by omega)
        omega
      rw [if_neg (by decide), ih (n / 128) (by omega) hnext hrest]
      congr 2
      calc result + n % 128 * 2 ^ shift + n / 128 * 2 ^ (shift + 7)
          = result + (n % 128 + 128 * (n / 128)) * 2 ^ shift := by rw [hpow]; ring
        _ = result + n * 2 ^ shift := by rw [mod_add_div]

/-- What is read back has fewer bytes than what was read. -/
theorem length_readVarint {bytes rest : List UInt8}
    (h : readVarint width tooLong result shift bytes = .ok (n, rest)) : rest.length < bytes.length := by
  induction bytes generalizing result shift with
  | nil => cases h
  | cons byte bytes ih =>
    rw [readVarint] at h
    split at h
    · cases h
      exact lt_succ_self _
    · split at h
      · cases h
      · exact lt_succ_of_lt (ih h)

end

end Paro.Varint
