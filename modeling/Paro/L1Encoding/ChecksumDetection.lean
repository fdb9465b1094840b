import Paro.Core.WordMix
import Paro.L1Encoding.WalChecksum

/-!
# What the WAL checksum detects

Every step of `compute_wal_checksum` is reversible, so a buffer that differs from another one in a single
aligned word, or within the partial word at its end, has another checksum (`checksum_detects_word`).

* a whole word enters by a multiplication, and the words are xored together (`checksumU64_inj`);
* the partial word goes through the mix, which loses none of its bytes (`checksumRemainder_inj`).
-/
namespace Paro.L1

open WordMix List

def wordBytes (data : Bytes) (i : Nat) : Bytes := (data.drop (8 * i)).take 8

variable {a b : Bytes} {i : Nat} {x y : UInt64}

theorem checksumU64_inj (h : checksumU64 x = checksumU64 y) : x = y :=
  mul_inj 0x96de1b173f119089 (by decide) h

theorem mul_murmurM_inj (h : x * murmurM = y * murmurM) : x = y :=
  mul_inj 0x5f7a0ea7e59b19bd (by decide) h

theorem mixFinish_inj (h : mixFinish x = mixFinish y) : x = y := by
  have hshift : 32 ≤ murmurR.toNat % 64 := by decide
  have hmul := mul_murmurM_inj (xorShift_inj hshift h)
  exact xorShift_inj hshift hmul

theorem mixTail_inj (hlen : a.length = b.length) (hshort : a.length ≤ 8) {h : UInt64}
    (heq : mixTail h a = mixTail h b) :
    a = b := by
  unfold mixTail at heq
  by_cases ha : a = []
  · rw [ha, length_nil] at hlen
    rw [ha, length_eq_zero_iff.1 hlen.symm]
  · have hb : b ≠ [] := fun hb => ha (length_eq_zero_iff.1 (by rw [hlen, hb]; rfl))
    rw [if_neg ha, if_neg hb] at heq
    have hword := congrArg UInt64.toNat (mul_murmurM_inj heq)
    rw [toNat_foldr_placed (by omega), toNat_foldr_placed (by omega)] at hword
    have hcancel := congrArg (h.toNat ^^^ ·) hword
    simp only [← Nat.xor_assoc, Nat.xor_self, Nat.zero_xor] at hcancel
    exact placed_inj hlen hcancel

/-- Fewer than eight bytes are a tail without a whole word before it. -/
theorem checksumRemainder_inj (hlen : a.length = b.length) (hshort : a.length < 8)
    (h : checksumRemainder a = checksumRemainder b) : a = b := by
  have hblocks : b.length / 8 = 0 := by omega
  simp only [checksumRemainder, hlen, hblocks, range_zero, foldl_nil, Nat.mul_zero, drop_zero] at h
  exact mixTail_inj hlen (by omega) (mixFinish_inj h)

theorem wordAt_inj (ha : (wordBytes a i).length = 8) (hb : (wordBytes b i).length = 8) (h : wordAt a i = wordAt b i) :
    wordBytes a i = wordBytes b i := by
  have hlt {w : Bytes} (hw : w.length = 8) : ofLeBytes w < 2 ^ 64 := by
    have := ofLeBytes_lt (a := w)
    rw [hw] at this
    exact this
  have hnat := congrArg UInt64.toNat h
  rw [wordAt, wordAt, UInt64.toNat_ofNat', UInt64.toNat_ofNat', ← wordBytes, ← wordBytes, Nat.mod_eq_of_lt (hlt ha),
    Nat.mod_eq_of_lt (hlt hb)] at hnat
  exact ofLeBytes_inj (ha.trans hb.symm) hnat

theorem length_wordBytes (hi : i < a.length / 8) : (wordBytes a i).length = 8 := by
  rw [wordBytes, length_take, length_drop]
  omega

theorem wordBytes_last : wordBytes a (a.length / 8) = a.drop (8 * (a.length / 8)) := by
  rw [wordBytes, take_of_length_le]
  rw [length_drop]
  omega

theorem wordBytes_behind (hi : a.length / 8 < i) : wordBytes a i = [] := by
  rw [wordBytes, drop_eq_nil_of_le (by omega), take_nil]

/-- The checksum as the xor of its whole words, and of its partial word if there is one. -/
theorem computeWalChecksum_eq : computeWalChecksum a = (if 8 * (a.length / 8) < a.length then
      xorRange 5381 (fun i => checksumU64 (wordAt a i)) (a.length / 8) ^^^
        checksumRemainder (wordBytes a (a.length / 8))
    else xorRange 5381 (fun i => checksumU64 (wordAt a i)) (a.length / 8)) := by
  rw [wordBytes_last]
  rfl

theorem wordAt_congr (h : wordBytes a i = wordBytes b i) : wordAt a i = wordAt b i :=
  congrArg (fun w => UInt64.ofNat (ofLeBytes w)) h

/-- Two buffers of one length that differ in exactly one word, whole or partial, have different checksums. -/
theorem checksum_detects_word (a b : Bytes) (hlen : a.length = b.length) (i : Nat)
    (hdiff : wordBytes a i ≠ wordBytes b i)
    (hsame : ∀ j, j ≠ i → wordBytes a j = wordBytes b j) : computeWalChecksum a ≠ computeWalChecksum b := by
  intro heq
  rw [computeWalChecksum_eq, computeWalChecksum_eq, hlen] at heq
  rcases Nat.lt_trichotomy i (b.length / 8) with hlt | rfl | hgt
  · -- a whole word: the partial words are equal and cancel
    have hwhole : xorRange 5381 (fun i => checksumU64 (wordAt a i)) (b.length / 8) =
        xorRange 5381 (fun i => checksumU64 (wordAt b i)) (b.length / 8) := by
      split at heq
      · rw [hsame _ (Nat.ne_of_gt hlt)] at heq
        exact (UInt64.xor_left_inj _).1 heq
      · exact heq
    have hterm := term_of_xorRange hlt (fun j _ hj => by rw [wordAt_congr (hsame j hj)]) hwhole
    exact hdiff (wordAt_inj (length_wordBytes (hlen ▸ hlt)) (length_wordBytes hlt) (checksumU64_inj hterm))
  · -- the partial word: the whole words are equal and cancel
    have hpartial : 8 * (b.length / 8) < b.length := by
      by_contra hfull
      refine hdiff ?_
      rw [wordBytes, wordBytes, drop_eq_nil_of_le (by omega), drop_eq_nil_of_le (by omega)]
    have hwords : ∀ j < b.length / 8, checksumU64 (wordAt a j) = checksumU64 (wordAt b j) :=
      fun j hj => by rw [wordAt_congr (hsame j (Nat.ne_of_lt hj))]
    rw [if_pos hpartial, if_pos hpartial, xorRange_congr hwords] at heq
    have hremainder := (UInt64.xor_right_inj _).1 heq
    refine hdiff (checksumRemainder_inj ?_ ?_ hremainder)
    · simp only [wordBytes, length_take, length_drop, hlen]
    · rw [wordBytes, length_take, length_drop]
      omega
  · exact hdiff (by rw [wordBytes_behind (hlen ▸ hgt), wordBytes_behind hgt])

/-- A flipped bit in the first of two words, and one in the partial word behind it. -/
theorem checksum_detects_flip :
    computeWalChecksum [1, 0, 0, 0, 0, 0, 0, 0, 7] ≠ computeWalChecksum [0, 0, 0, 0, 0, 0, 0, 0, 7] ∧
      computeWalChecksum [1, 0, 0, 0, 0, 0, 0, 0, 7] ≠ computeWalChecksum [1, 0, 0, 0, 0, 0, 0, 0, 6] := by
  have hrest (a b : Bytes) (j : Nat) (ha : a.length = 9) (hb : b.length = 9) (hj : 1 < j) :
      wordBytes a j = wordBytes b j := by
    rw [wordBytes_behind (by omega), wordBytes_behind (by omega)]
  constructor
  · refine checksum_detects_word _ _ rfl 0 (by decide) fun j hj => ?_
    obtain rfl | hj : j = 1 ∨ 1 < j := by omega
    · rfl
    · exact hrest _ _ j rfl rfl hj
  · refine checksum_detects_word _ _ rfl 1 (by decide) fun j hj => ?_
    obtain rfl | hj : j = 0 ∨ 1 < j := by omega
    · rfl
    · exact hrest _ _ j rfl rfl hj

end Paro.L1
