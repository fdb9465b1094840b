import Paro.Core.OrderedCode
import Paro.L1Encoding.PredicateValue

/-!
# Fixed-width values as ordered bytes

Both key encodings write a fixed-width value as a big-endian number, with the sign bit flipped if it is signed.
`Signed.bits_xor` says which number that is: the value counted from the least one. `Value.ordinal` is that number
for every fixed-width value with the bytes it takes, and it compares as the values do (`cmp_ordinal`).

Text is written as its UTF-8 bytes and read back by `fromUtf8`.
-/
namespace Paro.L1

open OrderedCode
open StringPattern (Text utf8)

/-! ## Integers -/

namespace Signed
variable {w : Nat}

def bits (v : Signed w) : Nat := (v.val % 2 ^ w).toNat

/-- The value counted from the least one of its width. -/
def ordinal (v : Signed w) : Nat := (v.val + 2 ^ (w - 1)).toNat

variable (v : Signed (w + 1))

theorem val_bounds : -2 ^ w ≤ v.val ∧ v.val < 2 ^ w := by
  have hlow := v.low
  have hhigh := v.high
  rw [pow_succ] at hlow hhigh
  omega

theorem ordinal_eq : (v.ordinal : Int) = v.val + 2 ^ w := by
  have hbounds := v.val_bounds
  show ((v.val + 2 ^ w).toNat : Int) = _
  omega

theorem ordinal_lt : v.ordinal < 2 ^ (w + 1) := by
  have heq := v.ordinal_eq
  have hbounds := v.val_bounds
  have hpow : ((2 ^ (w + 1) : Nat) : Int) = 2 ^ w * 2 := by push_cast; rw [pow_succ]
  omega

/-- Flipping the sign bit counts from the least value. -/
theorem bits_xor : v.bits ^^^ 2 ^ w = v.ordinal := by
  have hbounds := v.val_bounds
  have hordinal := v.ordinal_eq
  have hpow : (2 : Int) ^ (w + 1) = 2 ^ w * 2 := pow_succ 2 w
  have hcast : ((2 ^ w : Nat) : Int) = 2 ^ w := by push_cast; rfl
  by_cases hneg : v.val < 0
  · have hbits : (v.bits : Int) = v.val + 2 ^ w * 2 := by
      have hmod : v.val % 2 ^ (w + 1) = v.val + 2 ^ (w + 1) := by
        rw [← Int.add_emod_right, Int.emod_eq_of_lt (by omega) (by omega)]
      rw [bits, hmod]
      omega
    rw [xor_two_pow_of_le (by omega) (by rw [Nat.pow_succ]; omega)]
    omega
  · have hbits : (v.bits : Int) = v.val := by
      rw [bits, Int.emod_eq_of_lt (by omega) (by omega)]
      omega
    rw [xor_two_pow_of_lt (by omega)]
    omega

theorem wrap_bits (v : Signed w) : wrap w v.bits = v := by
  have hpos : (0 : Int) < 2 ^ w := Int.pow_pos (by decide)
  have hbits : (v.bits : Int) = v.val % ((2 ^ w : Nat) : Int) := by
    push_cast
    exact Int.toNat_of_nonneg (Int.emod_nonneg _ (Int.ne_of_gt hpos))
  apply Signed.ext
  show (v.bits : Int).bmod (2 ^ w) = v.val
  rw [hbits, Int.emod_bmod]
  exact congrArg val (wrap_val v)

/-- Flipping the sign bit again gives the value back. -/
theorem wrap_ordinal : wrap (w + 1) ((v.ordinal ^^^ 2 ^ w : Nat) : Int) = v := by
  rw [← bits_xor, Nat.xor_xor_cancel_right]
  exact wrap_bits v

theorem cmp_ordinal (a b : Signed (w + 1)) : cmp a.ordinal b.ordinal = cmp a b := by
  have ha := a.ordinal_eq
  have hb := b.ordinal_eq
  have hlt (x y : Signed (w + 1)) (hx : (x.ordinal : Int) = x.val + 2 ^ w) (hy : (y.ordinal : Int) = y.val + 2 ^ w) :
      (x.ordinal < y.ordinal) = (x < y) := by
    rw [eq_iff_iff, lt_iff]
    omega
  simp only [cmp, cmpUsing, hlt a b ha hb, hlt b a hb ha]

end Signed

/-! ## Values -/

namespace Value

/-- The bytes a fixed-width value takes in a key, and the number they hold. -/
def ordinal : Value → Option (Nat × Nat)
  | boolean v => some (1, v.toNat)
  | tinyInt v => some (1, v.ordinal)
  | smallInt v => some (2, v.ordinal)
  | integer v | date v => some (4, v.ordinal)
  | bigInt v | timestamp v | timestampTz v | time v => some (8, v.ordinal)
  | hugeInt v => some (16, v.ordinal)
  | uTinyInt v => some (1, v)
  | uSmallInt v => some (2, v)
  | uInteger v => some (4, v)
  | uBigInt v => some (8, v)
  | uHugeInt v | uuid v => some (16, v)
  | decimal v precision _ =>
    if precision ≤ 18 then some (8, (Signed.wrap 64 v.val).ordinal) else some (16, v.ordinal)
  | _ => none

variable {n : Nat} {type : LogicalType} {b a : Value}

theorem ordinal_lt {v : Value} {width : Nat} (h : v.ordinal = some (width, n)) : n < 256 ^ width := by
  unfold ordinal at h
  split at h
  case h_1 v => cases h; cases v <;> decide
  case h_2 v | h_3 v | h_4 v | h_5 v | h_6 v | h_7 v | h_8 v | h_9 v | h_10 v =>
    cases h
    exact v.ordinal_lt
  case h_11 v | h_12 v | h_13 v | h_14 v | h_15 v | h_16 v =>
    cases h
    exact v.isLt
  case h_17 v precision _ =>
    split at h
    · cases h
      exact (Signed.wrap 64 v.val).ordinal_lt
    · cases h
      exact v.ordinal_lt
  case h_18 => cases h

/-- The order of two values of a type: they are comparable in SQL. -/
def order (a b : Value) : Ordering := (sqlCompare a b).getD .eq

theorem cmp_fin (a b : Fin n) : cmp a.val b.val = cmp a b := rfl

/-- A decimal of up to 18 digits in a column fits 64 bits. -/
theorem wrap_of_storedAs {precision scale : Nat} {v : Signed 128} (hp : precision ≤ 18)
    (h : (decimal v precision scale).storedAs (.decimal precision scale) = true) :
    (Signed.wrap 64 v.val).val = v.val := by
  have hfits : (Signed.ofInt? 64 v.val).isSome = true := by
    have hand : (isOf (.decimal precision scale) (decimal v precision scale) &&
        (decide (18 < precision) || (Signed.ofInt? 64 v.val).isSome)) = true := h
    rw [Bool.and_eq_true] at hand
    simpa [Nat.not_lt.2 hp] using hand.2
  obtain ⟨v', hv'⟩ := Option.isSome_iff_exists.1 hfits
  rw [← Signed.ofInt?_eq_some.1 hv', Signed.wrap_val]

variable {v : Value}

theorem isText_of_ordinal {code : Nat × Nat} (h : v.ordinal = some code)
    (hv : v.isOf type = true) : type.isText = false := by
  cases htext : type.isText with
  | false => rfl
  | true =>
    obtain ⟨s, rfl⟩ := text_of_isOf htext hv
    cases h

theorem isOf_of_storedAs (h : v.storedAs type = true) (hv : v.isNull = false) : v.isOf type = true := by
  unfold storedAs at h
  rw [hv, Bool.false_or, Bool.and_eq_true] at h
  exact h.1

/-- Two fixed-width values of a type take the same bytes, and the numbers in them compare as the values do. -/
theorem cmp_ordinal {aw bw an bn : Nat} (ha : a.ordinal = some (aw, an))
    (hb : b.ordinal = some (bw, bn)) (hsa : a.storedAs type = true) (hsb : b.storedAs type = true) :
    aw = bw ∧ cmp an bn = a.order b := by
  have hna : a.isNull = false := by cases a <;> first | rfl | cases ha
  have hnb : b.isNull = false := by cases b <;> first | rfl | cases hb
  have hta := logicalType_of_isOf (isText_of_ordinal ha (isOf_of_storedAs hsa hna)) (isOf_of_storedAs hsa hna)
  have htb := logicalType_of_isOf (isText_of_ordinal hb (isOf_of_storedAs hsb hnb)) (isOf_of_storedAs hsb hnb)
  have htype : b.logicalType = a.logicalType := htb.trans hta.symm
  cases a with
  | decimal va precision scale =>
    cases b with
    | decimal vb precision' scale' =>
      obtain ⟨rfl, rfl⟩ := LogicalType.decimal.inj htype
      cases hta
      have horder : order (decimal va precision' scale') (decimal vb precision' scale') = cmp va vb := by
        simp [order, sqlCompare, compareBy, sqlCompareScalar, partialCmpScalar]
      rw [horder]
      rw [ordinal] at ha hb
      by_cases hp : precision' ≤ 18
      · rw [if_pos hp] at ha hb
        cases ha
        cases hb
        refine ⟨rfl, ?_⟩
        rw [Signed.cmp_ordinal]
        simp only [cmp, cmpUsing, Signed.lt_iff, wrap_of_storedAs hp hsa, wrap_of_storedAs hp hsb]
      · rw [if_neg hp] at ha hb
        cases ha
        cases hb
        exact ⟨rfl, Signed.cmp_ordinal va vb⟩
    | null => cases hnb
    | _ => cases htype
  | boolean va =>
    cases b with
    | boolean vb =>
      cases ha
      cases hb
      cases va <;> cases vb <;> exact ⟨rfl, rfl⟩
    | null => cases hnb
    | _ => cases htype
  | _ =>
    first
    | cases ha; done
    | cases b <;> first
        | cases htype; done
        | cases hnb; done
        | cases ha
          cases hb
          simp [order, sqlCompare, compareBy, sqlCompareScalar, partialCmpScalar, Signed.cmp_ordinal, cmp_fin]

/-- The values of texts and blobs, and of no other type, have bytes. -/
theorem bytes_isSome_iff (h : v.isOf type = true) : v.bytes.isSome = true ↔ type.isText = true ∨ type = .blob := by
  cases htext : type.isText with
  | true =>
    obtain ⟨s, rfl⟩ := text_of_isOf htext h
    simp [bytes]
  | false =>
    have hnull := isNull_of_isOf h
    have htype := logicalType_of_isOf htext h
    subst htype
    cases v with
    | null => cases hnull
    | varchar => cases htext
    | _ => simp [bytes, logicalType]

theorem order_of_bytes {abytes bbytes : List UInt8} (ha : a.bytes = some abytes)
    (hb : b.bytes = some bbytes) (hta : a.isOf type = true) (htb : b.isOf type = true) :
    a.order b = cmp abytes bbytes := by
  cases htext : type.isText with
  | true =>
    obtain ⟨s, rfl⟩ := text_of_isOf htext hta
    obtain ⟨t, rfl⟩ := text_of_isOf htext htb
    cases ha
    cases hb
    simp [order, sqlCompare, compareBy, sqlCompareScalar, partialCmpScalar]
  | false =>
    have hblob := ((bytes_isSome_iff hta).1 (by rw [ha]; rfl)).resolve_left (by simp [htext])
    subst hblob
    obtain ⟨s, rfl⟩ := blob_of_isOf hta
    obtain ⟨t, rfl⟩ := blob_of_isOf htb
    cases ha
    cases hb
    simp [order, sqlCompare, compareBy, sqlCompareScalar]

end Value

/-! ## Text -/

def fromUtf8 (bytes : List UInt8) : Option Text :=
  bytes.toByteArray.utf8Decode?.map Array.toList

theorem fromUtf8_utf8 (s : Text) : fromUtf8 (utf8 s) = some s := by
  have h : (utf8 s).toByteArray = s.utf8Encode := rfl
  rw [fromUtf8, h, List.utf8Decode?_utf8Encode]
  rfl

end Paro.L1
