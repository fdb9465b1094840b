import Mathlib
import Paro.Core.LittleEndian

/-!
# Byte codes that keep an order

`split u v` compares two byte strings up to the first byte in which they differ, and gives up if one of them
ends before that. A code under which any two codewords split the way their values compare is order-preserving
and no codeword begins another, and this carries over to sequences of codewords (`split_encodeAll`) and to the
complement of every byte (`split_complement`). Numbers in big-endian bytes are such a code (`split_beBytes`).

A `Reader` takes a value off the front of a byte string. `Reads` says that it inverts a code, whatever follows;
`Extends` says that a reader that succeeds does the same with more bytes behind. Both go through `bind`, and a
reader with both finds an end too early whenever bytes are missing (`Extends.rest_ne_nil`).
-/
namespace Paro.OrderedCode

open List UInt8 Nat

/-! ## Comparing -/

def split : List UInt8 → List UInt8 → Option Ordering
  | [], [] => some .eq
  | c :: u, d :: v => if c < d then some .lt else if d < c then some .gt else split u v
  | _, _ => none

theorem uInt8_eq_of_not_lt {c d : UInt8} (hcd : ¬ c < d) (hdc : ¬ d < c) : c = d :=
  UInt8.le_antisymm (UInt8.not_lt.1 hdc) (UInt8.not_lt.1 hcd)

@[simp] theorem split_self (u : List UInt8) : split u u = some .eq := by
  induction u with
  | nil => rfl
  | cons c u ih => simp [split, ih]

theorem split_cons_self (c : UInt8) (u v : List UInt8) : split (c :: u) (c :: v) = split u v := by
  simp [split]

variable {u v : List UInt8} {o : Ordering} {width n k : Nat}

/-- What stands behind decides only if the strings are equal. -/
theorem split_append (h : split u v = some o) (x y : List UInt8) :
    split (u ++ x) (v ++ y) = if o = .eq then split x y else some o := by
  fun_induction split u v with
  | case1 =>
    cases h
    rfl
  | case2 c u d v hlt =>
    cases h
    simp [split, hlt]
  | case3 c u d v hlt hgt =>
    cases h
    simp [split, hlt, hgt]
  | case4 c u d v hlt hgt ih =>
    rw [cons_append, cons_append, split, if_neg hlt, if_neg hgt]
    exact ih h
  | case5 => cases h

theorem split_append_left (p u v : List UInt8) : split (p ++ u) (p ++ v) = split u v := by
  rw [split_append (split_self p)]
  rfl

theorem split_swap (u v : List UInt8) : split v u = (split u v).map Ordering.swap := by
  fun_induction split u v with
  | case1 => rfl
  | case2 c u d v h => simp [split, h, UInt8.lt_asymm h]
  | case3 c u d v h h' => simp [split, h']
  | case4 c u d v h h' ih => rw [split, if_neg h', if_neg h, ih]
  | case5 u v hnil hcons =>
    cases u with
    | nil =>
      cases v with
      | nil => exact absurd rfl (hnil rfl)
      | cons d v => rfl
    | cons c u =>
      cases v with
      | nil => rfl
      | cons d v => exact absurd rfl (hcons c u d v rfl)

theorem complement_lt_complement (c d : UInt8) : ~~~ c < ~~~ d ↔ d < c := by
  rw [lt_iff_toNat_lt, lt_iff_toNat_lt, toNat_not, toNat_not]
  have hc : c.toNat < 256 := c.toNat_lt
  have hd : d.toNat < 256 := d.toNat_lt
  show 256 - 1 - c.toNat < 256 - 1 - d.toNat ↔ _
  omega

/-- Complementing every byte exchanges the two sides. -/
theorem split_map_complement (u v : List UInt8) : split (u.map (~~~ ·)) (v.map (~~~ ·)) = split v u := by
  induction u generalizing v with
  | nil => cases v <;> rfl
  | cons c u ih =>
    cases v with
    | nil => rfl
    | cons d v => simp only [map_cons, split, complement_lt_complement, ih]

theorem split_complement (u v : List UInt8) :
    split (u.map (~~~ ·)) (v.map (~~~ ·)) = (split u v).map Ordering.swap := by
  rw [split_map_complement, split_swap]

theorem cmp_cons (c d : UInt8) (u v : List UInt8) :
    cmp (c :: u) (d :: v) = if c < d then .lt else if d < c then .gt else cmp u v := by
  unfold cmp cmpUsing
  by_cases hcd : c < d
  · simp [cons_lt_cons_iff, hcd]
  by_cases hdc : d < c
  · have hne : ¬ c = d := fun h => UInt8.lt_irrefl d (h ▸ hdc)
    simp [cons_lt_cons_iff, hcd, hdc, hne]
  · obtain rfl := uInt8_eq_of_not_lt hcd hdc
    simp

theorem cmp_of_split (h : split u v = some o) : cmp u v = o := by
  fun_induction split u v with
  | case1 => cases h; rfl
  | case2 c u d v hlt => cases h; rw [cmp_cons, if_pos hlt]
  | case3 c u d v hlt hgt => cases h; rw [cmp_cons, if_neg hlt, if_pos hgt]
  | case4 c u d v hlt hgt ih => rw [cmp_cons, if_neg hlt, if_neg hgt]; exact ih h
  | case5 => cases h

/-- Codes of bytes, one after the other, with a delimiter behind that is below them. -/
theorem split_delimited {P : UInt8 → Prop} {f : UInt8 → List UInt8} {z : UInt8}
    (hfirst : ∀ c, P c → ∃ d rest, f c = d :: rest ∧ z < d)
    (hsplit : ∀ c d, P c → P d → split (f c) (f d) = some (cmp c d)) {a b : List UInt8} (ha : ∀ c ∈ a, P c)
    (hb : ∀ c ∈ b, P c) : split (a.flatMap f ++ [z]) (b.flatMap f ++ [z]) = some (cmp a b) := by
  have hlt {c : UInt8} (hc : P c) (u : List UInt8) : split [z] (f c ++ u) = some .lt := by
    obtain ⟨d, rest, heq, hd⟩ := hfirst c hc
    simp [heq, split, hd]
  induction a generalizing b with
  | nil =>
    cases b with
    | nil => exact split_self _
    | cons d b =>
      rw [flatMap_cons, append_assoc, flatMap_nil, nil_append, hlt (hb d mem_cons_self)]
      rfl
  | cons c a ih =>
    obtain ⟨hc, ha⟩ := forall_mem_cons.1 ha
    cases b with
    | nil =>
      rw [split_swap, flatMap_cons, append_assoc, flatMap_nil, nil_append, hlt hc]
      rfl
    | cons d b =>
      obtain ⟨hd, hb⟩ := forall_mem_cons.1 hb
      rw [flatMap_cons, flatMap_cons, append_assoc, append_assoc, split_append (hsplit c d hc hd), ih ha hb, cmp_cons,
        cmp, cmpUsing]
      split
      · rfl
      split <;> rfl

/-- Neither of two strings that split is a proper beginning of the other. -/
theorem eq_of_isPrefix (h : split u v = some o) (hp : u <+: v) : u = v := by
  obtain ⟨t, rfl⟩ := hp
  have happend := split_append h t []
  rw [append_nil, split_self] at happend
  cases t with
  | nil => exact (append_nil u).symm
  | cons d t =>
    split at happend
    · cases happend
    · rename_i hne
      exact absurd (Option.some.inj happend).symm hne

theorem eq_of_isPrefix_right (h : split u v = some o) (hp : v <+: u) : u = v :=
  (eq_of_isPrefix (by rw [split_swap, h]; rfl) hp).symm

/-! ## Sequences -/

section
variable {ι α : Type} (V : ι → α → Prop) (compare : ι → α → α → Ordering) (encode : ι → α → List UInt8)

/-- Field by field, the first that differs decides. -/
def lexCompare : List ι → List α → List α → Ordering
  | f :: fs, a :: as, b :: bs => (compare f a b).then (lexCompare fs as bs)
  | _, _, _ => .eq

def encodeAll : List ι → List α → List UInt8
  | f :: fs, a :: as => encode f a ++ encodeAll fs as
  | _, _ => []

variable {V compare encode}

theorem split_encodeAll (h : ∀ f a b, V f a → V f b → split (encode f a) (encode f b) = some (compare f a b))
    {fs : List ι} {as bs : List α} (ha : List.Forall₂ V fs as) (hb : List.Forall₂ V fs bs) :
    split (encodeAll encode fs as) (encodeAll encode fs bs) = some (lexCompare compare fs as bs) := by
  induction ha generalizing bs with
  | nil =>
    cases hb
    rfl
  | @cons f a fs as hfa _ ih =>
    cases hb with
    | @cons _ b _ bs hfb htail =>
      rw [encodeAll, encodeAll, lexCompare, split_append (h f a b hfa hfb), ih htail]
      cases compare f a b <;> rfl
end

/-! ## Numbers -/

def beBytes (width n : Nat) : List UInt8 := (leBytes width n).reverse

def ofBeBytes (bytes : List UInt8) : Nat := ofLeBytes bytes.reverse

@[simp] theorem length_beBytes (width n : Nat) : (beBytes width n).length = width := by
  simp [beBytes]

theorem ofBeBytes_beBytes (h : n < 256 ^ width) : ofBeBytes (beBytes width n) = n := by
  rw [ofBeBytes, beBytes, reverse_reverse, ofLeBytes_leBytes h]

theorem beBytes_succ (width n : Nat) : beBytes (width + 1) n = UInt8.ofNat (n / 256 ^ width) :: beBytes width n := by
  rw [beBytes, leBytes_succ_last, reverse_append]
  rfl

theorem leBytes_mod (width n : Nat) : leBytes width (n % 256 ^ width) = leBytes width n := by
  induction width generalizing n with
  | zero => rfl
  | succ width ih =>
    have hhead : UInt8.ofNat (n % 256 ^ (width + 1)) = UInt8.ofNat n := by
      apply UInt8.toNat.inj
      rw [toNat_ofNat', toNat_ofNat', Nat.pow_succ']
      exact mod_mul_right_mod n 256 _
    rw [leBytes, leBytes, hhead, Nat.pow_succ', mod_mul_right_div_self, ih]

theorem beBytes_mod (width n : Nat) : beBytes width (n % 256 ^ width) = beBytes width n := by
  rw [beBytes, beBytes, leBytes_mod]

/-- The high bytes, then the low ones. -/
theorem beBytes_add (high low n : Nat) : beBytes (high + low) n = beBytes high (n / 256 ^ low) ++ beBytes low n := by
  induction high with
  | zero => rw [zero_add]; rfl
  | succ high ih =>
    rw [add_right_comm, beBytes_succ, beBytes_succ, ih, Nat.div_div_eq_div_mul, ← Nat.pow_add, add_comm low]
    rfl

theorem split_beBytes {a b : Nat} (ha : a < 256 ^ width) (hb : b < 256 ^ width) :
    split (beBytes width a) (beBytes width b) = some (cmp a b) := by
  induction width generalizing a b with
  | zero =>
    obtain rfl : a = 0 := by simpa using ha
    obtain rfl : b = 0 := by simpa using hb
    rfl
  | succ width ih =>
    have hpos : 0 < 256 ^ width := Nat.pow_pos (by decide)
    have hdiv {n : Nat} (h : n < 256 ^ (width + 1)) : (UInt8.ofNat (n / 256 ^ width)).toNat = n / 256 ^ width := by
      rw [toNat_ofNat']
      apply mod_eq_of_lt
      rw [Nat.div_lt_iff_lt_mul hpos, mul_comm, ← Nat.pow_succ]
      exact h
    have hmod {n : Nat} : beBytes width n = beBytes width (n % 256 ^ width) := (beBytes_mod width n).symm
    have heqa := div_add_mod a (256 ^ width)
    have heqb := div_add_mod b (256 ^ width)
    have hra := mod_lt a hpos
    have hrb := mod_lt b hpos
    rw [beBytes_succ, beBytes_succ, split]
    simp only [lt_iff_toNat_lt, hdiv ha, hdiv hb]
    -- the high bytes decide, or else the remainders do
    by_cases hlt : a / 256 ^ width < b / 256 ^ width
    · have : a < b := Nat.lt_of_div_lt_div hlt
      rw [if_pos hlt, cmp, cmpUsing, if_pos this]
    by_cases hgt : b / 256 ^ width < a / 256 ^ width
    · have : b < a := Nat.lt_of_div_lt_div hgt
      rw [if_neg hlt, if_pos hgt, cmp, cmpUsing, if_neg (lt_asymm this), if_pos this]
    · have hq : a / 256 ^ width = b / 256 ^ width := le_antisymm (not_lt.1 hgt) (not_lt.1 hlt)
      rw [if_neg hlt, if_neg hgt, hmod, @hmod b, ih hra hrb]
      rw [hq] at heqa
      have hiff (x y : Nat) (hx : 256 ^ width * (b / 256 ^ width) + x % 256 ^ width = x)
          (hy : 256 ^ width * (b / 256 ^ width) + y % 256 ^ width = y) :
          (x % 256 ^ width < y % 256 ^ width) = (x < y) := by
        rw [eq_iff_iff]
        omega
      simp only [cmp, cmpUsing, hiff a b heqa heqb, hiff b a heqb heqa]

/-- Flipping the top bit of a number of `k + 1` bits. -/
theorem xor_two_pow_of_lt (h : n < 2 ^ k) : n ^^^ 2 ^ k = n + 2 ^ k := by
  apply eq_of_testBit_eq
  intro j
  rw [testBit_xor, add_comm]
  rcases Nat.lt_trichotomy j k with hj | rfl | hj
  · rw [testBit_two_pow_add_gt hj, testBit_two_pow_of_ne (by omega), Bool.xor_false]
  · rw [testBit_two_pow_add_eq, testBit_two_pow_self, Bool.xor_true]
  · have hpow : 2 ^ (k + 1) ≤ 2 ^ j := Nat.pow_le_pow_right (by decide) hj
    rw [testBit_two_pow_of_ne (by omega), testBit_lt_two_pow (lt_of_lt_of_le h (by omega)),
      testBit_lt_two_pow (by omega)]
    rfl

theorem xor_two_pow_of_le (hle : 2 ^ k ≤ n) (h : n < 2 ^ (k + 1)) : n ^^^ 2 ^ k = n - 2 ^ k := by
  have hlt : n - 2 ^ k < 2 ^ k := by omega
  have hn : (n - 2 ^ k) ^^^ 2 ^ k = n := by rw [xor_two_pow_of_lt hlt]; omega
  rw [← hn, xor_xor_cancel_right]
  omega

/-! ## Reading -/

abbrev Reader (ε α : Type) := StateT (List UInt8) (Except ε) α

section
variable {ε α β ι : Type}

def take (n : Nat) (error : ε) : Reader ε (List UInt8) := fun bytes =>
  if bytes.length < n then .error error else .ok (bytes.take n, bytes.drop n)

/-- The reader takes exactly this code off the front, and the value is `a`. -/
def Reads (r : Reader ε α) (code : List UInt8) (a : α) : Prop :=
  ∀ rest, r (code ++ rest) = .ok (a, rest)

/-- More bytes behind do not change what is read. -/
def Extends (r : Reader ε α) : Prop :=
  ∀ bytes a rest more, r bytes = .ok (a, rest) → r (bytes ++ more) = .ok (a, rest ++ more)

theorem Reads.pure (a : α) : Reads (Pure.pure a : Reader ε α) [] a := fun _ => rfl

theorem Reads.bind {r : Reader ε α} {f : α → Reader ε β} {code code' : List UInt8} {a : α} {b : β}
    (hr : Reads r code a) (hf : Reads (f a) code' b) : Reads (r >>= f) (code ++ code') b := by
  intro rest
  show (r (code ++ code' ++ rest)).bind (fun p => f p.1 p.2) = _
  rw [append_assoc, hr (code' ++ rest)]
  exact hf rest

variable {r : Reader ε α} {code : List UInt8} {a : α} (f : α → β)

/-- A reader that only computes with what it read. -/
theorem Reads.bindPure (hr : Reads r code a) : Reads (r >>= fun x => Pure.pure (f x)) code (f a) := by
  have hbind := hr.bind (f := fun x => Pure.pure (f x)) (.pure (f a))
  rw [append_nil] at hbind
  exact hbind

theorem Reads.map (hr : Reads r code a) : Reads (f <$> r) code (f a) := hr.bindPure f

theorem Reads.take {n : Nat} {error : ε} {code : List UInt8} (h : code.length = n) :
    Reads (take n error) code code := by
  intro rest
  have hlen : ¬ (code ++ rest).length < n := by
    rw [length_append]
    omega
  rw [OrderedCode.take, if_neg hlen, take_append_of_le_length (by omega), take_of_length_le (by omega), ← h, drop_left]

namespace Extends

theorem pure (a : α) : Extends (Pure.pure a : Reader ε α) := by
  intro bytes a' rest more h
  cases h
  rfl

theorem throw (e : ε) : Extends (fun _ => .error e : Reader ε α) := by
  intro bytes a rest more h
  cases h

theorem take (n : Nat) (error : ε) : Extends (take n error) := by
  intro bytes a rest more h
  unfold OrderedCode.take at h
  split at h
  · cases h
  · rename_i hlen
    cases h
    have hle : n ≤ bytes.length := by omega
    have hlen' : ¬ (bytes ++ more).length < n := by rw [length_append]; omega
    rw [OrderedCode.take, if_neg hlen', take_append_of_le_length hle, drop_append_of_le_length hle]

theorem bind {r : Reader ε α} {f : α → Reader ε β} (hr : Extends r) (hf : ∀ a, Extends (f a)) :
    Extends (r >>= f) := by
  intro bytes b rest more h
  change (r bytes).bind (fun p => f p.1 p.2) = _ at h
  show (r (bytes ++ more)).bind (fun p => f p.1 p.2) = _
  cases hrun : r bytes with
  | error e =>
    rw [hrun] at h
    cases h
  | ok p =>
    rw [hrun] at h
    rw [hr bytes p.1 p.2 more hrun]
    exact hf p.1 p.2 b rest more h

theorem map (hr : Extends r) : Extends (f <$> r) := hr.bind fun a => .pure (f a)

end Extends

def readAll (read : ι → Reader ε α) : List ι → Reader ε (List α)
  | [] => pure []
  | f :: fs => do
    let a ← read f
    let as ← readAll read fs
    pure (a :: as)

theorem Reads.readAll {V : ι → α → Prop} {read : ι → Reader ε β} {encode : ι → α → List UInt8} {g : α → β}
    (h : ∀ f a, V f a → Reads (read f) (encode f a) (g a)) {fs : List ι} {as : List α} (has : List.Forall₂ V fs as) :
    Reads (readAll read fs) (encodeAll encode fs as) (as.map g) := by
  induction has with
  | nil => exact .pure []
  | @cons f a fs as hfa _ ih =>
    have hcode : encodeAll encode (f :: fs) (a :: as) = encode f a ++ (encodeAll encode fs as ++ []) := by
      rw [append_nil]
      rfl
    rw [hcode]
    exact (h f a hfa).bind (ih.bind (.pure (g a :: as.map g)))

theorem Extends.readAll {read : ι → Reader ε α} (h : ∀ f, Extends (read f)) (fs : List ι) :
    Extends (readAll read fs) := by
  induction fs with
  | nil => exact .pure []
  | cons f fs ih => exact (h f).bind fun a => ih.bind fun as => .pure (a :: as)

/-- On a proper beginning of a codeword the reader fails, or it leaves bytes over. -/
theorem Extends.rest_ne_nil (hext : Extends r) {bytes more : List UInt8} {b : α}
    {rest : List UInt8} (hr : Reads r code a) (hcode : code = bytes ++ more) (hmore : more ≠ [])
    (hb : r bytes = .ok (b, rest)) : rest ≠ [] := by
  have hfull := hext bytes b rest more hb
  rw [← hcode, ← append_nil code, hr []] at hfull
  have hrest := (Prod.mk.inj (Except.ok.inj hfull)).2
  have hnil := append_eq_nil_iff.1 hrest.symm
  exact absurd hnil.2 hmore
end

end Paro.OrderedCode
