import Paro.Core.SortedList

/-!
# Byte paths and byte-indexed families

A radix tree branches on one byte at a time. `bytesFrom n` lists the bytes from `n` up in ascending order, so
`(bytesFrom 0).flatMap part` puts the contents of the branches one after the other in key order. Two keys are
`Apart` when neither is a proper start of the other: such keys differ at some byte or are equal, and that byte
decides their order.
-/
namespace Paro.BytePath

open List

/-! ## Families indexed by a byte -/

section
variable {α : Type} {part part' : UInt8 → List α} {b : UInt8} {n : Nat}

def bytesFrom (n : Nat) : List UInt8 := (List.range' n (256 - n)).map UInt8.ofNat

theorem mem_bytesFrom : b ∈ bytesFrom n ↔ n ≤ b.toNat := by
  have hb := b.toNat_lt
  unfold bytesFrom
  rw [mem_map]
  constructor
  · intro h
    obtain ⟨i, hi, rfl⟩ := h
    rw [mem_range'_1] at hi
    rw [UInt8.toNat_ofNat_of_lt' (show i < 2 ^ 8 by omega)]
    exact hi.1
  · intro h
    exact ⟨b.toNat, mem_range'_1.2 ⟨h, by omega⟩, UInt8.ofNat_toNat⟩

theorem mem_flatMap_bytes {x : α} : x ∈ (bytesFrom 0).flatMap part ↔ ∃ b, x ∈ part b := by
  rw [mem_flatMap]
  exact ⟨fun ⟨b, _, h⟩ => ⟨b, h⟩, fun ⟨b, h⟩ => ⟨b, mem_bytesFrom.2 (Nat.zero_le _), h⟩⟩

theorem bytesFrom_split (h : n ≤ b.toNat) :
    ∃ l, bytesFrom n = l ++ b :: bytesFrom (b.toNat + 1) ∧ ∀ c ∈ l, n ≤ c.toNat ∧ c < b := by
  have hb := b.toNat_lt
  refine ⟨(range' n (b.toNat - n)).map UInt8.ofNat, ?_, fun c hc => ?_⟩
  · have hsplit : range' n (256 - n) =
        range' n (b.toNat - n) ++ b.toNat :: range' (b.toNat + 1) (256 - (b.toNat + 1)) := by
      rw [show 256 - n = (b.toNat - n) + (256 - b.toNat) by omega, ← range'_append_1,
        show n + (b.toNat - n) = b.toNat by omega,
        show 256 - b.toNat = (256 - (b.toNat + 1)) + 1 by omega, range'_succ]
    unfold bytesFrom
    rw [hsplit, map_append, map_cons, UInt8.ofNat_toNat]
  · obtain ⟨i, hi, rfl⟩ := mem_map.1 hc
    rw [mem_range'_1] at hi
    rw [UInt8.lt_iff_toNat_lt, UInt8.toNat_ofNat_of_lt' (show i < 2 ^ 8 by omega)]
    omega

variable {l : List UInt8}

/-- The contents from byte `n` on start with those of the first branch that is there. -/
theorem flatMap_bytesFrom_next (h : n ≤ b.toNat) (hempty : ∀ c : UInt8, n ≤ c.toNat → c < b → part c = []) :
    (bytesFrom n).flatMap part = part b ++ (bytesFrom (b.toNat + 1)).flatMap part := by
  obtain ⟨l, hl, hlow⟩ := bytesFrom_split h
  rw [hl, flatMap_append, flatMap_cons,
    flatMap_eq_nil_iff.2 fun c hc => hempty c (hlow c hc).1 (hlow c hc).2, nil_append]

theorem flatMap_bytesFrom_nil (hempty : ∀ c : UInt8, n ≤ c.toNat → part c = []) : (bytesFrom n).flatMap part = [] :=
  flatMap_eq_nil_iff.2 fun c hc => hempty c (mem_bytesFrom.1 hc)

/-- One more row in one branch is one more row of the family. -/
theorem perm_flatMap_bytes {x : α} (hb : (part' b).Perm (x :: part b)) (hother : ∀ c, c ≠ b → part' c = part c) :
    ((bytesFrom 0).flatMap part').Perm (x :: (bytesFrom 0).flatMap part) := by
  obtain ⟨l, hl, hlow⟩ := bytesFrom_split (Nat.zero_le b.toNat)
  have hleft : l.flatMap part' = l.flatMap part :=
    flatMap_congr fun c hc => hother c (ne_of_lt (hlow c hc).2)
  have hright : (bytesFrom (b.toNat + 1)).flatMap part' = (bytesFrom (b.toNat + 1)).flatMap part := by
    refine flatMap_congr fun c hc => hother c fun heq => ?_
    have := mem_bytesFrom.1 hc
    rw [heq] at this
    omega
  rw [hl, flatMap_append, flatMap_append, flatMap_cons, flatMap_cons, hleft, hright]
  have hgrow : (l.flatMap part ++ (part' b ++ (bytesFrom (b.toNat + 1)).flatMap part)).Perm
      (l.flatMap part ++ (x :: part b ++ (bytesFrom (b.toNat + 1)).flatMap part)) :=
    (hb.append_right _).append_left _
  exact hgrow.trans perm_middle

end

/-! ## Keys -/

abbrev Path := List UInt8

/-- Neither key is a proper start of the other. -/
def Apart (a b : Path) : Prop := (a <+: b → a = b) ∧ (b <+: a → a = b)

variable {a b c p q s t : Path} {x y : UInt8}

theorem apart_append_iff : Apart (p ++ a) (p ++ b) ↔ Apart a b := by
  unfold Apart
  rw [prefix_append_right_inj, prefix_append_right_inj, append_cancel_left_eq]

theorem apart_of_length (h : a.length = b.length) : Apart a b :=
  ⟨fun hp => hp.eq_of_length h, fun hp => (hp.eq_of_length h.symm).symm⟩

theorem apart_of_ne (h : x ≠ y) : Apart (x :: s) (y :: t) :=
  ⟨fun hp => absurd (cons_prefix_cons.1 hp).1 h, fun hp => absurd (cons_prefix_cons.1 hp).1.symm h⟩

theorem apart_cons (h : Apart s t) : Apart (x :: s) (x :: t) :=
  ⟨fun hp => by rw [h.1 (cons_prefix_cons.1 hp).2], fun hp => by rw [h.2 (cons_prefix_cons.1 hp).2]⟩

/-- Reading `b` against `a`: all of `a` agrees, or a byte differs, or `b` ends first. -/
theorem compare_paths (a b : Path) :
    (∃ t, b = a ++ t) ∨ (∃ p x s y t, a = p ++ x :: s ∧ b = p ++ y :: t ∧ x ≠ y) ∨ ∃ x s, a = b ++ x :: s := by
  induction a generalizing b with
  | nil => exact .inl ⟨b, rfl⟩
  | cons x a ih =>
    cases b with
    | nil => exact .inr (.inr ⟨x, a, rfl⟩)
    | cons y b =>
      by_cases hxy : x = y
      · subst hxy
        rcases ih b with ⟨t, ht⟩ | ⟨p, x', s, y', t, ha, hb, hd⟩ | ⟨x', s, ha⟩
        · exact .inl ⟨t, by rw [ht]; rfl⟩
        · exact .inr (.inl ⟨x :: p, x', s, y', t, by rw [ha]; rfl, by rw [hb]; rfl, hd⟩)
        · exact .inr (.inr ⟨x', s, by rw [ha]; rfl⟩)
      · exact .inr (.inl ⟨[], x, a, y, b, rfl, rfl, hxy⟩)

/-- Two different keys that are apart differ at some byte. -/
theorem Apart.exists_diff (h : Apart a b) (hne : a ≠ b) : ∃ p x s y t, a = p ++ x :: s ∧ b = p ++ y :: t ∧ x ≠ y := by
  rcases compare_paths a b with ⟨t, rfl⟩ | hdiff | ⟨x, s, rfl⟩
  · exact absurd (h.1 (prefix_append a t)) hne
  · exact hdiff
  · exact absurd (h.2 (prefix_append b _)) hne

/-- A common start ends before the byte that differs. -/
theorem prefix_of_diff (h : x ≠ y) (hx : a <+: p ++ x :: s) (hy : a <+: p ++ y :: t) : a <+: p := by
  rcases prefix_or_prefix_of_prefix hx (prefix_append p (x :: s)) with hp | hp
  · exact hp
  · obtain ⟨q, rfl⟩ := hp
    cases q with
    | nil => exact (append_nil p).symm ▸ prefix_rfl
    | cons z q =>
      rw [prefix_append_right_inj, cons_prefix_cons] at hx hy
      exact absurd (hx.1.symm.trans hy.1) h

theorem path_lt_of_byte (h : x < y) : p ++ x :: s < p ++ y :: t := by
  induction p with
  | nil => exact List.Lex.rel h
  | cons z p ih => exact List.Lex.cons ih

end Paro.BytePath
