import Mathlib.Algebra.Order.Ring.Int
import Mathlib.Data.List.Nodup

/-!
# Keyed rows

A hash map whose iteration order does not matter is kept as a list of rows with a key.
The operations are the ones a map has (`lookup`, `adjust`, `drop`, appending a fresh
row); `Unique` says that no key occurs twice, and with it membership and `lookup` are
the same thing (`mem_iff_lookup`).
-/
namespace Paro.Keyed

open List

universe u v
variable {α : Type u} {κ : Type v} [DecidableEq κ] (key : α → κ)

def lookup (k : κ) (l : List α) : Option α := l.find? fun a => decide (key a = k)

def adjust (k : κ) (f : α → α) (l : List α) : List α := l.map fun a => if key a = k then f a else a

def put (a : α) (l : List α) : List α :=
  if (lookup key (key a) l).isSome then l.map fun b => if key b = key a then a else b
  else l ++ [a]

def drop (k : κ) (l : List α) : List α := l.filter fun a => decide (key a ≠ k)

def Unique (l : List α) : Prop := (l.map key).Nodup

variable {key} {k k' : κ} {l : List α} {a : α}

theorem key_of_lookup (h : lookup key k l = some a) : key a = k := by
  simpa using find?_some h

theorem mem_of_lookup (h : lookup key k l = some a) : a ∈ l := mem_of_find?_eq_some h

theorem lookup_eq_none : lookup key k l = none ↔ ∀ a ∈ l, key a ≠ k := by
  simp [lookup, find?_eq_none]

@[simp] theorem lookup_nil : lookup key k [] = none := rfl

theorem lookup_cons : lookup key k (a :: l) = if key a = k then some a else lookup key k l := by
  simp only [lookup, find?_cons]
  split <;> simp_all

theorem mem_iff_lookup (hu : Unique key l) : a ∈ l ↔ lookup key (key a) l = some a := by
  refine ⟨fun h => ?_, mem_of_lookup⟩
  cases hl : lookup key (key a) l with
  | none => exact absurd rfl (lookup_eq_none.1 hl a h)
  | some b => rw [inj_on_of_nodup_map hu (mem_of_lookup hl) h (key_of_lookup hl)]

variable {f : α → α}

theorem lookup_adjust_of (hf : ∀ a, key a = k' → key (f a) = k') : lookup key k (adjust key k' f l) =
      if k = k' then (lookup key k l).map f else lookup key k l := by
  induction l with
  | nil => simp [adjust]
  | cons b l ih =>
    simp only [adjust, map_cons] at ih ⊢
    rw [lookup_cons, lookup_cons, ih]
    by_cases hb : key b = k' <;> by_cases hk : k = k' <;> simp [hb, hk, hf]
    grind

@[simp] theorem lookup_adjust (hf : ∀ a, key (f a) = key a) : lookup key k (adjust key k' f l) =
      if k = k' then (lookup key k l).map f else lookup key k l :=
  lookup_adjust_of fun a ha => (hf a).trans ha

@[simp] theorem lookup_drop : lookup key k (drop key k' l) = if k = k' then none else lookup key k l := by
  induction l with
  | nil => simp [drop]
  | cons b l ih =>
    by_cases hb : key b = k'
    · rw [show drop key k' (b :: l) = drop key k' l by simp [drop, hb], ih, lookup_cons]
      by_cases hk : k = k' <;> simp [hk, hb]
      intro e; exact absurd e.symm hk
    · rw [show drop key k' (b :: l) = b :: drop key k' l by simp [drop, hb], lookup_cons, ih, lookup_cons]
      by_cases hk : k = k' <;> simp [hk, hb]

theorem lookup_concat_fresh (h : lookup key (key a) l = none) :
    lookup key k (l ++ [a]) = if k = key a then some a else lookup key k l := by
  simp only [lookup, find?_append] at h ⊢
  by_cases hk : k = key a
  · subst hk
    simp [h]
  · simp [hk, Ne.symm hk]

@[simp] theorem lookup_put : lookup key k (put key a l) = if k = key a then some a else lookup key k l := by
  unfold put
  split
  · rename_i hs
    obtain ⟨b, hb⟩ := Option.isSome_iff_exists.1 hs
    refine (lookup_adjust_of (f := fun _ => a) fun _ _ => rfl).trans ?_
    by_cases hk : k = key a
    · simp [hk, hb]
    · simp [hk]
  · rename_i hn
    exact lookup_concat_fresh (by simpa using hn)

theorem map_key_adjust (hf : ∀ a, key a = k → key (f a) = k) : (adjust key k f l).map key = l.map key := by
  simp only [adjust, map_map]
  apply map_congr_left
  intro a _
  simp only [Function.comp]
  split
  · rename_i ha
    exact (hf a ha).trans ha.symm
  · rfl

theorem Unique.concat (hu : Unique key l) (h : lookup key (key a) l = none) : Unique key (l ++ [a]) := by
  rw [Unique, map_append, nodup_append]
  refine ⟨hu, by simp, ?_⟩
  rintro _ hb _ hc rfl
  obtain ⟨b, hb, hk⟩ := mem_map.1 hb
  exact lookup_eq_none.1 h b hb (by simpa using hk.trans (by simpa using hc))

theorem Unique.put (hu : Unique key l) : Unique key (put key a l) := by
  unfold Keyed.put
  split
  · have hm : (adjust key (key a) (fun _ => a) l).map key = l.map key := map_key_adjust fun _ _ => rfl
    rw [Unique, ← hm] at hu
    exact hu
  · rename_i hn
    exact hu.concat (by simpa using hn)

omit [DecidableEq κ] in
@[simp] theorem unique_nil : Unique key [] := nodup_nil

theorem Unique.adjust {f : α → α} (hf : ∀ a, key (f a) = key a) (hu : Unique key l) :
    Unique key (adjust key k f l) := by
  rw [Unique, map_key_adjust fun a ha => (hf a).trans ha]; exact hu

theorem Unique.drop (hu : Unique key l) : Unique key (drop key k l) :=
  (List.Sublist.map key filter_sublist).nodup hu

@[simp] theorem length_adjust : (adjust key k f l).length = l.length := by
  simp [adjust]

section
variable (hu : Unique key l) (h : lookup key k l = some a)
include hu h

/-- A row found by its key splits the list, and dropping the key leaves the rest. -/
theorem split_of_lookup : ∃ l1 l2, l = l1 ++ a :: l2 ∧ drop key k l = l1 ++ l2 := by
  obtain ⟨l1, l2, rfl⟩ := append_of_mem (mem_of_lookup h)
  refine ⟨l1, l2, rfl, ?_⟩
  obtain rfl := key_of_lookup h
  simp only [Unique, map_append, map_cons, nodup_append, nodup_cons, mem_map, mem_cons, not_exists, not_and] at hu
  obtain ⟨-, ⟨hr, -⟩, hd⟩ := hu
  have h1 : ∀ b ∈ l1, key b ≠ key a := fun b hb e => hd _ ⟨b, hb, rfl⟩ _ (.inl rfl) e
  have h2 : ∀ b ∈ l2, key b ≠ key a := fun b hb => hr b hb
  simp only [drop, filter_append, filter_cons, ne_eq, not_true_eq_false, decide_false, Bool.false_eq_true, if_false]
  rw [filter_eq_self.2 (by simpa using h1), filter_eq_self.2 (by simpa using h2)]

/-- Dropping a key that is present removes exactly one row. -/
theorem length_drop_of_lookup : (drop key k l).length + 1 = l.length := by
  obtain ⟨l1, l2, rfl, hd⟩ := split_of_lookup hu h
  rw [hd, length_append, length_append, length_cons, Nat.add_assoc]

/-- Adjusting the key changes that row in its place. -/
theorem split_adjust_of_lookup (f : α → α) : ∃ l1 l2, l = l1 ++ a :: l2 ∧ adjust key k f l = l1 ++ f a :: l2 := by
  obtain ⟨l1, l2, rfl, hd⟩ := split_of_lookup hu h
  refine ⟨l1, l2, rfl, ?_⟩
  have hne : ∀ b ∈ l1 ++ l2, key b ≠ k := by
    intro b hb
    rw [← hd] at hb
    simpa [drop] using (mem_filter.1 hb).2
  have hid : ∀ l', (∀ b ∈ l', b ∈ l1 ++ l2) → adjust key k f l' = l' := by
    intro l' hl'
    refine (map_congr_left fun b hb => ?_).trans (map_id l')
    rw [if_neg (hne b (hl' b hb))]; rfl
  have h1 := hid l1 fun b hb => mem_append_left _ hb
  have h2 := hid l2 fun b hb => mem_append_right _ hb
  simp only [adjust] at h1 h2 ⊢
  rw [map_append, map_cons, h1, h2, if_pos (key_of_lookup h)]

end

/-- A list is given by its keys, in order, and by what it says about each of them. -/
theorem eq_of_keys {l' : List α} (hu : Unique key l) (hk : l.map key = l'.map key)
    (h : ∀ k, lookup key k l = lookup key k l') : l = l' := by
  have hu' : Unique key l' := by unfold Unique; rw [← hk]; exact hu
  apply ext_getElem (by simpa using congrArg length hk)
  intro i hi hi'
  have hkey : key l[i] = key l'[i] := by
    have := getElem_of_eq hk (i := i) (by simpa using hi)
    simpa using this
  have hl := (mem_iff_lookup hu).1 (getElem_mem hi)
  have hl' := (mem_iff_lookup hu').1 (getElem_mem hi')
  rw [h, hkey, hl'] at hl
  exact (Option.some.inj hl).symm

end Paro.Keyed
