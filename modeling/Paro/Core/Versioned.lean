import Mathlib.Algebra.Order.Ring.Int
import Mathlib.Data.List.Induction
import Mathlib.Data.List.Nodup
import Mathlib.Data.Prod.Lex

/-!
# Versioned maps

A versioned map keeps, for a key and a time, what was last written there (`Table`). It is often spread over
layers, the newest of which wins (`override`), and read in two ways: the latest version of a key up to a
time (`IsLatest`), and the first write in a window over some keys (`IsFirst`). Both are determined by the
table, and both can be found layer by layer: the newest layer first, and a later one only when it is strictly
better (`IsLatest.select`, `IsFirst.select`).

The reference is the list of all writes in the order they were made: `versionAt` and `firstWrite` go through
it, and of two writes at one key and time the later counts.

Versions are of any type with a time.
-/
namespace Paro.Versioned

open List

universe u v w
variable {K : Type u} {W : Type v}

abbrev Table (K : Type u) (W : Type v) := K → Nat → Option W

def empty : Table K W := fun _ _ => none

def override (new old : Table K W) : Table K W := fun k t => (new k t).or (old k t)

def stack : List (Table K W) → Table K W
  | [] => empty
  | t :: ts => override t (stack ts)

@[simp] theorem override_empty (t : Table K W) : override t empty = t := by
  funext k n
  simp [override, empty]

@[simp] theorem empty_override (t : Table K W) : override empty t = t := by
  funext k n
  simp [override, empty]

theorem override_assoc (a b c : Table K W) : override (override a b) c = override a (override b c) := by
  funext k n
  simp only [override, Option.or_assoc]

theorem stack_append (a b : List (Table K W)) : stack (a ++ b) = override (stack a) (stack b) := by
  induction a with
  | nil => simp [stack]
  | cons t a ih => rw [cons_append, stack, stack, ih, override_assoc]

section
variable {α ρ : Type*} (Q : Table K W → ρ → Prop) {select : ρ → ρ → ρ} {table : α → Table K W}
  {layers : List α} {T : Table K W} {r : ρ}
  (hselect : ∀ {T old r r'}, Q T r → Q old r' → Q (override T old) (select r r')) (h : Q T r)
include hselect h

/-- Asking one layer after another, the newest first: what the layers' answers satisfy, the answer of all does. -/
theorem foldl_layers {read : α → ρ} (hread : ∀ a ∈ layers, Q (table a) (read a)) :
    Q (override T (stack (layers.map table))) (layers.foldl (fun best a => select best (read a)) r) := by
  induction layers generalizing T r with
  | nil => simpa [stack] using h
  | cons a layers ih =>
    rw [foldl_cons, map_cons, stack, ← override_assoc]
    exact ih (hselect h (hread a mem_cons_self)) fun b hb => hread b (mem_cons_of_mem a hb)

/-- The same when a layer may fail. -/
theorem foldlM_layers {ε : Type w} {read : α → Except ε ρ}
    (hread : ∀ a ∈ layers, ∃ r', read a = .ok r' ∧ Q (table a) r') :
    ∃ r', layers.foldlM (fun best a => select best <$> read a) r = .ok r' ∧
      Q (override T (stack (layers.map table))) r' := by
  induction layers generalizing T r with
  | nil => exact ⟨r, rfl, by simpa [stack] using h⟩
  | cons a layers ih =>
    obtain ⟨ra, hra, hanswer⟩ := hread a mem_cons_self
    rw [foldlM_cons, hra, map_cons, stack, ← override_assoc]
    exact ih (hselect h hanswer) fun b hb => hread b (mem_cons_of_mem a hb)

end

variable {k : K} {t : Nat}

/-- What no layer has. -/
theorem stack_eq_none {α : Type*} {l : List α} {T : α → Table K W}
    (h : ∀ a ∈ l, T a k t = none) : stack (l.map T) k t = none := by
  induction l with
  | nil => rfl
  | cons a l ih =>
    rw [map_cons, stack, override, h a mem_cons_self, ih fun b hb => h b (mem_cons_of_mem a hb)]
    rfl

/-- What only one layer has. -/
theorem stack_eq_single {α : Type*} {l : List α} {T : α → Table K W} {a : α} (ha : a ∈ l)
    (h : ∀ b ∈ l, b ≠ a → T b k t = none) : stack (l.map T) k t = T a k t := by
  induction l with
  | nil => cases ha
  | cons b l ih =>
    rw [map_cons, stack, override]
    by_cases hba : b = a
    · subst hba
      cases hT : T b k t with
      | some w => rfl
      | none =>
        rw [Option.none_or]
        refine stack_eq_none fun c hc => ?_
        by_cases hcb : c = b
        · rw [hcb, hT]
        · exact h c (mem_cons_of_mem b hc) hcb
    · rw [h b mem_cons_self hba, Option.none_or]
      refine ih ?_ fun c hc => h c (mem_cons_of_mem b hc)
      rcases mem_cons.1 ha with rfl | ha
      · exact absurd rfl hba
      · exact ha

/-! ## Entries -/

section
variable [DecidableEq K] (time : W → Nat) (es : List (K × W))

/-- The table of a list of entries; of two at one key and time the first counts. -/
def ofEntries : Table K W :=
  fun k t => (es.find? fun e => decide (e.1 = k ∧ time e.2 = t)).map (·.2)

def Unique : Prop := (es.map fun e => (e.1, time e.2)).Nodup

variable {time} {es es' : List (K × W)} {k : K} {t : Nat} {w : W}

@[simp] theorem ofEntries_nil : ofEntries time ([] : List (K × W)) = empty := rfl

theorem ofEntries_cons (e : K × W) (es : List (K × W)) (k : K) (t : Nat) :
    ofEntries time (e :: es) k t = if e.1 = k ∧ time e.2 = t then some e.2 else ofEntries time es k t := by
  simp only [ofEntries, find?_cons]
  by_cases h : e.1 = k ∧ time e.2 = t <;> simp [h]

theorem ofEntries_append (a b : List (K × W)) :
    ofEntries time (a ++ b) = override (ofEntries time a) (ofEntries time b) := by
  funext k t
  rw [ofEntries, find?_append, Option.map_or]
  rfl

theorem stack_ofEntries {α : Type*} (l : List α) (f : α → List (K × W)) :
    stack (l.map fun a => ofEntries time (f a)) = ofEntries time (l.flatMap f) := by
  induction l with
  | nil => rfl
  | cons a l ih => rw [map_cons, stack, ih, ← ofEntries_append, flatMap_cons]

theorem mem_of_ofEntries (h : ofEntries time es k t = some w) : (k, w) ∈ es ∧ time w = t := by
  obtain ⟨e, he, rfl⟩ := Option.map_eq_some_iff.1 h
  have hp : e.1 = k ∧ time e.2 = t := by simpa using find?_some he
  refine ⟨?_, hp.2⟩
  rw [← hp.1]
  exact mem_of_find?_eq_some he

theorem ofEntries_eq_none : ofEntries time es k t = none ↔ ∀ w, (k, w) ∈ es → time w ≠ t := by
  simp only [ofEntries, Option.map_eq_none_iff, find?_eq_none, decide_eq_true_eq, Prod.forall, not_and]
  constructor
  · exact fun h w hw => h k w hw rfl
  · intro h k' w hw hk
    subst hk
    exact h w hw

theorem ofEntries_iff (hu : Unique time es) : ofEntries time es k t = some w ↔ (k, w) ∈ es ∧ time w = t := by
  refine ⟨mem_of_ofEntries, fun h => ?_⟩
  obtain ⟨hmem, ht⟩ := h
  cases hw : ofEntries time es k t with
  | none => exact absurd ht (ofEntries_eq_none.1 hw w hmem)
  | some w' =>
    obtain ⟨hmem', ht'⟩ := mem_of_ofEntries hw
    have hsame := inj_on_of_nodup_map hu hmem' hmem (by rw [ht, ht'])
    rw [(Prod.mk.inj hsame).2]

/-- Without repetitions the order of the entries does not matter. -/
theorem ofEntries_congr (hu : Unique time es) (hu' : Unique time es') (h : ∀ e, e ∈ es ↔ e ∈ es') :
    ofEntries time es = ofEntries time es' := by
  funext k t
  refine Option.ext fun w => ?_
  rw [ofEntries_iff hu, ofEntries_iff hu', h]

theorem ofEntries_reverse (hu : Unique time es) : ofEntries time es.reverse = ofEntries time es := by
  refine ofEntries_congr ?_ hu fun e => mem_reverse
  rw [Unique, map_reverse]
  exact nodup_reverse.2 hu

/-- Entries of other keys do not matter. -/
theorem ofEntries_filter {p : K × W → Bool} (hp : ∀ w, p (k, w) = true) :
    ofEntries time (es.filter p) k t = ofEntries time es k t := by
  induction es with
  | nil => rfl
  | cons e es ih =>
    by_cases he : p e = true
    · rw [filter_cons_of_pos he, ofEntries_cons, ofEntries_cons, ih]
    · rw [filter_cons_of_neg he, ofEntries_cons, ih, if_neg]
      intro hk
      obtain ⟨k', w⟩ := e
      obtain rfl : k' = k := hk.1
      exact he (hp w)

end

/-! ## Latest version -/

section
variable (time : W → Nat)

/-- `r` is the version of `k` with the greatest time up to `readTs`. -/
def IsLatest (T : Table K W) (k : K) (readTs : Nat) : Option W → Prop
  | none => ∀ t ≤ readTs, T k t = none
  | some w => time w ≤ readTs ∧ T k (time w) = some w ∧ ∀ t, time w < t → t ≤ readTs → T k t = none

/-- The candidate replaces what is there only when it is strictly newer. -/
def selectNewer (best candidate : Option W) : Option W :=
  match candidate with
  | none => best
  | some c =>
    match best with
    | none => some c
    | some b => if time b < time c then some c else some b

variable {time} {T T' : Table K W} {k : K} {readTs : Nat} {r r' : Option W}

theorem IsLatest.unique (h : IsLatest time T k readTs r) (h' : IsLatest time T k readTs r') : r = r' := by
  match r, r' with
  | none, none => rfl
  | none, some w =>
    have := h (time w) h'.1
    rw [h'.2.1] at this
    cases this
  | some w, none =>
    have := h' (time w) h.1
    rw [h.2.1] at this
    cases this
  | some w, some w' =>
    have hle : ¬ time w < time w' := fun hlt => by
      have := h.2.2 (time w') hlt h'.1
      rw [h'.2.1] at this
      cases this
    have hge : ¬ time w' < time w := fun hlt => by
      have := h'.2.2 (time w) hlt h.1
      rw [h.2.1] at this
      cases this
    have heq : time w = time w' := by omega
    rw [← h.2.1, heq, h'.2.1]

theorem IsLatest.congr (h : IsLatest time T k readTs r) (hT : ∀ t, T' k t = T k t) : IsLatest time T' k readTs r := by
  cases r with
  | none => exact fun t ht => (hT t).trans (h t ht)
  | some w => exact ⟨h.1, (hT _).trans h.2.1, fun t hlt hle => (hT t).trans (h.2.2 t hlt hle)⟩

/-- A newer layer was read before an older one. -/
theorem IsLatest.select {old : Table K W} (h : IsLatest time T k readTs r) (h' : IsLatest time old k readTs r') :
    IsLatest time (override T old) k readTs (selectNewer time r r') := by
  match r, r' with
  | none, none => exact fun t ht => by simp [override, h t ht, h' t ht]
  | some w, none =>
    refine ⟨h.1, by simp [override, h.2.1], fun t hlt hle => ?_⟩
    simp [override, h.2.2 t hlt hle, h' t hle]
  | none, some w =>
    refine ⟨h'.1, by simp [override, h _ h'.1, h'.2.1], fun t hlt hle => ?_⟩
    simp [override, h t hle, h'.2.2 t hlt hle]
  | some w, some w' =>
    simp only [selectNewer]
    by_cases hlt : time w < time w'
    · rw [if_pos hlt]
      refine ⟨h'.1, by simp [override, h.2.2 _ hlt h'.1, h'.2.1], fun t ht hle => ?_⟩
      simp [override, h.2.2 t (by omega) hle, h'.2.2 t ht hle]
    · rw [if_neg hlt]
      refine ⟨h.1, by simp [override, h.2.1], fun t ht hle => ?_⟩
      simp [override, h.2.2 t ht hle, h'.2.2 t (by omega) hle]

theorem IsLatest.of_absent (h : ∀ t, T k t = none) : IsLatest time T k readTs none := fun t _ => h t

theorem isLatest_single [DecidableEq K] (e : K × W) : IsLatest time (ofEntries time [e]) k readTs
      (if e.1 = k ∧ time e.2 ≤ readTs then some e.2 else none) := by
  split
  · rename_i h
    refine ⟨h.2, ?_, fun t hlt _ => ?_⟩
    · rw [ofEntries_cons, if_pos ⟨h.1, rfl⟩]
    · rw [ofEntries_cons, if_neg (fun he => ne_of_lt hlt he.2)]
      rfl
  · rename_i h
    intro t ht
    have hne : ¬ (e.1 = k ∧ time e.2 = t) := fun he => h ⟨he.1, he.2 ▸ ht⟩
    rw [ofEntries_cons, if_neg hne]
    rfl

/-- Reading entry by entry. -/
theorem IsLatest.foldl_entries [DecidableEq K] (es : List (K × W)) : IsLatest time (ofEntries time es) k readTs
      (es.foldl (fun best e =>
        selectNewer time best (if e.1 = k ∧ time e.2 ≤ readTs then some e.2 else none)) none) := by
  have h := foldl_layers (IsLatest _ · _ _ ·) IsLatest.select (@IsLatest.of_absent K W time empty k readTs fun _ => rfl)
    (fun e (_ : e ∈ es) => @isLatest_single K W time k readTs _ e)
  rwa [stack_ofEntries es fun e => [e], flatMap_singleton', empty_override] at h

/-- The version of `k` with the greatest time up to `readTs` among the writes `ws`, the last one among equal
times. -/
def versionAt [DecidableEq K] (time : W → Nat) (ws : List (K × W)) (k : K) (readTs : Nat) : Option W :=
  ws.foldl (fun best w =>
    if w.1 = k ∧ time w.2 ≤ readTs ∧ ∀ b ∈ best, time b ≤ time w.2 then some w.2 else best) none

variable (ws : List (K × W))

theorem isLatest_versionAt [DecidableEq K] :
    IsLatest time (ofEntries time ws.reverse) k readTs (versionAt time ws k readTs) := by
  induction ws using reverseRecOn with
  | nil => exact fun _ _ => rfl
  | append_singleton ws w ih =>
    rw [reverse_append, ofEntries_append, reverse_singleton]
    have h := (@isLatest_single K W time k readTs _ w).select ih
    rw [versionAt, foldl_append, ← versionAt, foldl_cons, foldl_nil]
    by_cases hw : w.1 = k ∧ time w.2 ≤ readTs
    · rw [if_pos hw] at h
      cases hbest : versionAt time ws k readTs with
      | none =>
        rw [hbest] at h
        simpa [hw, selectNewer] using h
      | some b =>
        rw [hbest, selectNewer] at h
        by_cases hlt : time w.2 < time b
        · simpa [hw, hlt, not_le.2 hlt] using h
        · simpa [hw, hlt, not_lt.1 hlt] using h
    · rw [if_neg hw] at h
      rw [if_neg fun hc => hw ⟨hc.1, hc.2.1⟩]
      cases hbest : versionAt time ws k readTs <;> simpa [hbest, selectNewer] using h

/-- Writes above the read timestamp do not matter. -/
theorem versionAt_filter [DecidableEq K] :
    versionAt time (ws.filter fun w => time w.2 ≤ readTs) k readTs = versionAt time ws k readTs := by
  rw [versionAt, foldl_filter]
  refine foldl_ext _ _ _ fun best w _ => ?_
  grind

end

/-! ## First write in a window -/

section
variable [LinearOrder K] (time : W → Nat)

/-- Earlier in time, and among equal times at the smaller key. -/
def Earlier (e e' : K × W) : Prop := time e.2 < time e'.2 ∨ time e.2 = time e'.2 ∧ e.1 < e'.1

instance (e e' : K × W) : Decidable (Earlier time e e') := inferInstanceAs (Decidable (_ ∨ _))

/-- `r` is the first write after `readTs` and up to `commitTs` among the keys of `P`. -/
def IsFirst (T : Table K W) (P : K → Prop) (readTs commitTs : Nat) : Option (K × W) → Prop
  | none => ∀ k t, P k → readTs < t → t ≤ commitTs → T k t = none
  | some e => P e.1 ∧ readTs < time e.2 ∧ time e.2 ≤ commitTs ∧ T e.1 (time e.2) = some e.2 ∧
      ∀ k t w, P k → readTs < t → t ≤ commitTs → T k t = some w → time e.2 < t ∨ time e.2 = t ∧ e.1 ≤ k

/-- The candidate replaces what is there only when it is strictly earlier. -/
def selectEarlier (best candidate : Option (K × W)) : Option (K × W) :=
  match candidate with
  | none => best
  | some c =>
    match best with
    | none => some c
    | some b => if Earlier time c b then some c else some b

variable {time} {T T' : Table K W} {P : K → Prop} {readTs commitTs : Nat} {r r' : Option (K × W)}

namespace IsFirst

theorem unique (h : IsFirst time T P readTs commitTs r) (h' : IsFirst time T P readTs commitTs r') :
    r = r' := by
  match r, r' with
  | none, none => rfl
  | none, some e =>
    have := h e.1 (time e.2) h'.1 h'.2.1 h'.2.2.1
    rw [h'.2.2.2.1] at this
    cases this
  | some e, none =>
    have := h' e.1 (time e.2) h.1 h.2.1 h.2.2.1
    rw [h.2.2.2.1] at this
    cases this
  | some e, some e' =>
    have hle := h.2.2.2.2 e'.1 (time e'.2) e'.2 h'.1 h'.2.1 h'.2.2.1 h'.2.2.2.1
    have hge := h'.2.2.2.2 e.1 (time e.2) e.2 h.1 h.2.1 h.2.2.1 h.2.2.2.1
    have heq : toLex (time e.2, e.1) = toLex (time e'.2, e'.1) :=
      le_antisymm (Prod.Lex.toLex_le_toLex.2 hle) (Prod.Lex.toLex_le_toLex.2 hge)
    obtain ⟨ht, hk⟩ := Prod.mk.inj (toLex_inj.1 heq)
    have hw : some e.2 = some e'.2 := by rw [← h.2.2.2.1, hk, ht, h'.2.2.2.1]
    rw [Option.some.injEq, Prod.ext_iff]
    exact ⟨hk, Option.some.inj hw⟩

theorem congr (h : IsFirst time T P readTs commitTs r) (hT : ∀ k, P k → ∀ t, T' k t = T k t) :
    IsFirst time T' P readTs commitTs r := by
  cases r with
  | none => exact fun k t hk hlt hle => (hT k hk t).trans (h k t hk hlt hle)
  | some e =>
    refine ⟨h.1, h.2.1, h.2.2.1, (hT _ h.1 _).trans h.2.2.2.1, fun k t w hk hlt hle hw => ?_⟩
    exact h.2.2.2.2 k t w hk hlt hle ((hT k hk t).symm.trans hw)

theorem of_absent (h : ∀ k, P k → ∀ t, T k t = none) : IsFirst time T P readTs commitTs none :=
  fun k t hk _ _ => h k hk t

/-- Searching more keys, of which the table has nothing. -/
theorem widen {Q : K → Prop} (h : IsFirst time T P readTs commitTs r) (hPQ : ∀ k, P k → Q k)
    (hnew : ∀ k, Q k → ¬ P k → ∀ t, T k t = none) : IsFirst time T Q readTs commitTs r := by
  cases r with
  | none =>
    intro k t hk hlt hle
    by_cases hP : P k
    · exact h k t hP hlt hle
    · exact hnew k hk hP t
  | some e =>
    refine ⟨hPQ _ h.1, h.2.1, h.2.2.1, h.2.2.2.1, fun k t w hk hlt hle hw => ?_⟩
    by_cases hP : P k
    · exact h.2.2.2.2 k t w hP hlt hle hw
    · rw [hnew k hk hP t] at hw
      cases hw

/-- A newer layer was searched before an older one. -/
theorem select {old : Table K W} (h : IsFirst time T P readTs commitTs r)
    (h' : IsFirst time old P readTs commitTs r') :
    IsFirst time (override T old) P readTs commitTs (selectEarlier time r r') := by
  have hcases : ∀ {k t w}, override T old k t = some w → T k t = some w ∨ T k t = none ∧ old k t = some w := by
    intro k t w hw
    cases hT : T k t with
    | none => exact .inr ⟨rfl, by simpa [override, hT] using hw⟩
    | some w' => exact .inl (by simpa [override, hT] using hw)
  match r, r' with
  | none, none => exact fun k t hk hlt hle => by simp [override, h k t hk hlt hle, h' k t hk hlt hle]
  | some e, none =>
    refine ⟨h.1, h.2.1, h.2.2.1, by simp [override, h.2.2.2.1], fun k t w hk hlt hle hw => ?_⟩
    rcases hcases hw with hT | ⟨-, hold⟩
    · exact h.2.2.2.2 k t w hk hlt hle hT
    · rw [h' k t hk hlt hle] at hold
      cases hold
  | none, some e =>
    refine ⟨h'.1, h'.2.1, h'.2.2.1, ?_, fun k t w hk hlt hle hw => ?_⟩
    · simp [override, h _ _ h'.1 h'.2.1 h'.2.2.1, h'.2.2.2.1]
    · rcases hcases hw with hT | ⟨-, hold⟩
      · rw [h k t hk hlt hle] at hT
        cases hT
      · exact h'.2.2.2.2 k t w hk hlt hle hold
  | some e, some e' =>
    simp only [selectEarlier]
    have htrans {x y z : Nat × K} (hxy : toLex x ≤ toLex y) (hyz : y.1 < z.1 ∨ y.1 = z.1 ∧ y.2 ≤ z.2) :
        x.1 < z.1 ∨ x.1 = z.1 ∧ x.2 ≤ z.2 :=
      Prod.Lex.toLex_le_toLex.1 (hxy.trans (Prod.Lex.toLex_le_toLex.2 hyz))
    have hlex : Earlier time e' e ↔ toLex (time e'.2, e'.1) < toLex (time e.2, e.1) := by
      rw [Prod.Lex.toLex_lt_toLex, Earlier]
    by_cases hearlier : Earlier time e' e
    · rw [if_pos hearlier]
      -- at the place of `e'` the newer layer has nothing, or `e` would not be its first
      have hnone : T e'.1 (time e'.2) = none := by
        cases hT : T e'.1 (time e'.2) with
        | none => rfl
        | some w =>
          have hle := h.2.2.2.2 _ _ w h'.1 h'.2.1 h'.2.2.1 hT
          exact absurd (hlex.1 hearlier) (not_lt.2 (Prod.Lex.toLex_le_toLex.2 hle))
      refine ⟨h'.1, h'.2.1, h'.2.2.1, by simp [override, hnone, h'.2.2.2.1], fun k t w hk hlt hle hw => ?_⟩
      rcases hcases hw with hT | ⟨-, hold⟩
      · exact htrans (z := (t, k)) (hlex.1 hearlier).le (h.2.2.2.2 k t w hk hlt hle hT)
      · exact h'.2.2.2.2 k t w hk hlt hle hold
    · rw [if_neg hearlier]
      rw [hlex, not_lt] at hearlier
      refine ⟨h.1, h.2.1, h.2.2.1, by simp [override, h.2.2.2.1], fun k t w hk hlt hle hw => ?_⟩
      rcases hcases hw with hT | ⟨-, hold⟩
      · exact h.2.2.2.2 k t w hk hlt hle hT
      · exact htrans (z := (t, k)) hearlier (h'.2.2.2.2 k t w hk hlt hle hold)

end IsFirst

theorem isFirst_single [DecidableEq K] [DecidablePred P] (e : K × W) :
    IsFirst time (ofEntries time [e]) P readTs commitTs
      (if P e.1 ∧ readTs < time e.2 ∧ time e.2 ≤ commitTs then some e else none) := by
  split
  · rename_i h
    refine ⟨h.1, h.2.1, h.2.2, ?_, fun k t w _ _ _ hw => ?_⟩
    · rw [ofEntries_cons, if_pos ⟨rfl, rfl⟩]
    · obtain ⟨hmem, rfl⟩ := mem_of_ofEntries hw
      obtain rfl := mem_singleton.1 hmem
      exact .inr ⟨rfl, le_rfl⟩
  · rename_i h
    intro k t hk hlt hle
    rw [ofEntries_eq_none]
    intro w hw ht
    obtain rfl := mem_singleton.1 hw
    exact h ⟨hk, ht ▸ hlt, ht ▸ hle⟩

/-- Searching entry by entry. -/
theorem IsFirst.foldl_entries [DecidableEq K] [DecidablePred P] (es : List (K × W)) :
    IsFirst time (ofEntries time es) P readTs commitTs (es.foldl (fun best e => selectEarlier time best
        (if P e.1 ∧ readTs < time e.2 ∧ time e.2 ≤ commitTs then some e else none)) none) := by
  have h := foldl_layers (IsFirst _ · _ _ _ ·) IsFirst.select (@IsFirst.of_absent K W _ time empty P readTs commitTs
    fun _ _ _ => rfl)
    (fun e (_ : e ∈ es) => @isFirst_single K W _ time P readTs commitTs _ _ e)
  rwa [stack_ofEntries es fun e => [e], flatMap_singleton', empty_override] at h

/-- The write with the smallest time in the window among the keys of `P`, of the smallest key among equal
times, and the last one among equal keys and times. -/
def firstWrite (time : W → Nat) (ws : List (K × W)) (P : K → Prop) [DecidablePred P] (readTs commitTs : Nat) :
    Option (K × W) :=
  ws.foldl (fun best w =>
    if (P w.1 ∧ readTs < time w.2 ∧ time w.2 ≤ commitTs) ∧ ∀ b ∈ best, ¬ Earlier time b w then some w else best) none

theorem isFirst_firstWrite [DecidableEq K] [DecidablePred P] (ws : List (K × W)) :
    IsFirst time (ofEntries time ws.reverse) P readTs commitTs (firstWrite time ws P readTs commitTs) := by
  induction ws using reverseRecOn with
  | nil => exact fun _ _ _ _ _ => rfl
  | append_singleton ws w ih =>
    rw [reverse_append, ofEntries_append, reverse_singleton]
    have h := (@isFirst_single K W _ time P readTs commitTs _ _ w).select ih
    rw [firstWrite, foldl_append, ← firstWrite, foldl_cons, foldl_nil]
    by_cases hw : P w.1 ∧ readTs < time w.2 ∧ time w.2 ≤ commitTs
    · rw [if_pos hw] at h
      cases hbest : firstWrite time ws P readTs commitTs with
      | none =>
        rw [hbest] at h
        simpa [hw, selectEarlier] using h
      | some b =>
        rw [hbest, selectEarlier] at h
        by_cases hlt : Earlier time b w
        · simpa [hw, hlt] using h
        · simpa [hw, hlt] using h
    · rw [if_neg hw] at h
      rw [if_neg fun hc => hw hc.1]
      cases hbest : firstWrite time ws P readTs commitTs <;> simpa [hbest, selectEarlier] using h

end

end Paro.Versioned
