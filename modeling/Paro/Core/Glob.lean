import Mathlib.Algebra.Order.Ring.Int
import Mathlib.Data.List.Infix

/-!
# Wildcard patterns

A pattern is a list of tokens over an alphabet: a letter, one arbitrary letter, or any number of them
(`glob`). Two facts carry the matchers built on it. A matcher may forget an earlier `any` when it reaches the
next one (`glob_any_of_later`), so it keeps one backtrack point. A pattern without `one` is a first run of
letters and the runs behind each `any` (`runs`), and matches when the runs are found one behind the other
(`glob_runs`); the leftmost occurrence of a run is the one to take (`Chain.leftmost`).
-/
namespace Paro.Glob

open List

universe u v

variable {α : Type u} [DecidableEq α]

inductive Token (α : Type u) where
  | any
  | one
  | lit (a : α)
  deriving DecidableEq

def Token.accepts : Token α → α → Bool
  | .any, _ => false
  | .one, _ => true
  | .lit a, b => a == b

def glob : List (Token α) → List α → Bool
  | [], v => v.isEmpty
  | .any :: p, v => v.tails.any (glob p)
  | t :: p, v => match v with
    | [] => false
    | b :: v => t.accepts b && glob p v

variable {p q : List (Token α)} {v w u s : List α} {t : Token α} {a b : α}

@[simp] theorem glob_nil : glob ([] : List (Token α)) v = true ↔ v = [] := isEmpty_iff

theorem glob_any : glob (.any :: p) v = true ↔ ∃ s, s <:+ v ∧ glob p s = true := by
  rw [glob, any_eq_true]
  simp only [mem_tails]

theorem glob_cons (ht : t ≠ .any) : glob (t :: p) (b :: v) = (t.accepts b && glob p v) := by
  cases t with
  | any => exact absurd rfl ht
  | one => rfl
  | lit a => rfl

theorem glob_cons_nil (ht : t ≠ .any) : glob (t :: p) ([] : List α) = false := by
  cases t with
  | any => exact absurd rfl ht
  | one => rfl
  | lit a => rfl

theorem glob_one : glob (.one :: p) v = true ↔ ∃ b w, v = b :: w ∧ glob p w = true := by
  cases v with
  | nil => simp [glob_cons_nil]
  | cons b v => simp [glob_cons, Token.accepts]

theorem glob_lit : glob (.lit a :: p) v = true ↔ ∃ w, v = a :: w ∧ glob p w = true := by
  cases v with
  | nil => simp [glob_cons_nil]
  | cons b v =>
    have hne : (.lit a : Token α) ≠ .any := fun h => by cases h
    rw [glob_cons hne, Bool.and_eq_true, Token.accepts, beq_iff_eq]
    constructor
    · rintro ⟨rfl, h⟩
      exact ⟨v, rfl, h⟩
    · rintro ⟨w, heq, h⟩
      cases heq
      exact ⟨rfl, h⟩

theorem glob_any_suffix (h : glob (.any :: p) v = true) (hw : v <:+ w) : glob (.any :: p) w = true := by
  obtain ⟨s, hs, hglob⟩ := glob_any.1 h
  exact glob_any.2 ⟨s, hs.trans hw, hglob⟩

theorem glob_any_cons : glob (.any :: p) (b :: v) = true ↔ glob p (b :: v) = true ∨ glob (.any :: p) v = true := by
  simp only [glob_any, suffix_cons_iff, or_and_right, exists_or, exists_eq_left]

/-! ## Reading a pattern -/

section
variable (any one escape : α)

/-- The first token of a written pattern. An escape makes the next letter a literal, and is one itself at the
end. -/
def readToken : List α → Option (Token α × List α)
  | [] => none
  | c :: rest =>
    if c = any then some (.any, rest)
    else if c = one then some (.one, rest)
    else if c = escape then
      match rest with
      | [] => some (.lit c, [])
      | d :: rest => some (.lit d, rest)
    else some (.lit c, rest)

def tokens : List α → List (Token α)
  | [] => []
  | [c] => [if c = any then .any else if c = one then .one else .lit c]
  | c :: d :: rest =>
    if c = any then .any :: tokens (d :: rest)
    else if c = one then .one :: tokens (d :: rest)
    else if c = escape then .lit d :: tokens rest
    else .lit c :: tokens (d :: rest)

variable {any one escape} {x : List α}

theorem tokens_of_none (h : readToken any one escape x = none) : x = [] := by
  match x with
  | [] => rfl
  | [c] => simp only [readToken] at h; split_ifs at h
  | c :: d :: rest => simp only [readToken] at h; split_ifs at h

theorem tokens_of_some {rest : List α} (h : readToken any one escape x = some (t, rest)) :
    tokens any one escape x = t :: tokens any one escape rest ∧ rest.length < x.length := by
  match x with
  | [] => cases h
  | [c] =>
    simp only [readToken] at h
    split_ifs at h <;> cases h <;> simp_all [tokens]
  | c :: d :: tail =>
    simp only [readToken] at h
    rw [tokens]
    split_ifs at h ⊢ <;> cases h <;> exact ⟨rfl, by simp only [length_cons]; omega⟩

theorem tokens_any (rest : List α) : tokens any one escape (any :: rest) = .any :: tokens any one escape rest := by
  cases rest <;> simp [tokens]

theorem tokens_ne_any {c : α} (hc : c ≠ any) (rest : List α) :
    ∃ t p, tokens any one escape (c :: rest) = t :: p ∧ t ≠ .any := by
  cases rest with
  | nil | cons d rest =>
    rw [tokens, if_neg hc]
    split_ifs <;> exact ⟨_, _, rfl, nofun⟩

theorem mem_of_lit {x : List α} (h : .lit a ∈ tokens any one escape x) : a ∈ x := by
  match x with
  | [] => cases h
  | [c] =>
    rw [tokens] at h
    split_ifs at h <;> simp_all
  | c :: d :: rest =>
    rw [tokens] at h
    split_ifs at h
    · exact mem_cons_of_mem c (mem_of_lit ((mem_cons.1 h).resolve_left nofun))
    · exact mem_cons_of_mem c (mem_of_lit ((mem_cons.1 h).resolve_left nofun))
    · rcases mem_cons.1 h with heq | h
      · exact mem_cons_of_mem c (Token.lit.inj heq ▸ mem_cons_self)
      · exact mem_cons_of_mem c (mem_cons_of_mem d (mem_of_lit h))
    · rcases mem_cons.1 h with heq | h
      · exact Token.lit.inj heq ▸ mem_cons_self
      · exact mem_cons_of_mem c (mem_of_lit h)

/-- Nothing is left to match exactly when only `any` is left to match it. -/
theorem glob_tokens_nil {x : List α} : glob (tokens any one escape x) [] = (x.dropWhile (· = any)).isEmpty := by
  induction x with
  | nil => rfl
  | cons c x ih =>
    by_cases hc : c = any
    · subst hc
      rw [tokens_any, dropWhile_cons_of_pos (by simp), ← ih, Bool.eq_iff_iff, glob_any]
      exact ⟨fun ⟨s, hs, h⟩ => suffix_nil.1 hs ▸ h, fun h => ⟨[], suffix_refl [], h⟩⟩
    · obtain ⟨t, p, htokens, ht⟩ := @tokens_ne_any α _ any one escape c hc x
      rw [htokens, glob_cons_nil ht, dropWhile_cons_of_neg (by simpa using hc)]
      rfl

end

/-! ## One backtrack point -/

def Accepts : List (Token α) → List α → Prop
  | [], [] => True
  | t :: q, b :: u => t.accepts b = true ∧ Accepts q u
  | _, _ => False

theorem Accepts.length_eq : ∀ {q : List (Token α)} {u : List α}, Accepts q u → q.length = u.length
  | [], [], _ => rfl
  | _ :: _, _ :: _, h => congrArg (· + 1) h.2.length_eq
  | [], _ :: _, h => h.elim
  | _ :: _, [], h => h.elim

theorem Accepts.ne_any : ∀ {q : List (Token α)} {u : List α}, Accepts q u → ∀ t ∈ q, t ≠ .any
  | [], _, _ => nofun
  | t :: q, b :: u, h => by
    refine forall_mem_cons.2 ⟨?_, h.2.ne_any⟩
    intro hany
    rw [hany] at h
    exact absurd h.1 nofun
  | _ :: _, [], h => h.elim

theorem Accepts.snoc : ∀ {q : List (Token α)} {u : List α}, Accepts q u → t.accepts b = true →
    Accepts (q ++ [t]) (u ++ [b])
  | [], [], _, ht => ⟨ht, trivial⟩
  | _ :: _, _ :: _, h, ht => ⟨h.1, h.2.snoc ht⟩
  | [], _ :: _, h, _ => h.elim
  | _ :: _, [], h, _ => h.elim

/-- Letters that are consumed one by one leave the rest of the value to the rest of the pattern. -/
theorem glob_split (hq : ∀ t ∈ q, t ≠ .any) (h : glob (q ++ p) w = true) :
    ∃ v, v <:+ w ∧ v.length + q.length = w.length ∧ glob p v = true := by
  induction q generalizing w with
  | nil => exact ⟨w, suffix_refl w, rfl, h⟩
  | cons t q ih =>
    have ht := hq t (mem_cons_self)
    cases w with
    | nil => rw [cons_append, glob_cons_nil ht] at h; cases h
    | cons b w =>
      rw [cons_append, glob_cons ht, Bool.and_eq_true] at h
      obtain ⟨v, hv, hlen, hglob⟩ := ih (fun t' ht' => hq t' (mem_cons_of_mem _ ht')) h.2
      exact ⟨v, hv.trans (suffix_cons b w), by simp only [length_cons]; omega, hglob⟩

/-- Behind the tokens `q` that have accepted `u`, the next `any` can take whatever a later attempt at `q`
would leave: a matcher that reaches it need not come back to the one before `q`. -/
theorem glob_any_of_later (hacc : Accepts q u) (hs : s <:+ u ++ v) (hlt : s.length < (u ++ v).length)
    (h : glob (q ++ .any :: p) s = true) : glob (.any :: p) v = true := by
  obtain ⟨v', hv', hlen, hglob⟩ := glob_split hacc.ne_any h
  refine glob_any_suffix hglob (suffix_of_suffix_length_le (hv'.trans hs) (suffix_append u v) ?_)
  have := hacc.length_eq
  rw [length_append] at hlt
  omega

/-! ## Changing the alphabet -/

section
variable {β : Type v} [DecidableEq β] {f : α → β} {e : α → List β}

def Token.map (f : α → β) : Token α → Token β
  | .any => .any
  | .one => .one
  | .lit a => .lit (f a)

theorem glob_map (h : ∀ a, .lit a ∈ p → ∀ b ∈ v, f a = f b → a = b) :
    glob (p.map (Token.map f)) (v.map f) = glob p v := by
  induction p generalizing v with
  | nil => cases v <;> rfl
  | cons t p ih =>
    have hp : ∀ w, (∀ b ∈ w, b ∈ v) → glob (p.map (Token.map f)) (w.map f) = glob p w := fun w hw =>
      ih fun a ha b hb => h a (mem_cons_of_mem t ha) b (hw b hb)
    cases t with
    | any =>
      rw [Bool.eq_iff_iff, map_cons, Token.map, glob_any, glob_any]
      constructor
      · intro ⟨s, hs, hglob⟩
        obtain ⟨w, hw, rfl⟩ := suffix_map_iff.1 hs
        exact ⟨w, hw, (hp w fun b hb => hw.subset hb) ▸ hglob⟩
      · intro ⟨s, hs, hglob⟩
        exact ⟨s.map f, hs.map f, (hp s fun b hb => hs.subset hb).symm ▸ hglob⟩
    | one =>
      cases v with
      | nil => rfl
      | cons b v => exact hp v fun c hc => mem_cons_of_mem b hc
    | lit a =>
      cases v with
      | nil => rfl
      | cons b v =>
        have hab : (f a == f b) = (a == b) := by
          rw [Bool.eq_iff_iff, beq_iff_eq, beq_iff_eq]
          exact ⟨h a (mem_cons_self) b (mem_cons_self), congrArg f⟩
        show (f a == f b && glob (p.map (Token.map f)) (v.map f)) = (a == b && glob p v)
        rw [hab, hp v fun c hc => mem_cons_of_mem b hc]

/-- A letter that no literal of the pattern is can only fall to an `any`. -/
theorem glob_drop_foreign {x : α} (hone : .one ∉ p) (hx : .lit x ∉ p) (h : glob p (x :: v) = true) :
    glob p v = true := by
  induction p generalizing v with
  | nil => cases h
  | cons t p ih =>
    have ih' := @ih v (not_mem_of_not_mem_cons hone) (not_mem_of_not_mem_cons hx)
    cases t with
    | one => exact absurd (mem_cons_self) hone
    | any =>
      rcases glob_any_cons.1 h with h | h
      · exact glob_any.2 ⟨v, suffix_refl v, ih' h⟩
      · exact h
    | lit a =>
      rw [glob_cons (nofun : Token.lit a ≠ .any), Bool.and_eq_true, Token.accepts, beq_iff_eq] at h
      exact absurd (h.1 ▸ mem_cons_self) hx

theorem glob_drop_all_foreign {y : List α} (hone : .one ∉ p) (hy : ∀ x ∈ y, .lit x ∉ p) (h : glob p (y ++ v) = true) :
    glob p v = true := by
  induction y with
  | nil => exact h
  | cons x y ih =>
    exact ih (fun z hz => hy z (mem_cons_of_mem x hz)) (glob_drop_foreign hone (hy x (mem_cons_self)) h)

omit [DecidableEq α] in
/-- A suffix of an encoded text is a piece of one letter's code before whole codes. -/
theorem suffix_flatMap {s : List β} (h : s <:+ v.flatMap e) :
    ∃ y w, s = y ++ w.flatMap e ∧ w <:+ v ∧ (y = [] ∨ ∃ c, y <:+ e c ∧ y ≠ e c) := by
  induction v with
  | nil => exact ⟨[], [], suffix_nil.1 h, suffix_refl _, .inl rfl⟩
  | cons c v ih =>
    rw [flatMap_cons] at h
    rcases suffix_or_suffix_of_suffix h (suffix_append (e c) (v.flatMap e)) with hs | ⟨y, rfl⟩
    · obtain ⟨y, w, hs, hw, hpiece⟩ := ih hs
      exact ⟨y, w, hs, hw.trans (suffix_cons c v), hpiece⟩
    · have hy : y <:+ e c := by
        obtain ⟨x, hx⟩ := h
        exact ⟨x, append_cancel_right (by rw [append_assoc, hx])⟩
      by_cases hwhole : y = e c
      · exact ⟨[], c :: v, by rw [hwhole]; rfl, suffix_refl _, .inl rfl⟩
      · exact ⟨y, v, rfl, suffix_cons c v, .inr ⟨c, hy, hwhole⟩⟩

/-- Matching an encoded text, when the literals are codes of one letter that no other code contains. -/
theorem glob_flatMap (hone : .one ∉ p) (hne : ∀ c, e c ≠ [])
    (hlit : ∀ a, .lit a ∈ p → e a = [f a] ∧ ∀ c, f a ∈ e c → c = a) :
    glob (p.map (Token.map f)) (v.flatMap e) = glob p v := by
  induction p generalizing v with
  | nil =>
    cases v with
    | nil => rfl
    | cons c v =>
      rw [Bool.eq_iff_iff, map_nil, glob_nil, glob_nil]
      simp [hne c]
  | cons t p ih =>
    have hp := fun w => @ih w (not_mem_of_not_mem_cons hone) (fun a ha => hlit a (mem_cons_of_mem t ha))
    cases t with
    | one => exact absurd (mem_cons_self) hone
    | any =>
      rw [Bool.eq_iff_iff, map_cons, Token.map, glob_any, glob_any]
      constructor
      · intro ⟨s, hs, hglob⟩
        obtain ⟨y, w, rfl, hw, hpiece⟩ := suffix_flatMap hs
        refine ⟨w, hw, ?_⟩
        rw [← hp w]
        refine glob_drop_all_foreign ?_ ?_ hglob
        · intro hmem
          obtain ⟨t, ht, heq⟩ := mem_map.1 hmem
          cases t <;> cases heq
          exact hone (mem_cons_of_mem _ ht)
        · intro x hx hmem
          obtain ⟨t, ht, heq⟩ := mem_map.1 hmem
          cases t <;> cases heq
          next a =>
          rcases hpiece with rfl | ⟨c, hy, hproper⟩
          · cases hx
          -- A literal's code is one letter, so a proper piece of it is empty.
          · obtain ⟨hcode, hforeign⟩ := hlit a (mem_cons_of_mem _ ht)
            obtain rfl := hforeign c (hy.subset hx)
            rw [hcode] at hy hproper
            rcases suffix_cons_iff.1 hy with h | h
            · exact hproper h
            · rw [suffix_nil.1 h] at hx; cases hx
      · intro ⟨s, hs, hglob⟩
        obtain ⟨x, rfl⟩ := hs
        exact ⟨s.flatMap e, ⟨x.flatMap e, flatMap_append.symm⟩, (hp s).symm ▸ hglob⟩
    | lit a =>
      obtain ⟨hcode, hforeign⟩ := hlit a (mem_cons_self)
      cases v with
      | nil => rfl
      | cons c v =>
        rw [Bool.eq_iff_iff, flatMap_cons, map_cons, Token.map,
          glob_cons (nofun : Token.lit a ≠ .any), Token.accepts, Bool.and_eq_true, beq_iff_eq, ← hp v]
        cases hc : e c with
        | nil => exact absurd hc (hne c)
        | cons x y =>
          rw [cons_append, glob_cons (nofun : Token.lit (f a) ≠ .any), Token.accepts, Bool.and_eq_true, beq_iff_eq]
          constructor
          · intro ⟨hx, hglob⟩
            obtain rfl := hforeign c (by rw [hc, hx]; exact mem_cons_self)
            rw [hcode] at hc
            obtain ⟨-, rfl⟩ := cons.inj hc
            exact ⟨rfl, hglob⟩
          · intro ⟨hac, hglob⟩
            subst hac
            rw [hcode] at hc
            obtain ⟨hx, rfl⟩ := cons.inj hc
            exact ⟨hx, hglob⟩

theorem tokens_map {any one escape : α} {x : List α} (hany : ∀ c ∈ x, f c = f any → c = any)
    (hone : ∀ c ∈ x, f c = f one → c = one) (hescape : ∀ c ∈ x, f c = f escape → c = escape) :
    tokens (f any) (f one) (f escape) (x.map f) = (tokens any one escape x).map (Token.map f) := by
  have hiff {c d : α} (h : f c = f d → c = d) : (f c = f d) = (c = d) := propext ⟨h, congrArg f⟩
  match x with
  | [] => rfl
  | [c] =>
    simp only [map_cons, map_nil, tokens, hiff (hany c (mem_cons_self)), hiff (hone c (mem_cons_self))]
    split_ifs <;> rfl
  | c :: d :: rest =>
    have ih := @tokens_map any one escape (d :: rest) (fun b hb => hany b (mem_cons_of_mem c hb))
      (fun b hb => hone b (mem_cons_of_mem c hb)) (fun b hb => hescape b (mem_cons_of_mem c hb))
    have ih' := @tokens_map any one escape rest (fun b hb => hany b (mem_cons_of_mem c (mem_cons_of_mem d hb)))
      (fun b hb => hone b (mem_cons_of_mem c (mem_cons_of_mem d hb)))
      (fun b hb => hescape b (mem_cons_of_mem c (mem_cons_of_mem d hb)))
    simp only [map_cons] at ih ⊢
    simp only [tokens, hiff (hany c (mem_cons_self)), hiff (hone c (mem_cons_self)),
      hiff (hescape c (mem_cons_self)), ih, ih']
    split_ifs <;> rfl

end

/-! ## Occurrences -/

/-- A search for the leftmost occurrence of a needle. -/
structure Finder (α : Type u) where
  find : List α → List α → Option Nat
  found {needle v : List α} {i : Nat} : find needle v = some i → needle <+: v.drop i ∧ ∀ j < i, ¬ needle <+: v.drop j
  missing {needle v : List α} : find needle v = none → ∀ j, ¬ needle <+: v.drop j

/-- The search that tries every place in turn. -/
def Finder.linear : Finder α where
  find needle v := (range (v.length + 1)).find? fun i => needle.isPrefixOf (v.drop i)
  found h := by
    obtain ⟨hat, -, hbefore⟩ := find?_range_eq_some.1 h
    refine ⟨ isPrefixOf_iff_prefix.1 hat, fun j hj hp => ?_⟩
    have := hbefore j hj
    rw [ isPrefixOf_iff_prefix.2 hp] at this
    cases this
  missing {needle v} h j hp := by
    rw [find?_range_eq_none] at h
    rcases Nat.lt_or_ge j (v.length + 1) with hj | hj
    · have := h j hj
      rw [ isPrefixOf_iff_prefix.2 hp] at this
      cases this
    · have := h v.length (Nat.lt_succ_self _)
      rw [drop_eq_nil_of_le (show v.length ≤ j by omega)] at hp
      rw [drop_length, isPrefixOf_iff_prefix.2 hp] at this
      cases this

variable {needle : List α} {i : Nat}

omit [DecidableEq α] in
theorem Finder.isSome_iff (finder : Finder α) : (finder.find needle v).isSome = true ↔ needle <:+: v := by
  constructor
  · intro h
    obtain ⟨i, hi⟩ := Option.isSome_iff_exists.1 h
    obtain ⟨t, ht⟩ := (finder.found hi).1
    exact ⟨v.take i, t, by rw [append_assoc, ht, take_append_drop]⟩
  · intro ⟨x, y, hv⟩
    cases hf : finder.find needle v with
    | none => exact absurd ⟨y, by rw [← hv, append_assoc, drop_left]⟩ (finder.missing hf x.length)
    | some i => rfl

/-! ## Runs -/

/-- The letters before the first `any`, and those behind each `any` up to the next. -/
def runs : List (Token α) → List α × List (List α)
  | [] => ([], [])
  | .any :: p => ([], (runs p).1 :: (runs p).2)
  | .one :: p => runs p
  | .lit a :: p => (a :: (runs p).1, (runs p).2)

/-- The runs `rest`, each behind an `any`, cover the value to its end. -/
def Follows : List (List α) → List α → Prop
  | [], v => v = []
  | l :: rest, v => ∃ x w, v = x ++ l ++ w ∧ Follows rest w

theorem glob_runs (hone : .one ∉ p) : glob p v = true ↔ ∃ w, v = (runs p).1 ++ w ∧ Follows (runs p).2 w := by
  induction p generalizing v with
  | nil =>
    rw [glob_nil]
    exact ⟨fun h => ⟨[], by rw [h]; rfl, rfl⟩, fun ⟨w, hv, hw⟩ => by rw [hv, hw]; rfl⟩
  | cons t p ih =>
    have hp : .one ∉ p := not_mem_of_not_mem_cons hone
    cases t with
    | one => exact absurd (mem_cons_self) hone
    | any =>
      rw [glob_any]
      constructor
      · intro ⟨s, ⟨x, hx⟩, hglob⟩
        obtain ⟨w, hs, hw⟩ := (ih hp).1 hglob
        exact ⟨v, rfl, x, w, by rw [← hx, hs, append_assoc], hw⟩
      · intro ⟨w, hv, x, y, hw, hy⟩
        exact ⟨(runs p).1 ++ y, ⟨x, by rw [hv, hw]; simp [runs]⟩, (ih hp).2 ⟨y, rfl, hy⟩⟩
    | lit a =>
      cases v with
      | nil =>
        rw [glob_cons_nil (nofun : Token.lit a ≠ .any)]
        exact ⟨nofun, fun ⟨w, hv, _⟩ => by rw [runs] at hv; cases hv⟩
      | cons b v =>
        rw [glob_cons (nofun : Token.lit a ≠ .any), Token.accepts, Bool.and_eq_true, beq_iff_eq, ih hp, runs]
        constructor
        · intro ⟨hab, w, hv, hw⟩
          exact ⟨w, by rw [hab, hv]; rfl, hw⟩
        · intro ⟨w, hv, hw⟩
          obtain ⟨hba, hv⟩ := cons.inj hv
          exact ⟨hba.symm, w, hv, hw⟩

/-- Nonempty runs in their order. The last one ends the value when `atEnd` is set. -/
def Chain (atEnd : Bool) : List (List α) → List α → Prop
  | [], _ => True
  | l :: rest, v => if rest.isEmpty && atEnd then l <:+ v else ∃ x w, v = x ++ l ++ w ∧ Chain atEnd rest w

variable {l : List α} {rest : List (List α)} {atEnd : Bool}

omit [DecidableEq α] in
theorem chain_last : Chain true [l] v ↔ l <:+ v := .rfl

omit [DecidableEq α] in
theorem chain_cons (h : ¬ (rest = [] ∧ atEnd = true)) :
    Chain atEnd (l :: rest) v ↔ ∃ x w, v = x ++ l ++ w ∧ Chain atEnd rest w := by
  rw [Chain, if_neg]
  rw [Bool.and_eq_true, List.isEmpty_iff]
  exact h

omit [DecidableEq α] in
theorem Chain.suffix (h : Chain atEnd rest v) (hw : v <:+ w) : Chain atEnd rest w := by
  cases rest with
  | nil => trivial
  | cons l rest =>
    rw [Chain] at h ⊢
    split at h
    · next hend => rw [if_pos hend]; exact h.trans hw
    · next hend =>
      rw [if_neg hend]
      obtain ⟨x, y, hv, hy⟩ := h
      obtain ⟨z, hz⟩ := hw
      exact ⟨z ++ x, y, by rw [← hz, hv]; simp only [append_assoc], hy⟩

omit [DecidableEq α] in
theorem Chain.infix_of_mem {s : List α} (h : Chain atEnd rest v) (hs : s ∈ rest) : s <:+: v := by
  induction rest generalizing v with
  | nil => cases hs
  | cons l rest ih =>
    by_cases hlast : rest = [] ∧ atEnd = true
    · obtain ⟨rfl, rfl⟩ := hlast
      obtain rfl := mem_singleton.1 hs
      exact (chain_last.1 h).isInfix
    · obtain ⟨x, w, rfl, hw⟩ := (chain_cons hlast).1 h
      rcases mem_cons.1 hs with rfl | hs
      · exact ⟨x, w, rfl⟩
      · exact (ih hw hs).trans (suffix_append ..).isInfix

/-- Empty runs, of an `any` right behind another, can be left out. -/
theorem follows_iff_chain (hrest : rest ≠ []) :
    Follows rest v ↔ Chain (rest.getLast hrest != []) (rest.filter (· != [])) v := by
  induction rest generalizing v with
  | nil => exact absurd rfl hrest
  | cons l rest ih =>
    rw [Follows]
    by_cases hnil : rest = []
    · subst hnil
      have hsuffix : (∃ x w, v = x ++ l ++ w ∧ Follows [] w) ↔ l <:+ v := by
        constructor
        · intro ⟨x, w, hv, hw⟩
          exact ⟨x, by rw [hv, hw, append_nil]⟩
        · intro ⟨x, hx⟩
          exact ⟨x, [], by rw [hx, append_nil], rfl⟩
      rw [hsuffix, getLast_singleton]
      by_cases hl : l = []
      · subst hl
        simp [Chain]
      · simp [Chain, hl]
    · simp only [getLast_cons hnil, ih hnil]
      by_cases hl : l = []
      · subst hl
        simp only [filter_cons, bne_self_eq_false, Bool.false_eq_true, if_false, append_nil]
        constructor
        · intro ⟨x, w, hv, hw⟩
          exact hw.suffix ⟨x, hv.symm⟩
        · intro h
          exact ⟨[], v, rfl, h⟩
      · rw [filter_cons_of_pos (by simpa using hl), chain_cons]
        intro ⟨hempty, hlast⟩
        rw [filter_eq_nil_iff] at hempty
        exact hempty _ (getLast_mem hnil) hlast

omit [DecidableEq α] in
/-- The leftmost occurrence of a run leaves the most to the runs behind it. -/
theorem Chain.leftmost (finder : Finder α) (h : ¬ (rest = [] ∧ atEnd = true)) :
    Chain atEnd (l :: rest) v ↔ ∃ i, finder.find l v = some i ∧ Chain atEnd rest (v.drop (i + l.length)) := by
  rw [chain_cons h]
  constructor
  · intro ⟨x, w, hv, hw⟩
    have hat : l <+: v.drop x.length := ⟨w, by rw [hv, append_assoc, drop_left]⟩
    cases hf : finder.find l v with
    | none => exact absurd hat (finder.missing hf _)
    | some i =>
      refine ⟨i, rfl, hw.suffix ?_⟩
      have hi : i ≤ x.length := by
        by_contra hlt
        exact (finder.found hf).2 x.length (by omega) hat
      have hwv : w = v.drop (x.length + l.length) := by
        rw [hv, ← length_append, drop_left]
      rw [hwv, show x.length + l.length = (i + l.length) + (x.length - i) by omega, ← drop_drop]
      exact drop_suffix _ _
  · intro ⟨i, hf, hw⟩
    obtain ⟨y, hy⟩ := (finder.found hf).1
    refine ⟨v.take i, v.drop (i + l.length), ?_, hw⟩
    rw [← drop_drop, ← hy, drop_left, append_assoc, hy, take_append_drop]

end Paro.Glob
