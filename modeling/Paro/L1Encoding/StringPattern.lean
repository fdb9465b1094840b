import Paro.Core.Glob

/-!
# LIKE patterns (common/src/string_pattern.rs)

A text is a list of characters, stored as its UTF-8 bytes. `sqlLike` is the general matcher, a loop with one
backtrack point. `PreparedLikePattern` is the form for a constant ASCII pattern without `_`, which works on
the stored bytes: it cuts the pattern at its `%` and looks for the pieces from the left. Both decide the same
relation, `like` (`sqlLike_eq`, `matchesBytes_eq`). Storage never asks for the case-insensitive form, which is
left out. `memmem::Finder` is any `Finder`, which returns the leftmost occurrence.
`La-b` are lines of this file.
-/
namespace Paro.L1.StringPattern

open Glob
open List hiding Chain isEmpty_iff

abbrev Text := List Char

def utf8 (s : Text) : List UInt8 := s.flatMap String.utf8EncodeChar

def isAscii (s : Text) : Bool := s.all fun c => c.toNat < 128

/-- What a pattern means: `%` is any text, `_` any character, and a backslash quotes the next character. -/
def like (value pattern : Text) : Bool := glob (tokens '%' '_' '\\' pattern) value

/-! ## The general matcher -/

section
variable {α : Type} [DecidableEq α] (any one escape : α)

/-- L378-411 (the loop of `sql_like_tokens`). The indexes are the rests of the value
and of the pattern; `wildcard` is the pattern behind the last `%` and the value it was last tried at. -/
def likeLoop : Nat → List α → List α → Option (List α × List α) → Bool
  | 0, _, _, _ => false
  | _ + 1, [], pattern, _ => (pattern.dropWhile (· = any)).isEmpty
  | fuel + 1, b :: value, pattern, wildcard =>
    let backtrack := wildcard.elim false fun (wildcardPattern, wildcardValue) =>
      likeLoop fuel wildcardValue.tail wildcardPattern (some (wildcardPattern, wildcardValue.tail))
    match readToken any one escape pattern with
    | some (.any, pattern) => likeLoop fuel (b :: value) pattern (some (pattern, b :: value))
    | some (.one, pattern) => likeLoop fuel value pattern wildcard
    | some (.lit a, pattern) => if b = a then likeLoop fuel value pattern wildcard else backtrack
    | none => backtrack

def likeFuel (value pattern : List α) : Nat := (pattern.length + 2) * ((value.length + 1) * (value.length + 2))

/-- L368-417 -/
def sqlLikeTokens (value pattern : List α) : Bool :=
  likeLoop any one escape (likeFuel value pattern) value pattern none

end

/-- L338-366 -/
def sqlLike (value pattern : Text) : Bool :=
  if isAscii value && isAscii pattern then sqlLikeTokens 37 95 92 (utf8 value) (utf8 pattern)
  else sqlLikeTokens '%' '_' '\\' value pattern

section
variable {α : Type} [DecidableEq α] {any one escape : α} {value pattern : List α} {fuel n : Nat}

/-- What the loop still looks for: a match here, or one at a later place of the last `%`. -/
def Pending (any one escape : α) (value pattern : List α) : Option (List α × List α) → Prop
  | none => glob (tokens any one escape pattern) value = true
  | some (wp, wv) => glob (tokens any one escape pattern) value = true ∨
      ∃ s, s <:+ wv ∧ s.length < wv.length ∧ glob (tokens any one escape wp) s = true

/-- Since the last `%`, the tokens `q` have accepted the letters before the rest of the value. -/
inductive Tried (any one escape : α) (value pattern : List α) : Option (List α × List α) → Prop
  | first : Tried any one escape value pattern none
  | since (q : List (Token α)) (u wp : List α)
      (htokens : tokens any one escape wp = q ++ tokens any one escape pattern) (haccepts : Accepts q u)
      (hlength : pattern.length ≤ wp.length) : Tried any one escape value pattern (some (wp, u ++ value))

theorem Tried.again (wp wv : List α) : Tried any one escape wv wp (some (wp, wv)) :=
  Tried.since [] [] wp rfl trivial le_rfl

/-- The steps left: a new `%` is behind the last one, and each of its places takes a pass over the value. -/
def loopCost (n : Nat) (value pattern : List α) : Option (List α × List α) → Nat
  | none => (pattern.length + 1) * ((n + 1) * (n + 2)) + value.length
  | some (wp, wv) => wp.length * ((n + 1) * (n + 2)) + wv.length * (n + 2) + value.length

/-- The loop is right with this fuel, on values of at most `n` letters. -/
def LoopOk (any one escape : α) (n fuel : Nat) : Prop :=
  ∀ value pattern wildcard, Tried any one escape value pattern wildcard → value.length ≤ n →
    (∀ wp wv, wildcard = some (wp, wv) → wv.length ≤ n) → loopCost n value pattern wildcard < fuel →
    (likeLoop any one escape fuel value pattern wildcard = true ↔ Pending any one escape value pattern wildcard)

variable {p : List (Token α)}

/-- Trying a `%` at every place is trying it here and at the later ones. -/
theorem glob_any_iff_later : (glob p value = true ∨ ∃ s, s <:+ value ∧ s.length < value.length ∧ glob p s = true) ↔
      glob (.any :: p) value = true := by
  rw [glob_any]
  constructor
  · intro h
    rcases h with h | ⟨s, hs, -, h⟩
    · exact ⟨value, suffix_refl value, h⟩
    · exact ⟨s, hs, h⟩
  · intro ⟨s, hs, h⟩
    rcases Nat.lt_or_ge s.length value.length with hlt | hge
    · exact .inr ⟨s, hs, hlt, h⟩
    · exact .inl (hs.eq_of_length_le hge ▸ h)

theorem later_iff {b : α} {wv : List α} :
    (∃ s, s <:+ b :: wv ∧ s.length < (b :: wv).length ∧ glob p s = true) ↔ glob (.any :: p) wv = true := by
  rw [glob_any]
  constructor
  · intro ⟨s, hs, hlt, h⟩
    rcases suffix_cons_iff.1 hs with rfl | hs
    · exact absurd hlt (lt_irrefl _)
    · exact ⟨s, hs, h⟩
  · intro ⟨s, hs, h⟩
    exact ⟨s, hs.trans (suffix_cons b wv), Nat.lt_succ_of_le hs.length_le, h⟩

section
variable {b : α} {wildcard : Option (List α × List α)} (hok : LoopOk any one escape n fuel)
  (htried : Tried any one escape (b :: value) pattern wildcard) (hvalue : (b :: value).length ≤ n)
  (hwild : ∀ wp wv, wildcard = some (wp, wv) → wv.length ≤ n)
  (hfuel : loopCost n (b :: value) pattern wildcard < fuel + 1)

include hok htried hwild hfuel

theorem LoopOk.backtrack (hfail : glob (tokens any one escape pattern) (b :: value) = false) :
    wildcard.elim false (fun w => likeLoop any one escape fuel w.2.tail w.1 (some (w.1, w.2.tail))) = true ↔
      Pending any one escape (b :: value) pattern wildcard := by
  cases htried with
  | first => rw [Pending, hfail, Option.elim_none]
  | since q u wp htokens haccepts hlength =>
    obtain ⟨c, wv, hwv⟩ : ∃ c wv, u ++ b :: value = c :: wv := by
      cases u with
      | nil => exact ⟨b, value, rfl⟩
      | cons c u => exact ⟨c, u ++ b :: value, rfl⟩
    have hn : wv.length + 1 ≤ n := by
      have := hwild wp _ rfl
      rwa [hwv] at this
    rw [loopCost, hwv, length_cons, Nat.succ_mul wv.length] at hfuel
    have hagain := hok wv wp (some (wp, wv)) (Tried.again wp wv) (by omega)
      (fun wp' wv' h => by cases h; omega) (by rw [loopCost]; omega)
    rw [hwv, Option.elim_some, tail_cons, hagain, Pending, Pending, hfail, later_iff, glob_any_iff_later]
    simp

include hvalue

variable {rest : List α}

theorem LoopOk.step {t : Token α} (hread : readToken any one escape pattern = some (t, rest))
    (hany : t ≠ .any) (haccepts : t.accepts b = true) :
    likeLoop any one escape fuel value rest wildcard = true ↔ Pending any one escape (b :: value) pattern wildcard := by
  obtain ⟨htokens, hlt⟩ := tokens_of_some hread
  have hglob : glob (tokens any one escape pattern) (b :: value) = glob (tokens any one escape rest) value := by
    rw [htokens, glob_cons hany, haccepts, Bool.true_and]
  cases htried with
  | first =>
    have hcost : (rest.length + 1) * ((n + 1) * (n + 2)) ≤ (pattern.length + 1) * ((n + 1) * (n + 2)) :=
      Nat.mul_le_mul_right _ (le_of_lt (Nat.succ_lt_succ hlt))
    simp only [loopCost, length_cons] at hfuel
    rw [hok value rest none Tried.first (Nat.le_of_succ_le hvalue) nofun (by rw [loopCost]; omega), Pending, Pending,
      hglob]
  | since q u wp hwp hq hlength =>
    have htried : Tried any one escape value rest (some (wp, (u ++ [b]) ++ value)) :=
      Tried.since (q ++ [t]) (u ++ [b]) wp (by rw [hwp, htokens, append_assoc]; rfl) (hq.snoc haccepts) (by omega)
    rw [append_assoc, singleton_append] at htried
    simp only [loopCost, length_cons] at hfuel
    rw [hok value rest _ htried (Nat.le_of_succ_le hvalue) hwild (by rw [loopCost]; omega), Pending, Pending, hglob]

theorem LoopOk.newWildcard (hread : readToken any one escape pattern = some (.any, rest)) :
    likeLoop any one escape fuel (b :: value) rest (some (rest, b :: value)) = true ↔
      Pending any one escape (b :: value) pattern wildcard := by
  obtain ⟨htokens, hlt⟩ := tokens_of_some hread
  have hpass : (b :: value).length * (n + 2) ≤ n * (n + 2) := Nat.mul_le_mul_right _ hvalue
  have hsquare : (n + 1) * (n + 2) = n * (n + 2) + (n + 2) := Nat.succ_mul ..
  have hcost : (rest.length + 1) * ((n + 1) * (n + 2)) ≤ pattern.length * ((n + 1) * (n + 2)) :=
    Nat.mul_le_mul_right _ hlt
  rw [Nat.succ_mul] at hcost
  have hhere : Pending any one escape (b :: value) rest (some (rest, b :: value)) ↔
      glob (tokens any one escape pattern) (b :: value) = true := by
    rw [Pending, htokens]
    exact glob_any_iff_later
  cases htried with
  | first =>
    rw [loopCost, Nat.succ_mul pattern.length] at hfuel
    rw [hok _ rest _ (Tried.again ..) hvalue (fun wp wv h => by cases h; exact hvalue) (by rw [loopCost]; omega), hhere,
      Pending]
  | since q u wp hwp hq hlength =>
    have hwcost : pattern.length * ((n + 1) * (n + 2)) ≤ wp.length * ((n + 1) * (n + 2)) :=
      Nat.mul_le_mul_right _ hlength
    simp only [loopCost] at hfuel
    rw [hok _ rest _ (Tried.again ..) hvalue (fun wp wv h => by cases h; exact hvalue) (by rw [loopCost]; omega), hhere,
      Pending]
    refine ⟨.inl, fun h => h.elim id fun ⟨s, hs, hlt, hglob⟩ => ?_⟩
    rw [hwp, htokens] at hglob
    rw [htokens]
    exact glob_any_of_later hq hs hlt hglob

end

theorem loopOk (any one escape : α) (n fuel : Nat) : LoopOk any one escape n fuel := by
  induction fuel with
  | zero => exact fun _ _ _ _ _ _ hfuel => absurd hfuel (Nat.not_lt_zero _)
  | succ fuel hok =>
    intro value pattern wildcard htried hvalue hwild hfuel
    cases value with
    | nil =>
      rw [likeLoop, ← @glob_tokens_nil α _ any one escape]
      cases htried with
      | first => exact Iff.rfl
      | since q u wp htokens haccepts hlength =>
        refine ⟨Or.inl, fun h => h.resolve_right fun ⟨s, hs, hlt, hglob⟩ => ?_⟩
        -- A later attempt has fewer letters than `q` takes.
        rw [htokens] at hglob
        obtain ⟨v, -, hlen, -⟩ := glob_split haccepts.ne_any hglob
        have := haccepts.length_eq
        rw [append_nil] at hlt
        omega
    | cons b value =>
      rw [likeLoop]
      cases hread : readToken any one escape pattern with
      | none =>
        refine hok.backtrack htried hwild hfuel ?_
        rw [tokens_of_none hread]
        rfl
      | some read =>
        obtain ⟨t, rest⟩ := read
        obtain ⟨htokens, -⟩ := tokens_of_some hread
        cases t with
        | any => exact hok.newWildcard htried hvalue hwild hfuel hread
        | one => exact hok.step htried hvalue hwild hfuel hread nofun rfl
        | lit a =>
          dsimp only
          split
          · next hab => exact hok.step htried hvalue hwild hfuel hread nofun (by rw [hab]; exact beq_self_eq_true a)
          · next hab =>
            refine hok.backtrack htried hwild hfuel ?_
            rw [htokens, glob_cons (nofun : Token.lit a ≠ .any), Token.accepts, beq_false_of_ne (Ne.symm hab),
              Bool.false_and]

theorem sqlLikeTokens_eq : sqlLikeTokens any one escape value pattern = glob (tokens any one escape pattern) value := by
  rw [Bool.eq_iff_iff]
  refine loopOk any one escape value.length _ value pattern none Tried.first le_rfl nofun ?_
  rw [loopCost, likeFuel, Nat.succ_mul (pattern.length + 1)]
  have : value.length + 1 ≤ (value.length + 1) * (value.length + 2) := Nat.le_mul_of_pos_right _ (by omega)
  omega

end

/-! ## Characters and bytes -/

def byteOf (c : Char) : UInt8 := UInt8.ofNat c.toNat

variable {c : Char} {s pattern value : Text}

theorem byteOf_inj {d : Char} (hc : c.toNat < 128) (hd : d.toNat < 128) (h : byteOf c = byteOf d) : c = d := by
  have hnat : c.toNat = d.toNat := by
    have := congrArg UInt8.toNat h
    simp only [byteOf, UInt8.toNat_ofNat'] at this
    omega
  exact Char.ext (UInt32.toNat_inj.1 hnat)

theorem encode_ascii (hc : c.toNat < 128) : String.utf8EncodeChar c = [byteOf c] := by
  have hle : c.val.toNat ≤ 127 := Nat.le_of_lt_succ hc
  simp only [String.utf8EncodeChar, if_pos hle]
  rfl

theorem encode_ne_nil (c : Char) : String.utf8EncodeChar c ≠ [] := by
  simp only [String.utf8EncodeChar]
  split_ifs <;> exact nofun

/-- The code of a character outside ASCII has no ASCII byte. -/
theorem ascii_of_mem {b : UInt8} (hmem : b ∈ String.utf8EncodeChar c) (hb : b.toNat < 128) : c.toNat < 128 := by
  have key (m n : Nat) (hn : 128 ≤ n) (hlt : m + n < 256) (hm : b = UInt8.ofNat (m + n)) : False := by
    rw [hm, UInt8.toNat_ofNat'] at hb
    omega
  show c.val.toNat < 128
  simp only [String.utf8EncodeChar] at hmem
  split_ifs at hmem with h1 h2 h3
  · omega
  all_goals simp only [mem_cons, not_mem_nil, or_false] at hmem
  · rcases hmem with h | h <;> exact (key _ _ (by decide) (by omega) h).elim
  · rcases hmem with h | h | h <;> exact (key _ _ (by decide) (by omega) h).elim
  · rcases hmem with h | h | h | h <;> exact (key _ _ (by decide) (by omega) h).elim

theorem byteOf_mem_encode {a : Char} (ha : a.toNat < 128) (h : byteOf a ∈ String.utf8EncodeChar c) : c = a := by
  have hc : c.toNat < 128 := by
    refine ascii_of_mem h ?_
    rw [byteOf, UInt8.toNat_ofNat']
    omega
  rw [encode_ascii hc, mem_singleton] at h
  exact (byteOf_inj ha hc h).symm

theorem utf8_ascii (h : isAscii s = true) : utf8 s = s.map byteOf := by
  induction s with
  | nil => rfl
  | cons c s ih =>
    rw [isAscii, all_cons, Bool.and_eq_true, decide_eq_true_eq] at h
    rw [utf8, flatMap_cons, encode_ascii h.1, ← utf8, ih h.2]
    rfl

theorem lt_of_isAscii (h : isAscii s = true) (hc : c ∈ s) : c.toNat < 128 :=
  of_decide_eq_true (all_eq_true.1 h c hc)

theorem tokens_utf8 (h : isAscii pattern = true) :
    tokens 37 95 92 (utf8 pattern) = (tokens '%' '_' '\\' pattern).map (Token.map byteOf) := by
  have hinj (d : Char) (hd : d.toNat < 128) : ∀ c ∈ pattern, byteOf c = byteOf d → c = d :=
    fun c hc => byteOf_inj (lt_of_isAscii h hc) hd
  rw [utf8_ascii h]
  exact tokens_map (hinj '%' (by decide)) (hinj '_' (by decide)) (hinj '\\' (by decide))

theorem sqlLike_eq (value pattern : Text) : sqlLike value pattern = like value pattern := by
  rw [sqlLike, like]
  split
  · next hascii =>
    obtain ⟨hvalue, hpattern⟩ := Bool.and_eq_true_iff.1 hascii
    rw [sqlLikeTokens_eq, tokens_utf8 hpattern, utf8_ascii hvalue]
    exact glob_map fun a ha b hb =>
      byteOf_inj (lt_of_isAscii hpattern (mem_of_lit ha)) (lt_of_isAscii hvalue hb)
  · exact sqlLikeTokens_eq

/-- Without `_`, an ASCII pattern can be matched on the bytes of any text. -/
theorem glob_utf8 (hascii : isAscii pattern = true) (hone : .one ∉ tokens 37 95 92 (utf8 pattern)) :
    glob (tokens 37 95 92 (utf8 pattern)) (utf8 value) = like value pattern := by
  rw [tokens_utf8 hascii] at hone ⊢
  refine glob_flatMap (fun hmem => hone (mem_map.2 ⟨.one, hmem, rfl⟩)) encode_ne_nil fun a ha => ?_
  have hlt := lt_of_isAscii hascii (mem_of_lit ha)
  exact ⟨encode_ascii hlt, fun c => byteOf_mem_encode hlt⟩

/-! ## Prepared patterns -/

/-- L20-32 -/
inductive LikeStrategy where
  | any
  | exact (literal : List UInt8)
  | prefixed (literal : List UInt8)
  | suffixed (literal : List UInt8)
  | contains (literal : List UInt8)
  | ordered (segments : List (List UInt8)) (anchoredStart anchoredEnd : Bool)

/-- The variables of the loop at string_pattern.rs:121-160. -/
structure ParseState where
  segments : List (List UInt8) := []
  current : List UInt8 := []
  hasAny : Bool := false
  firstTokenSeen : Bool := false
  anchoredStart : Bool := true
  endsWithAny : Bool := false

namespace ParseState

/-- One token of the loop; a `_` gives up. -/
def read (st : ParseState) : Token UInt8 → Option ParseState
  | .lit byte => some { st with
      current := st.current ++ [byte], firstTokenSeen := true, endsWithAny := false }
  | .any => some { st with
      anchoredStart := st.anchoredStart && st.firstTokenSeen, firstTokenSeen := true, hasAny := true,
      endsWithAny := true, segments := if st.current.isEmpty then st.segments else st.segments ++ [st.current],
      current := [] }
  | .one => none

/-- L161-164 -/
def allSegments (st : ParseState) : List (List UInt8) :=
  if !st.current.isEmpty || !st.hasAny then st.segments ++ [st.current] else st.segments

end ParseState

/-- L166-188 -/
def strategyOf (segments : List (List UInt8)) (hasAny anchoredStart anchoredEnd : Bool) : LikeStrategy :=
  if !hasAny then .exact (segments.getLast?.getD [])
  else match segments with
    | [] => .any
    | [literal] => match anchoredStart, anchoredEnd with
      | true, true => .exact literal
      | true, false => .prefixed literal
      | false, true => .suffixed literal
      | false, false => .contains literal
    | segments => .ordered segments anchoredStart anchoredEnd

structure PreparedLikePattern where
  strategy : LikeStrategy

open PreparedLikePattern

/-- L116-193 -/
def PreparedLikePattern.tryNew (pattern : Text) : Option PreparedLikePattern :=
  if !isAscii pattern then none
  else ((tokens 37 95 92 (utf8 pattern)).foldlM ParseState.read {}).map fun st =>
    ⟨strategyOf st.allSegments st.hasAny st.anchoredStart (!st.endsWithAny)⟩

variable (finder : Finder UInt8)

/-- L288-297: the pieces between the anchored ones, each at its leftmost place. -/
def matchMiddle (value : List UInt8) : List (List UInt8) → Nat → Option Nat
  | [], cursor => some cursor
  | segment :: rest, cursor =>
    (finder.find segment (value.drop cursor)).bind fun relative =>
      matchMiddle value rest (cursor + relative + segment.length)

def startsWith (value literal : List UInt8) : Bool :=
  literal.length ≤ value.length && value.take literal.length == literal

/-- The last bytes are there, equal to `literal`, and not before `cursor`. -/
def endsWith (value literal : List UInt8) (cursor : Nat) : Bool :=
  let start := value.length - literal.length
  literal.length ≤ value.length && (cursor ≤ start && value.drop start == literal)

/-- L268-310 -/
def matchesOrderedSegments (value : List UInt8) (segments : List (List UInt8)) (anchoredStart anchoredEnd : Bool) :
    Bool :=
  let first := segments.headD []
  if anchoredStart && !startsWith value first then false
  else
    let cursor := if anchoredStart then first.length else 0
    let rest := if anchoredStart then segments.tail else segments
    (matchMiddle finder value (if anchoredEnd then rest.dropLast else rest) cursor).any fun cursor =>
      !anchoredEnd || endsWith value (rest.getLastD []) cursor

namespace PreparedLikePattern

/-- L206-234 -/
def matchesBytes (prepared : PreparedLikePattern) (value : List UInt8) : Bool :=
  match prepared.strategy with
  | .any => true
  | .exact literal => value == literal
  | .prefixed literal => startsWith value literal
  | .suffixed literal => endsWith value literal 0
  | .contains literal => (finder.find literal value).isSome
  | .ordered segments anchoredStart anchoredEnd =>
    matchesOrderedSegments finder value segments anchoredStart anchoredEnd

/-- `Iterator::max_by_key` on lengths: the last of the longest. -/
def longest : List (List UInt8) → Option (List UInt8)
  | [] => none
  | s :: rest => match longest rest with
    | none => some s
    | some t => if t.length < s.length then some s else some t

/-- L242-265 -/
def searchAnchor (prepared : PreparedLikePattern) : Option (List UInt8) :=
  match prepared.strategy with
  | .contains literal => some literal
  | .ordered segments _ _ => longest (segments.filter fun s => !s.isEmpty)
  | .any | .exact _ | .prefixed _ | .suffixed _ => none

end PreparedLikePattern

section
variable {p : List (Token UInt8)} {st st' : ParseState} {segments rest middle after : List (List UInt8)}
  {value : List UInt8} {anchoredStart anchoredEnd : Bool} {cursor : Nat}

theorem runs_nil_iff (hone : .one ∉ p) (h : (runs p).2 = []) : (runs p).1 = [] ↔ p = [] := by
  cases p with
  | nil => exact ⟨fun _ => rfl, fun _ => rfl⟩
  | cons t p =>
    cases t with
    | any => cases h
    | one => exact absurd (mem_cons_self) hone
    | lit a => exact ⟨nofun, nofun⟩

/-- What the loop has read: the pieces between the wildcards, and whether it began and ended with one. -/
structure Reads (st : ParseState) (p : List (Token UInt8)) (st' : ParseState) : Prop where
  hasAny : st'.hasAny = (st.hasAny || !(runs p).2.isEmpty)
  exact : (runs p).2 = [] → st'.current = st.current ++ (runs p).1
  segments : (st'.segments ++ [st'.current]).filter (· != []) =
    (st.segments ++ (st.current ++ (runs p).1) :: (runs p).2).filter (· != [])
  start : st'.anchoredStart = (st.anchoredStart && (st.firstTokenSeen || p.isEmpty || !(runs p).1.isEmpty))
  ends : st'.endsWithAny = match (runs p).2.getLast? with
    | none => st.endsWithAny && p.isEmpty
    | some last => last.isEmpty
  nonempty : (∀ s ∈ st.segments, s ≠ []) → ∀ s ∈ st'.segments, s ≠ []

theorem reads_of_foldlM (h : p.foldlM ParseState.read st = some st') : .one ∉ p ∧ Reads st p st' := by
  induction p generalizing st with
  | nil =>
    obtain rfl : st = st' := Option.some.inj h
    refine ⟨not_mem_nil, ?_, ?_, ?_, ?_, ?_, id⟩ <;> simp [runs]
  | cons t p ih =>
    rw [foldlM_cons] at h
    cases t with
    | one => cases h
    | lit a =>
      obtain ⟨hone, hany, hexact, hsegments, hstart, hends, hnonempty⟩ := ih h
      refine ⟨fun hmem => hone ((mem_cons.1 hmem).resolve_left (by simp)), ?_, ?_, ?_, ?_, ?_, hnonempty⟩
      · exact hany
      · intro hr
        rw [hexact hr, append_assoc]
        rfl
      · rw [hsegments, append_assoc]
        rfl
      · rw [hstart]
        simp [runs]
      · rw [hends]
        simp [runs]
    | any =>
      obtain ⟨hone, hany, hexact, hsegments, hstart, hends, hnonempty⟩ := ih h
      refine ⟨fun hmem => hone ((mem_cons.1 hmem).resolve_left (by simp)), ?_,
        fun hr => absurd hr (cons_ne_nil _ _), ?_, ?_, ?_, ?_⟩
      · rw [hany]
        simp [runs]
      · rw [hsegments]
        by_cases hempty : st.current = [] <;> simp [runs, hempty]
      · rw [hstart]
        simp [runs]
      · rw [hends]
        simp only [runs, getLast?_cons]
        cases hr : (runs p).2.getLast? with
        | none =>
          have hp := runs_nil_iff hone (getLast?_eq_none_iff.1 hr)
          rw [Bool.eq_iff_iff]
          simp [hp]
        | some last => simp
      · intro hst
        refine hnonempty fun s hs => ?_
        by_cases hempty : st.current = []
        · simp only [hempty, isEmpty_nil, if_true] at hs
          exact hst s hs
        · simp only [List.isEmpty_iff, hempty, if_false, mem_append, mem_singleton] at hs
          exact hs.elim (hst s) fun heq => heq ▸ hempty

theorem allSegments_eq (hst : ∀ s ∈ st.segments, s ≠ []) (hany : st.hasAny = true) :
    st.allSegments = (st.segments ++ [st.current]).filter (· != []) := by
  have hfilter : st.segments.filter (· != []) = st.segments := filter_eq_self.2 fun s hs => by simpa using hst s hs
  by_cases hempty : st.current = [] <;> simp [ParseState.allSegments, hany, hempty, hfilter]

/-- What the pieces say of a value: the first one at the start if anchored there, the others behind it in order. -/
def Shape (segments : List (List UInt8)) (anchoredStart anchoredEnd : Bool) (value : List UInt8) : Prop :=
  if anchoredStart then ∃ w, value = segments.headD [] ++ w ∧ Chain anchoredEnd segments.tail w
  else Chain anchoredEnd segments value

theorem matchMiddle_iff (h : ¬ (after = [] ∧ anchoredEnd = true)) :
    (∃ c, matchMiddle finder value middle cursor = some c ∧ Chain anchoredEnd after (value.drop c)) ↔
      Chain anchoredEnd (middle ++ after) (value.drop cursor) := by
  induction middle generalizing cursor with
  | nil => simp [matchMiddle]
  | cons segment middle ih =>
    have hne : ¬ (middle ++ after = [] ∧ anchoredEnd = true) :=
      fun ⟨hnil, hend⟩ => h ⟨(append_eq_nil_iff.1 hnil).2, hend⟩
    rw [cons_append, Chain.leftmost finder hne]
    simp only [drop_drop, ← Nat.add_assoc, ← ih, matchMiddle, Option.bind_eq_some_iff]
    constructor
    · intro ⟨c, ⟨i, hi, hc⟩, hchain⟩
      exact ⟨i, hi, c, hc, hchain⟩
    · intro ⟨i, hi, c, hc, hchain⟩
      exact ⟨c, ⟨i, hi, hc⟩, hchain⟩

variable {literal anchor : List UInt8} {pattern : Text} {prepared : PreparedLikePattern}

theorem startsWith_iff : startsWith value literal = true ↔ ∃ w, value = literal ++ w := by
  rw [startsWith, Bool.and_eq_true, decide_eq_true_eq, beq_iff_eq]
  constructor
  · intro ⟨_, htake⟩
    refine ⟨value.drop literal.length, ?_⟩
    nth_rewrite 1 [← take_append_drop literal.length value]
    rw [htake]
  · intro ⟨w, hw⟩
    rw [hw]
    exact ⟨by simp, by simp⟩

theorem endsWith_iff (hne : literal ≠ []) : endsWith value literal cursor = true ↔ literal <:+ value.drop cursor := by
  have hpos := length_pos_iff.2 hne
  simp only [endsWith, Bool.and_eq_true, decide_eq_true_eq, beq_iff_eq]
  constructor
  · intro ⟨hle, hcursor, hdrop⟩
    rw [← hdrop, ← Nat.add_sub_of_le hcursor, ← drop_drop]
    exact drop_suffix ..
  · intro h
    have hle := h.length_le
    rw [length_drop] at hle
    exact ⟨by omega, by omega, (suffix_iff_eq_drop.1 (h.trans (drop_suffix ..))).symm⟩

/-- The part of `matches_ordered_segments` behind an anchored start. -/
theorem rest_iff (hne : rest ≠ []) (hall : ∀ s ∈ rest, s ≠ []) :
    (matchMiddle finder value (if anchoredEnd then rest.dropLast else rest) cursor).any
        (fun c => !anchoredEnd || endsWith value (rest.getLastD []) c) = true ↔
      Chain anchoredEnd rest (value.drop cursor) := by
  rw [Option.any_eq_true]
  cases anchoredEnd with
  | false =>
    rw [← append_nil rest, ← matchMiddle_iff finder (by simp)]
    simp [Chain]
  | true =>
    obtain ⟨init, last, rfl⟩ := eq_nil_or_concat rest |>.resolve_left hne
    have hlast : last ≠ [] := hall last (by simp)
    rw [concat_eq_append, ← matchMiddle_iff finder (by simp)]
    simp [chain_last, endsWith_iff hlast]

theorem matchesOrderedSegments_iff (hlen : 2 ≤ segments.length) (hall : ∀ s ∈ segments, s ≠ []) :
    matchesOrderedSegments finder value segments anchoredStart anchoredEnd = true ↔
      Shape segments anchoredStart anchoredEnd value := by
  obtain ⟨first, second, rest, rfl⟩ : ∃ a b l, segments = a :: b :: l := by
    match segments, hlen with
    | a :: b :: l, _ => exact ⟨a, b, l, rfl⟩
  rw [matchesOrderedSegments, Shape]
  cases anchoredStart with
  | false =>
    rw [if_neg (by simp)]
    exact @rest_iff finder _ value anchoredEnd 0 (by simp) hall
  | true =>
    have hrest := @rest_iff finder (second :: rest) value anchoredEnd first.length (by simp)
      fun s hs => hall s (mem_cons_of_mem _ hs)
    simp only [headD_cons, Bool.true_and, if_true, tail_cons] at hrest ⊢
    by_cases hstart : startsWith value first = true
    · rw [hstart, if_neg (by simp), hrest]
      obtain ⟨w, rfl⟩ := startsWith_iff.1 hstart
      simp
    · rw [if_pos (by simpa using hstart)]
      refine iff_of_false (by simp) fun ⟨w, hw, _⟩ => hstart (startsWith_iff.2 ⟨w, hw⟩)

/-- Where the pieces come from a pattern with a `%`: one piece anchored at both ends has no place for it. -/
theorem strategyOf_iff (hall : ∀ s ∈ segments, s ≠ []) (hstart : segments = [] → anchoredStart = false)
    (hboth : segments.length = 1 → ¬ (anchoredStart = true ∧ anchoredEnd = true)) :
    (mk (strategyOf segments true anchoredStart anchoredEnd)).matchesBytes finder value = true ↔
      Shape segments anchoredStart anchoredEnd value := by
  rcases segments with _ | ⟨literal, _ | ⟨b, l⟩⟩
  · rw [hstart rfl]
    simp [strategyOf, matchesBytes, Shape, Chain]
  · have hne : literal ≠ [] := hall literal (mem_cons_self)
    cases anchoredStart <;> cases anchoredEnd
    · show (finder.find literal value).isSome = true ↔ Chain false [literal] value
      rw [finder.isSome_iff, chain_cons (by simp)]
      constructor
      · rintro ⟨x, w, h⟩
        exact ⟨x, w, h.symm, trivial⟩
      · rintro ⟨x, w, h, -⟩
        exact ⟨x, w, h.symm⟩
    · simp [strategyOf, matchesBytes, Shape, Chain, endsWith_iff hne]
    · simp [strategyOf, matchesBytes, Shape, Chain, startsWith_iff]
    · exact absurd ⟨rfl, rfl⟩ (hboth rfl)
  · exact matchesOrderedSegments_iff finder (by simp) hall

/-- A prepared pattern is the pieces between its wildcards. -/
theorem PreparedLikePattern.tryNew_some (h : tryNew pattern = some prepared) :
    isAscii pattern = true ∧ ∃ st, .one ∉ tokens 37 95 92 (utf8 pattern) ∧
      Reads {} (tokens 37 95 92 (utf8 pattern)) st ∧
      prepared.strategy = strategyOf st.allSegments st.hasAny st.anchoredStart (!st.endsWithAny) := by
  rw [tryNew] at h
  split at h
  · cases h
  · next hascii =>
    obtain ⟨st, hst, rfl⟩ := Option.map_eq_some_iff.1 h
    obtain ⟨hone, hreads⟩ := reads_of_foldlM hst
    exact ⟨by simpa using hascii, st, hone, hreads, rfl⟩

theorem filter_runs_length {l : List UInt8} (hl : l ≠ []) {r : List (List UInt8)} (hr : r ≠ [])
    (hlast : r.getLast hr ≠ []) : ((l :: r).filter (· != [])).length ≠ 1 := by
  rw [filter_cons_of_pos (by simpa using hl), length_cons]
  have hpos : 0 < (r.filter (· != [])).length := length_pos_of_mem (mem_filter.2 ⟨getLast_mem hr, by simpa using hlast⟩)
  omega

/-- A prepared pattern gives the same answer on the bytes of a value as the pattern on its characters. -/
theorem PreparedLikePattern.matchesBytes_eq (h : tryNew pattern = some prepared) (value : Text) :
    prepared.matchesBytes finder (utf8 value) = like value pattern := by
  obtain ⟨hascii, st, hone, hreads, hstrategy⟩ := tryNew_some h
  obtain rfl : prepared = ⟨_⟩ := congrArg mk hstrategy
  rw [← glob_utf8 hascii hone, Bool.eq_iff_iff, glob_runs hone]
  generalize tokens 37 95 92 (utf8 pattern) = p at hone hreads
  obtain ⟨hany, hexact, hsegments, hstart, hends, hnonempty⟩ := hreads
  by_cases hr : (runs p).2 = []
  · have hcurrent : st.current = (runs p).1 := by simpa using hexact hr
    have hno : st.hasAny = false := by simpa [hr] using hany
    simp [hno, strategyOf, ParseState.allSegments, matchesBytes, hcurrent, hr, Follows]
  have hp : p ≠ [] := fun hnil => hr (by rw [hnil]; rfl)
  have hyes : st.hasAny = true := by rw [hany, isEmpty_eq_false_iff.2 hr]; rfl
  have hstart' : st.anchoredStart = !(runs p).1.isEmpty := by rw [hstart, isEmpty_eq_false_iff.2 hp]; rfl
  have hends' : (!st.endsWithAny) = ((runs p).2.getLast hr != []) := by
    rw [hends, getLast?_eq_some_getLast hr]
    cases (runs p).2.getLast hr <;> rfl
  have hall : st.allSegments = ((runs p).1 :: (runs p).2).filter (· != []) := by
    rw [allSegments_eq (hnonempty fun _ hs => absurd hs not_mem_nil) hyes, hsegments]
    rfl
  simp only [follows_iff_chain hr]
  rw [hyes, hall, hstart', hends']
  by_cases hl : (runs p).1 = []
  · rw [hl, filter_cons_of_neg (by simp), strategyOf_iff finder (by simp) (by simp) (by simp)]
    simp [Shape]
  rw [strategyOf_iff finder (by simp) (by simp [hl])]
  · rw [filter_cons_of_pos (by simpa using hl)]
    simp [Shape, hl]
  · rintro hone ⟨-, hlast⟩
    exact filter_runs_length hl hr (by simpa using hlast) hone

theorem longest_mem (h : longest segments = some anchor) : anchor ∈ segments := by
  induction segments with
  | nil => cases h
  | cons s rest ih =>
    rw [longest] at h
    cases hrest : longest rest with
    | none =>
      rw [hrest] at h
      exact Option.some.inj h ▸ mem_cons_self
    | some t =>
      simp only [hrest] at h
      split at h
      · exact Option.some.inj h ▸ mem_cons_self
      · exact mem_cons_of_mem _ (ih (hrest.trans h))

theorem Shape.infix_of_mem {s : List UInt8} (h : Shape segments anchoredStart anchoredEnd value) (hs : s ∈ segments) :
    s <:+: value := by
  rw [Shape] at h
  split at h
  · obtain ⟨w, rfl, hw⟩ := h
    cases segments with
    | nil => cases hs
    | cons first rest =>
      rcases mem_cons.1 hs with rfl | hs
      · exact (prefix_append ..).isInfix
      · exact (hw.infix_of_mem hs).trans (suffix_append ..).isInfix
  · exact h.infix_of_mem hs

theorem strategyOf_ordered {hasAny start finish : Bool}
    (h : strategyOf segments hasAny start finish = .ordered rest anchoredStart anchoredEnd) :
    hasAny = true ∧ rest = segments ∧ 2 ≤ segments.length := by
  cases hasAny with
  | false => cases h
  | true =>
    obtain _ | ⟨first, _ | ⟨second, tail⟩⟩ := segments
    · cases h
    · cases start <;> cases finish <;> cases h
    · cases h
      exact ⟨rfl, rfl, by simp⟩

/-- The anchor a page is searched for is in every value that matches. -/
theorem PreparedLikePattern.searchAnchor_infix
    (h : tryNew pattern = some prepared) (hanchor : prepared.searchAnchor = some anchor)
    (hmatch : prepared.matchesBytes finder value = true) : anchor <:+: value := by
  obtain ⟨_, st, _, hreads, hstrategy⟩ := tryNew_some h
  rw [searchAnchor] at hanchor
  rw [matchesBytes] at hmatch
  generalize hs : prepared.strategy = strategy at hstrategy hanchor hmatch
  match strategy, hanchor with
  | .contains literal, hanchor =>
    obtain rfl := Option.some.inj hanchor
    exact finder.isSome_iff.1 hmatch
  | .ordered segments anchoredStart anchoredEnd, hanchor =>
    obtain ⟨hany, rfl, hlen⟩ := strategyOf_ordered hstrategy.symm
    have hall : ∀ s ∈ st.allSegments, s ≠ [] := by
      rw [allSegments_eq (hreads.nonempty nofun) hany]
      exact fun s hs => by simpa using (mem_filter.1 hs).2
    exact ((matchesOrderedSegments_iff finder hlen hall).1 hmatch).infix_of_mem
      (mem_of_mem_filter (longest_mem hanchor))

end

/-! ## The language of a pattern -/

/-- The values a pattern stands for, by its first character. A backslash at the end, with no character behind it, stands
for itself. -/
inductive InLanguage : Text → Text → Prop
  | nil : InLanguage [] []
  | any (skipped : Text) {pattern value : Text} : InLanguage pattern value →
      InLanguage ('%' :: pattern) (skipped ++ value)
  | one (c : Char) {pattern value : Text} : InLanguage pattern value → InLanguage ('_' :: pattern) (c :: value)
  | quoted (c : Char) {pattern value : Text} : InLanguage pattern value → InLanguage ('\\' :: c :: pattern) (c :: value)
  | trailing : InLanguage ['\\'] ['\\']
  | self {c : Char} {pattern value : Text} (hany : c ≠ '%') (hone : c ≠ '_') (hescape : c ≠ '\\') :
      InLanguage pattern value → InLanguage (c :: pattern) (c :: value)

theorem InLanguage.glob {pattern value : Text} (h : InLanguage pattern value) :
    Glob.glob (tokens '%' '_' '\\' pattern) value = true := by
  induction h with
  | nil => rfl
  | any skipped _ ih =>
    rw [tokens_any]
    exact glob_any.2 ⟨_, suffix_append .., ih⟩
  | @one c pattern value _ ih =>
    have hread : readToken '%' '_' '\\' ('_' :: pattern) = some (.one, pattern) := rfl
    rw [(tokens_of_some hread).1]
    exact glob_one.2 ⟨_, _, rfl, ih⟩
  | @quoted c pattern value _ ih =>
    have hread : readToken '%' '_' '\\' ('\\' :: c :: pattern) = some (.lit c, pattern) := rfl
    rw [(tokens_of_some hread).1]
    exact glob_lit.2 ⟨_, rfl, ih⟩
  | trailing => decide
  | @self c pattern value hany hone hescape _ ih =>
    have hread : readToken '%' '_' '\\' (c :: pattern) = some (.lit c, pattern) := by
      simp [readToken, hany, hone, hescape]
    rw [(tokens_of_some hread).1]
    exact glob_lit.2 ⟨_, rfl, ih⟩

theorem inLanguage_of_glob (h : glob (tokens '%' '_' '\\' pattern) value = true) : InLanguage pattern value := by
  fun_induction tokens '%' '_' '\\' pattern generalizing value with
  | case1 => exact glob_nil.1 h ▸ .nil
  | case2 c =>
    split_ifs at h with hany hone
    · subst hany
      obtain ⟨s, ⟨skipped, rfl⟩, hs⟩ := glob_any.1 h
      exact .any skipped (glob_nil.1 hs ▸ .nil)
    · subst hone
      obtain ⟨b, w, rfl, hw⟩ := glob_one.1 h
      exact .one b (glob_nil.1 hw ▸ .nil)
    · obtain ⟨w, rfl, hw⟩ := glob_lit.1 h
      rw [glob_nil.1 hw]
      by_cases hescape : c = '\\'
      · exact hescape ▸ .trailing
      · exact .self hany hone hescape .nil
  | case3 d rest ih =>
    obtain ⟨s, ⟨skipped, rfl⟩, hs⟩ := glob_any.1 h
    exact .any skipped (ih hs)
  | case4 d rest _ ih =>
    obtain ⟨b, w, rfl, hw⟩ := glob_one.1 h
    exact .one b (ih hw)
  | case5 d rest _ _ ih =>
    obtain ⟨w, rfl, hw⟩ := glob_lit.1 h
    exact .quoted d (ih hw)
  | case6 c d rest hany hone hescape ih =>
    obtain ⟨w, rfl, hw⟩ := glob_lit.1 h
    exact .self hany hone hescape (ih hw)

/-- **LIKE.** `sql_like` decides the language of the pattern. A prepared pattern gives the same answer on the bytes of
every value, and its search anchor is in every value that matches. -/
theorem sqlLike_language (finder : Finder UInt8) (pattern : Text) :
    (∀ value, sqlLike value pattern = true ↔ InLanguage pattern value) ∧
    ∀ prepared, tryNew pattern = some prepared →
      (∀ value, prepared.matchesBytes finder (utf8 value) = sqlLike value pattern) ∧
      ∀ anchor, prepared.searchAnchor = some anchor →
        ∀ value, prepared.matchesBytes finder (utf8 value) = true → anchor <:+: utf8 value := by
  refine ⟨fun value => ?_, fun prepared h => ⟨fun value => ?_, fun anchor hanchor value hmatch => ?_⟩⟩
  · rw [sqlLike_eq, like]
    exact ⟨inLanguage_of_glob, InLanguage.glob⟩
  · rw [sqlLike_eq, matchesBytes_eq finder h]
  · exact searchAnchor_infix finder h hanchor hmatch

example : ((tryNew ['%', 'a', '%']).bind (·.searchAnchor)) = some [97] := by decide

end Paro.L1.StringPattern
