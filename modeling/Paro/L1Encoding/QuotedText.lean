import Mathlib.Data.List.DropRight
import Paro.L1Encoding.StringPattern

/-!
# Text from a client: string literals and bytea parameters

Model of `QuotedString::from_str` (crates/parser/src/ast/quote.rs) on `LiteralString` tokens, and of
`parse_bytea_text` (crates/session/src/prepared/parameters.rs). Each decoder is a loop that reads an item, pushes
what it denotes and skips it (`readAll`); a panic, or an overflow, is an outcome of its own.

`decoders_safe_iff`: a literal is decoded without a panic exactly when each octal escape that is reached is a
character, since the digits have no bound; and a bytea text exactly as its format says when no slice of a hex text
ends inside a character and no digit has a plus sign before it, which `from_str_radix` accepts.
-/
namespace Paro.L1.QuotedText
open List StringPattern

inductive Outcome (ε α : Type)
  | ok (value : α)
  | error (e : ε)
  | panic

/-! ## The loop of a decoder -/

section
variable {α β : Type} (item : α → List α → Outcome Unit (List β × Nat))

def readAll (output : List β) : List α → Outcome Unit (List β)
  | [] => .ok output
  | a :: rest =>
    match item a rest with
    | .ok (pushed, n) => readAll (output ++ pushed) (rest.drop n)
    | .error e => .error e
    | .panic => .panic
termination_by input => input.length
decreasing_by
  rw [length_drop, length_cons]
  omega

/-- The input is read up to a place. -/
inductive Reads : List α → List β → List α → Prop
  | here (input : List α) : Reads input [] input
  | item {a : α} {rest place : List α} {pushed output : List β} {n : Nat} (h : item a rest = .ok (pushed, n))
    (hrest : Reads (rest.drop n) output place) : Reads (a :: rest) (pushed ++ output) place

variable {item} {input place : List α} {output before : List β}

theorem Reads.push {a : α} {rest : List α} {b : β} {n : Nat} (h : item a rest = .ok ([b], n))
    (hrest : Reads item (rest.drop n) output place) : Reads item (a :: rest) (b :: output) place :=
  .item h hrest

theorem Reads.readAll_eq (h : Reads item input output place) (before : List β) :
    readAll item before input = readAll item (before ++ output) place := by
  induction h generalizing before with
  | here => rw [append_nil]
  | item h _ ih => rw [readAll, h]; dsimp only; rw [ih, append_assoc]

theorem readAll_ok {all : List β} (h : readAll item before input = .ok all) :
    ∃ output, all = before ++ output ∧ Reads item input output [] := by
  fun_induction readAll item before input with
  | case1 before => exact ⟨[], by cases h; rw [append_nil], .here []⟩
  | case2 before a rest pushed n hitem ih =>
    obtain ⟨output, rfl, hreads⟩ := ih h
    exact ⟨_, append_assoc .., .item hitem hreads⟩
  | case3 | case4 => cases h

theorem readAll_ok_iff : readAll item [] input = .ok output ↔ Reads item input output [] := by
  constructor
  · intro h
    obtain ⟨_, rfl, hreads⟩ := readAll_ok h
    exact hreads
  · intro h
    rw [h.readAll_eq, readAll, nil_append]

theorem readAll_panic_iff : readAll item before input = .panic ↔
    ∃ output a rest, Reads item input output (a :: rest) ∧ item a rest = .panic := by
  constructor
  · intro h
    fun_induction readAll item before input with
    | case1 | case3 => cases h
    | case2 before a rest pushed n hitem ih =>
      obtain ⟨output, b, tail, hreads, hpanic⟩ := ih h
      exact ⟨_, b, tail, .item hitem hreads, hpanic⟩
    | case4 before a rest hitem => exact ⟨[], a, rest, .here _, hitem⟩
  · rintro ⟨output, a, rest, hreads, hitem⟩
    rw [hreads.readAll_eq, readAll, hitem]

end

/-! ## String literals -/

/-- `char::to_digit`, for a radix up to 16 -/
def toDigit (radix : Nat) (c : Char) : Option Nat :=
  let digit := if '0' ≤ c ∧ c ≤ '9' then c.toNat - 48 else if 'a' ≤ c ∧ c ≤ 'f' then c.toNat - 87
    else if 'A' ≤ c ∧ c ≤ 'F' then c.toNat - 55 else radix
  if digit < radix then some digit else none

/-- `char::from_u32` -/
def fromU32 (code : Nat) : Option Char := if code.isValidChar then some (.ofNat code) else none

def unescape (digits : Nat) (chars : Text) : Option Char :=
  ((chars.take digits).foldlM (fun code c => (toDigit 16 c).map (code * 16 + ·)) 0).bind fromU32

/-- quote.rs:177-185 -/
def unescapeUnicode : Text → Option Char := unescape 4

/-- quote.rs:187-195 -/
def unescapeByte : Text → Option Char := unescape 2

def octalDigits (chars : Text) : Text := chars.takeWhile fun c => (toDigit 8 c).isSome

def octalValue (digits : Text) : Nat := digits.foldl (fun oct c => oct * 8 + (toDigit 8 c).getD 0) 0

/-- Nothing where the source panics: the value, which only grows, overflows a `u32` or is no character.
quote.rs:197-211 -/
def unescapeOctal (c1 : Char) (chars : Text) : Option Char := fromU32 (octalValue (c1 :: octalDigits chars))

def escapes : List (Char × Char) :=
  [('b', '\x08'), ('f', '\x0c'), ('n', '\n'), ('r', '\r'), ('t', '\t'), ('\x27', '\x27'), ('\x22', '\x22'),
    ('\\', '\\')]

/-- One round of the loop of `from_str`; no two arms of its match have a character in common. quote.rs:120-151 -/
def readChar (quote c : Char) (chars : Text) : Outcome Unit (Text × Nat) :=
  if c = '\\' then
    match chars with
    | [] => .ok (['\\'], 0)
    | e :: rest =>
      if (toDigit 8 e).isSome then
        (unescapeOctal e rest).elim .panic fun x => .ok ([x], 1 + (octalDigits rest).length)
      else if e = 'u' then (unescapeUnicode rest).elim (.error ()) fun x => .ok ([x], 5)
      else if e = 'x' then (unescapeByte rest).elim (.error ()) fun x => .ok ([x], 3)
      else .ok ((escapes.lookup e).elim ['\\', e] fun x => [x], 1)
  else if c = quote then if chars.head? = some quote then .ok ([quote], 1) else .error ()
  else .ok ([c], 0)

/-- quote.rs:109-155 -/
def fromStr : Text → Outcome Unit Text
  | [] => .error ()
  | quote :: chars => if chars.getLast? = some quote then readAll (readChar quote) [] chars.dropLast else .error ()

/-- The text behind the letter of an escape string. parser/expr.rs:2067-2069 -/
def stripEscape : Text → Text
  | 'E' :: text | 'e' :: text => text
  | text => text

inductive LiteralError | invalidEscape | expectToken

/-- The string of a token. parser/expr.rs:2061-2082 -/
def literalString (token : Text) : Outcome LiteralError Text :=
  match fromStr (stripEscape token) with
  -- `is_string_quote` takes the single quote only
  | .ok s => if (stripEscape token).head? = some '\x27' then .ok s else .error .expectToken
  | .error _ => .error .invalidEscape
  | .panic => .panic

/-- The texts `([^q\\]|\\.|qq)*` between two quotes. -/
inductive Content (q : Char) : Text → Prop
  | nil : Content q []
  | plain {c : Char} {cs : Text} (hc : c ≠ q ∧ c ≠ '\\') (h : Content q cs) : Content q (c :: cs)
  | escape {c : Char} {cs : Text} (hc : c ≠ '\n') (h : Content q cs) : Content q ('\\' :: c :: cs)
  | doubled {cs : Text} (h : Content q cs) : Content q (q :: q :: cs)

/-- The texts of the tokens. token.rs:182-186 -/
inductive LiteralString : Text → Prop
  | backtick {cs : Text} (h : '\x60' ∉ cs) : LiteralString ('\x60' :: (cs ++ ['\x60']))
  | quoted {q : Char} {c : Text} (hq : q = '\x22' ∨ q = '\x27') (h : Content q c) : LiteralString (q :: (c ++ [q]))
  | escaped {e : Char} {cs : Text} (he : e = 'e' ∨ e = 'E') (h : Content '\x27' cs) :
    LiteralString (e :: '\x27' :: (cs ++ ['\x27']))

/-- Each octal escape that is reached is a character. -/
def OctalsFit (literal : Text) : Prop :=
  ∀ quote content, literal = quote :: (content ++ [quote]) → ∀ output e rest,
    Reads (readChar quote) content output ('\\' :: e :: rest) → (toDigit 8 e).isSome →
      (octalValue (e :: octalDigits rest)).isValidChar

theorem readChar_panic_iff {quote c : Char} {chars : Text} :
    readChar quote c chars = .panic ↔ ∃ e rest, c :: chars = '\\' :: e :: rest ∧ (toDigit 8 e).isSome ∧
      ¬ (octalValue (e :: octalDigits rest)).isValidChar := by
  unfold readChar
  split
  · subst c
    rcases chars with _ | ⟨e, rest⟩
    · simp
    dsimp only
    split
    · rename_i hd
      rw [unescapeOctal, fromU32]
      split
      · rename_i hvalid
        refine iff_of_false nofun ?_
        rintro ⟨_, _, heq, -, hbad⟩
        cases heq
        exact hbad hvalid
      · rename_i hbad
        exact iff_of_true rfl ⟨e, rest, rfl, hd, hbad⟩
    · rename_i hd
      refine iff_of_false ?_ (by simp [hd])
      split_ifs
      · cases unescapeUnicode rest <;> exact nofun
      · cases unescapeByte rest <;> exact nofun
      · exact nofun
  · rename_i hc
    split_ifs <;> simp [hc]

theorem fromStr_ne_panic_iff (literal : Text) : fromStr literal ≠ .panic ↔ OctalsFit literal := by
  constructor
  · intro h quote content hlit output e rest hreads he
    by_contra hbad
    subst hlit
    refine h ?_
    rw [fromStr, if_pos (by simp), dropLast_concat]
    exact readAll_panic_iff.2 ⟨_, _, _, hreads, readChar_panic_iff.2 ⟨e, rest, rfl, he, hbad⟩⟩
  · intro h hpanic
    rcases literal with _ | ⟨quote, chars⟩
    · cases hpanic
    rw [fromStr] at hpanic
    split at hpanic
    · rename_i hlast
      obtain ⟨content, rfl⟩ := getLast?_eq_some_iff.1 hlast
      rw [dropLast_concat, readAll_panic_iff] at hpanic
      obtain ⟨output, a, rest, hreads, hitem⟩ := hpanic
      obtain ⟨e, rest, heq, he, hbad⟩ := readChar_panic_iff.1 hitem
      exact hbad (h quote content rfl output e rest (heq ▸ hreads) he)
    · cases hpanic

theorem literalString_ne_panic_iff (token : Text) : literalString token ≠ .panic ↔ OctalsFit (stripEscape token) := by
  rw [← fromStr_ne_panic_iff, literalString]
  cases fromStr (stripEscape token) with
  | ok s => split_ifs <;> simp
  | error | panic => simp

/-! ## Bytea parameters -/

variable (c : Char)

/-- `char::is_whitespace` -/
def isWhitespace : Bool :=
  c.toNat ∈ [9, 10, 11, 12, 13, 32, 0x85, 0xa0, 0x1680, 0x2028, 0x2029, 0x202f, 0x205f, 0x3000] ∨
    0x2000 ≤ c.toNat ∧ c.toNat ≤ 0x200a

def trim (text : Text) : Text := (text.dropWhile isWhitespace).rdropWhile isWhitespace

/-- `u8::from_str_radix` on two characters -/
def fromStrRadix (c d : Char) : Option UInt8 :=
  (if c = '+' then some 0 else toDigit 16 c).bind fun high => (toDigit 16 d).map fun low => .ofNat (16 * high + low)

/-- The two next bytes end inside a character or behind the text. -/
def splits (rest : Text) : Bool := 0x800 ≤ c.toNat || (c.toNat < 128 && rest.head?.all (128 ≤ ·.toNat))

/-- The slice of two bytes and its digits; a character of two bytes is none. parameters.rs:680-684 -/
def hexItem (rest : Text) : Outcome Unit (List UInt8 × Nat) :=
  if splits c rest then .panic
  else if 128 ≤ c.toNat then .error ()
  else (fromStrRadix c (rest.headD c)).elim (.error ()) fun byte => .ok ([byte], 1)

variable (digits : List UInt8)

def octalOf : Nat := digits.foldl (fun value b => value * 8 + (b.toNat - 48)) 0

/-- Three octal digits of a value that fits a byte. -/
def isOctal : Bool :=
  digits.length = 3 && (digits.all fun b => 48 ≤ b && b ≤ 55) && octalOf digits ≤ 255

/-- parameters.rs:691-718 -/
def escapeItem (b : UInt8) (rest : List UInt8) : Outcome Unit (List UInt8 × Nat) :=
  if b ≠ 92 then .ok ([b], 0)
  else if rest.head? = some 92 then .ok ([92], 1)
  else if isOctal (rest.take 3) then .ok ([.ofNat (octalOf (rest.take 3))], 3)
  else .error ()

def hexText : Text → Option Text
  | '\\' :: 'x' :: hex | '\\' :: 'X' :: hex => some hex
  | _ => none

variable (trimmed : Text)

def decode : Outcome Unit (List UInt8) :=
  match hexText trimmed with
  | some hex => if (utf8 hex).length % 2 ≠ 0 then .error () else readAll hexItem [] hex
  | none => readAll escapeItem [] (utf8 trimmed)

/-- Every error is the same `invalid_value`. parameters.rs:670-720 -/
def parseByteaText (text : Text) : Outcome (String × Text) (List UInt8) :=
  match decode (trim text) with
  | .ok bytes => .ok bytes
  | .error _ => .error ("bytea", text)
  | .panic => .panic

/-- Pairs of hexadecimal digits. -/
inductive Spells : Text → List UInt8 → Prop
  | nil : Spells [] []
  | pair {c d : Char} {high low : Nat} {hex : Text} {bytes : List UInt8} (hc : toDigit 16 c = some high)
    (hd : toDigit 16 d = some low) (h : Spells hex bytes) : Spells (c :: d :: hex) (.ofNat (16 * high + low) :: bytes)

/-- Bytes other than a backslash, doubled backslashes and octal escapes. -/
inductive Denotes : List UInt8 → List UInt8 → Prop
  | nil : Denotes [] []
  | byte {b : UInt8} {text bytes : List UInt8} (hb : b ≠ 92) (h : Denotes text bytes) : Denotes (b :: text) (b :: bytes)
  | backslash {text bytes : List UInt8} (h : Denotes text bytes) : Denotes (92 :: 92 :: text) (92 :: bytes)
  | octal {digits text bytes : List UInt8} (hd : isOctal digits) (h : Denotes text bytes) :
    Denotes (92 :: (digits ++ text)) (.ofNat (octalOf digits) :: bytes)

def Means (bytes : List UInt8) : Prop :=
  (hexText trimmed).elim (Denotes (utf8 trimmed) bytes) (Spells · bytes)

/-- No slice that is reached ends inside a character, and a text that is read whole has no plus sign. -/
def HexFits : Prop :=
  ∀ hex, hexText trimmed = some hex → (utf8 hex).length % 2 = 0 →
    (∀ output c rest, Reads hexItem hex output (c :: rest) → splits c rest = false) ∧
      ∀ output, Reads hexItem hex output [] → '+' ∉ hex

/-- The answer is the bytes that the text means, and an error when it means none. -/
def AsSpecified (text : Text) : Prop :=
  (∀ bytes, parseByteaText text = .ok bytes ↔ Means (trim text) bytes) ∧
    ((∀ bytes, ¬ Means (trim text) bytes) → parseByteaText text = .error ("bytea", text))

variable {c : Char} {hex : Text} {bytes : List UInt8}

theorem ascii_of_toDigit {digit : Nat} (h : toDigit 16 c = some digit) : c.toNat < 128 := by
  have hchar : ∀ d : Char, c ≤ d → d.toNat < 128 → c.toNat < 128 := fun d hle hlt => lt_of_le_of_lt hle hlt
  unfold toDigit at h
  split_ifs at h with h1 h2 h3
  · exact hchar _ h1.2 (by decide)
  · exact hchar _ h2.2 (by decide)
  · exact hchar _ h3.2 (by decide)
  · simp at h

theorem Spells.reads (h : Spells hex bytes) :
    Reads hexItem hex bytes [] ∧ isAscii hex ∧ hex.length % 2 = 0 ∧ '+' ∉ hex := by
  induction h with
  | nil => exact ⟨.here [], rfl, rfl, not_mem_nil⟩
  | @pair c d high low hex bytes hc hd _ ih =>
    have hc' := ascii_of_toDigit hc
    have hd' := ascii_of_toDigit hd
    have hplus : c ≠ '+' ∧ d ≠ '+' := by
      constructor
      · rintro rfl; cases hc
      · rintro rfl; cases hd
    obtain ⟨hreads, hascii, heven, hnone⟩ := ih
    refine ⟨.push (n := 1) ?_ hreads, by simp_all [isAscii], by simp only [length_cons]; omega,
      by simp [hplus.1.symm, hplus.2.symm, hnone]⟩
    rw [hexItem, if_neg (by simp [splits]; omega), if_neg (by omega), fromStrRadix, if_neg hplus.1, hc, headD_cons, hd]
    rfl

theorem Reads.spells (h : Reads hexItem hex bytes []) (hplus : '+' ∉ hex) : Spells hex bytes := by
  generalize hplace : [] = place at h
  induction h with
  | here => subst hplace; exact .nil
  | @item c rest place pushed output n h _ ih =>
    rw [hexItem] at h
    split_ifs at h with hsplit hwide
    rcases rest with _ | ⟨d, rest⟩
    · simp_all [splits]
    rw [fromStrRadix, if_neg fun heq => hplus (by simp [heq]), headD_cons] at h
    cases hc : toDigit 16 c with
    | none => rw [hc] at h; cases h
    | some high =>
      cases hd : toDigit 16 d with
      | none => rw [hc, hd] at h; cases h
      | some low =>
        rw [hc, hd] at h
        cases h
        exact .pair hc hd (ih (fun hmem => hplus (by simp_all)) hplace)

theorem reads_escape_iff {text : List UInt8} : Reads escapeItem text bytes [] ↔ Denotes text bytes := by
  constructor
  · intro h
    generalize hplace : [] = place at h
    induction h with
    | here => subst hplace; exact .nil
    | @item b rest place pushed output n h _ ih =>
      rw [escapeItem] at h
      split_ifs at h with hb hdouble hd
      · cases h
        exact .byte hb (ih hplace)
      · cases h
        obtain ⟨tail, rfl⟩ := head?_eq_some_iff.1 hdouble
        rw [not_not.1 hb]
        exact .backslash (ih hplace)
      · cases h
        have hall := Denotes.octal hd (ih hplace)
        rwa [take_append_drop, ← not_not.1 hb] at hall
  · intro h
    induction h with
    | nil => exact .here []
    | byte hb _ ih => exact .push (n := 0) (if_pos hb) ih
    | backslash _ ih => exact .push (n := 1) rfl ih
    | @octal digits text bytes hd _ ih =>
      have hlen : digits.length = 3 := by simp_all [isOctal]
      refine .push (n := 3) ?_ (by rwa [drop_left' hlen])
      rw [escapeItem, if_neg (by simp), take_left' hlen, if_neg, if_pos hd]
      rcases digits with _ | ⟨d, digits⟩
      · cases hlen
      · rintro heq
        cases heq
        simp [isOctal] at hd

theorem hexItem_panic_iff {rest : Text} : hexItem c rest = .panic ↔ splits c rest = true := by
  unfold hexItem
  split
  · simp_all
  · rename_i hsplits
    refine iff_of_false ?_ hsplits
    split
    · exact nofun
    · cases fromStrRadix c (rest.headD c) <;> exact nofun

theorem escapeItem_ne_panic (b : UInt8) (rest : List UInt8) : escapeItem b rest ≠ .panic := by
  unfold escapeItem
  split_ifs <;> exact nofun

theorem asSpecified_iff (text : Text) : AsSpecified text ↔
    (∀ bytes, decode (trim text) = .ok bytes ↔ Means (trim text) bytes) ∧ decode (trim text) ≠ .panic := by
  unfold AsSpecified parseByteaText
  cases decode (trim text) with
  | ok all =>
    simp
    exact fun h => ⟨all, (h all).1 rfl⟩
  | error e => simp
  | panic => simp

theorem asSpecified_iff_hexFits (text : Text) : AsSpecified text ↔ HexFits (trim text) := by
  rw [asSpecified_iff]
  generalize trim text = trimmed
  unfold decode HexFits Means
  cases hexText trimmed with
  | none =>
    refine iff_of_true ⟨fun bytes => readAll_ok_iff.trans reads_escape_iff, fun hpanic => ?_⟩ nofun
    obtain ⟨_, b, rest, -, hitem⟩ := readAll_panic_iff.1 hpanic
    exact escapeItem_ne_panic b rest hitem
  | some hex =>
    simp only [Option.elim_some, Option.some.injEq, forall_eq']
    by_cases heven : (utf8 hex).length % 2 = 0
    · have hpanic : readAll hexItem [] hex ≠ .panic ↔
          ∀ output c rest, Reads hexItem hex output (c :: rest) → splits c rest = false := by
        simp [readAll_panic_iff, hexItem_panic_iff]
      rw [if_neg (not_not.2 heven), hpanic, and_comm, forall_prop_of_true heven]
      refine and_congr_right fun _ => ⟨fun h output hreads => ?_, fun h bytes => ?_⟩
      · exact ((h output).1 (readAll_ok_iff.2 hreads)).reads.2.2.2
      · rw [readAll_ok_iff]
        exact ⟨fun hreads => hreads.spells (h bytes hreads), fun hspells => hspells.reads.1⟩
    · rw [if_pos heven]
      refine iff_of_true ⟨fun bytes => iff_of_false nofun fun hspells => heven ?_, nofun⟩ fun h => absurd h heven
      rw [utf8_ascii hspells.reads.2.1, length_map]
      exact hspells.reads.2.2.1

/-- **Client text.** The text of a literal, and the literal without its `E`, is decoded without a panic, and a bytea
text as its format says, exactly when the octal escapes of the literal fit and the slices and digits of a hex
text do. -/
theorem decoders_safe_iff (literal text : Text) :
    (LiteralString literal → fromStr literal ≠ .panic ∧ literalString literal ≠ .panic) ∧ AsSpecified text ↔
      (LiteralString literal → OctalsFit literal ∧ OctalsFit (stripEscape literal)) ∧ HexFits (trim text) :=
  and_congr (imp_congr_right fun _ => and_congr (fromStr_ne_panic_iff literal) (literalString_ne_panic_iff literal))
    (asSpecified_iff_hexFits text)

def surrogate : Text := ['\\', '1', '5', '4', '0', '0', '0']

theorem content_surrogate : Content '\x27' surrogate :=
  .escape (by decide) (.plain (by decide) (.plain (by decide) (.plain (by decide) (.plain (by decide)
    (.plain (by decide) .nil)))))

/-- An octal escape of a surrogate, in both forms of a literal, and a plus sign among the digits. -/
theorem surrogate_panics :
    (LiteralString ('\x27' :: (surrogate ++ ['\x27'])) ∧ fromStr ('\x27' :: (surrogate ++ ['\x27'])) = .panic) ∧
      (LiteralString ('E' :: '\x27' :: (surrogate ++ ['\x27'])) ∧
        literalString ('E' :: '\x27' :: (surrogate ++ ['\x27'])) = .panic) ∧
      parseByteaText ['\\', 'x', '+', 'f'] = .ok [15] := by
  have hpanic : fromStr ('\x27' :: (surrogate ++ ['\x27'])) = .panic := by
    rw [fromStr, if_pos (by decide)]
    exact readAll_panic_iff.2 ⟨[], _, _, .here _, rfl⟩
  refine ⟨⟨.quoted (.inr rfl) content_surrogate, hpanic⟩, ⟨.escaped (.inr rfl) content_surrogate, ?_⟩, ?_⟩
  · rw [literalString, stripEscape, hpanic]
  · have hdecode : decode (trim ['\\', 'x', '+', 'f']) = .ok [15] :=
      readAll_ok_iff.2 (.push (n := 1) rfl (.here []))
    rw [parseByteaText, hdecode]

end Paro.L1.QuotedText
