import Mathlib.Data.List.Forall2
import Paro.Core.Calls
import Paro.L2Machine.BinaryDictPage

/-!
# Dictionary string columns

A column is written string by string; when the page refuses one it is finished, the builder is reset, and the string
is tried again. The dictionary is written once, at the end. `feed_column` follows the whole column: the dictionary
only grows, so the codes of early pages keep their meaning, and every page means its part of the strings. With the
sizes below `2 ^ 32`, all pages are opened with the final dictionary and read back (`dict_round_trip_iff`); what can
fail is the capacity of a page, which is computed as a `u32`.
-/
namespace Paro.L3.DictColumn
open L1 L2.BitShufflePage L2.BinaryDictPage List DictDecoder

/-- The pages of the strings and the builder after them, with the last page finished too; `none` when a string is
refused by an empty page. -/
def feed (lz4 : Lz4) (builder : DictBuilder) : List Str → Option (List (List UInt8 × Nat) × DictBuilder)
  | [] => (builder.finish lz4).map fun page => ([(page, builder.count)], builder)
  | s :: strs =>
    match builder.addSlice s with
    | (next, true) => feed lz4 next strs
    | (next, false) =>
      match next.finish lz4 with
      | none => none
      | some page =>
        match next.reset.addSlice s with
        | (_, false) => none
        | (retried, true) => (feed lz4 retried strs).map fun fed => ((page, next.count) :: fed.1, fed.2)

variable (lz4 : Lz4) (pageSize dictPageSize : Nat) (strs : List Str)

/-- The pages of a column and its dictionary page. A column without strings has no page. -/
def buildColumn :
    Option (List (List UInt8 × Nat) × Option (List UInt8)) :=
  match DictBuilder.new pageSize dictPageSize with
  | none => none
  | some builder =>
    if strs = [] then some ([], builder.getDictionaryPage)
    else (feed lz4 builder strs).map fun fed => (fed.1, fed.2.getDictionaryPage)

def openPage (page : List UInt8 × Nat) (dictPage : Option (List UInt8)) : Except Error DictDecoder :=
  match setDictDecoder dictPage with
  | .error e => .error e
  | .ok dictDecoder => init lz4 page.1 page.2 dictDecoder

def cursorBatch (pos n : Nat) : List Str × Nat := ((strs.drop pos).take n, min (pos + n) strs.length)

structure Reads (decoder : DictDecoder) (strs : List Str) : Prop where
  batches : ∀ ns, runCalls DictDecoder.nextBatch decoder ns = .ok (specCalls (cursorBatch strs) 0 ns)
  values : ∀ idx (hidx : idx < strs.length), decoder.valueAt idx = .ok (some strs[idx])
  count : decoder.count = strs.length

/-- No retry fails, and the pages, read in order with the dictionary, return the strings. -/
def RoundTrips : Prop :=
  ∃ pages dictPage, buildColumn lz4 pageSize dictPageSize strs = some (pages, dictPage) ∧
    ∃ parts, parts.flatten = strs ∧
      List.Forall₂ (fun page part => ∃ decoder,
        openPage lz4 page dictPage = .ok decoder ∧ Reads decoder part) pages parts

/-- The pages and the dictionary page of a column are below `2 ^ 32` bytes. -/
def SizesFit : Prop :=
  ∀ pages dictPage, buildColumn lz4 pageSize dictPageSize strs = some (pages, dictPage) →
    (∀ page ∈ pages, page.1.length < 2 ^ 32) ∧ ∀ bytes, dictPage = some bytes → bytes.length < 2 ^ 32

/-- The capacity of a page of codes, `(page_size / 4) as u32`, can be rounded up to a multiple of eight, and is not zero
unless there is nothing to write. The codes of a page are below `2 ^ 32` bytes before they are compressed. -/
def Capacity : Prop :=
  pageSize / 4 % 2 ^ 32 + 7 < 2 ^ 32 ∧ (strs = [] ∨ 0 < pageSize / 4 % 2 ^ 32) ∧
    ∀ pages dictPage, buildColumn lz4 pageSize dictPageSize strs = some (pages, dictPage) →
      ∀ page ∈ pages, page.1.head? = some dictEncodingMarker → paddedCount page.2 * 4 < 2 ^ 32

variable {lz4 : Lz4} {builder : DictBuilder} {dict : List Str} {content : Content} {current strs : List Str}

theorem length_codes {places : List Nat} (h : Column builder dict (.codes places)) : places.length + 7 < 2 ^ 32 :=
  h.current.2.2 ▸ (Nat.add_le_add_right h.codes.le 7).trans_lt h.codes.fits

/-- **The whole column.** Every string is taken, the dictionary only grows, and the pages mean the strings. -/
theorem feed_column (lz4 : Lz4) (strs : List Str) (h : Column builder dict content) (hm : content.Means dict current)
    (hsome : current ++ strs ≠ []) :
    ∃ (final : DictBuilder) (grown : List Str) (last : Content) (contents : List Content) (parts : List (List Str)),
      feed lz4 builder strs = some (contents.map (·.page lz4), final) ∧ Column final (dict ++ grown) last ∧
      List.Forall₂ (fun c part => c.Means (dict ++ grown) part) contents parts ∧
      parts.flatten = current ++ strs ∧ (∀ part ∈ parts, part ≠ []) ∧
      ∀ places, .codes places ∈ contents → places.length + 7 < 2 ^ 32 := by
  induction strs generalizing builder dict content current with
  | nil =>
    obtain ⟨hfinish, hcount⟩ := h.finish lz4
    rw [append_nil] at hsome
    refine ⟨builder, [], content, [content], [current], by rw [feed, hfinish, hcount]; rfl, by rwa [append_nil],
      .cons (by rwa [append_nil]) .nil, by rw [flatten_singleton, append_nil], fun part hpart => ?_,
      fun places hm => ?_⟩
    · rwa [mem_singleton.1 hpart]
    · exact length_codes (mem_singleton.1 hm ▸ h)
  | cons s strs ih =>
    have hnext : ∀ rest : List Str, rest ++ [s] ++ strs ≠ [] := fun rest hnil => by simp at hnil
    rcases h.addSlice hm s with ⟨next, grown, content', hadd, hcolumn, hmeans⟩ | ⟨hadd, hpos⟩
    · obtain ⟨final, grown', last, contents, parts, hfeed, hfinal, hparts, hflat, hne⟩ := ih hcolumn hmeans (hnext _)
      rw [append_assoc] at hfinal hparts
      refine ⟨final, grown ++ grown', last, contents, parts, by rw [feed, hadd]; exact hfeed, hfinal, hparts, ?_, hne⟩
      rw [hflat, append_assoc]
      rfl
    · -- the page is finished, and the empty one takes the string
      obtain ⟨hfinish, hcount⟩ := h.finish lz4
      rcases h.reset.addSlice (content.means_cleared dict) s with
        ⟨next, grown, content', hretry, hcolumn, hmeans⟩ | ⟨-, hempty⟩
      · obtain ⟨final, grown', last, contents, parts, hfeed, hfinal, hparts, hflat, hne⟩ := ih hcolumn hmeans (hnext _)
        rw [append_assoc] at hfinal hparts
        refine ⟨final, grown ++ grown', last, content :: contents, current :: parts, ?_, hfinal,
          .cons (hm.mono _) hparts, ?_, fun part hpart => ?_,
          fun places hplaces => ?_⟩
        · rw [feed, hadd]
          dsimp only
          rw [hfinish]
          dsimp only
          rw [hretry]
          dsimp only
          rw [hfeed, hcount]
          rfl
        · rw [flatten_cons, hflat]
          rfl
        · rcases mem_cons.1 hpart with rfl | hpart
          · intro hnil
            have := hm.length_eq
            rw [hnil, length_nil] at this
            omega
          · exact hne.1 part hpart
        · rcases mem_cons.1 hplaces with rfl | hplaces
          · exact length_codes h
          · exact hne.2 places hplaces
      · cases content <;> cases hempty

section
variable {decoder : DictDecoder} (h : ReadsAt decoder dict content 0) (hm : content.Means dict strs)
  (hfit : content.Readable dict)
include h hm hfit

theorem runCalls_nextBatch (ns : List Nat) :
    runCalls nextBatch decoder ns = .ok (specCalls (cursorBatch strs) 0 ns) := by
  refine runCalls_eq (fun decoder pos => ReadsAt decoder dict content pos ∧ pos ≤ strs.length)
    (fun _ => True) ?_ ⟨h, Nat.zero_le _⟩ fun _ _ => trivial
  rintro decoder pos n ⟨h, hpos⟩ -
  obtain ⟨next, hbatch, hnext⟩ := h.nextBatch hm hfit hpos n
  exact ⟨next, hbatch, hnext, Nat.min_le_right _ _⟩

theorem reads : Reads decoder strs :=
  ⟨runCalls_nextBatch h hm hfit, fun _ hidx => h.valueAt hm hfit hidx, h.count hm⟩

end

open BinaryPlain (pageOf decoderAt)

/-- A page of a column is opened with the final dictionary and read as its part of the strings. -/
theorem page_reads (hm : content.Means dict strs) (hne : strs ≠ []) (hpage : (content.page lz4).1.length < 2 ^ 32 ∧
      ((content.page lz4).1.head? = some dictEncodingMarker → paddedCount (content.page lz4).2 * 4 < 2 ^ 32))
    (hdict : dict ≠ [] → (pageOf dict).length < 2 ^ 32) :
    ∃ decoder, openPage lz4 (content.page lz4) (if dict = [] then none else some (pageOf dict)) = .ok decoder ∧
      Reads decoder strs := by
  obtain ⟨dictDecoder, hset, hsome⟩ : ∃ dictDecoder,
      setDictDecoder (if dict = [] then none else some (pageOf dict)) = .ok dictDecoder ∧
        (dict ≠ [] → dictDecoder = some (decoderAt dict 0)) := by
    by_cases hempty : dict = []
    · exact ⟨none, by rw [if_pos hempty]; rfl, fun h => absurd hempty h⟩
    · refine ⟨some (decoderAt dict 0), ?_, fun _ => rfl⟩
      rw [if_neg hempty, setDictDecoder, BinaryPlain.init_page (hdict hempty)]
  have hcodes : (∃ places, content = .codes places) → dict ≠ [] := by
    rintro ⟨places, rfl⟩ rfl
    obtain ⟨place, -, hplace⟩ := means_get hm (length_pos_of_ne_nil hne)
    rw [getElem?_nil] at hplace
    cases hplace
  obtain ⟨hcount, hfit, hreadable⟩ : content.length + 7 < 2 ^ 32 ∧ content.Fits lz4 ∧ content.Readable dict := by
    cases content with
    | codes places =>
      obtain ⟨hbytes, hpadded⟩ := hpage
      have hpadded : paddedCount places.length * 4 < 2 ^ 32 := hpadded rfl
      have hbytes : (dictEncodingMarker :: pageBytes lz4 (Content.codeBytes places) 4 places.length).length <
        2 ^ 32 := hbytes
      rw [length_cons, length_page, length_compressedData] at hbytes
      refine ⟨?_, ⟨hpadded, ?_⟩, hdict (hcodes ⟨places, rfl⟩)⟩
      · show places.length + 7 < 2 ^ 32
        rw [paddedCount] at hpadded
        omega
      · rw [pageHeaderSize]
        omega
    | strings own =>
      have hbytes : (plainEncodingMarker :: pageOf own).length < 2 ^ 32 := hpage.1
      rw [length_cons] at hbytes
      have hlen := BinaryPlain.length_pageOf own
      have hfit : (pageOf own).length < 2 ^ 32 := by omega
      refine ⟨?_, hfit, hfit⟩
      show own.length + 7 < 2 ^ 32
      omega
  obtain ⟨decoder, hinit, hreads⟩ := reads_page lz4 dict (fun h => hsome (hcodes h)) hcount hfit
  exact ⟨decoder, by rw [openPage, hset]; exact hinit, reads hreads hm hreadable⟩

theorem forall₂_pages {dictPage : Option (List UInt8)} {contents : List Content} {parts : List (List Str)}
    (h : List.Forall₂ (fun c part => c.Means dict part) contents parts)
    (hread : ∀ c ∈ contents, ∀ part ∈ parts, c.Means dict part →
      ∃ decoder, openPage lz4 (c.page lz4) dictPage = .ok decoder ∧ Reads decoder part) :
    List.Forall₂ (fun page part => ∃ decoder, openPage lz4 page dictPage = .ok decoder ∧ Reads decoder part)
      (contents.map (·.page lz4)) parts := by
  induction h with
  | nil => exact .nil
  | cons hm hrest ih =>
    refine .cons (hread _ mem_cons_self _ mem_cons_self hm) (ih fun c hc part hpart => ?_)
    exact hread c (mem_cons_of_mem _ hc) part (mem_cons_of_mem _ hpart)

section
variable (hmode : builder.encodingType = .dict) (hzero : builder.codeBuilder.maxCount = 0) (s : Str)
include hmode hzero s

/-- A builder whose capacity is zero refuses every string, on an empty page too. -/
theorem refuses : builder.addSlice s = (builder, false) := by
  rw [DictBuilder.addSlice, DictBuilder.isPageFull, hmode]
  dsimp only
  rw [PageBuilder.isPageFull, decide_eq_true (by omega)]
  rfl

theorem feed_refused (strs : List Str) : feed lz4 builder (s :: strs) = none := by
  have hretry := @refuses builder.reset hmode hzero s
  rw [feed, refuses hmode hzero]
  dsimp only
  cases builder.finish lz4 with
  | none => rfl
  | some page =>
    dsimp only
    rw [hretry]

end

theorem new_eq (pageSize dictPageSize : Nat) :
    DictBuilder.new pageSize dictPageSize = if pageSize / 4 % 2 ^ 32 + 7 < 2 ^ 32 then
        some ⟨pageSize, dictPageSize, .new dictPageSize, ⟨[], 4, pageSize / 4 % 2 ^ 32, 0⟩, [], .dict, none⟩
      else none := by
  rw [DictBuilder.new, PageBuilder.new, alignUp8]
  split <;> rfl

theorem built_column (lz4 : Lz4) {pageSize : Nat} (dictPageSize : Nat) (h8 : 8 ≤ pageSize)
    (hfits : pageSize / 4 % 2 ^ 32 + 7 < 2 ^ 32) (hpos : 0 < pageSize / 4 % 2 ^ 32) (hsome : strs ≠ []) :
    ∃ (dict : List Str) (contents : List Content) (parts : List (List Str)),
      buildColumn lz4 pageSize dictPageSize strs =
        some (contents.map (·.page lz4), if dict = [] then none else some (pageOf dict)) ∧
      List.Forall₂ (fun c part => c.Means dict part) contents parts ∧ parts.flatten = strs ∧
      (∀ part ∈ parts, part ≠ []) ∧ ∀ places, .codes places ∈ contents → places.length + 7 < 2 ^ 32 := by
  have hnew := new_eq pageSize dictPageSize
  rw [if_pos hfits] at hnew
  obtain ⟨final, dict, last, contents, parts, hfeed, hcolumn, hparts, hflat, hne⟩ :=
    feed_column lz4 strs (column_new h8 hpos hnew) (Content.means_cleared [] (.codes [])) hsome
  rw [nil_append] at hcolumn hflat
  simp only [nil_append] at hparts
  refine ⟨dict, contents, parts, ?_, hparts, hflat, hne⟩
  rw [buildColumn, hnew]
  dsimp only
  rw [if_neg hsome, hfeed, Option.map_some, hcolumn.getDictionaryPage]

theorem capacity_of_build {pageSize dictPageSize : Nat} {pages : List (List UInt8 × Nat)}
    {dictPage : Option (List UInt8)}
    (hbuild : buildColumn lz4 pageSize dictPageSize strs = some (pages, dictPage)) :
    pageSize / 4 % 2 ^ 32 + 7 < 2 ^ 32 ∧ (strs = [] ∨ 0 < pageSize / 4 % 2 ^ 32) := by
  rw [buildColumn, new_eq] at hbuild
  by_cases hfits : pageSize / 4 % 2 ^ 32 + 7 < 2 ^ 32
  · refine ⟨hfits, ?_⟩
    rw [if_pos hfits] at hbuild
    dsimp only at hbuild
    cases strs with
    | nil => exact .inl rfl
    | cons s strs =>
      refine .inr (Nat.pos_of_ne_zero fun hzero => ?_)
      rw [if_neg (cons_ne_nil s strs), feed_refused rfl hzero] at hbuild
      cases hbuild
  · rw [if_neg hfits] at hbuild
    cases hbuild

/-- A page of codes that is opened is below `2 ^ 32` bytes before compression: its size is stored as a `u32`. -/
theorem codes_fit_of_open {contents : List Content} {dictPage : Option (List UInt8)} {decoder : DictDecoder}
    (hcodes : ∀ places, .codes places ∈ contents → places.length + 7 < 2 ^ 32) (hc : content ∈ contents)
    (hmarker : (content.page lz4).1.head? = some dictEncodingMarker)
    (hopen : openPage lz4 (content.page lz4) dictPage = .ok decoder) :
    paddedCount (content.page lz4).2 * 4 < 2 ^ 32 := by
  cases content with
  | strings own => exact absurd (Option.some.inj hmarker) (by decide)
  | codes places =>
    by_contra hlarge
    obtain ⟨e, herror⟩ := (@init_page 4 _ lz4 _ (by decide) (Content.length_codeBytes places) (hcodes places hc)).2
      fun hfit => hlarge hfit.1
    unfold openPage at hopen
    split at hopen
    · cases hopen
    · rw [Content.page, init, if_pos rfl, herror] at hopen
      cases hopen

/-- **Round trip.** For any strings whose page and dictionary sizes are below `2 ^ 32`, every page size from 8 on and
every dictionary limit: no retry fails and the pages return the strings, exactly when the capacity of a page is a
`u32` that is not zero and can be rounded up, and the codes of a page have fewer than `2 ^ 32` bytes. -/
theorem dict_round_trip_iff (lz4 : Lz4) (pageSize dictPageSize : Nat) (strs : List Str) (h8 : 8 ≤ pageSize)
    (hsizes : SizesFit lz4 pageSize dictPageSize strs) :
    RoundTrips lz4 pageSize dictPageSize strs ↔ Capacity lz4 pageSize dictPageSize strs := by
  by_cases hcapacity : pageSize / 4 % 2 ^ 32 + 7 < 2 ^ 32 ∧ (strs = [] ∨ 0 < pageSize / 4 % 2 ^ 32)
  · by_cases hempty : strs = []
    · subst hempty
      obtain ⟨dictPage, hbuild⟩ : ∃ dictPage, buildColumn lz4 pageSize dictPageSize [] = some ([], dictPage) :=
        ⟨_, by rw [buildColumn, new_eq, if_pos hcapacity.1]; rfl⟩
      refine ⟨fun _ => ⟨hcapacity.1, hcapacity.2, fun pages _ hbuilt page hpage => ?_⟩, fun _ => ?_⟩
      · cases hbuild.symm.trans hbuilt
        exact absurd hpage not_mem_nil
      · exact ⟨[], _, hbuild, [], rfl, .nil⟩
    obtain ⟨dict, contents, parts, hbuild, hparts, hflat, hne, hcodes⟩ :=
      built_column lz4 dictPageSize h8 hcapacity.1 (hcapacity.2.resolve_left hempty) hempty
    obtain ⟨hpages, hdictPage⟩ := hsizes _ _ hbuild
    constructor
    · rintro ⟨pages, dictPage, hbuilt, parts', -, hopened⟩
      refine ⟨hcapacity.1, hcapacity.2, fun pages' dictPage' hbuilt' page hpage hmarker => ?_⟩
      cases hbuilt.symm.trans hbuilt'
      cases hbuild.symm.trans hbuilt
      obtain ⟨c, hc, rfl⟩ := mem_map.1 hpage
      obtain ⟨decoder, hopen⟩ := ((forall₂_and_left _ _).1 (hopened.imp fun _ _ h =>
        ⟨h.imp fun _ => And.left, trivial⟩)).1 _ hpage
      exact codes_fit_of_open hcodes hc hmarker hopen
    · rintro ⟨-, -, hfit⟩
      refine ⟨_, _, hbuild, parts, hflat, forall₂_pages hparts fun c hc part hpart hm => ?_⟩
      have hmem := mem_map_of_mem (f := (·.page lz4)) hc
      exact page_reads hm (hne part hpart) ⟨hpages _ hmem, hfit _ _ hbuild _ hmem⟩ fun hsome =>
        hdictPage _ (if_neg hsome)
  · refine ⟨?_, fun h => absurd ⟨h.1, h.2.1⟩ hcapacity⟩
    rintro ⟨pages, dictPage, hbuild, -⟩
    exact absurd (capacity_of_build hbuild) hcapacity

/-- A page of codes, and two plain pages once the dictionary is full. -/
theorem dict_round_trip_iff_three_pages :
    RoundTrips .stored 8 13 [[97], [98], [97]] ↔ Capacity .stored 8 13 [[97], [98], [97]] :=
  dict_round_trip_iff .stored 8 13 [[97], [98], [97]] (by decide) fun pages dictPage hbuild => by
    have hsizes : (buildColumn .stored 8 13 [[97], [98], [97]]).map (fun column =>
        (column.1.map fun page => page.1.length, column.2.map length)) = some ([61, 10, 10], some 9) := by
      decide +kernel
    rw [hbuild] at hsizes
    obtain ⟨hpages, hdict⟩ := Prod.mk.inj (Option.some.inj hsizes)
    refine ⟨fun page hpage => ?_, fun bytes hbytes => ?_⟩
    · have hmem := hpages ▸ mem_map_of_mem (f := fun page : List UInt8 × Nat => page.1.length) hpage
      simp only [mem_cons, not_mem_nil, or_false] at hmem
      omega
    · rw [hbytes] at hdict
      have : bytes.length = 9 := Option.some.inj hdict
      omega

/-- With pages of `2 ^ 34` bytes the capacity is 0 as a `u32`: the first string is refused,
and again after the reset. -/
theorem huge_page_refuses : ∃ builder,
    DictBuilder.new (2 ^ 34) (2 ^ 20) = some builder ∧ builder.addSlice [97] = (builder, false) ∧
      builder.reset.addSlice [97] = (builder.reset, false) ∧
      ∀ lz4, buildColumn lz4 (2 ^ 34) (2 ^ 20) [[97]] = none := by
  have hnew := new_eq (2 ^ 34) (2 ^ 20)
  rw [if_pos (by decide)] at hnew
  refine ⟨_, hnew, refuses rfl rfl _, refuses rfl rfl _, fun lz4 => ?_⟩
  rw [buildColumn, hnew]
  dsimp only
  rw [if_neg (by decide), feed_refused rfl rfl]
  rfl

end Paro.L3.DictColumn
