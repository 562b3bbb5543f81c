import Defra.Index.Matcher
import Defra.Query.IndexSelection
import Defra.Theorems.Index.Key

/-! `LIKE` patterns. The matcher of filters reads a pattern as it is meant: `%` stands for any text. The matcher of index entries
    wants a byte for each `%` that stands between two other bytes. -/

namespace Defra
open List Wildcard

/-! ### Text as bytes -/

theorem utf8_eq_flatMap (s : String) : utf8 s = s.toList.flatMap String.utf8EncodeChar := by
  have h : s.toList.utf8Encode = s.toByteArray := String.utf8Encode_toList
  rw [utf8, String.toUTF8, ← h, utf8Encode]
  simp

theorem utf8_starts (c : Char) (text : List Char) (rest : Bytes)
    (h : text.flatMap String.utf8EncodeChar = String.utf8EncodeChar c ++ rest) :
    ∃ text', text = c :: text' ∧ rest = text'.flatMap String.utf8EncodeChar := by
  have hpre : [c] <+: text := by
    refine isPrefix_of_utf8Encode_append_eq_utf8Encode rest.toByteArray ?_
    rw [utf8Encode, utf8Encode, h]
    simp
  obtain ⟨text', rfl⟩ := hpre
  refine ⟨text', rfl, ?_⟩
  rw [singleton_append, flatMap_cons, append_cancel_left_eq] at h
  exact h.symm

theorem utf8_first {c d : Char} {b : UInt8} {x y rest : Bytes} (hd : String.utf8EncodeChar d = x ++ b :: y)
    (hc : String.utf8EncodeChar c = b :: rest) : x = [] := by
  have hlt : x.length < (String.utf8EncodeChar d).length := by rw [hd, length_append, length_cons]; omega
  have hb : (String.utf8EncodeChar d)[x.length] = b := by
    rw [getElem_of_eq hd]
    simp
  have hfirst := UInt8.isUTF8FirstByte_getElem_zero_utf8EncodeChar (c := c)
  rw [getElem_of_eq hc, getElem_cons_zero, ← hb, UInt8.isUTF8FirstByte_getElem_utf8EncodeChar] at hfirst
  exact length_eq_zero_iff.mp hfirst

theorem utf8_inside (c : Char) (text : List Char) (x rest : Bytes)
    (h : text.flatMap String.utf8EncodeChar = x ++ (String.utf8EncodeChar c ++ rest)) :
    ∃ u v, text = u ++ v ∧ String.utf8EncodeChar c ++ rest = v.flatMap String.utf8EncodeChar := by
  induction text generalizing x with
  | nil =>
    obtain ⟨-, h⟩ := append_eq_nil_iff.mp h.symm
    exact absurd (append_eq_nil_iff.mp h).1 String.utf8EncodeChar_ne_nil
  | cons d text ih =>
    rw [flatMap_cons, append_eq_append_iff] at h
    rcases h with ⟨z, rfl, hz⟩ | ⟨z, hd, hz⟩
    · obtain ⟨u, v, rfl, hv⟩ := ih z hz
      exact ⟨d :: u, v, rfl, hv⟩
    · cases z with
      | nil => exact ⟨[d], text, rfl, hz⟩
      | cons b z =>
        obtain ⟨b', word, hc⟩ := exists_cons_of_ne_nil (String.utf8EncodeChar_ne_nil (c := c))
        rw [hc, cons_append, cons_append, cons.injEq] at hz
        obtain ⟨rfl, hz⟩ := hz
        have hx := utf8_first hd hc
        subst hx
        refine ⟨[], d :: text, rfl, ?_⟩
        rw [flatMap_cons, hd, hc, nil_append, cons_append, cons_append, hz]

theorem percent_not_mem {c : Char} (hc : c ≠ '%') : Index.Matcher.percent ∉ String.utf8EncodeChar c := by
  intro hmem
  obtain ⟨x, y, hsp⟩ := append_of_mem hmem
  have hp : String.utf8EncodeChar '%' = [Index.Matcher.percent] := rfl
  have hx := utf8_first hsp hp
  subst hx
  have hc' : [c].flatMap String.utf8EncodeChar = String.utf8EncodeChar '%' ++ y := by
    rw [flatMap_singleton, hsp]
    rfl
  obtain ⟨_, heq, -⟩ := utf8_starts '%' [c] y hc'
  exact hc (cons.inj heq).1

theorem code_utf8 : Code String.utf8EncodeChar '%' Index.Matcher.percent where
  code_wild := rfl
  literal _ := percent_not_mem
  ne_nil _ := String.utf8EncodeChar_ne_nil
  starts := utf8_starts
  inside := utf8_inside

end Defra

variable {text done pat : Bytes} {byte : UInt8} {row : List Bool}

namespace Defra.Query
open Index Wildcard

/-! ### The matcher of filters -/

/-- The text is the pattern with some text for each `%`. -/
def Meets (text pat : String) : Prop := Written '%' Any pat.toList text.toList

theorem written_utf8 (text pat : String) : Written percent Any (utf8 pat) (utf8 text) ↔ Meets text pat := by
  rw [utf8_eq_flatMap, utf8_eq_flatMap]
  exact code_utf8.written_iff

theorem likeStart_eq (pat : Bytes) : likeStart pat = startRow percent pat := by
  induction pat with
  | nil => rfl
  | cons p pat ih => rw [likeStart, startRow, ih]

/-- What stands in a row after a byte, from the pattern's byte and the entries around it. -/
def likeEntry (byte p : UInt8) (prev cur old : Bool) : Bool :=
  if p = percent then cur || old else if byte = p then prev else false

theorem likeRow_eq (byte : UInt8) (pat : Bytes) (row : List Bool) (prev cur : Bool) :
    likeRow byte pat row prev cur = nextRow (likeEntry byte) pat row prev cur := by
  induction pat generalizing row prev cur with
  | nil => rfl
  | cons p pat ih =>
    cases row with
    | nil => rfl
    | cons old row => exact congrArg (_ :: ·) (ih row _ _)

theorem likeEntry_written {p : UInt8} {prev cur old : Bool}
    (hprev : prev = true ↔ Written percent Any done text) (hc : cur = true ↔ Written percent Any done (text ++ [byte]))
    (ho : old = true ↔ Written percent Any (done ++ [p]) text) :
    likeEntry byte p prev cur old = true ↔ Written percent Any (done ++ [p]) (text ++ [byte]) := by
  unfold likeEntry
  split
  · rename_i hp
    subst hp
    rw [Bool.or_eq_true, hc, ho, written_concat_wild, written_concat_wild]
    constructor
    · rintro (h | ⟨x, y, rfl, hx, -⟩)
      · exact ⟨_, [], (List.append_nil _).symm, h, trivial⟩
      · exact ⟨x, y ++ [byte], List.append_assoc .., hx, trivial⟩
    · rintro ⟨x, y, hxy, hx, -⟩
      rcases List.eq_nil_or_concat y with rfl | ⟨y, b, rfl⟩
      · rw [List.append_nil] at hxy
        rw [hxy]
        exact .inl hx
      · rw [List.concat_eq_append, ← List.append_assoc] at hxy
        exact .inr ⟨x, y, (List.append_inj' hxy rfl).1, hx, trivial⟩
  · rename_i hp
    rw [written_concat_literal hp]
    split
    · rename_i hb
      subst hb
      rw [hprev]
      constructor
      · exact fun h => ⟨text, rfl, h⟩
      · rintro ⟨x, hx, h⟩
        rwa [(List.append_inj' hx rfl).1]
    · rename_i hb
      refine ⟨fun h => absurd h Bool.false_ne_true, ?_⟩
      rintro ⟨x, hx, -⟩
      exact absurd (List.cons.inj (List.append_inj' hx rfl).2).1 hb

theorem likeRows_iff {read : Bytes} {first : Bool}
    (hr : Tells (Written percent Any · read) [] pat row) (hf : first = true ↔ Written percent Any [] read) :
    likeRows pat text row first = true ↔ Written percent Any pat (read ++ text) := by
  induction text generalizing read row first with
  | nil =>
    rw [likeRows, hr.getLast hf, List.append_nil]
    rfl
  | cons byte text ih =>
    have hnone : false = true ↔ Written percent Any [] (read ++ [byte]) := by
      rw [written_nil]
      simp
    have hnext : Tells (Written percent Any · (read ++ [byte])) [] pat
        (nextRow (likeEntry byte) pat row first false) :=
      hr.nextRow (fun _ _ _ _ _ => likeEntry_written) hf hnone
    rw [likeRows, likeRow_eq, ih hnext hnone, List.append_assoc]
    rfl

theorem likePatternMatch_iff (text pat : String) : likePatternMatch text pat = true ↔ Meets text pat := by
  have hempty : ∀ q : Bytes, Written percent Any q [] ↔ ∀ a ∈ q, a = percent := fun q =>
    ⟨written_empty, fun h => written_wilds h fun _ => rfl⟩
  rw [← written_utf8, likePatternMatch, likeStart_eq]
  exact likeRows_iff (tells_startRow hempty (by simp)) ⟨fun _ => .nil, fun _ => rfl⟩

end Defra.Query

namespace Defra.Index.Matcher
open Wildcard

/-! ### The matcher of index entries -/

/-- The wildcards at the start stand for any bytes together, and each other for some. -/
def Begun (text pat : Bytes) : Prop :=
  ∃ lead mid x y, pat = lead ++ mid ∧ (∀ a ∈ lead, a = percent) ∧ text = x ++ y ∧ (lead = [] → x = []) ∧
    Written percent (· ≠ []) mid y

theorem begun_nil : Begun text [] ↔ text = [] := by
  constructor
  · rintro ⟨lead, mid, x, y, hn, -, rfl, hx, hy⟩
    obtain ⟨rfl, rfl⟩ := List.append_eq_nil_iff.mp hn.symm
    rw [hx rfl, written_nil.mp hy]
    rfl
  · rintro rfl
    exact ⟨[], [], [], [], rfl, by simp, rfl, fun _ => rfl, .nil⟩

theorem begun_empty : Begun [] pat ↔ ∀ a ∈ pat, a = percent := by
  constructor
  · rintro ⟨lead, mid, x, y, rfl, hl, htext, -, hy⟩
    obtain ⟨rfl, rfl⟩ := List.append_eq_nil_iff.mp htext.symm
    exact List.forall_mem_append.mpr ⟨hl, written_empty hy⟩
  · exact fun h => ⟨pat, [], [], [], (List.append_nil _).symm, h, rfl, fun _ => rfl, .nil⟩

theorem begun_concat_percent :
    Begun (text ++ [byte]) (done ++ [percent]) ↔ Begun text done ∨ Begun text (done ++ [percent]) := by
  constructor
  · rintro ⟨lead, mid, x, y, hd, hl, ht, hx, hy⟩
    rcases List.eq_nil_or_concat mid with rfl | ⟨mid, p, rfl⟩
    · rw [List.append_nil] at hd
      refine .inr ⟨lead, [], text, [], (List.append_nil _).symm ▸ hd, hl, (List.append_nil _).symm, ?_, .nil⟩
      rw [← hd]
      exact fun h => absurd h (by simp)
    · rw [List.concat_eq_append, ← List.append_assoc] at hd
      obtain ⟨rfl, hp⟩ := List.append_inj' hd rfl
      cases hp
      rw [List.concat_eq_append, written_concat_wild] at hy
      obtain ⟨y, z, rfl, hy, hz⟩ := hy
      obtain ⟨z, b, rfl⟩ := (List.eq_nil_or_concat z).resolve_left hz
      rw [List.concat_eq_append, ← List.append_assoc, ← List.append_assoc] at ht
      obtain ⟨rfl, -⟩ := List.append_inj' ht rfl
      by_cases hz : z = []
      · subst hz
        rw [List.append_nil]
        exact .inl ⟨lead, mid, x, y, rfl, hl, rfl, hx, hy⟩
      · refine .inr ⟨lead, mid ++ [percent], x, y ++ z, List.append_assoc .., hl, List.append_assoc .., hx, ?_⟩
        exact written_concat_wild.mpr ⟨y, z, rfl, hy, hz⟩
  · rintro (⟨lead, mid, x, y, rfl, hl, rfl, hx, hy⟩ | ⟨lead, mid, x, y, hd, hl, rfl, hx, hy⟩)
    · refine ⟨lead, mid ++ [percent], x, y ++ [byte], List.append_assoc .., hl, List.append_assoc .., hx, ?_⟩
      exact written_concat_wild.mpr ⟨y, [byte], rfl, hy, List.cons_ne_nil _ _⟩
    · rcases List.eq_nil_or_concat mid with rfl | ⟨mid, p, rfl⟩
      · refine ⟨lead, [], x ++ y ++ [byte], [], hd, hl, (List.append_nil _).symm, ?_, .nil⟩
        rintro rfl
        exact absurd hd (by simp)
      · have hp := hd
        rw [List.concat_eq_append, ← List.append_assoc] at hp
        cases (List.append_inj' hp rfl).2
        rw [List.concat_eq_append, written_concat_wild] at hy
        obtain ⟨y, z, rfl, hy, hz⟩ := hy
        refine ⟨lead, mid ++ [percent], x, y ++ (z ++ [byte]), ?_, hl, by simp, hx, ?_⟩
        · rw [hd, List.concat_eq_append]
        · exact written_concat_wild.mpr ⟨y, z ++ [byte], rfl, hy, by simp⟩

theorem begun_concat_literal {p : UInt8} (hp : p ≠ percent) :
    Begun (text ++ [byte]) (done ++ [p]) ↔ byte = p ∧ Begun text done := by
  constructor
  · rintro ⟨lead, mid, x, y, hd, hl, ht, hx, hy⟩
    rcases List.eq_nil_or_concat mid with rfl | ⟨mid, q, rfl⟩
    · rw [List.append_nil] at hd
      exact absurd (hl p (hd ▸ List.mem_append_right _ (List.mem_singleton_self p))) hp
    · rw [List.concat_eq_append, ← List.append_assoc] at hd
      obtain ⟨rfl, hq⟩ := List.append_inj' hd rfl
      cases hq
      rw [List.concat_eq_append, written_concat_literal hp] at hy
      obtain ⟨y, rfl, hy⟩ := hy
      rw [← List.append_assoc] at ht
      obtain ⟨rfl, hb⟩ := List.append_inj' ht rfl
      exact ⟨(List.cons.inj hb).1, lead, mid, x, y, rfl, hl, rfl, hx, hy⟩
  · rintro ⟨rfl, lead, mid, x, y, rfl, hl, rfl, hx, hy⟩
    refine ⟨lead, mid ++ [byte], x, y ++ [byte], List.append_assoc .., hl, List.append_assoc .., hx, ?_⟩
    exact (written_concat_literal hp).mpr ⟨y, rfl, hy⟩

def likeEntry (byte p : UInt8) (prev _cur old : Bool) : Bool :=
  if p = percent then prev || old else if byte = p then prev else false

theorem likeRow_eq (byte : UInt8) (pat : Bytes) (row : List Bool) (prev cur : Bool) :
    likeRow byte pat row prev = nextRow (likeEntry byte) pat row prev cur := by
  induction pat generalizing row prev cur with
  | nil => rfl
  | cons p pat ih =>
    cases row with
    | nil => rfl
    | cons old row => exact congrArg (_ :: ·) (ih row _ _)

theorem likeEntry_begun {p : UInt8} {prev cur old : Bool} (hprev : prev = true ↔ Begun text done)
    (ho : old = true ↔ Begun text (done ++ [p])) :
    likeEntry byte p prev cur old = true ↔ Begun (text ++ [byte]) (done ++ [p]) := by
  unfold likeEntry
  split
  · rename_i hp
    subst hp
    rw [Bool.or_eq_true, hprev, ho, begun_concat_percent]
  · rename_i hp
    rw [begun_concat_literal hp]
    split
    · rename_i hb
      rw [hprev, and_iff_right hb]
    · rename_i hb
      exact ⟨fun h => absurd h Bool.false_ne_true, fun h => absurd h.1 hb⟩

theorem apart_iff : Apart percent pat text ↔
    ∃ begin trail, pat = begin ++ trail ∧ (∀ a ∈ trail, a = percent) ∧ Begun text begin := by
  constructor
  · rintro ⟨lead, mid, trail, x, y, rfl, hl, ht, rfl, hx, hm⟩
    exact ⟨lead ++ mid, trail, rfl, ht, lead, mid, x, y, rfl, hl, rfl, hx, hm⟩
  · rintro ⟨_, trail, rfl, ht, lead, mid, x, y, rfl, hl, rfl, hx, hm⟩
    exact ⟨lead, mid, trail, x, y, rfl, hl, ht, rfl, hx, hm⟩

theorem likeEnd_iff {rest : Bytes} (hr : Tells (Begun text) done rest row) {cur : Bool}
    (hc : cur = true ↔ Apart percent done text) : likeEnd rest row cur = true ↔ Apart percent (done ++ rest) text := by
  induction hr generalizing cur with
  | nil done =>
    rw [List.append_nil]
    exact hc
  | @cons done rest p answer row ha _ ih =>
    rw [← List.singleton_append, ← List.append_assoc]
    refine ih ?_
    split
    · rename_i h
      obtain ⟨rfl, hd⟩ := h
      obtain ⟨begun, trail, rfl, ht, hb⟩ := apart_iff.mp (hc.mp hd)
      refine ⟨fun _ => apart_iff.mpr ⟨begun, trail ++ [percent], List.append_assoc .., ?_, hb⟩, fun _ => rfl⟩
      exact List.forall_mem_append.mpr ⟨ht, List.forall_mem_singleton.mpr rfl⟩
    · rename_i h
      rw [ha, apart_iff]
      constructor
      · exact fun hb => ⟨done ++ [p], [], (List.append_nil _).symm, by simp, hb⟩
      · rintro ⟨begun, trail, hd, ht, hb⟩
        rcases List.eq_nil_or_concat trail with rfl | ⟨trail, q, rfl⟩
        · rw [hd, List.append_nil]
          exact hb
        · -- The wildcard is left out, so the beginning before it matched.
          rw [List.concat_eq_append] at ht
          rw [List.concat_eq_append, ← List.append_assoc] at hd
          obtain ⟨rfl, hq⟩ := List.append_inj' hd rfl
          cases hq
          obtain ⟨ht, hp⟩ := List.forall_mem_append.mp ht
          exact absurd ⟨hp p (List.mem_singleton_self p), hc.mpr (apart_iff.mpr ⟨begun, trail, rfl, ht, hb⟩)⟩ h

theorem likeRows_iff {read : Bytes} {first : Bool}
    (hr : Tells (Begun read) [] pat row) (hf : first = true ↔ Begun read []) :
    likeRows pat text row first = true ↔ Apart percent pat (read ++ text) := by
  induction text generalizing read row first with
  | nil =>
    rw [List.append_nil]
    refine likeEnd_iff hr (hf.trans ?_)
    rw [apart_iff]
    constructor
    · exact fun h => ⟨[], [], rfl, by simp, h⟩
    · rintro ⟨begun, trail, hn, -, h⟩
      obtain ⟨rfl, rfl⟩ := List.append_eq_nil_iff.mp hn.symm
      exact h
  | cons byte text ih =>
    have hnone : false = true ↔ Begun (read ++ [byte]) [] := by
      rw [begun_nil]
      simp
    have hnext : Tells (Begun (read ++ [byte])) [] pat (nextRow (likeEntry byte) pat row first false) :=
      hr.nextRow (fun _ _ _ _ _ hprev _ hold => likeEntry_begun hprev hold) hf hnone
    rw [likeRows, likeRow_eq byte pat row first false, ih hnext hnone, List.append_assoc]
    rfl

theorem likeMatch_iff (text pat : String) : likeMatch text pat = true ↔ Apart percent (utf8 pat) (utf8 text) := by
  exact likeRows_iff (tells_startRow (fun _ => begun_empty) (by simp)) ⟨fun _ => begun_nil.mpr rfl, fun _ => rfl⟩

end Defra.Index.Matcher

namespace Defra.Query
open Index Wildcard

/-- The matcher of filters is exact. That of index entries is exact, and answers alike, unless the text is the pattern only
    with nothing in place of a `%` between two other bytes. -/
theorem like_meets (text pat : String) : (likePatternMatch text pat = true ↔ Meets text pat) ∧
      ((Matcher.likeMatch text pat = true ↔ Meets text pat) ↔
        (Meets text pat → Apart percent (utf8 pat) (utf8 text))) ∧
      (Matcher.likeMatch text pat = likePatternMatch text pat ↔
        (Meets text pat → Apart percent (utf8 pat) (utf8 text))) := by
  have hsound : Apart percent (utf8 pat) (utf8 text) → Meets text pat := fun h => (written_utf8 ..).mp h.written
  have he : (Matcher.likeMatch text pat = true ↔ Meets text pat) ↔
      (Meets text pat → Apart percent (utf8 pat) (utf8 text)) := by
    rw [Matcher.likeMatch_iff]
    exact ⟨Iff.mpr, fun h => ⟨hsound, h⟩⟩
  refine ⟨likePatternMatch_iff text pat, he, ?_⟩
  rw [← he, ← likePatternMatch_iff, Bool.eq_iff_iff]

/-- A `%` between two letters that stands for nothing. -/
theorem ab_not_matched : Meets "ab" "a%b" ∧ likePatternMatch "ab" "a%b" = true ∧ Matcher.likeMatch "ab" "a%b" = false := by
  have hmatch : likePatternMatch "ab" "a%b" = true := by decide +kernel
  exact ⟨(likePatternMatch_iff _ _).mp hmatch, hmatch, by decide +kernel⟩

/-! ### Filters on an index -/

def ScanValueFilter.condition : ScanValueFilter → FilterOp × String
  | .like pat => (.like, pat)
  | .nlike pat => (.nlike, pat)
  | .ilike pat => (.ilike, pat)
  | .nilike pat => (.nilike, pat)

def ScanValueFilter.isNegated : ScanValueFilter → Bool
  | .like _ | .ilike _ => false
  | .nlike _ | .nilike _ => true

variable {kind : ScalarKind} {val : NormalValue} (lib : Library) (filter : ScanValueFilter)

theorem matchesValue_string (s : String) : evalOp lib (.string s) filter.condition.1 (.string filter.condition.2) =
      .ok (filter.matchesValue lib (.scalar (.string s))) := by
  cases filter with
  | _ pat => simp [ScanValueFilter.condition, evalOp, likeMatch, ScanValueFilter.matchesValue, filteredString]

theorem evalOp_null : evalOp lib .null filter.condition.1 (.string filter.condition.2) = .ok filter.isNegated := by
  cases filter with
  | _ pat => rfl

/-- What a document shows to filters and to its index. -/
theorem string_forms (hk : kind.baseKind = .nillableString) (h : (FieldKind.scalar kind).Takes val) :
    (val.isNil = true ∧ normalValueToJson lib val = some .null ∧ recovered val = .null) ∨
      ∃ s, val.isNil = false ∧ normalValueToJson lib val = some (.string s) ∧ recovered val = .scalar (.string s) := by
  obtain ⟨hform, htakes⟩ := h
  have hs : ∀ value, val.plain = some value → ∃ s, value = .string s := by
    intro value hp
    obtain ⟨⟨_, hscalar, hv⟩, -⟩ := htakes value hp
    cases hscalar
    unfold ScalarKind.Takes at hv
    rw [hk] at hv
    cases value with
    | string s => exact ⟨s, rfl⟩
    | _ => exact hv.elim
  cases val with
  | null => exact .inl ⟨rfl, rfl, rfl⟩
  | scalar value =>
    obtain ⟨s, rfl⟩ := hs value rfl
    exact .inr ⟨s, rfl, rfl, rfl⟩
  | nillable value =>
    cases value with
    | none => exact .inl ⟨rfl, rfl, rfl⟩
    | some value =>
      obtain ⟨s, rfl⟩ := hs value rfl
      exact .inr ⟨s, rfl, rfl, rfl⟩
  | nillableArray items =>
    cases items with
    | none => exact .inl ⟨rfl, rfl, rfl⟩
    | some items =>
      rcases hform with hnil | ⟨_, hp⟩
      · cases hnil
      · cases hp
  | _ =>
    rcases hform with hnil | ⟨_, hp⟩
    · cases hnil
    · cases hp

/-- The entry of a string field is kept by a value filter wherever the filter's operator holds on the field, except that a
    negated operator holds on null, and no value filter does. -/
theorem like_entry_iff (hkind : kind.baseKind = .nillableString) (descending : Bool)
    (hval : (FieldKind.scalar kind).Takes val) :
    ∃ json key stored, normalValueToJson lib val = some json ∧
      encodeFields [⟨.scalar kind, descending⟩] [val] = some key ∧
      decodeFields [⟨.scalar kind, descending⟩] key = some ([stored], []) ∧
      ((evalOp lib json filter.condition.1 (.string filter.condition.2) = .ok true → filter.matchesValue lib stored = true) ↔
        ¬(val.isNil = true ∧ filter.isNegated = true)) := by
  obtain ⟨key, hk, hread⟩ := encodeFields_isSome (.cons hval .nil : Takes [⟨.scalar kind, descending⟩] [val])
  have hread := hread []
  rw [List.append_nil, List.map_singleton] at hread
  rcases string_forms lib hkind hval with ⟨hn, hj, hs⟩ | ⟨s, hn, hj, hs⟩
  · refine ⟨.null, key, recovered val, hj, hk, hread, ?_⟩
    rw [evalOp_null, hs, hn, Except.ok.injEq]
    simp [ScanValueFilter.matchesValue, filteredString]
  · refine ⟨.string s, key, recovered val, hj, hk, hread, ?_⟩
    rw [matchesValue_string, hs, hn, Except.ok.injEq]
    simp

def plainLibrary : Library where
  parseUtc _ := none
  parseRfc3339 _ := none
  toLowercase s := s
  widenF32 := f64OfF32
  bytesToJson _ := .null
  formatTime _ := ""
  serializeTime _ := ""
  debug _ := ""

/-- A name that starts with an `A`, in a field whose entries are in descending order. -/
theorem alice_entry : ∃ json key stored, normalValueToJson plainLibrary (.scalar (.string "Alice")) = some json ∧
    encodeFields [⟨.scalar .nillableString, true⟩] [.scalar (.string "Alice")] = some key ∧
    decodeFields [⟨.scalar .nillableString, true⟩] key = some ([stored], []) ∧
    ((evalOp plainLibrary json .like (.string "A%") = .ok true →
        (ScanValueFilter.like "A%").matchesValue plainLibrary stored = true) ↔
      ¬((NormalValue.scalar (.string "Alice")).isNil = true ∧ (ScanValueFilter.like "A%").isNegated = true)) :=
  like_entry_iff plainLibrary (.like "A%") rfl true
    ⟨.inr ⟨_, rfl⟩, fun value h => by cases h; exact ⟨⟨_, rfl, trivial⟩, trivial⟩⟩

/-- A document without a name is not like any pattern, and its index entry is left out. -/
theorem null_entry_lost : ∃ key stored, encodeFields [⟨.scalar .nillableString, false⟩] [.nillable none] = some key ∧
      decodeFields [⟨.scalar .nillableString, false⟩] key = some ([stored], []) ∧
      evalOp plainLibrary .null .nlike (.string "A%") = .ok true ∧
      (ScanValueFilter.nlike "A%").matchesValue plainLibrary stored = false :=
  ⟨_, _, rfl, rfl, rfl, rfl⟩

end Defra.Query
