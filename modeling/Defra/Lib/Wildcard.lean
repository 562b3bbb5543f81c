import Mathlib.Data.List.Basic

/-! # Patterns with a wildcard

A wildcard stands for a list. A matcher reads the text once and keeps a row of answers, one for each beginning of the pattern;
the row's rule is stated here once, for any meaning of a beginning. -/

namespace Wildcard
open List
variable {α β : Type*} {wild : α} {allowed : List α → Prop} {text pat p done rest : List α} {means : List α → Prop}

/-- `text` is `pat` with each wildcard replaced by a list that is allowed. -/
inductive Written (wild : α) (allowed : List α → Prop) : List α → List α → Prop where
  | nil : Written wild allowed [] []
  | literal {a : α} {pat text : List α} : a ≠ wild → Written wild allowed pat text →
      Written wild allowed (a :: pat) (a :: text)
  | fill {pat text : List α} (x : List α) : allowed x → Written wild allowed pat text →
      Written wild allowed (wild :: pat) (x ++ text)

abbrev Any (_ : List α) : Prop := True

theorem written_nil : Written wild allowed [] text ↔ text = [] := by
  constructor
  · rintro ⟨⟩
    rfl
  · rintro rfl
    exact .nil

theorem written_wild : Written wild allowed (wild :: pat) text ↔
    ∃ x rest, text = x ++ rest ∧ allowed x ∧ Written wild allowed pat rest := by
  constructor
  · intro h
    cases h with
    | literal hne => exact absurd rfl hne
    | fill x hx h => exact ⟨x, _, rfl, hx, h⟩
  · rintro ⟨x, rest, rfl, hx, h⟩
    exact .fill x hx h

theorem written_literal {a : α} (ha : a ≠ wild) : Written wild allowed (a :: pat) text ↔
    ∃ rest, text = a :: rest ∧ Written wild allowed pat rest := by
  constructor
  · intro h
    cases h with
    | literal _ h => exact ⟨_, rfl, h⟩
    | fill => exact absurd rfl ha
  · rintro ⟨rest, rfl, h⟩
    exact .literal ha h

theorem written_append {q : List α} : Written wild allowed (p ++ q) text ↔
    ∃ x y, text = x ++ y ∧ Written wild allowed p x ∧ Written wild allowed q y := by
  constructor
  · intro h
    induction p generalizing text with
    | nil => exact ⟨[], text, rfl, .nil, h⟩
    | cons a p ih =>
      cases h with
      | literal ha h =>
        obtain ⟨x, y, rfl, hp, hq⟩ := ih h
        exact ⟨a :: x, y, rfl, .literal ha hp, hq⟩
      | fill z hz h =>
        obtain ⟨x, y, rfl, hp, hq⟩ := ih h
        exact ⟨z ++ x, y, (append_assoc z x y).symm, .fill z hz hp, hq⟩
  · rintro ⟨x, y, rfl, hp, hq⟩
    induction hp with
    | nil => exact hq
    | literal ha _ ih => exact .literal ha ih
    | fill z hz _ ih =>
      rw [append_assoc]
      exact .fill z hz ih

theorem written_concat_wild : Written wild allowed (p ++ [wild]) text ↔
    ∃ x y, text = x ++ y ∧ Written wild allowed p x ∧ allowed y := by
  rw [written_append]
  refine exists_congr fun x => exists_congr fun y => and_congr_right fun _ => and_congr_right fun _ => ?_
  rw [written_wild]
  constructor
  · rintro ⟨z, rest, rfl, hz, hr⟩
    rw [written_nil.mp hr, append_nil]
    exact hz
  · exact fun hy => ⟨y, [], (append_nil y).symm, hy, .nil⟩

theorem written_concat_literal {a : α} (ha : a ≠ wild) : Written wild allowed (p ++ [a]) text ↔
    ∃ x, text = x ++ [a] ∧ Written wild allowed p x := by
  rw [written_append]
  constructor
  · rintro ⟨x, y, rfl, hp, hy⟩
    obtain ⟨rest, rfl, hr⟩ := (written_literal ha).mp hy
    rw [written_nil.mp hr]
    exact ⟨x, rfl, hp⟩
  · rintro ⟨x, rfl, hp⟩
    exact ⟨x, [a], rfl, hp, .literal ha .nil⟩

theorem written_empty (h : Written wild allowed p []) : ∀ a ∈ p, a = wild := by
  generalize ht : ([] : List α) = text at h
  induction h with
  | nil => exact fun a ha => absurd ha not_mem_nil
  | literal => cases ht
  | fill x _ _ ih =>
    obtain ⟨-, htext⟩ := append_eq_nil_iff.mp ht.symm
    exact forall_mem_cons.mpr ⟨rfl, ih htext.symm⟩

theorem Written.mono {allowed' : List α → Prop} (hallowed : ∀ x, allowed x → allowed' x)
    (h : Written wild allowed p text) : Written wild allowed' p text := by
  induction h with
  | nil => exact .nil
  | literal ha _ ih => exact .literal ha ih
  | fill x hx _ ih => exact .fill x (hallowed x hx) ih

/-- The wildcards at the start stand for any list together, those at the end may be left out, and each other stands for a
    list that is not empty. -/
def Apart (wild : α) (pat text : List α) : Prop :=
  ∃ lead mid trail x y, pat = lead ++ mid ++ trail ∧ (∀ a ∈ lead, a = wild) ∧ (∀ a ∈ trail, a = wild) ∧
    text = x ++ y ∧ (lead = [] → x = []) ∧ Written wild (· ≠ []) mid y

theorem written_wilds (hp : ∀ a ∈ p, a = wild) {x : List α} (hx : p = [] → x = []) : Written wild Any p x := by
  induction p generalizing x with
  | nil => rw [hx rfl]; exact .nil
  | cons a p ih =>
    obtain ⟨rfl, hp⟩ := forall_mem_cons.mp hp
    have h : Written a Any (a :: p) (x ++ []) := .fill x trivial (ih hp fun _ => rfl)
    rwa [append_nil] at h

theorem Apart.written (h : Apart wild pat text) : Written wild Any pat text := by
  obtain ⟨lead, mid, trail, x, y, rfl, hl, ht, rfl, hx, hm⟩ := h
  rw [append_assoc]
  refine written_append.mpr ⟨x, y, rfl, written_wilds hl hx, ?_⟩
  exact written_append.mpr ⟨y, [], (append_nil y).symm, hm.mono fun _ _ => trivial, written_wilds ht fun _ => rfl⟩

/-- An answer for each longer beginning of the pattern, `done` being the one before it. -/
inductive Tells (means : List α → Prop) : List α → List α → List Bool → Prop where
  | nil (done : List α) : Tells means done [] []
  | cons {done rest : List α} {a : α} {answer : Bool} {row : List Bool} : (answer = true ↔ means (done ++ [a])) →
      Tells means (done ++ [a]) rest row → Tells means done (a :: rest) (answer :: row)

/-- Each answer is from the pattern's symbol, the old answer before it, the new one before it and the old answer. -/
def nextRow (answer : α → Bool → Bool → Bool → Bool) : List α → List Bool → Bool → Bool → List Bool
  | a :: pat, old :: row, prev, cur => answer a prev cur old :: nextRow answer pat row old (answer a prev cur old)
  | _, _, _, _ => []

theorem Tells.nextRow {means' : List α → Prop} {answer : α → Bool → Bool → Bool → Bool}
    (ha : ∀ done a (prev cur old : Bool), (prev = true ↔ means done) → (cur = true ↔ means' done) →
      (old = true ↔ means (done ++ [a])) → (answer a prev cur old = true ↔ means' (done ++ [a])))
    {row : List Bool} (h : Tells means done rest row) {prev cur : Bool} (hp : prev = true ↔ means done)
    (hc : cur = true ↔ means' done) : Tells means' done rest (nextRow answer rest row prev cur) := by
  induction h generalizing prev cur with
  | nil done => exact .nil done
  | cons ho _ ih =>
    have hnew := ha _ _ prev cur _ hp hc ho
    exact .cons hnew (ih ho hnew)

theorem Tells.getLast {row : List Bool} (h : Tells means done rest row) {first : Bool} (hf : first = true ↔ means done) :
    (first :: row).getLast (cons_ne_nil _ _) = true ↔ means (done ++ rest) := by
  induction h generalizing first with
  | nil done => rw [append_nil]; exact hf
  | cons hanswer _ ih =>
    rw [getLast_cons (cons_ne_nil _ _), ih hanswer, append_assoc]
    rfl

def startRow [DecidableEq α] (wild : α) : List α → List Bool
  | [] => []
  | a :: pat => if a = wild then true :: startRow wild pat else (a :: pat).map fun _ => false

theorem tells_false (h : ∀ q, q ≠ [] → ¬means (done ++ q)) : Tells means done rest (rest.map fun _ => false) := by
  induction rest generalizing done with
  | nil => exact .nil done
  | cons a rest ih =>
    refine .cons ⟨fun hf => absurd hf Bool.false_ne_true, fun hm => absurd hm (h [a] (cons_ne_nil _ _))⟩ ?_
    refine ih fun q hq => ?_
    rw [append_assoc]
    exact h ([a] ++ q) (cons_ne_nil _ _)

theorem tells_startRow [DecidableEq α] (hm : ∀ q, means q ↔ ∀ a ∈ q, a = wild)
    (hd : ∀ a ∈ done, a = wild) : Tells means done rest (startRow wild rest) := by
  induction rest generalizing done with
  | nil => exact .nil done
  | cons a rest ih =>
    unfold startRow
    split
    · rename_i ha
      have hnext : ∀ b ∈ done ++ [a], b = wild := by
        rw [forall_mem_append]
        exact ⟨hd, forall_mem_singleton.mpr ha⟩
      exact .cons ⟨fun _ => (hm _).mpr hnext, fun _ => rfl⟩ (ih hnext)
    · rename_i ha
      have hnone : ∀ q, ¬means (done ++ a :: q) := fun q hq =>
        ha ((hm _).mp hq a (mem_append_right _ mem_cons_self))
      refine .cons ⟨fun hfalse => absurd hfalse Bool.false_ne_true, fun h => absurd h (hnone [])⟩ (tells_false fun q _ => ?_)
      rw [append_assoc]
      exact hnone q

/-- A wildcard is one symbol that no other code has. A code is told from what follows it, and none starts inside another. -/
structure Code (code : α → List β) (wild : α) (wild' : β) : Prop where
  code_wild : code wild = [wild']
  literal : ∀ a, a ≠ wild → wild' ∉ code a
  ne_nil : ∀ a, code a ≠ []
  starts : ∀ (a : α) (text : List α) (rest : List β), text.flatMap code = code a ++ rest →
    ∃ text', text = a :: text' ∧ rest = text'.flatMap code
  inside : ∀ (a : α) (text : List α) (x rest : List β), text.flatMap code = x ++ (code a ++ rest) →
    ∃ u v, text = u ++ v ∧ code a ++ rest = v.flatMap code

section
variable {code : α → List β} {wild' : β} {allowed' : List β → Prop}

theorem written_literals {word pat text : List β} (hw : wild' ∉ word) : Written wild' allowed' (word ++ pat) text ↔
    ∃ rest, text = word ++ rest ∧ Written wild' allowed' pat rest := by
  induction word generalizing text with
  | nil => exact ⟨fun h => ⟨text, rfl, h⟩, by rintro ⟨rest, rfl, h⟩; exact h⟩
  | cons b word ih =>
    obtain ⟨hb, hw⟩ := not_or.mp (mt mem_cons.mpr hw)
    rw [cons_append, written_literal (Ne.symm hb)]
    constructor
    · rintro ⟨rest, rfl, h⟩
      obtain ⟨rest', rfl, h'⟩ := (ih hw).mp h
      exact ⟨rest', rfl, h'⟩
    · rintro ⟨rest, rfl, h⟩
      exact ⟨word ++ rest, rfl, (ih hw).mpr ⟨rest, rfl, h⟩⟩

theorem Code.written_iff (h : Code code wild wild') [DecidableEq α] :
    Written wild' Any (pat.flatMap code) (text.flatMap code) ↔ Written wild Any pat text := by
  constructor
  · intro hw
    induction pat generalizing text with
    | nil =>
      cases text with
      | nil => exact .nil
      | cons a text => exact absurd (append_eq_nil_iff.mp (written_nil.mp hw)).1 (h.ne_nil a)
    | cons a pat ih =>
      rw [flatMap_cons] at hw
      by_cases ha : a = wild
      · subst ha
        rw [h.code_wild] at hw
        obtain ⟨x, y, hxy, -, hy⟩ := written_wild.mp hw
        cases pat with
        | nil =>
          have h' : Written a Any [a] (text ++ []) := .fill text trivial .nil
          rwa [append_nil] at h'
        | cons b pat =>
          by_cases hb : b = a
          · -- The wildcard before another one can stand for nothing.
            refine Written.fill [] trivial (ih ?_)
            subst hb
            rw [flatMap_cons, h.code_wild] at hy ⊢
            obtain ⟨x', y', rfl, -, hy'⟩ := written_wild.mp hy
            rw [hxy, ← append_assoc]
            exact .fill _ trivial hy'
          · obtain ⟨rest, hr, -⟩ := (written_literals (h.literal b hb)).mp hy
            rw [hr] at hxy
            obtain ⟨u, v, rfl, hv⟩ := h.inside b text x rest hxy
            refine Written.fill u trivial (ih ?_)
            rw [← hv, ← hr]
            exact hy
      · obtain ⟨rest, hr, hp⟩ := (written_literals (h.literal a ha)).mp hw
        obtain ⟨text', rfl, rfl⟩ := h.starts a text rest hr
        exact .literal ha (ih hp)
  · intro hw
    induction hw with
    | nil => exact .nil
    | literal ha _ ih =>
      exact (written_literals (h.literal _ ha)).mpr ⟨_, rfl, ih⟩
    | fill x _ _ ih =>
      rw [flatMap_cons, h.code_wild, flatMap_append]
      exact .fill _ trivial ih

end

end Wildcard
