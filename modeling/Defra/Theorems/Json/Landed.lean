import Defra.Theorems.Json.Node

/-! What a frontier reads as with a block of ops on it that has seen all its entries. -/

namespace Defra.Json
open Frontier PathMap List

/-- `g` is `f`, all of it in the block's past, with the block's ops: the entries at the path of an op and below are gone. -/
structure Lands (f : Frontier) (ops : List JsonOp) (b : Bytes) (priority : Nat) (g : Frontier) : Prop where
  new : ∀ path edit, editAt ops path = some edit →
    ∃ e ∈ g.entries, e.path = path ∧ e.edit = edit ∧ e.block = b ∧ e.priority = priority
  kept : ∀ e ∈ f.entries, ¬Reaches ops e.path → e ∈ g.entries
  only : ∀ e ∈ g.entries, (editAt ops e.path = some e.edit ∧ e.block = b ∧ e.priority = priority) ∨
    e ∈ f.entries ∧ ¬Reaches ops e.path

def SetsBelow (ops : List JsonOp) (path : Path) : Prop :=
  ∃ q edit, editAt ops q = some edit ∧ path <+: q ∧ q ≠ path ∧ edit.isDelete = false

theorem mem_of_editAt {ops : List JsonOp} {path : Path} {edit : JsonEdit} (h : editAt ops path = some edit) :
    (⟨path, edit⟩ : JsonOp) ∈ ops := by
  obtain ⟨op, hf, rfl⟩ := Option.map_eq_some_iff.mp h
  have hp : op.path = path := by simpa using find?_some hf
  exact hp ▸ mem_reverse.mp (mem_of_find?_eq_some hf)

theorem lands_compose (f : Frontier) (ops : List JsonOp) (b : Bytes) (priority : Nat) {inPast : Bytes → Bool}
    (hpast : ∀ e ∈ f.entries, inPast e.block = true) :
    Lands f ops b priority (f.compose (f.delta ops b priority inPast)) where
  new path edit hedit := by
    refine ⟨⟨path, b, priority, edit, (f.seenAbove inPast path).toList⟩, ?_, rfl, rfl, rfl, rfl⟩
    exact mem_compose_entries.mpr (.inl (mem_delta_entries.mpr ⟨hedit, rfl, rfl, rfl⟩))
  kept e he hreach := by
    refine mem_compose_entries.mpr (.inr ⟨he, fun hrem => hreach ?_, fun other ho hkey => hreach ?_⟩)
    · exact (mem_delta_removes.mp hrem).2.2
    · exact hkey.1 ▸ reaches_of_editAt (mem_delta_entries.mp ho).1
  only e he := by
    rcases mem_compose_entries.mp he with hn | ⟨hold, hk, -⟩
    · obtain ⟨hedit, hb, hp, -⟩ := mem_delta_entries.mp hn
      exact .inl ⟨hedit, hb, hp⟩
    · refine .inr ⟨hold, fun hreach => hk (mem_delta_removes.mpr ⟨hpast e hold, ⟨e, hold, rfl, rfl⟩, hreach⟩)⟩

namespace Lands
variable {f g : Frontier} {ops : List JsonOp} {b : Bytes} {priority : Nat} {path : Path}

section
variable (h : Lands f ops b priority g)
include h

theorem plain (hf : f.Plain) (ho : ∀ op ∈ ops, op.Plain) : g.Plain := by
  intro e he v hset
  rcases h.only e he with ⟨hedit, -, -⟩ | ⟨hold, -⟩
  · exact ho _ (mem_of_editAt hedit) v hset
  · exact hf e hold v hset

theorem of_reaches (hreach : Reaches ops path) {e : Entry} (he : e ∈ g.entries)
    (hbelow : path <+: e.path) : editAt ops e.path = some e.edit ∧ rank e = toLex (priority, b) := by
  rcases h.only e he with ⟨hedit, hb, hp⟩ | ⟨-, hnot⟩
  · exact ⟨hedit, by rw [rank, hb, hp]⟩
  · obtain ⟨op, hop, hpre⟩ := hreach
    exact absurd ⟨op, hop, hpre.trans hbelow⟩ hnot

theorem implied_of_setsBelow (hbelow : SetsBelow ops path) :
    ∃ e, IsRacer g path e ∧ e.path ≠ path ∧ rank e = toLex (priority, b) := by
  obtain ⟨q, edit, hedit, hpre, hne, hdel⟩ := hbelow
  obtain ⟨e, he, rfl, rfl, hb, hp⟩ := h.new q edit hedit
  refine ⟨e, ⟨he, hpre, fun hd => ?_⟩, hne, by rw [rank, hb, hp]⟩
  rw [hdel] at hd
  cases hd

theorem nodeAt_set {edit : JsonEdit} (hedit : editAt ops path = some edit)
    (hdel : edit.isDelete = false) : g.nodeAt path = edit.node.place := by
  obtain ⟨e, he, rfl, rfl, hblock, hprio⟩ := h.new path edit hedit
  have hracer : IsRacer g e.path e := ⟨he, prefix_rfl, fun hd => by rw [hdel] at hd; cases hd⟩
  rw [nodeAt, node_own hracer rfl fun other ho => ?_]
  rw [(h.of_reaches (reaches_of_editAt hedit) ho.mem ho.below).2, rank, hblock, hprio]

/-- A path deleted, or left alone below an op, is a map when the block sets something below it. -/
theorem nodeAt_map (hreach : Reaches ops path)
    (he : ∀ edit, editAt ops path = some edit → edit.isDelete = true) (hb : SetsBelow ops path) :
    g.nodeAt path = .map := by
  obtain ⟨e, hracer, hne, -⟩ := h.implied_of_setsBelow hb
  rw [nodeAt, node_map hracer fun own ho hp => ?_]
  · rfl
  · -- Its own delete sits out.
    have ho' := (h.of_reaches hreach ho.mem ho.below).1
    have hdel := he own.edit (hp ▸ ho')
    refine absurd ⟨e, hracer.mem, hracer.below, hne, ?_⟩ (ho.delete hdel).2
    cases hd : e.edit.isDelete with
    | false => rfl
    | true => exact absurd (hracer.delete hd).1 hne

theorem nodeAt_gone (hreach : Reaches ops path)
    (hedit : ∀ edit, editAt ops path = some edit → edit.isDelete = true) (hb : ¬SetsBelow ops path) :
    g.nodeAt path = .absent := by
  have hown : ∀ e, IsRacer g path e → e.path = path ∧ e.edit.isDelete = true := by
    intro e he
    have he' := (h.of_reaches hreach he.mem he.below).1
    have hp : e.path = path := by
      by_contra hne
      refine hb ⟨e.path, e.edit, he', he.below, hne, ?_⟩
      cases hd : e.edit.isDelete with
      | false => rfl
      | true => exact absurd (he.delete hd).1 hne
    exact ⟨hp, hedit e.edit (hp ▸ he')⟩
  by_cases hracer : ∃ e, IsRacer g path e
  · obtain ⟨e, he⟩ := hracer
    obtain ⟨hp, hdel⟩ := hown e he
    rw [nodeAt, node_own he hp fun other ho => ?_]
    · cases hd : e.edit with
      | delete => rfl
      | set v =>
        rw [hd] at hdel
        cases hdel
      | map =>
        rw [hd] at hdel
        cases hdel
    · rw [(h.of_reaches hreach ho.mem ho.below).2, (h.of_reaches hreach he.mem he.below).2]
  · rw [nodeAt, node_absent fun e he => hracer ⟨e, he⟩]
    rfl

/-- A set below makes a map, whatever stands there with a lower priority. -/
theorem nodeAt_implied (hhigh : ∀ e ∈ f.entries, e.priority < priority)
    (hreach : ¬Reaches ops path) (hbelow : SetsBelow ops path) : g.nodeAt path = .map := by
  obtain ⟨e, hracer, -, hrank⟩ := h.implied_of_setsBelow hbelow
  rw [nodeAt, node_map hracer fun own ho hp => ⟨e, hracer, ?_⟩]
  · rfl
  · rcases h.only own ho.mem with ⟨hedit, -⟩ | ⟨hold, -⟩
    · exact absurd (hp ▸ reaches_of_editAt hedit) hreach
    · rw [hrank]
      exact Prod.Lex.toLex_lt_toLex.mpr (.inl (hhigh own hold))

end

end Lands

theorem nodeAt_congr {g g' : Frontier} {path : Path} (h : ∀ e, IsRacer g path e ↔ IsRacer g' path e) :
    g.nodeAt path = g'.nodeAt path := by
  unfold nodeAt
  by_cases hown : ∃ e, IsRacer g path e ∧ e.path = path ∧ ∀ other, IsRacer g path other → rank other ≤ rank e
  · obtain ⟨e, he, hp, hbest⟩ := hown
    rw [node_own he hp hbest, node_own ((h e).mp he) hp fun other ho => hbest other ((h other).mpr ho)]
  · by_cases hany : ∃ e, IsRacer g path e
    · obtain ⟨e, he⟩ := hany
      have hbeaten : ∀ own, IsRacer g path own → own.path = path → ∃ other, IsRacer g path other ∧ rank own < rank other := by
        intro own hracer hp
        by_contra hnone
        exact hown ⟨own, hracer, hp, fun other ho => not_lt.mp fun hlt => hnone ⟨other, ho, hlt⟩⟩
      rw [node_map he hbeaten, node_map ((h e).mp he) fun own hracer hp => ?_]
      obtain ⟨other, ho, hlt⟩ := hbeaten own ((h own).mpr hracer) hp
      exact ⟨other, (h other).mp ho, hlt⟩
    · rw [node_absent fun e he => hany ⟨e, he⟩, node_absent fun e he => hany ⟨e, (h e).mpr he⟩]

namespace Lands
variable {f g g' : Frontier} {ops : List JsonOp} {b block' : Bytes} {priority priority' : Nat} {path : Path}

theorem isRacer_of (h : Lands f ops b priority g) (h' : Lands f ops block' priority' g') (hreach : ¬Reaches ops path)
    (hb : ¬SetsBelow ops path) {e : Entry} (he : IsRacer g path e) : IsRacer g' path e := by
  have hstored : ∀ {e : Entry} {b : Bytes} {priority : Nat} {g : Frontier}, Lands f ops b priority g →
      e ∈ g.entries → path <+: e.path → (e.edit.isDelete = true → e.path = path) → e ∈ f.entries ∧ ¬Reaches ops e.path := by
    intro e b priority g h he hpre hdel
    refine (h.only e he).resolve_left fun hnew => ?_
    by_cases hp : e.path = path
    · exact hreach (hp ▸ reaches_of_editAt hnew.1)
    · exact hb ⟨e.path, e.edit, hnew.1, hpre, hp, Bool.eq_false_iff.mpr fun hd => hp (hdel hd)⟩
  obtain ⟨hold, hnot⟩ := hstored h he.mem he.below fun hd => (he.delete hd).1
  refine ⟨h'.kept e hold hnot, he.below, fun hd => ⟨(he.delete hd).1, ?_⟩⟩
  rintro ⟨other, ho, hpre, hne, hset⟩
  obtain ⟨hold', hnot'⟩ := hstored h' ho hpre fun hd => by
    rw [hset] at hd
    cases hd
  exact (he.delete hd).2 ⟨other, h.kept other hold' hnot', hpre, hne, hset⟩

/-- With a priority above those stored, neither the block's ID nor its priority matter. -/
theorem nodeAt_eq (h : Lands f ops b priority g) (h' : Lands f ops block' priority' g')
    (hhigh : ∀ e ∈ f.entries, e.priority < priority) (hhigh' : ∀ e ∈ f.entries, e.priority < priority') (path : Path) :
    g.nodeAt path = g'.nodeAt path := by
  by_cases hreach : Reaches ops path
  · by_cases hset : ∃ edit, editAt ops path = some edit ∧ edit.isDelete = false
    · obtain ⟨edit, he, hdel⟩ := hset
      rw [h.nodeAt_set he hdel, h'.nodeAt_set he hdel]
    · have he : ∀ edit, editAt ops path = some edit → edit.isDelete = true := fun edit he =>
        Bool.not_eq_false _ ▸ fun hd => hset ⟨edit, he, hd⟩
      by_cases hbelow : SetsBelow ops path
      · rw [h.nodeAt_map hreach he hbelow, h'.nodeAt_map hreach he hbelow]
      · rw [h.nodeAt_gone hreach he hbelow, h'.nodeAt_gone hreach he hbelow]
  · by_cases hbelow : SetsBelow ops path
    · rw [h.nodeAt_implied hhigh hreach hbelow, h'.nodeAt_implied hhigh' hreach hbelow]
    · exact nodeAt_congr fun e => ⟨h.isRacer_of h' hreach hbelow, h'.isRacer_of h hreach hbelow⟩

theorem materialize_eq (h : Lands f ops b priority g) (h' : Lands f ops block' priority' g')
    (hhigh : ∀ e ∈ f.entries, e.priority < priority) (hhigh' : ∀ e ∈ f.entries, e.priority < priority')
    (hf : f.Plain) (ho : ∀ op ∈ ops, op.Plain) : g.materialize = g'.materialize := by
  obtain ⟨hsort, hplaces⟩ := materialize_spec (h.plain hf ho)
  obtain ⟨hsort', hplaces'⟩ := materialize_spec (h'.plain hf ho)
  refine hsort.ext hsort' fun q => ?_
  rw [hplaces, hplaces', funext (h.nodeAt_eq h' hhigh hhigh')]

end Lands

end Defra.Json
