import Defra.Field.Merge
import Defra.Lib.Checked
import Defra.Lib.DagWalk

/-! The walks of a field merge are walks down the DAG of the stored blocks. -/

namespace Defra.Field
open KeyedList Handler
variable {Cid Op : Type} {hnd : Handler Cid Op}

def Handler.parents (hnd : Handler Cid Op) (cid : Cid) : List Cid :=
  match hnd.storedBlock cid with
  | .ok block => block.parents
  | .error _ => []

theorem parents_of_stored {cid : Cid} {block : Block Cid} (h : hnd.storedBlock cid = .ok block) :
    hnd.parents cid = block.parents := by
  rw [Handler.parents, h]

variable [LinearOrder Cid]

def Met.left (met : Met Cid) : Set Cid := {cid | ∃ priority, toLex (priority, cid) ∈ met.frontier}

/-- A walk down from `tips` that has visited `visited`, with the blocks of `next` still to meet. -/
structure Walks (hnd : Handler Cid Op) (tips next visited : List Cid) (met : Met Cid) : Prop where
  walk : DagWalk.Walk hnd.parents tips next visited met.left
  seen : ∀ {cid}, cid ∈ met.seen ↔ cid ∈ visited ∨ cid ∈ met.left
  stored : ∀ {priority cid}, toLex (priority, cid) ∈ met.frontier →
    ∃ block, hnd.storedBlock cid = .ok block ∧ block.priority = priority
  visited_stored : ∀ cid ∈ visited, cid ∈ hnd.blocks

theorem walks_start (tips : List Cid) : Walks hnd tips tips [] {} := by
  have hl : Met.left ({} : Met Cid) = ∅ := by
    ext cid
    simp [Met.left]
  exact ⟨hl ▸ .start, by simp [hl], by simp, by simp⟩

namespace Walks
variable {tips next visited : List Cid} {met met' : Met Cid} {cid : Cid}

theorem meet (h : Walks hnd tips (cid :: next) visited met) (hm : hnd.meet met cid = .ok met') :
    Walks hnd tips next visited met' := by
  unfold Handler.meet at hm
  split at hm
  case isTrue hs =>
    obtain rfl := Except.ok.inj hm
    exact { h with walk := h.walk.meet_seen (h.seen.mp (isSome_find?_id.mp hs)) }
  case isFalse hs =>
    obtain ⟨block, hb, hm⟩ := Checked.bind hm
    obtain rfl := Except.ok.inj hm
    rw [isSome_find?_id, h.seen, not_or] at hs
    have hl : ∀ seen, Met.left { seen, frontier := met.frontier.put (toLex (block.priority, cid)) } =
        insert cid met.left := by
      intro seen
      ext c
      simp only [Met.left, mem_put_id, Set.mem_insert_iff, Set.mem_ofPred_eq, toLex_inj, Prod.mk.injEq, exists_or,
        exists_eq_left]
    refine ⟨?_, ?_, ?_, h.visited_stored⟩
    · rw [hl]
      exact h.walk.meet_new hs.1
    · intro c
      rw [hl, mem_put_id, h.seen, Set.mem_insert_iff]
      tauto
    · intro priority c hc
      rcases mem_put_id.mp hc with heq | hc
      · obtain ⟨rfl, rfl⟩ := Prod.mk.injEq .. ▸ toLex_inj.mp heq
        exact ⟨block, hb, rfl⟩
      · exact h.stored hc

theorem meetAll (h : Walks hnd tips next visited met) (hm : next.foldlM hnd.meet met = .ok met') :
    Walks hnd tips [] visited met' :=
  Checked.foldlM (P := fun next met => Walks hnd tips next visited met) meet h hm

theorem visit {priority : UInt64} (h : Walks hnd tips [] visited met) (hlast : toLex (priority, cid) ∈ met.frontier) :
    Walks hnd tips (hnd.parents cid) (visited ++ [cid])
      { met with frontier := met.frontier.erase (toLex (priority, cid)) } := by
  obtain ⟨block, hblock, rfl⟩ := h.stored hlast
  have hl : Met.left { met with frontier := met.frontier.erase (toLex (block.priority, cid)) } =
      met.left \ {cid} := by
    ext c
    simp only [Met.left, mem_erase, Set.mem_sdiff, Set.mem_ofPred_eq, Set.mem_singleton_iff]
    constructor
    · rintro ⟨p, hp, hne⟩
      refine ⟨⟨p, hp⟩, ?_⟩
      rintro rfl
      obtain ⟨b, hb, rfl⟩ := h.stored hp
      rw [hblock] at hb
      exact hne (by rw [Except.ok.inj hb]; rfl)
    · rintro ⟨⟨p, hp⟩, hne⟩
      exact ⟨p, hp, fun heq => hne (congrArg Prod.snd heq)⟩
  have hmem : cid ∈ met.left := ⟨_, hlast⟩
  refine ⟨?_, ?_, fun hc => h.stored (mem_erase.mp hc).1, fun c hc => ?_⟩
  · exact hl ▸ h.walk.visit hmem
  · intro c
    rw [hl, h.seen, List.mem_append, Set.mem_sdiff]
    by_cases heq : c = cid
    · simp [heq, hmem]
    · simp [heq]
  · rcases List.mem_append.mp hc with hc | hc
    · exact h.visited_stored c hc
    · exact List.mem_singleton.mp hc ▸ hnd.stored_mem hblock

theorem length_le (h : Walks hnd tips next visited met) : visited.length ≤ hnd.blocks.length :=
  (h.walk.nodup.subperm h.visited_stored).length_le

end Walks
end Defra.Field
