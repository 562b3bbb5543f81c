import Defra.Theorems.Field.Walk

/-! The walk to a causal field's critical block is sound, whatever the blocks' priorities: each block below the tips is the
    block it stops at, or before it, or after it, and those after it are the ones it visited. -/

namespace Defra.Field
open Handler List KeyedList Except
variable {Cid Op : Type} [LinearOrder Cid] {hnd : Handler Cid Op} {tips next seen : List Cid} {cid : Cid} {data : Bytes}
  {search search' : Search Cid}

structure Searches (hnd : Handler Cid Op) (tips next seen : List Cid) (search : Search Cid) : Prop where
  walks : Walks hnd tips next seen search.toMet
  waiting : ∀ {c block}, (c, block) ∈ search.waiting → hnd.storedBlock c = .ok block

namespace Searches

theorem meetBlock {c : Cid} (h : Searches hnd tips (c :: next) seen search)
    (hm : hnd.meetBlock search c = .ok search') : Searches hnd tips next seen search' := by
  have hmet : hnd.meet search.toMet c = .ok search'.toMet := by
    unfold Handler.meetBlock at hm
    unfold Handler.meet
    split at hm
    case isTrue hseen => rw [if_pos hseen, ok.inj hm]
    case isFalse hseen =>
      obtain ⟨block, hb, hm⟩ := Checked.bind hm
      rw [if_neg hseen, hb, ← ok.inj hm]
      rfl
  refine ⟨h.walks.meet hmet, fun {d block} hd => ?_⟩
  unfold Handler.meetBlock at hm
  split at hm
  · exact h.waiting (ok.inj hm ▸ hd)
  · obtain ⟨found, hf, hm⟩ := Checked.bind hm
    rw [← ok.inj hm] at hd
    rcases mem_put.mp hd with heq | ⟨hd, -⟩
    · rw [(Prod.mk.inj heq).1, (Prod.mk.inj heq).2, hf]
    · exact h.waiting hd

theorem meetAll (h : Searches hnd tips next seen search)
    (hmeet : next.foldlM hnd.meetBlock search = .ok search') : Searches hnd tips [] seen search' :=
  Checked.foldlM (P := fun next search => Searches hnd tips next seen search) meetBlock h hmeet

end Searches

/-- `causal` is the stored block `c` with its operation. -/
def IsCausal (hnd : Handler Cid Op) (cid : Cid) (data : Bytes) (c : Cid) (causal : CausalBlock Op) : Prop :=
  ∃ block, hnd.storedBlock c = .ok block ∧ hnd.causalBlock cid data c block = .ok causal

/-- What a walk has gathered: the causal blocks of those it visited, none of them a root. -/
structure Gathers (hnd : Handler Cid Op) (tips : List Cid) (cid : Cid) (data : Bytes) (seen : List Cid)
    (search : Search Cid) (after : List (CausalBlock Op)) : Prop extends Searches hnd tips [] seen search where
  roots : ∀ v ∈ seen, hnd.parents v ≠ []
  after_causal : List.Forall₂ (IsCausal hnd cid data) seen after

variable {after : List (CausalBlock Op)} {critical : Bytes}

theorem Gathers.visitBlock {priority : UInt64} {next : Cid} {causal : CausalBlock Op}
    (h : Gathers hnd tips cid data seen search after) (hlast : toLex (priority, next) ∈ search.frontier)
    (hvisit : hnd.visitBlock cid data search (toLex (priority, next)) = .ok (some (search', causal))) :
    Gathers hnd tips cid data (seen ++ [next]) search' (after ++ [causal]) := by
  unfold Handler.visitBlock at hvisit
  simp only [ofLex_toLex] at hvisit
  split at hvisit
  case h_1 => cases hvisit
  case h_2 c block hf =>
    obtain ⟨hmem, rfl⟩ : (c, block) ∈ search.waiting ∧ c = next := find?_eq_some.mp hf
    have hstored := h.waiting hmem
    split at hvisit
    · cases hvisit
    case isFalse hroot =>
      obtain ⟨met, hm, hvisit⟩ := Checked.bind hvisit
      obtain ⟨causal', hc, hvisit⟩ := Checked.bind hvisit
      obtain ⟨rfl, rfl⟩ := Prod.mk.inj (Option.some.inj (ok.inj hvisit))
      have hpopped : Searches hnd tips block.parents (seen ++ [c])
          { search with frontier := search.frontier.erase (toLex (priority, c)), waiting := search.waiting.erase c } :=
        ⟨parents_of_stored hstored ▸ h.walks.visit hlast, fun hd => h.waiting (mem_erase.mp hd).1⟩
      refine ⟨hpopped.meetAll hm, fun v hv => ?_, rel_append h.after_causal (.cons ⟨block, hstored, hc⟩ .nil)⟩
      rcases mem_append.mp hv with hv | hv
      · exact h.roots v hv
      · rw [mem_singleton.mp hv, parents_of_stored hstored]
        simpa using hroot

/-- The end of a walk: one block is left, which is not the one being merged. -/
structure Ends (hnd : Handler Cid Op) (tips : List Cid) (cid : Cid) (data critical : Bytes)
    (after : List (CausalBlock Op)) (x : Cid) (seen : List Cid) : Prop where
  ne : x ≠ cid
  walk : DagWalk.Walk hnd.parents tips [] seen {x}
  roots : ∀ v ∈ seen, hnd.parents v ≠ []
  after_causal : List.Forall₂ (IsCausal hnd cid data) seen after
  critical : ∃ block, hnd.storedBlock x = .ok block ∧ hnd.blockData block = .ok critical

theorem Gathers.criticalLoop {result : List (CausalBlock Op)} {turns : Nat} :
    ∀ {seen : List Cid} {search : Search Cid} {after : List (CausalBlock Op)},
      Gathers hnd tips cid data seen search after →
      hnd.criticalLoop cid data turns search after = .ok (some (critical, result)) →
      ∃ x seen, Ends hnd tips cid data critical result x seen := by
  induction turns with
  | zero =>
    intro seen search after _ hret
    cases hret
  | succ turns ih =>
    intro seen search after h hret
    unfold Handler.criticalLoop at hret
    split at hret
    case h_1 => cases hret
    case h_2 last hl =>
      have hmem : toLex ((ofLex last).1, (ofLex last).2) ∈ search.frontier := mem_of_getLast? hl
      dsimp only at hret
      split at hret
      case isTrue hone =>
        split at hret
        · cases hret
        case isFalse hne =>
          obtain ⟨found, hf, hret⟩ := Checked.bind hret
          obtain ⟨rfl, rfl⟩ := Prod.mk.inj (Option.some.inj (ok.inj hret))
          have hleft : search.left = {(ofLex last).2} := by
            obtain ⟨only, ho⟩ := length_eq_one_iff.mp hone.1
            rw [ho, getLast?_singleton, Option.some.injEq] at hl
            ext c
            simp only [Met.left, mem_def, ho, hl, mem_singleton, Set.mem_ofPred_eq, Set.mem_singleton_iff]
            constructor
            · rintro ⟨_, heq⟩
              exact heq ▸ rfl
            · exact fun heq => ⟨(ofLex last).1, heq ▸ rfl⟩
          refine ⟨_, seen, hne, hleft ▸ h.walks.walk, h.roots, h.after_causal, ?_⟩
          unfold criticalData at hf
          split at hf
          case h_1 => cases hf
          case h_2 c block hfind =>
            obtain ⟨hc, heq⟩ : (c, block) ∈ search.waiting ∧ c = (ofLex last).2 := find?_eq_some.mp hfind
            exact ⟨block, heq ▸ h.waiting hc, hf⟩
      case isFalse =>
        obtain ⟨turn, ht, hret⟩ := Checked.bind hret
        cases turn with
        | none => cases hret
        | some turn => exact ih (h.visitBlock hmem ht) hret

theorem criticalBlock_ends (hret : hnd.criticalBlock tips cid data = .ok (some (critical, after))) :
    ∃ x seen, Ends hnd tips cid data critical after x seen := by
  obtain ⟨search, hmet, hret⟩ := Checked.bind hret
  have hs : Searches hnd tips tips [] ({} : Search Cid) := ⟨walks_start tips, by simp⟩
  exact Gathers.criticalLoop ⟨hs.meetAll hmet, by simp, .nil⟩ hret

/-- The block `a` is before the block `b`: its parent, or before one. -/
def IsAncestor (hnd : Handler Cid Op) (a b : Cid) : Prop := DagWalk.IsAbove hnd.parents b a

/-- The walk stops at a block `x` that is critical below the tips, and lists the blocks after it, each once. -/
theorem criticalBlock_sound (hacyclic : ∀ c, ¬IsAncestor hnd c c)
    (hret : hnd.criticalBlock tips cid data = .ok (some (critical, after))) :
    ∃ x, x ≠ cid ∧ (∃ block, hnd.storedBlock x = .ok block ∧ hnd.blockData block = .ok critical) ∧
      (∀ b, DagWalk.Reached hnd.parents tips b → b = x ∨ IsAncestor hnd b x ∨ IsAncestor hnd x b) ∧
      ∃ seen : List Cid, seen.Nodup ∧ List.Forall₂ (IsCausal hnd cid data) seen after ∧
        ∀ b, b ∈ seen ↔ DagWalk.Reached hnd.parents tips b ∧ IsAncestor hnd x b := by
  obtain ⟨x, seen, hends⟩ := criticalBlock_ends hret
  refine ⟨x, hends.ne, hends.critical, fun b hb => ?_, seen, hends.walk.nodup, hends.after_causal, fun b => ?_⟩
  · exact (hends.walk.splits hacyclic hends.roots hb).imp_right Or.symm
  · exact hends.walk.mem_visited_iff hacyclic hends.roots b

/-- The blocks 2 and 3 are concurrent over 1, and the priorities say nothing of it. -/
def branchesHandler : Handler Nat Nat where
  toBytes cid := [.ofNat cid]
  toText := toString
  storedBlock
    | 0 => .ok { priority := 9, heads := none, data := some [0] }
    | 1 => .ok { priority := 2, heads := some [0], data := some [1] }
    | 2 => .ok { priority := 2, heads := some [1], data := some [2] }
    | 3 => .ok { priority := 5, heads := some [1], data := some [3] }
    | _ => .error (.storage "not found")
  blocks := [0, 1, 2, 3]
  stored_mem {cid block} h := by
    rcases cid with _ | _ | _ | _ | cid
    case succ.succ.succ.succ => cases h
    all_goals simp
  decryptBlockData _ data := .ok data
  delta _ := .ok { tagged := false, historyOp := fun data => .ok data.length }
  blockOp data := .ok data.length

theorem branches_acyclic (c : Nat) : ¬IsAncestor branchesHandler c c := by
  have hlt : ∀ {a b : Nat}, b ∈ branchesHandler.parents a → b < a := by
    intro a b h
    rcases a with _ | _ | _ | _ | a <;> simp_all [Handler.parents, branchesHandler, Block.parents]
  have hall : ∀ {a b : Nat}, DagWalk.IsAbove branchesHandler.parents a b → b < a := by
    intro a b h
    induction h with
    | single h => exact hlt h
    | tail _ h ih => exact (hlt h).trans ih
  exact fun h => lt_irrefl c (hall h)

theorem branches_critical : ∃ x, x ≠ 3 ∧
    (∃ block, branchesHandler.storedBlock x = .ok block ∧ branchesHandler.blockData block = .ok [1]) ∧
    (∀ b, DagWalk.Reached branchesHandler.parents [2, 3] b →
      b = x ∨ IsAncestor branchesHandler b x ∨ IsAncestor branchesHandler x b) ∧
    ∃ seen : List Nat, seen.Nodup ∧
      List.Forall₂ (IsCausal branchesHandler 3 [7]) seen [⟨[3], [[1]], 1⟩, ⟨[2], [[1]], 1⟩] ∧
      ∀ b, b ∈ seen ↔ DagWalk.Reached branchesHandler.parents [2, 3] b ∧ IsAncestor branchesHandler x b :=
  criticalBlock_sound branches_acyclic rfl

end Defra.Field
