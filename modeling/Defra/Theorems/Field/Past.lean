import Defra.Theorems.Field.Walk
import Defra.Lib.MergeSort

/-! A tagged merge sees exactly the past: of the operations a state records, the predicate passed to `effect` names those made by
    the ancestors of the block being merged. -/

namespace Defra.Field
open KeyedList List Handler Stored Checked DagWalk Except
variable {Cid Op : Type} {hnd : Handler Cid Op} {tagged : TaggedCrdt} {merged : Set Cid} {heads par seen : List Cid}
  {tags : List Tag} {sha256 : Bytes → Bytes}

/-! ### Merged blocks -/

/-- A field's merged blocks: each is stored, with its parents merged and of lower priorities. -/
structure MergedField (hnd : Handler Cid Op) (merged : Set Cid) : Prop where
  stored : ∀ {c}, c ∈ merged → ∃ block, hnd.storedBlock c = .ok block
  closed : ∀ {c}, c ∈ merged → ∀ p ∈ hnd.parents c, p ∈ merged
  falls : ∀ {c p block parent}, c ∈ merged → p ∈ hnd.parents c → hnd.storedBlock c = .ok block →
    hnd.storedBlock p = .ok parent → parent.priority < block.priority

/-- The heads are the merged blocks that no merged block has as a parent. -/
def IsHeads (hnd : Handler Cid Op) (merged : Set Cid) (heads : List Cid) : Prop :=
  ∀ c, c ∈ heads ↔ c ∈ merged ∧ ∀ d ∈ merged, c ∉ hnd.parents d

theorem MergedField.reached (h : MergedField hnd merged) (hps : ∀ p ∈ par, p ∈ merged) {c : Cid}
    (hc : Reached hnd.parents par c) : c ∈ merged := by
  obtain ⟨p, hp, hpath⟩ := hc
  induction hpath with
  | refl => exact hps p hp
  | tail _ hstep ih => exact h.closed ih _ hstep

theorem MergedField.priority_le (h : MergedField hnd merged) {a b : Cid} {above below : Block Cid} (ha : a ∈ merged)
    (hpath : Relation.ReflTransGen (fun a b => b ∈ hnd.parents a) a b) (habove : hnd.storedBlock a = .ok above)
    (hbelow : hnd.storedBlock b = .ok below) : below.priority ≤ above.priority := by
  have hall : b ∈ merged ∧ ∀ block, hnd.storedBlock b = .ok block → block.priority ≤ above.priority := by
    clear hbelow
    induction hpath with
    | refl => exact ⟨ha, fun block hb => by rw [ok.inj (habove.symm.trans hb)]⟩
    | tail _ hstep ih =>
      obtain ⟨hmem, hle⟩ := ih
      obtain ⟨block, hblock⟩ := h.stored hmem
      exact ⟨h.closed hmem _ hstep, fun _ hb => (h.falls hmem hstep hblock hb).le.trans (hle block hblock)⟩
  exact hall.2 below hbelow

/-- Every merged block is a head, or below one: going up from it, priorities rise. -/
theorem MergedField.reached_heads (h : MergedField hnd merged) (hh : IsHeads hnd merged heads) {c : Cid}
    (hc : c ∈ merged) : Reached hnd.parents heads c := by
  -- the priorities above a block's get fewer with each step up
  have hcnt : ∀ (n : Nat) {c block}, c ∈ merged → hnd.storedBlock c = .ok block →
      2 ^ 64 - block.priority.toNat ≤ n → Reached hnd.parents heads c := by
    intro n
    induction n with
    | zero =>
      intro c block _ _ hn
      have := block.priority.toNat_lt
      omega
    | succ n ih =>
      intro c block hc hb hn
      by_cases hhead : ∃ d ∈ merged, c ∈ hnd.parents d
      · obtain ⟨d, hd, hcd⟩ := hhead
        obtain ⟨above, ha⟩ := h.stored hd
        have hlt := UInt64.lt_iff_toNat_lt.mp (h.falls hd hcd ha hb)
        obtain ⟨t, ht, hpath⟩ := ih hd ha (by omega)
        exact ⟨t, ht, hpath.tail hcd⟩
      · exact ⟨c, (hh c).mpr ⟨hc, fun d hd hcd => hhead ⟨d, hd, hcd⟩⟩, .refl⟩
  obtain ⟨block, hb⟩ := h.stored hc
  exact hcnt _ hc hb le_rfl

variable [LinearOrder Cid]

theorem blockId_perm {priority : UInt64} {ps qs : List Bytes} {data : Bytes} (h : ps.Perm qs) :
    blockId sha256 priority ps data = blockId sha256 priority qs data := by
  rw [blockId, blockId, MergeSort.eq_iff_perm.mpr h, h.length_eq]

/-! ### Recorded operations -/

/-- The block makes the operation of the tag. -/
def Makes (hnd : Handler Cid Op) (tagged : TaggedCrdt) (c : Cid) (tag : Tag) : Prop :=
  ∃ block data, hnd.storedBlock c = .ok block ∧ hnd.isTagged block = true ∧ hnd.blockData block = .ok data ∧
    tag.priority = block.priority ∧
    tag.id = tagged.opId block.priority ((block.parents.mergeSort (· ≤ ·)).map hnd.toBytes) data

/-- The state records operations of merged blocks, and no two of these have one ID. -/
structure Recorded (hnd : Handler Cid Op) (tagged : TaggedCrdt) (merged : Set Cid) (tags : List Tag) : Prop where
  made : ∀ tag ∈ tags, ∃ c ∈ merged, Makes hnd tagged c tag
  distinct : ∀ {c d tag tag'}, c ∈ merged → d ∈ merged → Makes hnd tagged c tag → Makes hnd tagged d tag' →
    tag.id = tag'.id → c = d

theorem makes_iff (hop : tagged.opId = blockId sha256) {c : Cid} {block : Block Cid} (hc : hnd.storedBlock c = .ok block)
    {tag : Tag} : Makes hnd tagged c tag ↔ hnd.isTagged block = true ∧ ∃ data, hnd.blockData block = .ok data ∧
      tag.priority = block.priority ∧ tag.id = tagged.opId block.priority (block.parents.map hnd.toBytes) data := by
  have hid : ∀ data, tagged.opId block.priority ((block.parents.mergeSort (· ≤ ·)).map hnd.toBytes) data =
      tagged.opId block.priority (block.parents.map hnd.toBytes) data := fun data => by
    rw [hop]
    exact blockId_perm ((mergeSort_perm _ _).map _)
  constructor
  · rintro ⟨b, data, hb, ht, hd, hp, hidEq⟩
    obtain rfl := ok.inj (hc.symm.trans hb)
    exact ⟨ht, data, hd, hp, hidEq.trans (hid data)⟩
  · rintro ⟨ht, data, hd, hp, hidEq⟩
    exact ⟨block, data, hc, ht, hd, hp, hidEq.trans (hid data).symm⟩

variable {met : Met Cid} {todo : Unresolved} {past : ByteSet}

/-! ### The walk back -/

/-- The operations of the blocks a walk visited, and the recorded ones it still looks for. -/
structure Resolves (hnd : Handler Cid Op) (tagged : TaggedCrdt) (par : List Cid) (tags : List Tag)
    (seen : List Cid) (met : Met Cid) (todo : Unresolved) (past : ByteSet) : Prop where
  walks : Walks hnd par [] seen met
  found : ∀ id, id ∈ past ↔ ∃ v ∈ seen, ∃ tag, Makes hnd tagged v tag ∧ tag.id = id
  todo : ∀ tag, tag ∈ todo ↔ tag ∈ tags ∧ tag.id ∉ past

theorem resolves_start {met : Met Cid} (hm : par.foldlM hnd.meet {} = .ok met) :
    Resolves hnd tagged par tags [] met (.ofList tags) ∅ where
  walks := (walks_start par).meetAll hm
  found id := by simp
  todo tag := by
    rw [mem_ofList_of_inj (fun x _ y _ he => ?_)]
    · simp
    · cases x
      simp_all

namespace Resolves
variable {c : Cid} {block : Block Cid} {met' : Met Cid} {unresolved' : Unresolved} {past' : ByteSet}

theorem resolve (hop : tagged.opId = blockId sha256) (h : Resolves hnd tagged par tags seen met todo past)
    (hc : hnd.storedBlock c = .ok block) (hr : hnd.resolve tagged block todo past = .ok (unresolved', past')) :
    (∀ id, id ∈ past' ↔ ∃ v ∈ seen ++ [c], ∃ tag, Makes hnd tagged v tag ∧ tag.id = id) ∧
      ∀ tag, tag ∈ unresolved' ↔ tag ∈ tags ∧ tag.id ∉ past' := by
  have hv : ∀ id, (∃ v ∈ seen ++ [c], ∃ tag, Makes hnd tagged v tag ∧ tag.id = id) ↔
      id ∈ past ∨ ∃ tag, Makes hnd tagged c tag ∧ tag.id = id := fun id => by
    rw [h.found]
    simp only [mem_append, mem_singleton, or_and_right, exists_or, exists_eq_left]
  simp only [hv, makes_iff hop hc]
  unfold Handler.resolve at hr
  split at hr
  case isTrue ht =>
    obtain ⟨data, hd, hr⟩ := bind hr
    obtain ⟨rfl, rfl⟩ := Prod.mk.inj (ok.inj hr)
    refine ⟨fun id => ?_, fun tag => ?_⟩
    · rw [mem_put_id, or_comm]
      refine or_congr_right ⟨fun heq => ?_, ?_⟩
      · exact ⟨⟨block.priority, id⟩, ⟨ht, data, hd, rfl, heq⟩, rfl⟩
      · rintro ⟨tag, ⟨-, other, ho, -, hid⟩, rfl⟩
        rw [hid, ok.inj (hd.symm.trans ho)]
    · rw [KeyedList.mem_filter, h.todo, KeyedList.mem_put_id, not_or, and_assoc, and_comm (a := tag.id ∉ past),
        decide_eq_true_eq]
  case isFalse ht =>
    obtain ⟨rfl, rfl⟩ := Prod.mk.inj (ok.inj hr)
    exact ⟨fun id => by simp [ht], h.todo⟩

theorem turn (hop : tagged.opId = blockId sha256) {priority : UInt64}
    (h : Resolves hnd tagged par tags seen met todo past) (hlast : toLex (priority, c) ∈ met.frontier)
    (hc : hnd.storedBlock c = .ok block) (hr : hnd.resolve tagged block todo past = .ok (unresolved', past'))
    (hm : block.parents.foldlM hnd.meet { met with frontier := met.frontier.erase (toLex (priority, c)) } = .ok met') :
    Resolves hnd tagged par tags (seen ++ [c]) met' unresolved' past' := by
  obtain ⟨hfound, hu⟩ := h.resolve hop hc hr
  have hv := h.walks.visit hlast
  rw [parents_of_stored hc] at hv
  exact ⟨hv.meetAll hm, hfound, hu⟩

/-- Once no block left could have made an operation that is looked for, the past is exact. -/
theorem exact (hm : MergedField hnd merged) (hrec : Recorded hnd tagged merged tags)
    (hps : ∀ p ∈ par, p ∈ merged) (h : Resolves hnd tagged par tags seen met todo past)
    (hlow : ∀ tag ∈ todo, ∀ t ∈ met.frontier, (ofLex t).1 < tag.priority) {tag : Tag} (ht : tag ∈ tags) :
    tag.id ∈ past ↔ ∃ a, Reached hnd.parents par a ∧ Makes hnd tagged a tag := by
  constructor
  · intro hp
    obtain ⟨v, hv, other, ho, hid⟩ := (h.found _).mp hp
    have hr := h.walks.walk.visited_reached v hv
    obtain ⟨c, hc, hmakes⟩ := hrec.made tag ht
    obtain rfl := hrec.distinct (hm.reached hps hr) hc ho hmakes hid
    exact ⟨v, hr, hmakes⟩
  · rintro ⟨a, ha, hmakes⟩
    by_contra hp
    have hu := (h.todo tag).mpr ⟨ht, hp⟩
    rcases h.walks.walk.covers ha with hv | ⟨f, ⟨priority, hf⟩, hpath⟩
    · exact hp ((h.found _).mpr ⟨a, hv, tag, hmakes, rfl⟩)
    · obtain ⟨above, habove, rfl⟩ := h.walks.stored hf
      obtain ⟨below, _, hb, -, -, hprio, -⟩ := hmakes
      have hmem : f ∈ merged := hm.reached hps (h.walks.walk.frontier_reached f ⟨_, hf⟩)
      have hle := hm.priority_le hmem hpath habove hb
      exact absurd (hlow tag hu _ hf) (not_lt.mpr (hprio ▸ hle))

/-- The walk ends with every recorded operation below `par`. -/
theorem loop (hop : tagged.opId = blockId sha256) (hm : MergedField hnd merged)
    (hrec : Recorded hnd tagged merged tags) (hp : ∀ p ∈ par, p ∈ merged) {turns : Nat} {result : ByteSet} :
    ∀ {seen : List Cid} {met : Met Cid} {todo : Unresolved} {past : ByteSet},
      Resolves hnd tagged par tags seen met todo past → turns + seen.length = hnd.blocks.length + 1 →
      hnd.taggedPastLoop tagged turns met todo past = .ok result → ∀ tag ∈ tags,
        (tag.id ∈ result ↔ ∃ a, Reached hnd.parents par a ∧ Makes hnd tagged a tag) := by
  induction turns with
  | zero =>
    intro seen met todo past h hturns
    have hle := h.walks.length_le
    omega
  | succ turns ih =>
    intro seen met todo past h hturns hret tag htag
    unfold Handler.taggedPastLoop at hret
    split at hret
    case h_1 hnone =>
      obtain rfl := ok.inj hret
      refine h.exact hm hrec hp (fun _ _ t ht => ?_) htag
      rw [mem_def, getLast?_eq_none_iff.mp hnone] at ht
      exact absurd ht not_mem_nil
    case h_2 last hlast =>
      have hmem : toLex ((ofLex last).1, (ofLex last).2) ∈ met.frontier := mem_of_getLast? hlast
      dsimp only at hret
      split at hret
      case isTrue hstop =>
        obtain rfl := ok.inj hret
        refine h.exact hm hrec hp (fun other ho t ht => ?_) htag
        obtain ⟨lowest, hl⟩ : ∃ lowest, todo.toList.head? = some lowest := by
          rw [← Option.isSome_iff_exists, isSome_head?]
          exact ne_nil_of_mem (mem_def.mp ho)
        rw [hl, Option.all_some, decide_eq_true_eq] at hstop
        have hhigh : (ofLex t).1 ≤ (ofLex last).1 := (Prod.Lex.le_iff.mp (le_of_getLast? hlast ht)).elim le_of_lt
          fun hle => hle.1.le
        have hlow : lowest.priority ≤ other.priority := (Prod.Lex.le_iff.mp (le_of_head? hl ho)).elim
          le_of_lt fun hle => hle.1.le
        exact hhigh.trans_lt (hstop.trans_le hlow)
      case isFalse =>
        obtain ⟨block, hb, hret⟩ := bind hret
        obtain ⟨⟨unresolved', past'⟩, hresolve, hret⟩ := bind hret
        obtain ⟨met', hmet, hret⟩ := bind hret
        refine ih (h.turn hop hmem hb hresolve hmet) ?_ hret tag htag
        rw [length_append, length_singleton]
        omega

end Resolves

theorem meetAll_ok {next : List Cid} : ∀ (met : Met Cid), (∀ c ∈ next, ∃ block, hnd.storedBlock c = .ok block) →
    ∃ met', next.foldlM hnd.meet met = .ok met' := by
  induction next with
  | nil => exact fun _ _ => ⟨_, rfl⟩
  | cons c next ih =>
    intro met hstored
    obtain ⟨block, hb⟩ := hstored c mem_cons_self
    obtain ⟨met₁, hm₁⟩ : ∃ met₁, hnd.meet met c = .ok met₁ := by
      unfold Handler.meet
      split
      · exact ⟨_, rfl⟩
      · rw [hb]
        exact ⟨_, rfl⟩
    rw [foldlM_cons, hm₁]
    exact ih met₁ fun d hd => hstored d (mem_cons_of_mem _ hd)

/-- The data of every merged block can be read. -/
def Readable (hnd : Handler Cid Op) (merged : Set Cid) : Prop :=
  ∀ {c block}, c ∈ merged → hnd.storedBlock c = .ok block → hnd.isTagged block = true →
    ∃ data, hnd.blockData block = .ok data

theorem MergedField.loop_ok (h : MergedField hnd merged) (hreadable : Readable hnd merged)
    (hps : ∀ p ∈ par, p ∈ merged) {turns : Nat} :
    ∀ {seen : List Cid} {met : Met Cid} {todo : Unresolved} {past : ByteSet},
      Walks hnd par [] seen met → ∃ result, hnd.taggedPastLoop tagged turns met todo past = .ok result := by
  induction turns with
  | zero => exact fun _ => ⟨_, rfl⟩
  | succ turns ih =>
    intro seen met todo past hwalks
    unfold Handler.taggedPastLoop
    split
    case h_1 => exact ⟨_, rfl⟩
    case h_2 last hl =>
      dsimp only
      split
      case isTrue => exact ⟨_, rfl⟩
      case isFalse =>
        have hmem : toLex ((ofLex last).1, (ofLex last).2) ∈ met.frontier := mem_of_getLast? hl
        have hnext : (ofLex last).2 ∈ merged := h.reached hps (hwalks.walk.frontier_reached _ ⟨_, hmem⟩)
        obtain ⟨block, hb⟩ := h.stored hnext
        obtain ⟨resolved, hr⟩ : ∃ resolved, hnd.resolve tagged block todo past = .ok resolved := by
          unfold Handler.resolve
          split
          case isTrue ht =>
            obtain ⟨data, hd⟩ := hreadable hnext hb ht
            exact ⟨_, by rw [hd]; rfl⟩
          case isFalse => exact ⟨_, rfl⟩
        have hv := hwalks.visit hmem
        rw [parents_of_stored hb] at hv
        obtain ⟨met', hm⟩ := meetAll_ok { met with frontier := met.frontier.erase last }
          fun p hp => h.stored (h.closed hnext p (parents_of_stored hb ▸ hp))
        obtain ⟨result, hresult⟩ : ∃ result, hnd.taggedPastLoop tagged turns met' resolved.1 resolved.2 = .ok result :=
          ih (hv.meetAll hm)
        exact ⟨result, by
          rw [bind_of_ok hb, bind_of_ok hr, bind_of_ok hm, hresult]⟩

theorem taggedPast_exact (hop : tagged.opId = blockId sha256) (hm : MergedField hnd merged)
    (hrec : Recorded hnd tagged merged tags) (hp : ∀ p ∈ par, p ∈ merged) {past : ByteSet}
    (hret : hnd.taggedPast tagged par tags = .ok past) {tag : Tag} (ht : tag ∈ tags) :
    tag.id ∈ past ↔ ∃ a, Reached hnd.parents par a ∧ Makes hnd tagged a tag := by
  obtain ⟨met, hmet, hret⟩ := bind hret
  exact (resolves_start hmet).loop hop hm hrec hp rfl hret tag ht

/-- Of the recorded operations, a merge takes those of the block's ancestors to be in its past, both when the block's parents
    are the heads and when the walk looks for them. It comes through when the blocks' data decrypts. -/
theorem inPast_exact (hop : tagged.opId = blockId sha256) (hmerged : MergedField hnd merged)
    (hheads : IsHeads hnd merged heads) (hparents : ∀ p ∈ par, p ∈ merged)
    (hrecorded : Recorded hnd tagged merged tags) :
    (∀ inPast, hnd.inPast tagged (heads.mergeSort (· ≤ ·)) (par.mergeSort (· ≤ ·)) tags = .ok inPast →
      ∀ tag ∈ tags, (inPast tag.id = true ↔ ∃ a, Reached hnd.parents par a ∧ Makes hnd tagged a tag)) ∧
    (Readable hnd merged →
      ∃ inPast, hnd.inPast tagged (heads.mergeSort (· ≤ ·)) (par.mergeSort (· ≤ ·)) tags = .ok inPast) := by
  have hsort : ∀ p ∈ par.mergeSort (· ≤ ·), p ∈ merged := fun p hp =>
    hparents p ((mergeSort_perm par _).mem_iff.mp hp)
  refine ⟨fun inPast hret tag ht => ?_, fun hreadable => ?_⟩
  · unfold Handler.inPast at hret
    split at hret
    case isTrue heq =>
      obtain rfl := ok.inj hret
      obtain ⟨c, hc, hmakes⟩ := hrecorded.made tag ht
      have hreached := hmerged.reached_heads hheads hc
      rw [← Reached.congr fun p => (MergeSort.eq_iff_perm.mp heq).mem_iff] at hreached
      exact iff_of_true rfl ⟨c, hreached, hmakes⟩
    case isFalse =>
      obtain ⟨past, hpast, hret⟩ := bind hret
      obtain rfl := ok.inj hret
      simp only [isSome_find?_id, taggedPast_exact hop hmerged hrecorded hsort hpast ht,
        Reached.congr fun p => (mergeSort_perm par (· ≤ ·)).mem_iff]
  · unfold Handler.inPast
    split
    case isTrue => exact ⟨_, rfl⟩
    case isFalse =>
      obtain ⟨met, hm⟩ := meetAll_ok ({} : Met Cid) fun p hp => hmerged.stored (hsort p hp)
      obtain ⟨past, hpast⟩ : ∃ past, hnd.taggedPast tagged (par.mergeSort (· ≤ ·)) tags = .ok past := by
        rw [taggedPast, bind_of_ok hm]
        exact hmerged.loop_ok hreadable hsort ((walks_start _).meetAll hm)
      exact ⟨_, bind_of_ok hpast _⟩

/-! ### A fork -/

/-- Two blocks over one. -/
def forkHandler : Handler Nat Nat where
  toBytes cid := [.ofNat cid]
  toText := toString
  storedBlock
    | 0 => .ok { priority := 1, heads := none, data := some [0] }
    | 1 => .ok { priority := 2, heads := some [0], data := some [1] }
    | 2 => .ok { priority := 2, heads := some [0], data := some [2] }
    | _ => .error (.storage "not found")
  blocks := [0, 1, 2]
  stored_mem {cid block} h := by
    rcases cid with _ | _ | _ | cid
    case succ.succ.succ => cases h
    all_goals simp
  decryptBlockData _ data := .ok data
  delta _ := .ok { tagged := true, historyOp := fun data => .ok data.length }
  blockOp data := .ok data.length

def lastByte (bytes : Bytes) : Bytes := bytes.getLast?.toList

def forkType : TaggedCrdt where
  opId := blockId lastByte
  tags _ := some [⟨1, [0]⟩, ⟨2, [1]⟩, ⟨2, [2]⟩]
  effect _ _ _ _ _ := none
  merge _ _ := none
  settle := some

def forkBlock (c : Nat) : Block Nat :=
  { priority := if c = 0 then 1 else 2, heads := if c = 0 then none else some [0], data := some [.ofNat c] }

theorem fork_stored {c : Nat} (hc : c < 3) : forkHandler.storedBlock c = .ok (forkBlock c) := by
  rcases c with _ | _ | _ | c
  case succ.succ.succ => omega
  all_goals rfl

theorem fork_parents {c p : Nat} (hc : c < 3) : p ∈ forkHandler.parents c ↔ c ≠ 0 ∧ p = 0 := by
  rw [parents_of_stored (fork_stored hc), Block.parents, forkBlock]
  by_cases h : c = 0 <;> simp [h]

theorem fork_makes {c : Nat} {tag : Tag} (hc : c < 3) : Makes forkHandler forkType c tag ↔
    tag.priority = (forkBlock c).priority ∧ tag.id = [.ofNat c] := by
  have hop : forkType.opId = blockId lastByte := rfl
  have hid : forkType.opId (forkBlock c).priority ((forkBlock c).parents.map forkHandler.toBytes) [.ofNat c] =
      [.ofNat c] := by
    rw [hop, blockId, lastByte, getLast?_append_of_ne_nil _ (cons_ne_nil _ _)]
    rfl
  rw [makes_iff hop (fork_stored hc)]
  constructor
  · rintro ⟨-, data, hd, hp, heq⟩
    obtain rfl := ok.inj (hd.symm.trans (rfl : forkHandler.blockData (forkBlock c) = .ok [.ofNat c]))
    exact ⟨hp, heq.trans hid⟩
  · rintro ⟨hp, heq⟩
    exact ⟨rfl, _, rfl, hp, heq.trans hid.symm⟩

theorem fork_merged : MergedField forkHandler {c | c < 3} where
  stored hc := ⟨_, fork_stored hc⟩
  closed hc p hp := by
    rw [((fork_parents hc).mp hp).2]
    exact Nat.zero_lt_succ 2
  falls {c p block parent} hc hp hb hpar := by
    obtain ⟨hne, rfl⟩ := (fork_parents hc).mp hp
    obtain rfl := ok.inj ((fork_stored hc).symm.trans hb)
    obtain rfl := ok.inj ((fork_stored (by decide)).symm.trans hpar)
    simp [forkBlock, hne]

theorem fork_heads : IsHeads forkHandler {c | c < 3} [1, 2] := by
  intro c
  constructor
  · intro hc
    have hcases : c = 1 ∨ c = 2 := by simpa using hc
    refine ⟨show c < 3 by omega, fun d hd hmem => ?_⟩
    have := ((fork_parents hd).mp hmem).2
    omega
  · rintro ⟨hc, hpar⟩
    have hne : c ≠ 0 := fun h0 => hpar 1 (by decide) ((fork_parents (by decide)).mpr ⟨by decide, h0⟩)
    have hlt : c < 3 := hc
    simp only [mem_cons, not_mem_nil, or_false]
    omega

def forkTags : List Tag := [⟨1, [0]⟩, ⟨2, [1]⟩, ⟨2, [2]⟩]

theorem fork_recorded : Recorded forkHandler forkType {c | c < 3} forkTags where
  made tag ht := by
    simp only [forkTags, mem_cons, not_mem_nil, or_false] at ht
    rcases ht with rfl | rfl | rfl
    · exact ⟨0, by decide, (fork_makes (by decide)).mpr ⟨rfl, rfl⟩⟩
    · exact ⟨1, by decide, (fork_makes (by decide)).mpr ⟨rfl, rfl⟩⟩
    · exact ⟨2, by decide, (fork_makes (by decide)).mpr ⟨rfl, rfl⟩⟩
  distinct {c d tag tag'} hc hd hmakes hmakes' heq := by
    rw [((fork_makes hc).mp hmakes).2, ((fork_makes hd).mp hmakes').2, cons.injEq] at heq
    have hlt : c < 3 := hc
    have hlt' : d < 3 := hd
    have hnat := congrArg UInt8.toNat heq.1
    simp only [UInt8.toNat_ofNat'] at hnat
    omega

/-- A block over the block 1 sees its operation and that of the block 0, not that of the block 2. A block over both heads sees
    all three, without a walk. -/
theorem fork_past : [[1], [2, 1]].Forall fun par =>
    (∀ inPast, forkHandler.inPast forkType ([1, 2].mergeSort (· ≤ ·)) (par.mergeSort (· ≤ ·)) forkTags = .ok inPast →
      ∀ tag ∈ forkTags, (inPast tag.id = true ↔ ∃ a, Reached forkHandler.parents par a ∧ Makes forkHandler forkType a tag)) ∧
    ∃ inPast, forkHandler.inPast forkType ([1, 2].mergeSort (· ≤ ·)) (par.mergeSort (· ≤ ·)) forkTags = .ok inPast := by
  refine forall_iff_forall_mem.mpr fun par hp => ?_
  have hmem : ∀ p ∈ par, p ∈ {c | c < 3} := by
    simp only [mem_cons, not_mem_nil, or_false] at hp
    rcases hp with rfl | rfl <;> simp
  have hop : forkType.opId = blockId lastByte := rfl
  have he := inPast_exact hop fork_merged fork_heads hmem fork_recorded
  refine ⟨he.1, he.2 fun {c block} hc hb _ => ?_⟩
  obtain rfl := ok.inj ((fork_stored hc).symm.trans hb)
  exact ⟨_, rfl⟩

end Defra.Field
