import Mathlib.Algebra.BigOperators.Group.List.Basic
import Defra.Text.Order

/-! The chunked order is a flat list of nodes. A spot cuts the list in two (`Order.At`), every operation on spots is one on
    cuts, and the counts of the chunks follow the weights of their nodes (`Order.Ok`). -/

namespace Defra.Text
open List

variable {α : Type}

/-! ### Chunks -/

theorem flatten_chunks (size : Nat) (items : List α) (m : Nat) :
    ((range m).map fun i => (items.drop (i * size)).take size).flatten = items.take (m * size) := by
  induction m with
  | zero => simp
  | succ m ih =>
    rw [range_succ, map_append, flatten_append, ih, Nat.succ_mul, take_add]
    simp

theorem flatten_chunksOf {size : Nat} (hs : 0 < size) (items : List α) : (chunksOf size items).flatten = items := by
  unfold chunksOf
  rw [flatten_chunks]
  apply take_of_length_le
  have := Nat.lt_div_mul_add (a := items.length + size - 1) hs
  omega

theorem ne_nil_of_mem_chunksOf {size : Nat} (hs : 0 < size) {items run : List α}
    (h : run ∈ chunksOf size items) : run ≠ [] := by
  obtain ⟨i, hi, rfl⟩ := mem_map.mp h
  rw [mem_range] at hi
  have hlt : i * size < items.length := by
    have h1 : (i + 1) * size ≤ (items.length + size - 1) / size * size := Nat.mul_le_mul_right size hi
    have h2 := Nat.div_mul_le_self (items.length + size - 1) size
    rw [Nat.succ_mul] at h1
    omega
  intro hnil
  have := congrArg length hnil
  simp only [length_take, length_drop, length_nil] at this
  omega

theorem insertIdx_middle (l r : List α) (y : α) : (l ++ r).insertIdx l.length y = l ++ y :: r := by
  induction l with
  | nil => simp
  | cons z l ih => simp [ih]

theorem modify_middle (l r : List α) (x : α) (f : α → α) : (l ++ x :: r).modify l.length f = l ++ f x :: r := by
  induction l with
  | nil => simp
  | cons z l ih => simp [ih]

namespace Order

/-! ### Spots and cuts -/

/-- The nodes before the spot and from it on. A spot at the end of a chunk is at the end of the order. -/
def At (order : Order) (spot : Spot) (l r : List Nat) : Prop :=
  ∃ pre held post, order.chunks = pre ++ held :: post ∧ spot.chunk = pre.length ∧
    spot.index ≤ held.nodes.length ∧ l = pre.flatMap (·.nodes) ++ held.nodes.take spot.index ∧
    r = held.nodes.drop spot.index ++ post.flatMap (·.nodes) ∧ (spot.index = held.nodes.length → post = [])

/-- The counts follow the weights of the nodes, and a chunk is empty only if it is the only one. -/
structure Ok (order : Order) (weight : Nat → Nat) : Prop where
  counted : ∀ held ∈ order.chunks, held.visible = (held.nodes.map weight).sum
  total : order.visible = (order.intoNodes.map weight).sum
  filled : (∃ held, order.chunks = [held]) ∨ (order.chunks ≠ [] ∧ ∀ held ∈ order.chunks, held.nodes ≠ [])

variable {order : Order} {weight weight' : Nat → Nat} {spot : Spot} {l r : List Nat} {n : Nat}

/-- The cut goes through a chunk, and is at the end of one only at the end of the order. -/
theorem at_iff : order.At spot l r ↔ ∃ pre a b visible post, order.chunks = pre ++ ⟨a ++ b, visible⟩ :: post ∧
    spot = ⟨pre.length, a.length⟩ ∧ l = pre.flatMap (·.nodes) ++ a ∧ r = b ++ post.flatMap (·.nodes) ∧
    (b = [] → post = []) := by
  constructor
  · rintro ⟨pre, held, post, hc, hchunk, hle, rfl, rfl, hend⟩
    refine ⟨pre, held.nodes.take spot.index, held.nodes.drop spot.index, held.visible, post, ?_, ?_, rfl, rfl, fun hnil => ?_⟩
    · rw [take_append_drop, hc]
    · rw [length_take_of_le hle, ← hchunk]
    · exact hend (Nat.le_antisymm hle (drop_eq_nil_iff.mp hnil))
  · rintro ⟨pre, a, b, visible, post, hc, rfl, rfl, rfl, hend⟩
    exact ⟨pre, ⟨a ++ b, visible⟩, post, hc, rfl, by simp, by simp, by simp, by simpa using hend⟩

theorem At.append (h : order.At spot l r) : order.intoNodes = l ++ r := by
  obtain ⟨pre, a, b, visible, post, hc, -, rfl, rfl, -⟩ := at_iff.mp h
  simp [intoNodes, hc]

theorem At.nodeFrom (h : order.At spot l r) : order.nodeFrom spot = r.head? := by
  obtain ⟨pre, a, b, visible, post, hc, rfl, rfl, rfl, hend⟩ := at_iff.mp h
  cases b with
  | nil => simp [Order.nodeFrom, chunkNodes, hc, hend]
  | cons m b => simp [Order.nodeFrom, chunkNodes, hc]

theorem At.nodeAt (h : order.At spot l (n :: r)) : order.nodeAt spot = n := by
  rw [Order.nodeAt, h.nodeFrom]
  rfl

section
variable (hok : order.Ok weight)
include hok

theorem Ok.nodes_ne_nil (h : order.intoNodes = l ++ n :: r) : ∀ held ∈ order.chunks, held.nodes ≠ [] := by
  rcases hok.filled with ⟨only, ho⟩ | ⟨-, hf⟩
  · intro held hh
    rw [ho, mem_singleton] at hh
    rw [intoNodes, ho, flatMap_singleton, ← hh] at h
    simp [h]
  · exact hf

theorem At.after (h : order.At spot l (n :: r)) : order.At (order.after spot) (l ++ [n]) r := by
  have hfill := hok.nodes_ne_nil h.append
  obtain ⟨pre, a, b, visible, post, hc, rfl, rfl, hr, hend⟩ := at_iff.mp h
  cases b with
  | nil => simp [hend] at hr
  | cons m b =>
    obtain ⟨rfl, rfl⟩ := hr
    rw [at_iff]
    by_cases hin : b = [] ∧ post ≠ []
    · obtain ⟨rfl, hp⟩ := hin
      obtain ⟨next, post, rfl⟩ := exists_cons_of_ne_nil hp
      refine ⟨pre ++ [⟨a ++ [n], visible⟩], [], next.nodes, next.visible, post, by simp [hc], ?_, by simp, by simp, ?_⟩
      · simp [Order.after, chunkNodes, hc]
      · exact fun hn => absurd hn (hfill next (by simp [hc]))
    · refine ⟨pre, a ++ [n], b, visible, post, by simp [hc], ?_, by simp, rfl, fun hn => by_contra fun h => hin ⟨hn, h⟩⟩
      have hcond : 0 < b.length ∨ post.length = 0 := by
        rw [length_pos_iff, length_eq_zero_iff]
        tauto
      have hnodes : order.chunkNodes pre.length = a ++ n :: b := by simp [chunkNodes, hc]
      rw [Order.after, if_pos]
      · simp
      · rw [hnodes, hc]
        simp only [length_append, length_cons]
        omega

theorem At.before (h : order.At spot (l ++ [n]) r) : order.At (order.before spot) l (n :: r) := by
  have hfill := hok.nodes_ne_nil (l := l) (n := n) (r := r) (by simp [h.append])
  obtain ⟨pre, a, b, visible, post, hc, rfl, hl, rfl, hend⟩ := at_iff.mp h
  rw [at_iff]
  rcases a.eq_nil_or_concat' with rfl | ⟨a, m, rfl⟩
  · rcases pre.eq_nil_or_concat' with rfl | ⟨pre, prev, rfl⟩
    · simp at hl
    · obtain ⟨a, m, hp⟩ := (eq_nil_or_concat' prev.nodes).resolve_left (hfill prev (by simp [hc]))
      rw [flatMap_append, flatMap_singleton, hp, append_nil, ← append_assoc] at hl
      obtain ⟨rfl, hm⟩ := append_inj' hl rfl
      refine ⟨pre, a, [n], prev.visible, ⟨[] ++ b, visible⟩ :: post, ?_, ?_, rfl, by simp, by simp⟩
      · rw [hc, singleton_inj.mp hm, ← hp, append_assoc]
        rfl
      · simp [Order.before, chunkNodes, hc, hp]
  · rw [← append_assoc] at hl
    obtain ⟨rfl, hm⟩ := append_inj' hl rfl
    refine ⟨pre, a, n :: b, visible, post, ?_, by simp [Order.before], rfl, rfl, by simp⟩
    rw [hc, singleton_inj.mp hm, append_assoc]
    rfl

theorem Ok.at_start : order.At {} [] order.intoNodes := by
  rw [at_iff]
  rcases hok.filled with ⟨only, ho⟩ | ⟨hne, hf⟩
  · exact ⟨[], [], only.nodes, only.visible, [], ho, rfl, rfl, by simp [intoNodes, ho], fun _ => rfl⟩
  · obtain ⟨held, post, hc⟩ := exists_cons_of_ne_nil hne
    exact ⟨[], [], held.nodes, held.visible, post, hc, rfl, rfl, by simp [intoNodes, hc],
      fun hnil => absurd hnil (hf held (by simp [hc]))⟩

omit hok in
theorem sum_visible {chunks : List Chunk} (h : ∀ held ∈ chunks, held.visible = (held.nodes.map weight).sum) :
    (chunks.map (·.visible)).sum = ((chunks.flatMap (·.nodes)).map weight).sum := by
  induction chunks with
  | nil => rfl
  | cons held chunks ih =>
    simp only [map_cons, sum_cons, flatMap_cons, map_append, sum_append]
    rw [h held (by simp), ih fun held' hm => h held' (by simp [hm])]

/-! ### Building an order -/

omit hok in
theorem new_spec (nodes : List Nat) (weight : Nat → Nat) :
    (Order.new nodes weight).Ok weight ∧ (Order.new nodes weight).intoNodes = nodes := by
  have hsize : 0 < chunkSize := by decide
  generalize hruns : ((chunksOf chunkSize nodes).map fun run =>
      ({ nodes := run, visible := (run.map weight).sum } : Chunk)) = chunks
  have hflat : chunks.flatMap (·.nodes) = nodes := by
    rw [← hruns, flatMap_map, flatMap_id']
    exact flatten_chunksOf hsize nodes
  have hcounted : ∀ held ∈ chunks, held.visible = (held.nodes.map weight).sum := by
    intro held hh
    rw [← hruns] at hh
    obtain ⟨run, -, rfl⟩ := mem_map.mp hh
    rfl
  unfold Order.new
  simp only [hruns]
  cases chunks with
  | nil =>
    refine ⟨⟨by simp, by simp [intoNodes], Or.inl ⟨_, rfl⟩⟩, ?_⟩
    rw [← hflat]
    rfl
  | cons held chunks =>
    refine ⟨⟨hcounted, ?_, Or.inr ⟨by simp, ?_⟩⟩, hflat⟩
    · exact sum_visible hcounted
    · intro held' hh
      simp only [isEmpty_cons, Bool.false_eq_true, if_false] at hh
      rw [← hruns] at hh
      obtain ⟨run, hr, rfl⟩ := mem_map.mp hh
      exact ne_nil_of_mem_chunksOf hsize hr

/-! ### Finding a visible character -/

omit hok in
theorem nthInChunk_spec {nodes : List Nat} {k : Nat} (h : k < (nodes.map weight).sum) (i : Nat) :
    ∃ l n r inner, nodes = l ++ n :: r ∧ nthInChunk weight i nodes k = .ok (i + l.length, inner) ∧
      inner < weight n ∧ k = (l.map weight).sum + inner := by
  induction nodes generalizing i k with
  | nil => simp at h
  | cons n nodes ih =>
    rw [map_cons, sum_cons] at h
    by_cases hlt : k < weight n
    · exact ⟨[], n, nodes, k, rfl, by simp [nthInChunk, hlt], hlt, by simp⟩
    · obtain ⟨l, m, r, inner, rfl, hnth, hi, hk⟩ := ih (k := k - weight n) (by omega) (i + 1)
      refine ⟨n :: l, m, r, inner, rfl, ?_, hi, ?_⟩
      · rw [nthInChunk, if_neg hlt, hnth, length_cons]
        congr 2
        omega
      · rw [map_cons, sum_cons]
        omega

omit hok in
theorem nthInChunks_spec {chunks : List Chunk} {k : Nat} (hc : ∀ held ∈ chunks, held.visible = (held.nodes.map weight).sum)
    (h : k < ((chunks.flatMap (·.nodes)).map weight).sum) (i : Nat) :
    ∃ pre held post l n r inner, chunks = pre ++ held :: post ∧ held.nodes = l ++ n :: r ∧
      nthInChunks weight i chunks k = .ok ({ chunk := i + pre.length, index := l.length }, inner) ∧
      inner < weight n ∧ k = ((pre.flatMap (·.nodes) ++ l).map weight).sum + inner := by
  induction chunks generalizing i k with
  | nil => simp at h
  | cons held chunks ih =>
    have hh := hc held (by simp)
    rw [flatMap_cons, map_append, sum_append] at h
    by_cases hge : k ≥ held.visible
    · obtain ⟨pre, held', post, l, n, r, inner, rfl, hn, hnth, hi, hk⟩ :=
        ih (k := k - held.visible) (fun held' hm => hc held' (by simp [hm])) (by omega) (i + 1)
      refine ⟨held :: pre, held', post, l, n, r, inner, rfl, hn, ?_, hi, ?_⟩
      · rw [nthInChunks, if_pos hge, hnth, length_cons]
        congr 3
        omega
      · simp only [flatMap_cons, map_append, sum_append] at hk ⊢
        omega
    · have hs : k < (held.nodes.map weight).sum := by omega
      obtain ⟨l, n, r, inner, hn, hnth, hi, hk⟩ := nthInChunk_spec hs 0
      refine ⟨[], held, chunks, l, n, r, inner, rfl, hn, ?_, hi, by simpa using hk⟩
      rw [nthInChunks, if_neg hge, hnth]
      simp

/-- `nthVisible` cuts right before the node that holds visible character `k`. -/
theorem Ok.nthVisible {k : Nat} (h : k < order.visible) :
    ∃ spot inner l n r, order.nthVisible k weight = .ok (spot, inner) ∧ order.At spot l (n :: r) ∧
      inner < weight n ∧ k = (l.map weight).sum + inner := by
  rw [hok.total] at h
  obtain ⟨pre, ⟨_, visible⟩, post, l, n, r, inner, hc, rfl, hnth, hi, hk⟩ := nthInChunks_spec hok.counted h 0
  rw [Nat.zero_add] at hnth
  exact ⟨_, inner, _, n, r ++ post.flatMap (·.nodes), hnth,
    at_iff.mpr ⟨pre, l, n :: r, visible, post, hc, rfl, rfl, rfl, by simp⟩, hi, hk⟩

/-! ### Inserting -/

/-- One chunk gives way to others that count the new weights. -/
theorem Ok.replace {pre post new : List Chunk} {held : Chunk} {visible : Nat}
    (hc : order.chunks = pre ++ held :: post) (hsame : ∀ m ∈ (pre ++ post).flatMap (·.nodes), weight' m = weight m)
    (hne : new ≠ []) (hn : ∀ c ∈ new, c.visible = (c.nodes.map weight').sum ∧ c.nodes ≠ [])
    (hv : visible + held.visible = order.visible + (new.map (·.visible)).sum) :
    Ok { chunks := pre ++ new ++ post, visible } weight' := by
  have hrest : ∀ c ∈ pre ++ post, c.visible = (c.nodes.map weight').sum ∧ c.nodes ≠ [] := by
    intro c hmem
    have hc' : c ∈ order.chunks := by
      rw [hc]
      simp only [mem_append, mem_cons] at hmem ⊢
      tauto
    constructor
    · rw [hok.counted c hc', map_congr_left fun m hm => hsame m (mem_flatMap.mpr ⟨c, hmem, hm⟩)]
    · rcases hok.filled with ⟨only, ho⟩ | ⟨-, hf⟩
      · -- an only chunk leaves no others
        have hlen := congrArg length (hc.symm.trans ho)
        have hpos := length_pos_of_mem hmem
        simp only [length_append, length_cons, length_nil] at hlen hpos
        omega
      · exact hf c hc'
  have hall : ∀ c ∈ pre ++ new ++ post, c.visible = (c.nodes.map weight').sum ∧ c.nodes ≠ [] := by
    intro c hmem
    simp only [mem_append] at hmem hrest
    rcases hmem with (hmem | hmem) | hmem
    · exact hrest c (.inl hmem)
    · exact hn c hmem
    · exact hrest c (.inr hmem)
  refine ⟨fun c hmem => (hall c hmem).1, ?_, .inr ⟨by simp [hne], fun c hmem => (hall c hmem).2⟩⟩
  have ht := hok.total
  rw [intoNodes, ← sum_visible hok.counted, hc] at ht
  rw [intoNodes, ← sum_visible fun c hmem => (hall c hmem).1]
  simp only [map_append, map_cons, sum_append, sum_cons] at ht ⊢
  omega

theorem At.insert (h : order.At spot l r) (node : Nat) : (order.insert spot node (weight node) weight).1.Ok weight ∧
      (order.insert spot node (weight node) weight).1.At
        (order.insert spot node (weight node) weight).2 l (node :: r) := by
  obtain ⟨pre, a, b, visible, post, hc, rfl, rfl, rfl, hend⟩ := at_iff.mp h
  have hsum : ((a ++ node :: b).map weight).sum = visible + weight node := by
    have := hok.counted ⟨a ++ b, visible⟩ (by simp [hc])
    simp only [map_append, map_cons, sum_append, sum_cons] at this ⊢
    omega
  have hget : order.chunks[pre.length]? = some ⟨a ++ b, visible⟩ := by simp [hc]
  rw [Order.insert, hget]
  simp only [insertIdx_middle]
  split
  · -- the chunk keeps its new node
    have hset : order.chunks.set pre.length ⟨a ++ node :: b, visible + weight node⟩ =
        pre ++ [⟨a ++ node :: b, visible + weight node⟩] ++ post := by simp [hc]
    rw [hset]
    refine ⟨hok.replace hc (fun _ _ => rfl) (by simp) ?_ (by simp; omega), at_iff.mpr ?_⟩
    · exact forall_mem_singleton.mpr ⟨hsum.symm, by simp⟩
    · exact ⟨pre, a, node :: b, visible + weight node, post, by simp, rfl, rfl, rfl, by simp⟩
  · -- the chunk splits in two
    rename_i hbig
    have hlen : 2 * chunkSize < (a ++ node :: b).length := Nat.lt_of_not_le hbig
    have hs := take_append_drop chunkSize (a ++ node :: b)
    generalize hf : (a ++ node :: b).take chunkSize = first at hs ⊢
    generalize hsecond : (a ++ node :: b).drop chunkSize = second at hs ⊢
    have hfirstLen : first.length = chunkSize := by
      rw [← hf, length_take]
      omega
    rw [← hs, length_append] at hlen
    rw [← hs, map_append, sum_append] at hsum
    have hchunks : (order.chunks.set pre.length ⟨first, visible + weight node - (second.map weight).sum⟩).insertIdx
        (pre.length + 1) ⟨second, (second.map weight).sum⟩ =
        pre ++ [⟨first, (first.map weight).sum⟩, ⟨second, (second.map weight).sum⟩] ++ post := by
      have := insertIdx_middle (pre ++ [⟨first, (first.map weight).sum⟩]) post ⟨second, (second.map weight).sum⟩
      rw [← hsum, hc]
      simpa using this
    rw [hchunks]
    refine ⟨hok.replace hc (fun _ _ => rfl) (by simp) ?_ (by simp; omega), at_iff.mpr ?_⟩
    · have hsize : 0 < chunkSize := by decide
      have hfirstPos : 0 < first.length := by omega
      have hsecondPos : 0 < second.length := by omega
      simp [length_pos_iff.mp hfirstPos, length_pos_iff.mp hsecondPos]
    · have hcases : (∃ a', a = first ++ a' ∧ second = a' ++ node :: b) ∨
          ∃ b', first = a ++ node :: b' ∧ b = b' ++ second := by
        rcases append_eq_append_iff.mp hs with ⟨a', ha, hb⟩ | ⟨b', hf, hb⟩
        · exact .inl ⟨a', ha, hb⟩
        · cases b' with
          | nil => exact .inl ⟨[], by simpa using hf.symm, hb.symm⟩
          | cons m b' =>
            rw [cons_append, cons.injEq] at hb
            exact .inr ⟨b', hb.1 ▸ hf, hb.2⟩
      rcases hcases with ⟨a', rfl, rfl⟩ | ⟨b', rfl, rfl⟩
      · refine ⟨pre ++ [⟨first, (first.map weight).sum⟩], a', node :: b, ((a' ++ node :: b).map weight).sum, post, ?_, ?_, by simp,
          rfl, by simp⟩
        · simp
        · simp [hfirstLen]
      · refine ⟨pre, a, node :: b', _, ⟨second, (second.map weight).sum⟩ :: post, append_assoc .., if_pos ?_, rfl,
          by simp, by simp⟩
        simp [← hfirstLen]

end

/-! ### Hiding -/

theorem map_modify_of_eq {β : Type} (g : α → β) {f : α → α} (hf : ∀ x, g (f x) = g x) (l : List α) (i : Nat) :
    (l.modify i f).map g = l.map g := by
  induction l generalizing i with
  | nil => simp
  | cons x l ih => cases i <;> simp [hf, ih]

theorem At.congr {order' : Order} (h : order.At spot l r)
    (hn : order'.chunks.map (·.nodes) = order.chunks.map (·.nodes)) : order'.At spot l r := by
  obtain ⟨pre, held, post, hc, hchunk, hle, hl, hr, hend⟩ := h
  rw [hc, map_append] at hn
  obtain ⟨pre', rest, hc', hpre, hrest⟩ := map_eq_append_iff.mp hn
  obtain ⟨held', post', rfl, hh, hp⟩ := map_eq_cons_iff.mp hrest
  refine ⟨pre', held', post', hc', ?_, by rw [hh]; exact hle, ?_, ?_, fun heq => ?_⟩
  · rw [hchunk, ← length_map (·.nodes), ← hpre, length_map]
  · rw [hl, flatMap_def, flatMap_def, hpre, hh]
  · rw [hr, flatMap_def, flatMap_def, hp, hh]
  · have := hend (by rw [heq, hh])
    subst this
    exact map_eq_nil_iff.mp hp

theorem map_nodes_hide (order : Order) (spot : Spot) (w : Nat) :
    (order.hide spot w).chunks.map (·.nodes) = order.chunks.map (·.nodes) :=
  map_modify_of_eq (f := fun held => { held with visible := held.visible - w }) (·.nodes) (fun _ => rfl) order.chunks
    spot.chunk

theorem intoNodes_hide (order : Order) (spot : Spot) (w : Nat) : (order.hide spot w).intoNodes = order.intoNodes := by
  rw [intoNodes, intoNodes, flatMap_def, flatMap_def, map_nodes_hide]

theorem At.hide (h : order.At spot l r) (spot' : Spot) (w : Nat) : (order.hide spot' w).At spot l r :=
  h.congr (map_nodes_hide order spot' w)

/-- A node that shows `w` characters fewer is hidden by `w`. -/
theorem Ok.hide {w : Nat} (hok : order.Ok weight) (h : order.At spot l (n :: r)) (hn : weight' n + w = weight n)
    (hother : ∀ m ∈ l ++ r, weight' m = weight m) : (order.hide spot w).Ok weight' := by
  obtain ⟨pre, a, b, visible, post, hc, rfl, rfl, hr, hend⟩ := at_iff.mp h
  cases b with
  | nil => simp [hend] at hr
  | cons m b =>
    rw [cons_append] at hr
    obtain ⟨rfl, rfl⟩ := hr
    have hheld := hok.counted ⟨a ++ n :: b, visible⟩ (by simp [hc])
    have ht := hok.total
    rw [h.append] at ht
    have hh : order.hide ⟨pre.length, a.length⟩ w =
        { chunks := pre ++ [⟨a ++ n :: b, visible - w⟩] ++ post, visible := order.visible - w } := by
      simp [Order.hide, hc, modify_middle]
    have ha : a.map weight' = a.map weight := map_congr_left fun m hm => hother m (by simp [hm])
    have hb : b.map weight' = b.map weight := map_congr_left fun m hm => hother m (by simp [hm])
    simp only [map_append, map_cons, sum_append, sum_cons] at hheld ht
    rw [hh]
    refine hok.replace hc (fun m hm => hother m ?_) (by simp) (forall_mem_singleton.mpr ⟨?_, by simp⟩) ?_
    · simp only [flatMap_append, mem_append] at hm ⊢
      tauto
    · simp only [map_append, map_cons, sum_append, sum_cons, ha, hb]
      omega
    · simp only [map_cons, map_nil, sum_cons, sum_nil]
      omega

theorem Ok.congr (hok : order.Ok weight) (h : ∀ n ∈ order.intoNodes, weight' n = weight n) : order.Ok weight' where
  counted held hm := by
    rw [hok.counted held hm]
    congr 1
    exact map_congr_left fun n hn => (h n (mem_flatMap.mpr ⟨held, hm, hn⟩)).symm
  total := by
    rw [hok.total]
    congr 1
    exact map_congr_left fun n hn => (h n hn).symm
  filled := hok.filled

end Order
end Defra.Text
