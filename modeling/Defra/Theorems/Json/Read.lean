import Defra.Theorems.Json.Frontier

/-! What a frontier reads as does not depend on what its entries record as seen, and the conflicts it lists depend
    on that only where one edit is above the other. -/

namespace Defra.Json
open List Frontier Racer

variable {κ β : Type} {key : β → κ} {l : List β}

theorem putIn_concat [LinearOrder κ] {x : β} (h : ∀ y ∈ l, key y < key x) : KeyedList.putIn key x l = l ++ [x] := by
  induction l with
  | nil => rfl
  | cons y l ih =>
    have hy := h y mem_cons_self
    rw [KeyedList.putIn, if_neg (lt_asymm hy), if_pos hy, ih fun z hz => h z (mem_cons_of_mem y hz)]
    rfl

theorem putIn_replace [LinearOrder κ] {x y : β} (h : ∀ z ∈ l, key z < key x) (he : key y = key x)
    : KeyedList.putIn key x (l ++ [y]) = l ++ [x] := by
  induction l with
  | nil => rw [nil_append, KeyedList.putIn, if_neg (by simp [he]), if_neg (by simp [he])]; rfl
  | cons z l ih =>
    have hz := h z mem_cons_self
    rw [cons_append, KeyedList.putIn, if_neg (lt_asymm hz), if_pos hz, ih fun w hw => h w (mem_cons_of_mem z hw)]
    rfl

namespace Index

/-! ### Entries by path -/

/-- The index groups `es` by path key. -/
structure Groups (index : Index) (es : List Entry) : Prop where
  flatten : index.byPath.toList.flatMap (·.2) = es
  key : ∀ group ∈ index.byPath.toList, ∀ entry ∈ group.2, encodePath entry.path = group.1
  nonempty : ∀ group ∈ index.byPath.toList, group.2 ≠ []

/-- Entries come in the order of their keys, so each joins the last group or starts the next. -/
theorem Groups.push {index : Index} {es : List Entry} (h : index.Groups es) {entry : Entry}
    (hl : ∀ e ∈ es, entryKey e < entryKey entry) : (index.push entry).Groups (es ++ [entry]) := by
  have hle : ∀ group ∈ index.byPath.toList, group.1 ≤ encodePath entry.path := by
    intro group hgroup
    obtain ⟨e, he⟩ := exists_mem_of_ne_nil _ (h.nonempty group hgroup)
    rw [← h.key group hgroup e he]
    have hmem : e ∈ es := h.flatten ▸ mem_flatMap.mpr ⟨group, hgroup, he⟩
    rcases Prod.Lex.lt_iff.mp (hl e hmem) with hlt | ⟨heq, -⟩
    · exact hlt.le
    · exact heq.le
  have hs := index.byPath.sorted
  cases hf : index.byPath.find? (encodePath entry.path) with
  | some group =>
    obtain ⟨hgroup, hk⟩ := KeyedList.find?_eq_some.mp hf
    obtain ⟨l, r, hsp⟩ := append_of_mem hgroup
    rw [hsp, pairwise_append, pairwise_cons] at hs
    -- The group of the entry's path is the last: every other path is before it.
    obtain rfl : r = [] := by
      refine eq_nil_iff_forall_not_mem.mpr fun other ho => ?_
      have hlt := hs.2.1.1 other ho
      exact absurd (hle other (by rw [hsp]; simp [ho])) (not_le.mpr (hk ▸ hlt))
    have hp : (index.push entry).byPath.toList = l ++ [(encodePath entry.path, group.2 ++ [entry])] := by
      simp only [Index.push, hf, KeyedList.put, hsp]
      exact putIn_replace (fun z hz => by simpa [hk] using hs.2.2 z hz group mem_cons_self) hk
    refine ⟨?_, ?_, ?_⟩
    · rw [hp, ← h.flatten, hsp]
      simp
    · rw [hp]
      intro g hg e he
      rcases mem_append.mp hg with hg | hg
      · exact h.key g (by rw [hsp]; simp [hg]) e he
      · obtain rfl := mem_singleton.mp hg
        rcases mem_append.mp he with he | he
        · exact (h.key group hgroup e he).trans hk
        · rw [mem_singleton.mp he]
    · rw [hp]
      intro g hg
      rcases mem_append.mp hg with hg | hg
      · exact h.nonempty g (by rw [hsp]; simp [hg])
      · obtain rfl := mem_singleton.mp hg
        simp
  | none =>
    have hlt : ∀ group ∈ index.byPath.toList, group.1 < encodePath entry.path := fun group hgroup =>
      lt_of_le_of_ne (hle group hgroup) fun he => by
        have := find?_eq_none.mp hf group hgroup
        simp [he] at this
    have hp : (index.push entry).byPath.toList = index.byPath.toList ++ [(encodePath entry.path, [entry])] := by
      simp only [Index.push, hf, KeyedList.put]
      exact putIn_concat hlt
    refine ⟨?_, ?_, ?_⟩
    · rw [hp, flatMap_append, h.flatten]
      simp
    · rw [hp]
      intro g hg e he
      rcases mem_append.mp hg with hg | hg
      · exact h.key g hg e he
      · obtain rfl := mem_singleton.mp hg
        rw [mem_singleton.mp he]
    · rw [hp]
      intro g hg
      rcases mem_append.mp hg with hg | hg
      · exact h.nonempty g hg
      · obtain rfl := mem_singleton.mp hg
        simp

theorem groups_new (f : Frontier) : (Index.new f).Groups f.entries.toList := by
  have hrun : ∀ (rest done : List Entry) (index : Index), index.Groups done →
      (done ++ rest).Pairwise (fun x y => entryKey x < entryKey y) → (rest.foldl push index).Groups (done ++ rest) := by
    intro rest
    induction rest with
    | nil => exact fun done index h _ => by rwa [append_nil]
    | cons entry rest ih =>
      intro done index h hs
      have hlast := (pairwise_append.mp hs).2.2
      have := ih (done ++ [entry]) (index.push entry) (h.push fun e he => hlast e he entry mem_cons_self)
        (by rwa [append_assoc])
      rwa [append_assoc] at this
  exact hrun f.entries.toList [] {} ⟨rfl, by simp [EmptyCollection.emptyCollection], by simp [EmptyCollection.emptyCollection]⟩
    f.entries.sorted

theorem under_new (f : Frontier) (path : Path) : (Index.new f).under (encodePath path) =
    (f.entries.toList.filter fun entry => path.isPrefixOf entry.path).map fun entry =>
      { own := entry.path = path, entry } := by
  have h := groups_new f
  have hrange : (Index.new f).byPath.rangeWhile (encodePath path) (fun group => (encodePath path).isPrefixOf group.1) =
      (Index.new f).byPath.toList.filter fun group => (encodePath path).isPrefixOf group.1 := by
    refine KeyedList.rangeWhile_eq_filter (fun group _ hp => ?_) fun x _ y _ hlo hxy hp => ?_
    · exact Bytes.le_of_prefix ( isPrefixOf_iff_prefix.mp hp)
    · rw [ isPrefixOf_iff_prefix] at hp ⊢
      exact Bytes.prefix_of_between hlo hxy.le hp
  rw [← h.flatten]
  unfold under
  rw [hrange]
  -- Group by group: a group's key is the key of each of its entries.
  have hk := h.key
  generalize (Index.new f).byPath.toList = groups at hk ⊢
  induction groups with
  | nil => rfl
  | cons group groups ih =>
    have hgroup : ∀ e ∈ group.2, encodePath e.path = group.1 := hk group mem_cons_self
    have ih := ih fun g hg => hk g (mem_cons_of_mem group hg)
    rw [flatMap_cons, filter_append, map_append, ← ih]
    by_cases hp : (encodePath path).isPrefixOf group.1 = true
    · rw [filter_cons, if_pos hp, flatMap_cons]
      have hall : group.2.filter (fun entry => path.isPrefixOf entry.path) = group.2 := by
        refine filter_eq_self.mpr fun e he => ?_
        rw [ isPrefixOf_iff_prefix, ← encodePath_prefix_iff, hgroup e he]
        exact isPrefixOf_iff_prefix.mp hp
      rw [hall]
      congr 1
      refine map_congr_left fun e he => ?_
      have ho : (group.1.length == (encodePath path).length) = decide (e.path = path) := by
        rw [Bool.eq_iff_iff, beq_iff_eq, decide_eq_true_eq, ← hgroup e he]
        refine ⟨fun hlen => ?_, fun heq => heq ▸ rfl⟩
        have hpre : encodePath path <+: encodePath e.path := hgroup e he ▸ isPrefixOf_iff_prefix.mp hp
        exact encodePath_inj (hpre.eq_of_length hlen.symm).symm
      rw [ho]
    · rw [filter_cons, if_neg hp]
      have hnone : group.2.filter (fun entry => path.isPrefixOf entry.path) = [] := by
        refine filter_eq_nil_iff.mpr fun e he hpre => hp ?_
        rw [ isPrefixOf_iff_prefix, ← hgroup e he, encodePath_prefix_iff]
        exact isPrefixOf_iff_prefix.mp hpre
      rw [hnone]
      rfl

theorem mem_under_new {f : Frontier} {path : Path} {racer : Racer} : racer ∈ (Index.new f).under (encodePath path) ↔
      racer.entry ∈ f.entries ∧ path <+: racer.entry.path ∧ racer.own = decide (racer.entry.path = path) := by
  rw [under_new, mem_map]
  constructor
  · rintro ⟨entry, he, rfl⟩
    obtain ⟨he, hp⟩ := mem_filter.mp he
    exact ⟨he, isPrefixOf_iff_prefix.mp hp, rfl⟩
  · rintro ⟨he, hp, ho⟩
    refine ⟨racer.entry, mem_filter.mpr ⟨he, isPrefixOf_iff_prefix.mpr hp⟩, ?_⟩
    rw [← ho]

end Index

/-! ### What entries record as seen -/

def Entry.plain (entry : Entry) : Entry := { entry with seen := [] }

def Racer.plain (racer : Racer) : Racer := { racer with entry := racer.entry.plain }

theorem Entry.plain_eq_iff {e e' : Entry} : e.plain = e'.plain ↔
    e.path = e'.path ∧ e.block = e'.block ∧ e.priority = e'.priority ∧ e.edit = e'.edit := by
  simp [Entry.plain]

theorem Racer.plain_eq_iff {r r' : Racer} : r.plain = r'.plain ↔ r.own = r'.own ∧ r.entry.plain = r'.entry.plain := by
  simp [plain]

/-- The frontiers differ only in what their entries record as seen. -/
def SamePlain (f g : Frontier) : Prop := f.entries.toList.map Entry.plain = g.entries.toList.map Entry.plain

namespace SamePlain
variable {f g : Frontier}

section
variable (h : SamePlain f g)
include h

variable (path : Path)

theorem under :
    ((Index.new f).under (encodePath path)).map plain = ((Index.new g).under (encodePath path)).map plain := by
  have hp : ∀ f : Frontier, ((Index.new f).under (encodePath path)).map plain =
      ((f.entries.toList.map Entry.plain).filter fun entry => path.isPrefixOf entry.path).map fun entry =>
        { own := entry.path = path, entry } := fun f => by
    rw [Index.under_new, filter_map, map_map, map_map]
    rfl
  rw [hp, hp, h]

theorem racers :
    ((Index.new f).racers (encodePath path)).map plain = ((Index.new g).racers (encodePath path)).map plain := by
  have hp : ∀ index : Index, (index.racers (encodePath path)).map plain =
      let all := ((index.under (encodePath path)).map plain).filter fun racer => racer.own || !racer.entry.edit.isDelete
      all.filter fun racer => !((all.any fun racer => !racer.own) && racer.own && racer.entry.edit.isDelete) := fun index => by
    simp only [Index.racers, filter_map, any_map]
    rfl
  rw [hp, hp, h.under]

theorem winner :
    ((Index.new f).winner (encodePath path)).map plain = ((Index.new g).winner (encodePath path)).map plain := by
  have hfold : ∀ (rest : List Racer) (first : Racer),
      (rest.foldl (fun best racer => if beats racer.entry best.entry then racer else best) first).plain =
        (rest.map plain).foldl (fun best racer => if beats racer.entry best.entry then racer else best) first.plain := by
    intro rest
    induction rest with
    | nil => exact fun _ => rfl
    | cons racer rest ih =>
      intro first
      rw [foldl_cons, map_cons, foldl_cons, ih]
      have : beats racer.plain.entry first.plain.entry = beats racer.entry first.entry := rfl
      rw [this]
      split <;> rfl
  have hr := h.racers path
  unfold Index.winner
  cases hf : (Index.new f).racers (encodePath path) with
  | nil =>
    rw [hf, map_nil, eq_comm, map_eq_nil_iff] at hr
    rw [hr]
  | cons first rest =>
    rw [hf, map_cons, eq_comm, map_eq_cons_iff] at hr
    obtain ⟨first', rest', hg, hfirst, hrest⟩ := hr
    rw [hg]
    show some (_) = some _
    rw [hfold, hfold, hfirst, hrest]

theorem node : (Index.new f).node (encodePath path) = (Index.new g).node (encodePath path) := by
  have hw := h.winner path
  unfold Index.node
  cases hf : (Index.new f).winner (encodePath path) with
  | none =>
    rw [hf] at hw
    rw [Option.map_eq_none_iff.mp hw.symm]
  | some r =>
    rw [hf] at hw
    obtain ⟨r', hr', he⟩ := Option.map_eq_some_iff.mp hw.symm
    obtain ⟨hown, hentry⟩ := plain_eq_iff.mp he
    rw [hr']
    simp only [isMap, hown, (Entry.plain_eq_iff.mp hentry).2.2.2]
    rfl

theorem build (fuel : Nat) (path : Path) : (Index.new f).build fuel path = (Index.new g).build fuel path := by
  induction fuel generalizing path with
  | zero => rfl
  | succ fuel ih =>
    have hchildren : ∀ index : Index, ((index.under (encodePath path)).filter fun racer => !racer.own).map
        (fun racer => racer.entry.path.getD path.length "") =
        ((((index.under (encodePath path)).map plain).filter fun racer => !racer.own).map
          fun racer => racer.entry.path.getD path.length "") := fun index => by
      rw [filter_map, map_map]
      rfl
    rw [Index.build, Index.build, h.node path, hchildren, hchildren, h.under]
    cases (Index.new g).node (encodePath path) with
    | absent => rfl
    | value v => rfl
    | map => simp only [ih]

theorem materialize : f.materialize = g.materialize := by
  have hd : f.depth = g.depth := by
    have hp : ∀ f : Frontier, f.depth = ((f.entries.toList.map Entry.plain).map fun e => e.path.length).foldr max 0 :=
      fun f => by
        rw [map_map]
        rfl
    rw [hp, hp, h]
  rw [Frontier.materialize, Frontier.materialize, hd, h.build]

end

theorem losers_congr {key : Bytes} {winner winner' : Racer} (hw : winner.plain = winner'.plain) :
    ∀ {racers racers' : List Racer} (listed : List Bytes), racers.map plain = racers'.map plain →
      (∀ r ∈ racers, ∀ r' ∈ racers', r.plain = r'.plain → concurrent r winner = concurrent r' winner') →
      losers key winner racers listed = losers key winner' racers' listed
  | [], [], _, _, _ => rfl
  | [], _ :: _, _, h, _ => by cases h
  | _ :: _, [], _, h, _ => by cases h
  | r :: rs, r' :: rs', listed, h, hc => by
    obtain ⟨hr, hrs⟩ := cons.inj h
    have ih : ∀ listed, losers key winner rs listed = losers key winner' rs' listed := fun listed =>
      losers_congr hw listed hrs fun a ha b hb => hc a (mem_cons_of_mem r ha) b (mem_cons_of_mem r' hb)
    have hconc := hc r mem_cons_self r' mem_cons_self hr
    obtain ⟨hown, hentry⟩ := plain_eq_iff.mp hr
    obtain ⟨hwown, hwentry⟩ := plain_eq_iff.mp hw
    obtain ⟨-, hblock, hprio, hedit⟩ := Entry.plain_eq_iff.mp hentry
    obtain ⟨-, hwblock, -, hwedit⟩ := Entry.plain_eq_iff.mp hwentry
    simp only [losers, isMap, hown, hwown, hblock, hprio, hedit, hwblock, hwedit, hconc, ih]
    rfl

end SamePlain

theorem length_le_depth {f : Frontier} {entry : Entry} (h : entry ∈ f.entries) : entry.path.length ≤ f.depth := by
  rw [depth]
  have hmem : entry.path.length ∈ f.entries.toList.map fun e => e.path.length := mem_map_of_mem h
  generalize (f.entries.toList.map fun e => e.path.length) = lengths at hmem
  induction lengths with
  | nil => cases hmem
  | cons length lengths ih =>
    rcases mem_cons.mp hmem with he | hmem
    · exact he ▸ le_max_left _ _
    · exact le_trans (ih hmem) (le_max_right _ _)

end Defra.Json
