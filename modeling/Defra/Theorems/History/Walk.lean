import Defra.Lib.DepthFirst
import Defra.History.Walk

/-! Each step of a page is a step of a depth-first walk that the store holds. -/

namespace Defra.History
open KeyedList List DepthFirst Option

variable {Cid : Type}

/-- The stored frames are the stack, from the bottom up. -/
def Frames (frames : KeyedList (Prod.fst : Nat × Frame Cid → Nat)) (stack : List (Cid × Nat)) : Prop :=
  ∀ i, frames.get? i = stack.reverse[i]?.map fun f => ⟨f.1, f.2⟩

/-! ### Frames -/

section Frames
variable {frames : KeyedList (Prod.fst : Nat × Frame Cid → Nat)} {rest : List (Cid × Nat)} {f : Cid × Nat}

theorem getElem?_concat {α : Type} (l : List α) (x : α) (i : Nat) : (l ++ [x])[i]? = if i = l.length then some x else l[i]? := by
  split
  · rename_i h
    rw [h, getElem?_concat_length]
  · rename_i h
    rcases Nat.lt_or_gt_of_ne h with hlt | hgt
    · exact getElem?_append_left hlt
    · rw [getElem?_eq_none (by simp; omega), getElem?_eq_none (by omega)]

theorem Frames.top (h : Frames frames (f :: rest)) : frames.get? rest.length = some ⟨f.1, f.2⟩ := by
  rw [h, reverse_cons, getElem?_concat, length_reverse, if_pos rfl]
  rfl

theorem Frames.below (h : Frames frames (f :: rest)) {i : Nat} (hi : i ≠ rest.length) :
    frames.get? i = rest.reverse[i]?.map fun f => ⟨f.1, f.2⟩ := by
  rw [h, reverse_cons, getElem?_concat, length_reverse, if_neg hi]

theorem Frames.put (h : ∀ i, i ≠ rest.length → frames.get? i = rest.reverse[i]?.map fun f => ⟨f.1, f.2⟩) (f : Cid × Nat) :
    Frames (frames.put (rest.length, ⟨f.1, f.2⟩)) (f :: rest) := by
  intro i
  rw [get?_put, reverse_cons, getElem?_concat, length_reverse]
  split
  · rfl
  · rename_i hi
    exact h i hi

theorem Frames.erase (h : Frames frames (f :: rest)) : Frames (frames.erase rest.length) rest := by
  intro i
  rw [get?_erase]
  split
  · rename_i hi
    rw [hi, getElem?_eq_none (by simp)]
    rfl
  · rename_i hi
    exact h.below hi

end Frames

variable [LinearOrder Cid]

/-! ### Walkable histories -/

def Env.parents (env : Env Cid) (cid : Cid) : List Cid :=
  match env.block cid with
  | .ok block => block.parents
  | .error _ => []

/-- The blocks under the root are among `nodes`, all present, and their merges succeed. -/
structure Walkable (env : Env Cid) (nodes : Finset Cid) : Prop where
  root : env.root ∈ nodes
  closed : ∀ c ∈ nodes, ∀ p ∈ env.parents c, p ∈ nodes
  present : ∀ c ∈ nodes, ∃ block, env.block c = .ok block ∧ block.isComposite = true
  prepare : ∀ published, ∀ c ∈ nodes, ∀ doc, env.prepare published c doc = .ok .ready
  process : ∀ published, ∀ c ∈ nodes, ∀ doc, env.process published c doc = .ok .merged
  card : nodes.card < 2 ^ 64

/-- The block is applied to the document. -/
def applied (published : List (String × Cid)) (doc : Option String) (cid : Cid) : Bool :=
  doc.any fun doc => published.contains (doc, cid)

def Env.Names (env : Env Cid) (doc : String) : Prop :=
  ∃ c block, Under env.parents env.root c ∧ env.block c = .ok block ∧ env.identity c block = some doc

theorem Walkable.mem {env : Env Cid} {nodes : Finset Cid} (h : Walkable env nodes) {c : Cid}
    (hc : Under env.parents env.root c) : c ∈ nodes := by
  induction hc with
  | refl => exact h.root
  | tail _ hp ih => exact h.closed _ ih _ hp

/-! ### What the store holds of a walk -/

/-- A block is marked once it is met, and again when it is done. -/
structure Marks (marks : KeyedList (Prod.fst : Cid × Bytes → Cid)) (s : State Cid) : Prop where
  done : ∀ c ∈ s.done, marks.get? c = some [1]
  path : ∀ c ∈ s.path, c ∉ s.done → marks.get? c = some [0]
  unmet : ∀ c, c ∉ s.path → c ∉ s.done → marks.get? c = none

/-- The store holds the stack and the marks of the walk. -/
structure Stored (page : Page Cid) (s : State Cid) : Prop where
  nodes : page.progress.nodes = s.stack.length + s.done.length
  frames : Frames page.store.frames s.stack
  marks : Marks page.store.marks s

/-- The blocks done that were not applied before are merged. -/
structure Logged (env : Env Cid) (start : Store Cid) (page : Page Cid) (done : List Cid) : Prop where
  unknown : page.progress.doc = none → done = []
  names : ∀ doc, page.progress.doc = some doc → env.Names doc
  log : page.store.log = start.log ++ done.filter fun c => !applied start.published page.progress.doc c
  kept : ∀ x ∈ start.published, x ∈ page.store.published
  published : ∀ x ∈ page.store.published, x ∈ start.published ∨ x.2 ∈ done
  context : page.progress.context = env.context
  waiting : page.waiting = none

/-- The page is in the middle of the walk. -/
structure Walking (env : Env Cid) (start : Store Cid) (page : Page Cid) (s : State Cid) : Prop where
  top : page.progress.top + 1 = s.stack.length
  outcome : page.progress.outcome = none
  stored : Stored page s
  logged : Logged env start page s.done
  inv : Inv env.parents (applied start.published page.progress.doc) env.root s

/-- The page has come to the end of the walk. -/
structure Ended (env : Env Cid) (start : Store Cid) (page : Page Cid) (s : State Cid) : Prop where
  stack : s.stack = []
  outcome : page.progress.outcome = some .merged
  stored : Stored page s
  logged : Logged env start page s.done
  inv : Inv env.parents (applied start.published page.progress.doc) env.root s

/-- What a step does: the walk goes on, ends or fails on a cycle. -/
inductive Steps (env : Env Cid) (start : Store Cid) (nodes : Finset Cid) (s : State Cid) :
    Except (MergeError Cid) (Flow Cid) → Prop
  | next {page s'} (walking : Walking env start page s') (less : work env.parents nodes s' < work env.parents nodes s) :
      Steps env start nodes s (.ok (.next page))
  | stop {page s'} (ended : Ended env start page s') : Steps env start nodes s (.ok (.stop page))
  | cyclic (h : Cyclic env.parents s) : Steps env start nodes s (.error (.unsupportedDelta "cyclic composite history"))

/-! ### Steps -/

section Step
variable {env : Env Cid} {start : Store Cid} {nodes : Finset Cid} {page : Page Cid} {a : Cid} {n : Nat}
  {rest : List (Cid × Nat)} {done : List Cid}

theorem Marks.pop {marks : KeyedList (Prod.fst : Cid × Bytes → Cid)} (h : Marks marks ⟨(a, n) :: rest, done⟩) :
    Marks (marks.put (a, [1])) ⟨rest, done ++ [a]⟩ where
  done c hc := by
    rw [get?_put]
    split
    · rfl
    · rename_i hne
      exact h.done c ((mem_append.mp hc).resolve_right fun hin => hne (mem_singleton.mp hin))
  path c hc hnot := by
    obtain ⟨hd, hne⟩ := not_or.mp (mt mem_append.mpr hnot)
    rw [get?_put, if_neg (mt mem_singleton.mpr hne)]
    exact h.path c (mem_cons_of_mem a hc) hd
  unmet c hc hnot := by
    obtain ⟨hd, hne⟩ := not_or.mp (mt mem_append.mpr hnot)
    rw [get?_put, if_neg (mt mem_singleton.mpr hne)]
    refine h.unmet c (fun hin => ?_) hd
    rcases mem_cons.mp hin with heq | hin
    · exact hne (mem_singleton.mpr heq)
    · exact hc hin

theorem Marks.push {marks : KeyedList (Prod.fst : Cid × Bytes → Cid)} (h : Marks marks ⟨(a, n) :: rest, done⟩) {p : Cid}
    (hp : p ∉ done) : Marks (marks.put (p, [0])) ⟨(p, 0) :: (a, n + 1) :: rest, done⟩ where
  done c hc := by
    have hne : c ≠ p := fun heq => hp (heq ▸ hc)
    rw [get?_put, if_neg hne]
    exact h.done c hc
  path c hc hnot := by
    rw [get?_put]
    split
    · rfl
    · rename_i hne
      exact h.path c ((mem_cons.mp hc).resolve_left hne) hnot
  unmet c hc hnot := by
    obtain ⟨hne, hpath⟩ := not_or.mp (mt mem_cons.mpr hc)
    rw [get?_put, if_neg hne]
    exact h.unmet c hpath hnot

section
variable (hw : Walkable env nodes)
include hw

theorem steps_pop (hstored : Stored page ⟨(a, n) :: rest, done⟩)
    (ht : page.progress.top = rest.length) (ho : page.progress.outcome = none)
    (hlogged : Logged env start page (done ++ [a]))
    (hinv : Inv env.parents (applied start.published page.progress.doc) env.root ⟨(a, n) :: rest, done⟩)
    (hs : Step env.parents (applied start.published page.progress.doc) ⟨(a, n) :: rest, done⟩ ⟨rest, done ++ [a]⟩) :
    Steps env start nodes ⟨(a, n) :: rest, done⟩ (.ok (page.pop a (some .merged))) := by
  have hn : page.progress.nodes = rest.length + (done ++ [a]).length := by
    rw [hstored.nodes, length_append]
    exact (Nat.succ_add _ _)
  have hf := hstored.frames.erase
  rw [← ht] at hf
  have hm := hstored.marks.pop
  have hinv' := hinv.step hs
  unfold Page.pop
  dsimp only
  split
  · rename_i hzero
    have hr : rest = [] := length_eq_zero_iff.mp (ht.symm.trans hzero)
    refine .stop (?_ : Ended env start _ ⟨rest, done ++ [a]⟩)
    exact ⟨hr, rfl, ⟨hn, hf, hm⟩, { hlogged with }, hinv'⟩
  · rename_i hpos
    have ht' : page.progress.top - 1 + 1 = rest.length := by
      have : page.progress.top ≠ 0 := hpos
      omega
    refine .next (?_ : Walking env start _ ⟨rest, done ++ [a]⟩) (work_lt hinv (fun _ => hw.mem) hs)
    exact ⟨ht', ho, ⟨hn, hf, hm⟩, { hlogged with }, hinv'⟩

theorem Walkable.length_lt {skip : Cid → Bool} {s : State Cid}
    (hinv : Inv env.parents skip env.root s) {p : Cid} (hp : p ∈ nodes) (hunmet : p ∉ s.path ++ s.done) :
    s.stack.length + s.done.length < nodes.card := by
  have hcard := toFinset_card_of_nodup (nodup_cons.mpr ⟨hunmet, hinv.nodup⟩)
  have hle : (p :: (s.path ++ s.done)).toFinset.card ≤ nodes.card := Finset.card_le_card fun c hc => by
    rcases mem_cons.mp (mem_toFinset.mp hc) with rfl | hc
    · exact hp
    · exact hw.mem (hinv.under c hc)
  rw [hcard, length_cons, length_append, State.path, length_map] at hle
  exact hle

section
variable (h : Walking env start page ⟨(a, n) :: rest, done⟩)
include h

theorem steps_push {p : Cid}
    (hp : (env.parents a)[n]? = some p) (hd : p ∉ done) (hpath : p ∉ a :: rest.map Prod.fst) :
    Steps env start nodes ⟨(a, n) :: rest, done⟩ (((page.write ⟨a, n + 1⟩).push p).map .next) := by
  have hs : Step env.parents (applied start.published page.progress.doc) ⟨(a, n) :: rest, done⟩
      ⟨(p, 0) :: (a, n + 1) :: rest, done⟩ := .push hp hd hpath
  have hinv := h.inv.step hs
  have hlt := hw.length_lt h.inv (hw.mem (hinv.under p (mem_append_left _ mem_cons_self)))
    fun hin => (mem_append.mp hin).elim hpath hd
  have hn := h.stored.nodes
  have ht := h.top
  have hc := hw.card
  have hr : page.progress.top = rest.length := Nat.succ.inj ht
  have hf : Frames (page.store.frames.put (page.progress.top, ⟨a, n + 1⟩)) ((a, n + 1) :: rest) := by
    rw [hr]
    exact Frames.put (fun i hi => h.stored.frames.below hi) (a, n + 1)
  have hpush : (page.write ⟨a, n + 1⟩).push p = .ok
      (((({ page.write ⟨a, n + 1⟩ with progress := { page.progress with
        nodes := page.progress.nodes + 1, top := page.progress.top + 1 } } : Page Cid).write ⟨p, 0⟩)).mark p [0]) := by
    have hsmall : ¬2 ^ 64 ≤ page.progress.nodes + 1 := by
      rw [hn]
      exact Nat.not_le.mpr (lt_of_le_of_lt hlt hc)
    have hsmall' : ¬2 ^ 64 ≤ page.progress.top + 1 := fun hle => hsmall (by
      omega)
    exact (if_neg hsmall).trans (if_neg hsmall')
  rw [hpush]
  refine .next (?_ : Walking env start _ ⟨(p, 0) :: (a, n + 1) :: rest, done⟩) (work_lt h.inv (fun _ => hw.mem) hs)
  refine ⟨congrArg (· + 1) ht, h.outcome, ⟨?_, ?_, h.stored.marks.push hd⟩, { h.logged with }, hinv⟩
  · rw [hn]
    exact (Nat.succ_add _ _).symm
  · have hput := Frames.put (fun i _ => hf i) (p, 0)
    rw [length_cons, ← hr] at hput
    exact hput

theorem steps_advance {p : Cid} (hp : (env.parents a)[n]? = some p) (hd : p ∈ done) :
    Steps env start nodes ⟨(a, n) :: rest, done⟩ (.ok (.next (page.write ⟨a, n + 1⟩))) := by
  have hs : Step env.parents (applied start.published page.progress.doc) ⟨(a, n) :: rest, done⟩ ⟨(a, n + 1) :: rest, done⟩ :=
    .advance hp hd
  have hr : page.progress.top = rest.length := Nat.succ.inj h.top
  have hf := Frames.put (fun i hi => h.stored.frames.below hi) (a, n + 1)
  rw [← hr] at hf
  refine .next (?_ : Walking env start _ ⟨(a, n + 1) :: rest, done⟩) (work_lt h.inv (fun _ => hw.mem) hs)
  exact ⟨h.top, h.outcome, ⟨h.stored.nodes, hf, { h.stored.marks with }⟩, { h.logged with }, h.inv.step hs⟩

theorem steps_merge {doc : String}
    (hd : page.progress.doc = some doc) (hnew : applied start.published (some doc) a = false)
    (hn : (env.parents a)[n]? = none) : page.merge env a doc = .ok (.merged, page.publish doc a) ∧
      Steps env start nodes ⟨(a, n) :: rest, done⟩ (.ok ((page.publish doc a).pop a (some .merged))) := by
  have hm : a ∈ nodes := hw.mem (h.inv.under a (mem_append_left _ mem_cons_self))
  have hl := h.logged
  have hnew' : applied start.published page.progress.doc a = false := hd ▸ hnew
  refine ⟨?_, steps_pop hw ⟨h.stored.nodes, h.stored.frames, h.stored.marks⟩ (Nat.succ.inj h.top) h.outcome ?_ h.inv
    (.finish hnew' hn)⟩
  · unfold Page.merge
    rw [hw.prepare _ a hm doc, hw.process _ a hm doc]
  · refine ⟨fun hnone => ?_, hl.names, ?_, fun x hx => ?_, fun x hx => ?_, hl.context, hl.waiting⟩
    · cases hnone.symm.trans hd
    · have hlast : [a].filter (fun c => !applied start.published page.progress.doc c) = [a] := by simp [hnew']
      show page.store.log ++ [a] = start.log ++ (done ++ [a]).filter fun c => !applied start.published page.progress.doc c
      rw [filter_append, hlast, ← append_assoc]
      exact congrArg (· ++ [a]) hl.log
    · exact mem_append_left _ (hl.kept x hx)
    · rcases mem_append.mp hx with hx | hx
      · exact (hl.published x hx).imp_right (mem_append_left _)
      · rw [mem_singleton.mp hx]
        exact .inr (mem_append_right _ (mem_singleton_self a))

theorem steps_explore {block : Block Cid}
    (hb : env.block a = .ok block) (hnew : applied start.published page.progress.doc a = false)
    (hdoc : block.parents = [] → page.progress.doc ≠ none) :
    Steps env start nodes ⟨(a, n) :: rest, done⟩ (page.explore env ⟨a, n⟩ block) := by
  have hps : env.parents a = block.parents := by rw [Env.parents, hb]
  unfold Page.explore
  cases hp : block.parents[n]? with
  | some p =>
    dsimp only
    rw [← hps] at hp
    by_cases hd : p ∈ done
    · rw [h.stored.marks.done p hd]
      exact steps_advance hw h hp hd
    · by_cases hpath : p ∈ a :: rest.map Prod.fst
      · rw [h.stored.marks.path p hpath hd]
        exact .cyclic ⟨a, n, rest, p, rfl, hp, hpath⟩
      · rw [h.stored.marks.unmet p hpath hd]
        exact steps_push hw h hp hd hpath
  | none =>
    rw [← hps] at hp
    cases hname : page.progress.doc with
    | none =>
      -- Nothing is done before the document is known, and a block whose parents are done has none.
      refine absurd hname (hdoc (eq_nil_iff_forall_not_mem.mpr fun p hp' => ?_))
      have hd := h.inv.top (a, n) rfl p
      rw [take_of_length_le (getElem?_eq_none_iff.mp hp), hps] at hd
      have hin := hd hp'
      rw [h.logged.unknown hname] at hin
      cases hin
    | some doc =>
      obtain ⟨hmerge, hsteps⟩ := steps_merge hw h hname (hname ▸ hnew) hp
      dsimp only
      rw [hmerge]
      exact hsteps

end

end

theorem Walking.identify (h : Walking env start page ⟨(a, n) :: rest, done⟩) {block : Block Cid}
    (hb : env.block a = .ok block) : Walking env start (page.identify (env.identity a block)) ⟨(a, n) :: rest, done⟩ := by
  have hl := h.logged
  cases hd : page.progress.doc with
  | some doc =>
    have hsame : page.identify (env.identity a block) = page := by
      unfold Page.identify
      rw [hd, some_or, ← hd]
    rw [hsame]
    exact h
  | none =>
    obtain rfl : done = [] := hl.unknown hd
    refine ⟨h.top, h.outcome, ⟨h.stored.nodes, h.stored.frames, h.stored.marks⟩, ?_, h.inv.of_nil rfl⟩
    refine ⟨fun _ => rfl, fun doc hs => ?_, hl.log, hl.kept, hl.published, hl.context, hl.waiting⟩
    refine ⟨a, block, h.inv.under a (mem_append_left _ mem_cons_self), hb, ?_⟩
    have hor : page.progress.doc.or (env.identity a block) = some doc := hs
    rwa [hd, none_or] at hor

theorem checkRoot_eq (hw : Walkable env nodes) (page : Page Cid) (doc : String) :
    page.checkRoot env doc = .ok (.next { page with rootChecked := true }) := by
  unfold Page.checkRoot
  split
  · rename_i hchk
    rw [← hchk]
  · rw [hw.prepare _ _ hw.root]

theorem Walking.wasApplied (h : Walking env start page ⟨(a, n) :: rest, done⟩) (doc : String) :
    page.compositeWasApplied doc a = applied start.published (some doc) a := by
  have hnot : a ∉ done := (nodup_cons.mp h.inv.nodup).1 ∘ mem_append_right _
  refine Bool.eq_iff_iff.mpr ?_
  rw [Page.compositeWasApplied, applied, any_some, contains_iff_mem, contains_iff_mem]
  exact ⟨fun hin => (h.logged.published _ hin).resolve_right hnot, h.logged.kept _⟩

theorem Walking.step {s : State Cid} (hw : Walkable env nodes) (h : Walking env start page s) :
    Steps env start nodes s (page.step env) := by
  obtain ⟨stack, done⟩ := s
  cases stack with
  | nil => cases h.top
  | cons f rest =>
    obtain ⟨a, n⟩ := f
    have hr : page.progress.top = rest.length := Nat.succ.inj h.top
    have hframe := h.stored.frames.top
    rw [← hr] at hframe
    obtain ⟨block, hb, hcomposite⟩ := hw.present a (hw.mem (h.inv.under a (mem_append_left _ mem_cons_self)))
    have hwalk := h.identify hb
    unfold Page.step
    rw [hframe]
    dsimp only
    rw [hb]
    dsimp only
    rw [if_pos hcomposite]
    cases hd : (page.identify (env.identity a block)).progress.doc with
    | none =>
      refine steps_explore hw hwalk hb (by rw [hd]; rfl) fun hnil => ?_
      -- A block without parents names the document.
      have hname : env.identity a block = some (env.deriveDocId a) := by simp [Env.identity, hnil]
      have hor : page.progress.doc.or (env.identity a block) = none := hd
      rw [hname] at hor
      cases (or_eq_none_iff.mp hor).2
    | some doc =>
      have hchk : Walking env start { page.identify (env.identity a block) with rootChecked := true }
          ⟨(a, n) :: rest, done⟩ :=
        { hwalk with stored := { hwalk.stored with }, logged := { hwalk.logged with } }
      dsimp only
      rw [checkRoot_eq hw]
      dsimp only
      rw [hchk.wasApplied doc]
      cases ha : applied start.published (some doc) a with
      | true =>
        have hl := hchk.logged
        have ha' : applied start.published (page.identify (env.identity a block)).progress.doc a = true := hd ▸ ha
        refine steps_pop hw hchk.stored hr hchk.outcome ?_ hchk.inv (.skip ha')
        refine { hl with unknown := fun hn => ?_, log := ?_, published := fun x hx => ?_ }
        · cases hn.symm.trans hd
        · have hlast : [a].filter (fun c => !applied start.published (page.identify (env.identity a block)).progress.doc c) =
              [] := by simp [ha']
          rw [filter_append, hlast, append_nil]
          exact hl.log
        · exact (hl.published x hx).imp_right (mem_append_left _)
      | false =>
        refine steps_explore hw hchk hb ?_ fun _ hn => ?_
        · exact hd ▸ ha
        · cases hn.symm.trans hd

end Step

end Defra.History
