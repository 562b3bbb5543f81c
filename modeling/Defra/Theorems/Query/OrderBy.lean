import Defra.Lib.MergeSort
import Defra.Query.OrderBy

/-! Sorting rows that are already in order by the first conditions: each group of rows that these conditions find equal is sorted on
    its own, and the rows come out as if all had been sorted at once. -/

namespace Defra.Query
open List Index Json MergeSort

section
variable (r : Value → String)

/-! ### Comparing values -/

theorem compareNonNull_of_ne {a b : Value} (h : compare (typeOrder a) (typeOrder b) ≠ .eq) :
    compareNonNull r a b = compare (typeOrder a) (typeOrder b) := by
  cases a <;> cases b <;> first | exact absurd rfl h | simp only [compareNonNull]

theorem compareF64_eq (a b : UInt64) : compareF64 a b = compare (float64.numeric a.toNat) (float64.numeric b.toNat) :=
  cmp_eq_compare ..

/-- Three values of one type. -/
inductive SameKind : Value → Value → Value → Prop where
  | null : SameKind .null .null .null
  | bool (a b c : Bool) : SameKind (.bool a) (.bool b) (.bool c)
  | number (a b c : Number) : SameKind (.number a) (.number b) (.number c)
  | string (a b c : String) : SameKind (.string a) (.string b) (.string c)
  | array (a b c : List Value) : SameKind (.array a) (.array b) (.array c)
  | object (a b c : List (String × Value)) : SameKind (.object a) (.object b) (.object c)

theorem sameKind_of_typeOrder {a b c : Value} (hab : typeOrder a = typeOrder b) (hbc : typeOrder b = typeOrder c) :
    SameKind a b c := by
  cases a <;> cases b <;> cases hab <;> cases c <;> cases hbc <;> constructor

theorem eq_of_typeOrder {a b : Value} (h : compare (typeOrder a) (typeOrder b) = .eq) : typeOrder a = typeOrder b :=
  Std.LawfulEqCmp.eq_of_compare h

mutual

theorem compareNonNull_swap (a b : Value) : compareNonNull r a b = (compareNonNull r b a).swap := by
  by_cases htype : compare (typeOrder a) (typeOrder b) = .eq
  · cases sameKind_of_typeOrder (eq_of_typeOrder htype) rfl with
    | null => simp only [compareNonNull]; rfl
    | bool a b => simp only [compareNonNull]; exact Std.OrientedCmp.eq_swap
    | number a b => simp only [compareNonNull, compareF64_eq]; exact Std.OrientedCmp.eq_swap
    | string a b => simp only [compareNonNull]; exact Std.OrientedCmp.eq_swap
    | array a b => simp only [compareNonNull]; exact compareItems_swap a b
    | object a b => simp only [compareNonNull]; exact Std.OrientedCmp.eq_swap
  · have hs : compare (typeOrder a) (typeOrder b) = (compare (typeOrder b) (typeOrder a)).swap := Std.OrientedCmp.eq_swap
    rw [compareNonNull_of_ne r htype, compareNonNull_of_ne r, hs]
    rw [hs] at htype
    exact fun heq => htype (by rw [heq]; rfl)

theorem compareItems_swap (as bs : List Value) : compareItems r as bs = (compareItems r bs as).swap := by
  cases as with
  | nil => cases bs <;> simp only [compareItems] <;> exact Std.OrientedCmp.eq_swap
  | cons a as =>
    cases bs with
    | nil => simp only [compareItems]; exact Std.OrientedCmp.eq_swap
    | cons b bs =>
      rw [compareItems, compareItems, Ordering.swap_then, ← compareNonNull_swap a b, ← compareItems_swap as bs]

end

theorem compareItems_nil_cons (b : Value) (bs : List Value) : compareItems r [] (b :: bs) = .lt := by
  exact Nat.compare_eq_lt.mpr (Nat.succ_pos _)

theorem compareItems_cons_nil (a : Value) (as : List Value) : compareItems r (a :: as) [] = .gt := by
  exact Nat.compare_eq_gt.mpr (Nat.succ_pos _)

theorem compareItems_nil_nil : compareItems r [] [] = .eq := by
  simp [compareItems]

mutual

theorem compareNonNull_fits (a b c : Value) :
    Fits (compareNonNull r a b) (compareNonNull r b c) (compareNonNull r a c) := by
  refine (fits_of_transCmp (typeOrder a) (typeOrder b) (typeOrder c) : Fits (compare _ _) _ _).refine
    (compareNonNull_of_ne r) (compareNonNull_of_ne r) (compareNonNull_of_ne r) fun hab hbc => ?_
  cases sameKind_of_typeOrder (eq_of_typeOrder hab) (eq_of_typeOrder hbc) with
  | null => simp only [compareNonNull]; decide
  | bool a b c => simp only [compareNonNull]; exact fits_of_transCmp a b c
  | number a b c => simp only [compareNonNull, compareF64_eq]; exact fits_of_transCmp _ _ _
  | string a b c => simp only [compareNonNull]; exact fits_of_transCmp _ _ _
  | array a b c => simp only [compareNonNull]; exact compareItems_fits a b c
  | object a b c => simp only [compareNonNull]; exact fits_of_transCmp _ _ _

theorem compareItems_fits (as bs cs : List Value) :
    Fits (compareItems r as bs) (compareItems r bs cs) (compareItems r as cs) := by
  cases as with
  | nil =>
    cases cs with
    | nil =>
      cases bs with
      | nil => rw [compareItems_nil_nil]; decide
      | cons b bs => rw [compareItems_nil_cons, compareItems_cons_nil]; exact (fits_lowest _).2.2.2
    | cons c cs =>
      rw [compareItems_nil_cons]
      cases bs with
      | nil => rw [compareItems_nil_nil, compareItems_nil_cons]; decide
      | cons b bs => rw [compareItems_nil_cons]; exact (fits_lowest _).1
  | cons a as =>
    cases bs with
    | nil =>
      rw [compareItems_cons_nil]
      cases cs with
      | nil => rw [compareItems_cons_nil, compareItems_nil_nil]; decide
      | cons c cs => rw [compareItems_nil_cons]; exact (fits_lowest _).2.1
    | cons b bs =>
      cases cs with
      | nil => rw [compareItems_cons_nil, compareItems_cons_nil]; exact (fits_lowest _).2.2.1
      | cons c cs =>
        rw [compareItems, compareItems, compareItems]
        exact (compareNonNull_fits a b c).then (compareItems_fits as bs cs)

end

/-! ### Comparing rows -/

/-- A null is no value. -/
def present : Option Value → Option Value
  | some .null => none
  | value => value

theorem orderValues_eq (a b : Option Value) :
    orderValues r a b = noneFirst (compareNonNull r) (present a) (present b) := by
  rcases a with _ | ⟨_ | _⟩ <;> rcases b with _ | ⟨_ | _⟩ <;> rfl

theorem orderValues_swap (a b : Option Value) : orderValues r a b = (orderValues r b a).swap := by
  rw [orderValues_eq, orderValues_eq, noneFirst_swap (compareNonNull_swap r)]

theorem orderValues_fits (a b c : Option Value) :
    Fits (orderValues r a b) (orderValues r b c) (orderValues r a c) := by
  rw [orderValues_eq, orderValues_eq, orderValues_eq]
  exact noneFirst_fits (compareNonNull_fits r) ..

variable (m : DocumentMapping) (cond : OrderCondition) (ord : OrderBy) (a b : PlanFields)

theorem compareByCondition_swap :
    compareByCondition r m a b cond = (compareByCondition r m b a cond).swap := by
  unfold compareByCondition
  rw [orderValues_swap]
  cases cond.direction <;> rfl

theorem compareByCondition_fits (a b c : PlanFields) :
    Fits (compareByCondition r m a b cond) (compareByCondition r m b c cond)
      (compareByCondition r m a c cond) := by
  have hfits := orderValues_fits r (getFieldValue m a cond.fields) (getFieldValue m b cond.fields)
    (getFieldValue m c cond.fields)
  unfold compareByCondition
  cases cond.direction with
  | asc => exact hfits
  | desc => exact hfits.swap

theorem transCmp_compareDocs : Std.TransCmp (compareDocs r m ord) := by
  refine transCmp_of_fits (fun a b => ?_) fun a b c => ?_
  · induction ord with
    | nil => rfl
    | cons cond ord ih =>
      rw [compareDocs, compareDocs, Ordering.swap_then, ← compareByCondition_swap, ← ih]
  · induction ord with
    | nil => exact (fits_equal .eq).1
    | cons cond ord ih => exact (compareByCondition_fits r m cond a b c).then ih

theorem compareDocs_append (first rest : OrderBy) (a b : PlanFields) : compareDocs r m (first ++ rest) a b =
    (compareDocs r m first a b).then (compareDocs r m rest a b) := by
  induction first with
  | nil => rfl
  | cons cond first ih => rw [cons_append, compareDocs, compareDocs, ih, Ordering.then_assoc]

theorem compareDocs_eq_iff :
    (ord.all fun cond => compareByCondition r m a b cond = .eq) = true ↔
      compareDocs r m ord a b = .eq := by
  induction ord with
  | nil => exact ⟨fun _ => rfl, fun _ => rfl⟩
  | cons cond ord ih =>
    rw [all_cons, Bool.and_eq_true, ih, compareDocs, Ordering.then_eq_eq, decide_eq_true_iff]

/-- Of two rows, one is not after the other. -/
theorem compareDocs_total :
    ((compareDocs r m ord a b).isLE || (compareDocs r m ord b a).isLE) = true := by
  have := transCmp_compareDocs r m ord
  have hs : compareDocs r m ord b a = (compareDocs r m ord a b).swap := Std.OrientedCmp.eq_swap
  rw [hs]
  cases compareDocs r m ord a b <;> rfl

theorem sortRows_append {ord : OrderBy} {group rest : List PlanFields}
    (h : ∀ a ∈ group, ∀ b ∈ rest, compareDocs r m ord a b = .lt) :
    sortRows r m ord (group ++ rest) =
      sortRows r m ord group ++ sortRows r m ord rest := by
  have := transCmp_compareDocs r m ord
  exact mergeSort_append (fun a b c => Std.TransCmp.isLE_trans) (compareDocs_total r m ord)
    fun a ha b hb => by rw [h a ha b hb]; rfl

theorem stableSort_sortRows (rows : List PlanFields) :
    StableSort (fun a b => (compareDocs r m ord a b).isLE) rows (sortRows r m ord rows) := by
  have := transCmp_compareDocs r m ord
  exact stableSort_mergeSort (fun a b c => Std.TransCmp.isLE_trans) (compareDocs_total r m ord) rows

end

namespace OrderByNode
variable (r : Value → String) {node : OrderByNode}

/-! ### One group -/

/-- The order that the source is in already. -/
def comparePrefix (node : OrderByNode) : PlanFields → PlanFields → Ordering :=
  compareDocs r node.mapping (node.orderBy.take node.orderedPrefix)

def waiting (node : OrderByNode) : List PlanFields := node.pending.toList ++ node.source

/-- What the node has yet to emit. -/
def output (node : OrderByNode) : List PlanFields :=
  node.buffer.drop node.position ++ sortRows r node.mapping node.orderBy node.waiting

/-- They are in order by the first conditions, and there are none once the source is exhausted, or without an ordered part. -/
structure Ready (node : OrderByNode) : Prop where
  sorted : node.waiting.Pairwise fun a b => (node.comparePrefix r a b).isLE = true
  exhausted : node.exhausted = true → node.source = []
  unordered : node.orderedPrefix = 0 → node.waiting = []

theorem compareDocs_of_lt {a b : PlanFields} (h : node.comparePrefix r a b = .lt) :
    compareDocs r node.mapping node.orderBy a b = .lt := by
  rw [← take_append_drop node.orderedPrefix node.orderBy, compareDocs_append]
  exact Ordering.then_eq_lt.mpr (.inl h)

/-- A group is cut off from the rows: those that are left are above the group's. -/
structure Cut (node : OrderByNode) (rows : List PlanFields) (cut : OrderByNode) : Prop where
  rows : rows = cut.buffer ++ cut.waiting
  below : ∀ a ∈ cut.buffer, ∀ b ∈ cut.waiting, node.comparePrefix r a b = .lt
  first : cut.buffer = [] → cut.waiting = []
  exhausted : cut.exhausted = true → cut.source = []
  orderBy : cut.orderBy = node.orderBy
  mapping : cut.mapping = node.mapping
  orderedPrefix : cut.orderedPrefix = node.orderedPrefix
  position : cut.position = node.position

/-- The row that ends a group, and those after it, are above all of the group. -/
theorem cut_pull {source buffer : List PlanFields} (hp : node.pending = none) (he : node.exhausted = false)
    (hsort : (buffer ++ source).Pairwise fun a b => (node.comparePrefix r a b).isLE = true)
    (hbuffer : ∀ a ∈ buffer, ∀ b ∈ buffer, node.comparePrefix r a b = .eq) :
    Cut r node (buffer ++ source) (node.pull r source buffer) := by
  have ht : Std.TransCmp (node.comparePrefix r) := transCmp_compareDocs ..
  induction source generalizing buffer with
  | nil =>
    have hw : ∀ buffer, ({ node with source := [], buffer := buffer, exhausted := true } : OrderByNode).waiting = [] :=
      fun _ => by rw [hp]; rfl
    rw [pull]
    exact ⟨by rw [hw], by rw [hw]; exact fun _ _ b hb => absurd hb not_mem_nil, fun _ => hw _,
      fun _ => rfl, rfl, rfl, rfl, rfl⟩
  | cons doc source ih =>
    have hjoin : (∀ a ∈ buffer, node.comparePrefix r a doc = .eq) →
        Cut r node (buffer ++ doc :: source) (node.pull r source (buffer ++ [doc])) := by
      intro hd
      rw [append_cons]
      refine ih (by rwa [← append_cons]) ?_
      simp only [mem_append, mem_singleton]
      rintro a (ha | rfl) b (hb | rfl)
      · exact hbuffer a ha b hb
      · exact hd a ha
      · exact Std.OrientedCmp.eq_symm (hd b hb)
      · exact Std.ReflCmp.compare_self
    cases buffer with
    | nil => exact hjoin fun a ha => absurd ha not_mem_nil
    | cons first buffer =>
      unfold pull
      dsimp only
      split
      · rename_i hsame
        have hf := (compareDocs_eq_iff ..).mp hsame
        exact hjoin fun a ha => Std.TransCmp.eq_trans (hbuffer a ha first mem_cons_self) hf
      · rename_i hsame
        rw [pairwise_append] at hsort
        obtain ⟨-, hs, hle⟩ := hsort
        have hlt : node.comparePrefix r first doc = .lt := by
          have hne : node.comparePrefix r first doc ≠ .eq := mt (compareDocs_eq_iff ..).mpr hsame
          have := hle first mem_cons_self doc mem_cons_self
          cases hcmp : node.comparePrefix r first doc with
          | lt => rfl
          | eq => exact absurd hcmp hne
          | gt => rw [hcmp] at this; cases this
        refine ⟨rfl, fun a ha b hb => ?_, fun h => (by cases h), fun h => absurd (he.symm.trans h) Bool.false_ne_true, rfl,
          rfl, rfl, rfl⟩
        have hd : node.comparePrefix r a doc = .lt := by
          rw [Std.TransCmp.congr_left (hbuffer a ha first mem_cons_self)]
          exact hlt
        rcases mem_cons.mp hb with rfl | hb
        · exact hd
        · exact Std.TransCmp.lt_of_lt_of_isLE hd (rel_of_pairwise_cons hs hb)

section
variable (hready : Ready r node)
include hready

theorem cut_load :
    ∃ cut, Cut r { node with buffer := node.pending.toList, position := 0, pending := none } node.waiting cut ∧
      node.loadOrderGroup r = { cut with buffer := sortRows r cut.mapping cut.orderBy cut.buffer } := by
  unfold loadOrderGroup
  refine ⟨_, ?_, rfl⟩
  split
  · rename_i he
    have hsource := hready.exhausted he
    have hw : waiting { node with buffer := node.pending.toList, position := 0, pending := none } = [] := by
      rw [hsource]
      rfl
    refine ⟨?_, ?_, fun _ => hw, fun _ => hsource, rfl, rfl, rfl, rfl⟩
    · rw [hw, waiting, hsource]
    · rw [hw]
      exact fun _ _ b hb => absurd hb not_mem_nil
  · rename_i he
    refine cut_pull r rfl (Bool.eq_false_of_not_eq_true he) hready.sorted ?_
    have ht : Std.TransCmp (node.comparePrefix r) := transCmp_compareDocs ..
    intro a ha b hb
    rw [Option.mem_toList] at ha hb
    cases ha.symm.trans hb
    exact (Std.ReflCmp.compare_self : node.comparePrefix r a a = .eq)

theorem load_spec (hbuffer : node.buffer.length ≤ node.position) (hord : 0 < node.orderedPrefix) :
    Ready r (node.loadOrderGroup r) ∧ (node.loadOrderGroup r).output r = node.output r ∧
      ((node.loadOrderGroup r).buffer = [] → node.output r = []) ∧ (node.loadOrderGroup r).position = 0 := by
  obtain ⟨cut, hc, hload⟩ := cut_load r hready
  have hsort : ∀ rows, sortRows r cut.mapping cut.orderBy rows = sortRows r node.mapping node.orderBy rows := fun rows => by
    rw [hc.mapping, hc.orderBy]
  have hbegins : cut.comparePrefix r = node.comparePrefix r := by
    rw [comparePrefix, hc.mapping, hc.orderBy, hc.orderedPrefix]
    rfl
  have ho : node.output r = sortRows r node.mapping node.orderBy cut.buffer ++
      sortRows r node.mapping node.orderBy cut.waiting := by
    rw [output, drop_eq_nil_of_le hbuffer, nil_append, hc.rows,
      sortRows_append r node.mapping fun a ha b hb => compareDocs_of_lt r (hc.below a ha b hb)]
  rw [hload]
  refine ⟨⟨?_, hc.exhausted, fun hzero => ?_⟩, ?_, fun hempty => ?_, hc.position⟩
  · have hs := hready.sorted
    rw [hc.rows, pairwise_append] at hs
    show Pairwise (fun a b => (cut.comparePrefix r a b).isLE = true) cut.waiting
    rw [hbegins]
    exact hs.2.1
  · exact absurd (hc.orderedPrefix.symm.trans hzero) hord.ne'
  · rw [ho]
    show drop cut.position (sortRows r cut.mapping cut.orderBy cut.buffer) ++
      sortRows r cut.mapping cut.orderBy cut.waiting = _
    rw [hc.position, drop_zero, hsort, hsort]
  · have hnil : cut.buffer = [] := by
      have := congrArg length (hempty : sortRows r cut.mapping cut.orderBy cut.buffer = [])
      rw [sortRows, length_mergeSort] at this
      exact length_eq_zero_iff.mp this
    rw [ho, hnil, hc.first hnil]
    simp [sortRows]

def read (node : OrderByNode) : Option PlanFields × OrderByNode :=
  match node.buffer[node.position]? with
  | none => (none, node)
  | some doc => (some doc, { node with position := node.position + 1 })

omit hready in
theorem next_eq (node : OrderByNode) : node.next r =
    (if node.buffer.length ≤ node.position ∧ 0 < node.orderedPrefix then node.loadOrderGroup r else node).read := rfl

theorem read_spec (hloaded : node.buffer.length ≤ node.position → node.output r = []) :
    Ready r node.read.2 ∧ node.output r = node.read.1.toList ++ node.read.2.output r ∧
      (node.read.1 = none → node.output r = []) := by
  unfold read
  split
  · rename_i hn
    exact ⟨hready, rfl, fun _ => hloaded (getElem?_eq_none_iff.mp hn)⟩
  · rename_i doc hsome
    refine ⟨⟨hready.sorted, hready.exhausted, hready.unordered⟩, ?_, fun h => (by cases h)⟩
    obtain ⟨hlt, rfl⟩ := List.getElem?_eq_some_iff.mp hsome
    rw [output, drop_eq_getElem_cons hlt]
    rfl

theorem next_spec : Ready r (node.next r).2 ∧
      node.output r = (node.next r).1.toList ++ (node.next r).2.output r ∧
      ((node.next r).1 = none → node.output r = []) := by
  rw [next_eq]
  split
  · rename_i hdue
    obtain ⟨hloaded, ho, hempty, hposition⟩ := load_spec r hready hdue.1 hdue.2
    rw [← ho] at hempty ⊢
    refine read_spec r hloaded fun hle => hempty (length_eq_zero_iff.mp ?_)
    omega
  · refine read_spec r hready fun hle => ?_
    have hzero : node.orderedPrefix = 0 := by omega
    rw [output, hready.unordered hzero, drop_eq_nil_of_le hle]
    simp [sortRows]

theorem emit_eq (n : Nat) : emit r n node = (node.output r).take n := by
  induction n generalizing node with
  | zero => rw [emit, take_zero]
  | succ n ih =>
    obtain ⟨hnext, ho, hnone⟩ := next_spec r hready
    unfold emit
    split
    · rename_i heq
      rw [hnone (by rw [heq]), take_nil]
    · rename_i doc node' heq
      rw [heq] at hnext ho
      rw [ho, ih hnext]
      rfl

end

variable {count : Nat} {m : DocumentMapping} {ord : OrderBy} {rows : List PlanFields}

/-! ### The whole output -/

/-- A node with an ordered part starts as it is, and one without it with all rows sorted. -/
theorem start_spec (hsort : rows.Pairwise fun a b => (compareDocs r m (ord.take count) a b).isLE = true)
    (hs : ((new rows ord m).withOrderedPrefix count).start r = .ok node) :
    Ready r node ∧ node.output r = sortRows r m ord rows := by
  unfold start at hs
  split at hs
  · cases hs
  · split at hs
    · rename_i hord
      cases hs
      refine ⟨⟨?_, fun h => (by cases h), fun hzero => absurd hzero hord.ne'⟩, rfl⟩
      rwa [take_eq_take_min] at hsort
    · cases hs
      refine ⟨⟨Pairwise.nil, fun _ => rfl, fun _ => rfl⟩, ?_⟩
      show sortRows r m ord rows ++ sortRows r m ord [] = _
      simp [sortRows]

theorem start_isOk (rows : List PlanFields) (ord : OrderBy) (m : DocumentMapping) :
    (∃ msg, ∀ count, ((new rows ord m).withOrderedPrefix count).start r = .error msg) ∨
      ∀ count, ∃ node, ((new rows ord m).withOrderedPrefix count).start r = .ok node := by
  have hf : ∀ count, ((new rows ord m).withOrderedPrefix count).orderBy.find? (fun cond =>
      !fieldExists ((new rows ord m).withOrderedPrefix count).mapping cond) =
      ord.find? fun cond => !fieldExists m cond := fun _ => rfl
  unfold start
  simp only [hf]
  cases ord.find? fun cond => !fieldExists m cond with
  | some cond => exact .inl ⟨_, fun _ => rfl⟩
  | none =>
    refine .inr fun count => ?_
    dsimp only
    split
    · exact ⟨_, rfl⟩
    · exact ⟨_, rfl⟩

/-- Rows in order by the first conditions come out as they do of a node that sorts all at once: sorted by all conditions,
    equal rows in the order of the source. -/
theorem emit_ordered
    (hsorted : rows.Pairwise fun a b => (compareDocs r m (ord.take count) a b).isLE = true) :
    (∀ n, (((new rows ord m).withOrderedPrefix count).start r).map (emit r n) =
        (((new rows ord m).withOrderedPrefix 0).start r).map (emit r n)) ∧
      ∀ node, ((new rows ord m).withOrderedPrefix count).start r = .ok node →
        ∃ sorted, StableSort (fun a b => (compareDocs r m ord a b).isLE) rows sorted ∧
          ∀ n, emit r n node = sorted.take n := by
  have he : ∀ count node, rows.Pairwise (fun a b => (compareDocs r m (ord.take count) a b).isLE = true) →
      ((new rows ord m).withOrderedPrefix count).start r = .ok node →
      ∀ n, emit r n node = (sortRows r m ord rows).take n := by
    intro count node hsorted hs n
    obtain ⟨hready, houtput⟩ := start_spec r hsorted hs
    rw [emit_eq r hready, houtput]
  refine ⟨fun n => ?_, fun node hn => ⟨_, stableSort_sortRows r m ord rows, he count node hsorted hn⟩⟩
  rcases start_isOk r rows ord m with ⟨msg, herror⟩ | hok
  · rw [herror, herror]
  · obtain ⟨node, hn⟩ := hok count
    obtain ⟨node', hn'⟩ := hok 0
    have hall : rows.Pairwise fun a b => (compareDocs r m (ord.take 0) a b).isLE = true :=
      pairwise_of_forall fun _ _ => rfl
    rw [hn, hn', Except.map, Except.map, he count node hsorted hn, he 0 node' hall hn']

def row (a b : Value) (c : String) : PlanFields := [some a, some b, some (.string c)]

def twoGroups : List PlanFields :=
  [row (.bool false) .null "p", row (.bool true) .null "q", row (.bool true) (.bool false) "r", row (.bool true) (.bool true) "s",
    row (.bool true) (.bool false) "t"]

def twoGroupsOrder : OrderBy := [⟨["a"], .asc⟩, ⟨["b"], .desc⟩]

def twoGroupsMapping : DocumentMapping := ⟨[("a", [0]), ("b", [1]), ("c", [2])], [], 3⟩

/-- The rows of the second group come out by falling second field, the two equal ones as they came in. -/
theorem twoGroups_ordered :
    (((new twoGroups twoGroupsOrder twoGroupsMapping).withOrderedPrefix 1).start fun _ => "").map (emit (fun _ => "") 5) =
      .ok [row (.bool false) .null "p", row (.bool true) (.bool true) "s", row (.bool true) (.bool false) "r",
        row (.bool true) (.bool false) "t", row (.bool true) .null "q"] := by
  refine ((emit_ordered (fun _ => "") (by decide)).1 5).trans ?_
  have hsort : sortRows (fun _ => "") twoGroupsMapping twoGroupsOrder twoGroups = [row (.bool false) .null "p",
      row (.bool true) (.bool true) "s", row (.bool true) (.bool false) "r", row (.bool true) (.bool false) "t",
      row (.bool true) .null "q"] := by
    have := transCmp_compareDocs (fun _ => "") twoGroupsMapping twoGroupsOrder
    have hcons := MergeSort.mergeSort_cons (fun a b c => Std.TransCmp.isLE_trans)
      (compareDocs_total (fun _ => "") twoGroupsMapping twoGroupsOrder)
    simp only [sortRows, twoGroups, hcons, mergeSort_nil]
    rfl
  show Except.ok (emit _ 5 ⟨[], _, _, sortRows (fun _ => "") twoGroupsMapping twoGroupsOrder twoGroups, 0, 0, none, false⟩) = _
  rw [hsort]
  rfl

end OrderByNode

end Defra.Query
