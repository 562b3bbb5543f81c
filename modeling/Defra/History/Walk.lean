import Mathlib.Algebra.GroupWithZero.Nat
import Defra.Bytes
import Defra.Lib.KeyedList

/-! The merge of a long history of a document, a page of steps at a time (`history.rs` and `history_walk.rs` of the merge
    handler). The walk's stack and its marks are kept in the store between the pages. A call that fails writes nothing. A CID
    stands for its text. -/

namespace Defra.History

/-! ### Outcomes -/

inductive MergeOutcome where
  | yielded
  | merged
  | skipped (reason : String) (terminal : Bool)
  | rejected (reason : String)
  deriving Repr, DecidableEq

def MergeOutcome.retryableSkip (reason : String) : MergeOutcome := .skipped reason false

def MergeOutcome.terminalSkip (reason : String) : MergeOutcome := .skipped reason true

def MergeOutcome.isTerminalSkip : MergeOutcome → Bool
  | .skipped _ true => true
  | _ => false

inductive Completion where
  | merged
  | skipped (reason : String)
  | rejected (reason : String)
  | deferred (reason : String)
  | restart
  deriving Repr, DecidableEq

def Completion.fromOutcome : MergeOutcome → Option Completion
  | .merged => some .merged
  | .rejected reason => some (.rejected reason)
  | .skipped reason true => some (.skipped reason)
  | _ => none

def Completion.intoOutcome : Completion → MergeOutcome
  | .merged => .merged
  | .skipped reason => .terminalSkip reason
  | .rejected reason => .rejected reason
  | .deferred reason => .retryableSkip reason
  | .restart => .yielded

section
variable {Cid : Type} [LinearOrder Cid]

variable (Cid) in
inductive MergeError where
  | blockDecode (text : String)
  | unsupportedDelta (text : String)
  | retryRejected (reason : String)
  | storage (text : String)
  | historyAborted (root : Cid) (context generation : Bytes) (reason : String)
  | other (text : String)
  deriving Repr, DecidableEq

variable (Cid) in
structure Frame where
  cid : Cid
  next : Nat
  deriving Repr, DecidableEq

/-- Where a walk stands between calls. -/
structure Progress where
  top : Nat := 0
  nodes : Nat := 0
  doc : Option String := none
  outcome : Option Completion := none
  context : Bytes := []
  generation : Bytes := []
  lastActiveUnix : Nat := 0
  senderPeer : Option String := none
  deriving Repr, DecidableEq

variable (Cid) in
/-- What is stored for a root's walk, and the published heads of the documents. The log of the blocks merged is read by
    nothing. -/
structure Store where
  progress : Option Progress := none
  admission : Option (Option String) := none
  marks : KeyedList (Prod.fst : Cid × Bytes → Cid) := ∅
  frames : KeyedList (Prod.fst : Nat × Frame Cid → Nat) := ∅
  published : List (String × Cid) := []
  batchMerged : KeyedList (id : Cid → Cid) := ∅
  log : List Cid := []

variable (Cid) in
structure Block where
  isComposite : Bool
  heads : Option (List Cid)

def Block.parents (block : Block Cid) : List Cid := block.heads.getD []

inductive Preparation where
  | ready
  | complete (outcome : MergeOutcome)
  | deferred (outcome : MergeOutcome)

variable (Cid) in
/-- The handler, the block's metadata and the stores that the walk only reads. -/
structure Env where
  root : Cid
  rootBlock : Block Cid
  stored : Cid → Option (Except String (Block Cid))
  owners : Cid → List String
  deriveDocId : Cid → String
  prepare : List (String × Cid) → Cid → String → Except (MergeError Cid) Preparation
  process : List (String × Cid) → Cid → String → Except (MergeError Cid) MergeOutcome
  docId : Option String
  senderPeer : Option String
  fromCollection : Bool
  admissions : List (Cid × Option String)
  reclaimIdle : Except (MergeError Cid) Bool
  context : Bytes
  generation : Bytes
  now : Nat
  text : Cid → String
  debug : MergeOutcome → String

def maxRoots : Nat := 64
def maxRootsPerPeer : Nat := 16
def pageSteps : Nat := 256

def pageBudget (maxMergeDepth : Nat) : Nat := max 1 (min maxMergeDepth pageSteps)

namespace Env

def block (env : Env Cid) (cid : Cid) : Except (MergeError Cid) (Block Cid) :=
  if cid = env.root then .ok env.rootBlock
  else
    match env.stored cid with
    | none => .error (.storage ("missing history block " ++ env.text cid))
    | some (.error text) => .error (.blockDecode text)
    | some (.ok block) => .ok block

/-- A first block names its document; of the others, those recorded for one document. -/
def identity (env : Env Cid) (cid : Cid) (block : Block Cid) : Option String :=
  if block.parents.isEmpty then some (env.deriveDocId cid)
  else
    match env.owners cid with
    | [doc] => some doc
    | _ => none

def liveRoots (env : Env Cid) : Except (MergeError Cid) (List (Cid × Option String)) :=
  if maxRoots < env.admissions.length then .error (.storage "invalid history admission index") else .ok env.admissions

end Env

/-! ### Steps of a page -/

variable (Cid) in
/-- The walk during one call. -/
structure Page where
  progress : Progress
  rootChecked : Bool := false
  waiting : Option MergeOutcome := none
  store : Store Cid

variable (Cid) in
inductive Flow where
  | next (page : Page Cid)
  | stop (page : Page Cid)

namespace Page

variable (env : Env Cid) (page : Page Cid) (frame : Frame Cid) (cid : Cid) (doc : String)

def complete (completion : Option Completion) : Page Cid :=
  { page with progress := { page.progress with outcome := completion } }

def mark (value : Bytes) : Page Cid :=
  { page with store := { page.store with marks := page.store.marks.put (cid, value) } }

def write : Page Cid :=
  { page with store := { page.store with frames := page.store.frames.put (page.progress.top, frame) } }

def pop (completion : Option Completion) : Flow Cid :=
  let page := page.mark cid [1]
  let page := { page with store := { page.store with frames := page.store.frames.erase page.progress.top } }
  if page.progress.top = 0 then .stop (page.complete completion)
  else .next { page with progress := { page.progress with top := page.progress.top - 1 } }

def push (parent : Cid) : Except (MergeError Cid) (Page Cid) :=
  if 2 ^ 64 ≤ page.progress.nodes + 1 then .error (.storage "history node count overflow")
  else if 2 ^ 64 ≤ page.progress.top + 1 then .error (.storage "history stack overflow")
  else
    let progress := { page.progress with nodes := page.progress.nodes + 1, top := page.progress.top + 1 }
    .ok ((({ page with progress }).write { cid := parent, next := 0 }).mark parent [0])

def checkRoot : Except (MergeError Cid) (Flow Cid) :=
  if page.rootChecked then .ok (.next page)
  else
    match env.prepare page.store.published env.root doc with
    | .error error => .error error
    | .ok .ready => .ok (.next { page with rootChecked := true })
    | .ok (.complete (.rejected reason)) => .error (.retryRejected reason)
    | .ok (.complete (.skipped reason false)) => .ok (.stop (page.complete (some (.deferred reason))))
    | .ok (.complete outcome) => .ok (.stop (page.complete (some ((Completion.fromOutcome outcome).getD .restart))))
    | .ok (.deferred outcome) => .ok (.stop (page.complete (some (.deferred (env.debug outcome)))))

def publish (cid : Cid) : Page Cid :=
  { page with store := { page.store with
    published := page.store.published ++ [(doc, cid)]
    batchMerged := page.store.batchMerged.add cid
    log := page.store.log ++ [cid] } }

def merge : Except (MergeError Cid) (MergeOutcome × Page Cid) :=
  match env.prepare page.store.published cid doc with
  | .error error => .error error
  | .ok (.complete outcome) => .ok (outcome, page)
  | .ok (.deferred outcome) => .ok (outcome, page)
  | .ok .ready =>
    match env.process page.store.published cid doc with
    | .error error => .error error
    | .ok .merged => .ok (.merged, page.publish doc cid)
    | .ok outcome => .ok (outcome, page)

def explore (block : Block Cid) : Except (MergeError Cid) (Flow Cid) :=
  match block.parents[frame.next]? with
  | some parent =>
    let advanced := page.write { frame with next := frame.next + 1 }
    match page.store.marks.get? parent with
    | some value => if value = [1] then .ok (.next advanced) else .error (.unsupportedDelta "cyclic composite history")
    | none => (advanced.push parent).map .next
  | none =>
    match page.progress.doc with
    | none => .error (.storage "history has no identity")
    | some doc =>
      match page.merge env frame.cid doc with
      | .error error => .error error
      | .ok (.rejected reason, _) => .error (.retryRejected reason)
      | .ok (outcome, page) =>
        if outcome = .merged || outcome.isTerminalSkip then .ok (page.pop frame.cid (Completion.fromOutcome outcome))
        else .ok (.stop { page with waiting := some outcome })

def identify (name : Option String) : Page Cid :=
  { page with progress := { page.progress with doc := page.progress.doc.or name } }

def compositeWasApplied (cid : Cid) : Bool := page.store.published.contains (doc, cid)

/-- One step of the walk. -/
def step : Except (MergeError Cid) (Flow Cid) :=
  match page.store.frames.get? page.progress.top with
  | none => .error (.storage "missing history frame")
  | some frame =>
    match env.block frame.cid with
    | .error error => .error error
    | .ok block =>
      if block.isComposite then
        let page := page.identify (env.identity frame.cid block)
        match page.progress.doc with
        | none => page.explore env frame block
        | some doc =>
          match page.checkRoot env doc with
          | .error error => .error error
          | .ok (.stop page) => .ok (.stop page)
          | .ok (.next page) =>
            if page.compositeWasApplied doc frame.cid then .ok (page.pop frame.cid (some .merged))
            else page.explore env frame block
      else .error (.unsupportedDelta "non-composite history ancestor")

def steps (env : Env Cid) : Nat → Page Cid → Except (MergeError Cid) (Page Cid)
  | 0, page => .ok page
  | budget + 1, page =>
    match page.step env with
    | .error error => .error error
    | .ok (.stop page) => .ok page
    | .ok (.next page) => steps env budget page

end Page

namespace Store

/-- Deletes at most `budget` keys of the walk, those of the marks first. Whether there is more. -/
def cleanup (store : Store Cid) (budget : Nat) : Bool × Store Cid :=
  let more := budget < store.marks.toList.length + store.frames.toList.length
  let cleaned := { store with
    marks := store.marks.drop budget
    frames := store.frames.drop (budget - store.marks.toList.length) }
  (more, if more then cleaned else { cleaned with progress := none, admission := none })

end Store

/-! ### Calls -/

variable (Cid) in
inductive Admission where
  | refused (outcome : MergeOutcome)
  | admitted (progress : Progress) (store : Store Cid)

namespace Env

variable (env : Env Cid) (budget : Nat) (generation : Bytes) (progress : Progress) (store : Store Cid)

def begin : Admission Cid :=
  .admitted
    { nodes := 1, context := env.context, generation, lastActiveUnix := env.now, senderPeer := env.senderPeer }
    { store with
      admission := some env.senderPeer
      frames := store.frames.put (0, { cid := env.root, next := 0 })
      marks := store.marks.put (env.root, [0]) }

def admission (env : Env Cid) (generation : Bytes) (store : Store Cid) : Except (MergeError Cid) (Admission Cid) :=
  match env.liveRoots with
  | .error error => .error error
  | .ok roots =>
    if maxRoots ≤ roots.length then
      env.reclaimIdle.map fun reclaimed =>
        .refused (if reclaimed then .yielded else .retryableSkip "history admission quota reached")
    else if env.senderPeer.any fun sender => maxRootsPerPeer ≤ (roots.filter fun root => root.2 = some sender).length then
      .ok (.refused (.retryableSkip "history admission quota reached for sender"))
    else
      match env.docId.filter fun doc => !env.fromCollection && !doc.isEmpty with
      | none => .ok (env.begin generation store)
      | some doc =>
        match env.prepare store.published env.root doc with
        | .error error => .error error
        | .ok .ready => .ok (env.begin generation store)
        | .ok (.complete outcome) => .ok (.refused outcome)
        | .ok (.deferred outcome) => .ok (.refused outcome)

def release (completion : Completion) (store : Store Cid) : MergeOutcome × Store Cid :=
  let (more, store) := store.cleanup budget
  if more then (.yielded, { store with progress := some progress })
  else if completion = .merged then
    (completion.intoOutcome, { store with batchMerged := store.batchMerged.add env.root })
  else (completion.intoOutcome, store)

def resume : Except (MergeError Cid) (MergeOutcome × Store Cid) :=
  let progress :=
    if progress.context = env.context then progress
    else { progress with outcome := some .restart, context := env.context }
  match progress.outcome with
  | some (.rejected reason) => .error (.historyAborted env.root env.context generation reason)
  | some completion => .ok (env.release budget progress completion store)
  | none =>
    match Page.steps env budget { progress, store } with
    | .error error => .error error
    | .ok page =>
      let progress := { page.progress with lastActiveUnix := env.now }
      .ok (page.waiting.getD .yielded, { page.store with progress := some progress })

def historyPage (previous : Option Progress) (store : Store Cid) :
    Except (MergeError Cid) (MergeOutcome × Store Cid) :=
  match previous with
  | some progress => env.resume budget generation progress store
  | none =>
    match env.admission generation store with
    | .error error => .error error
    | .ok (.refused outcome) => .ok (outcome, store)
    | .ok (.admitted progress store) => env.resume budget generation progress store

/-- One call on the history. -/
def turn : Except (MergeError Cid) (MergeOutcome × Store Cid) :=
  env.historyPage budget ((store.progress.map Progress.generation).getD env.generation) store.progress store

def turns (env : Env Cid) (budget : Nat) : Nat → Store Cid → Except (MergeError Cid) (List MergeOutcome × Store Cid)
  | 0, store => .ok ([], store)
  | count + 1, store =>
    match env.turn budget store with
    | .error error => .error error
    | .ok (outcome, store) => (env.turns budget count store).map fun rest => (outcome :: rest.1, rest.2)

end Env

end

end Defra.History
