import Defra.Batch.Sign
import Defra.Lib.HashTree
import Defra.Lib.MergeSort

/-! A batch signature binds its batch: the Merkle root tells the CIDs it was computed from, up to their order. SHA-256 gives
    32 bytes, and no two of the strings the computations hash have one digest. -/

namespace Defra.Batch
open List HashTree

def hashedPairs : List Bytes → List Bytes
  | left :: right :: hashes => (left ++ right) :: hashedPairs hashes
  | _ => []

def hashedAbove (sha256 : Bytes → Bytes) : List Bytes → List Bytes
  | left :: right :: hashes =>
    hashedPairs (left :: right :: hashes) ++ hashedAbove sha256 (nextLevel sha256 (left :: right :: hashes))
  | _ => []
termination_by hashes => hashes.length
decreasing_by
  rw [length_nextLevel]
  simp only [length_cons]
  omega

/-- All that is hashed for the root of a batch. -/
def hashedStrings (sha256 : Bytes → Bytes) (cids : List Bytes) : List Bytes :=
  cids ++ hashedAbove sha256 ((sortCids cids).map sha256)

variable {sha256 : Bytes → Bytes}

theorem digest_pairUp : ∀ trees : List (HashTree.Tree UInt8),
    (Tree.pairUp trees).map (Tree.digest sha256) = nextLevel sha256 (trees.map (Tree.digest sha256))
  | left :: right :: trees => by simp [Tree.pairUp, nextLevel, Tree.digest, digest_pairUp trees]
  | [_] => rfl
  | [] => rfl

theorem strings_pairUp : ∀ (trees : List (HashTree.Tree UInt8)), ∀ s ∈ (Tree.pairUp trees).flatMap (Tree.strings sha256),
    s ∈ trees.flatMap (Tree.strings sha256) ∨ s ∈ hashedPairs (trees.map (Tree.digest sha256))
  | left :: right :: trees => by
    intro s hs
    simp only [Tree.pairUp, flatMap_cons, Tree.strings, mem_append, mem_cons, map_cons,
      hashedPairs] at hs ⊢
    have ih := strings_pairUp trees s
    tauto
  | [_] => fun s hs => .inl hs
  | [] => fun s hs => .inl hs

theorem reduce_digests (sha256 : Bytes → Bytes) (trees : List (HashTree.Tree UInt8)) (hne : trees ≠ []) :
    ∃ t : HashTree.Tree UInt8, reduce sha256 (trees.map (Tree.digest sha256)) = some (t.digest sha256) ∧
      t.leaves = trees.flatMap Tree.leaves ∧
      ∀ s ∈ t.strings sha256, s ∈ trees.flatMap (Tree.strings sha256) ∨
        s ∈ hashedAbove sha256 (trees.map (Tree.digest sha256)) := by
  match trees, hne with
  | [t], _ => exact ⟨t, by simp [reduce], by simp, fun s hs => .inl (by simpa using hs)⟩
  | left :: right :: rest, _ =>
    obtain ⟨t, hroot, hl, hstrings⟩ := reduce_digests sha256 (Tree.pairUp (left :: right :: rest)) (by simp [Tree.pairUp])
    refine ⟨t, ?_, hl.trans (Tree.leaves_pairUp _), fun s hs => ?_⟩
    · rw [map_cons, map_cons, reduce, ← map_cons, ← map_cons, ← digest_pairUp, hroot]
    · rw [map_cons, map_cons, hashedAbove, ← map_cons, ← map_cons, ← digest_pairUp, mem_append]
      rcases hstrings s hs with hs | hs
      · exact (strings_pairUp _ s hs).imp id .inl
      · exact .inr (.inr hs)
termination_by trees.length
decreasing_by
  rw [Tree.length_pairUp]
  simp only [length_cons]
  omega

theorem perm_sortCids (cids : List Bytes) : (sortCids cids).Perm cids := mergeSort_perm _ _

theorem sortCids_eq_iff {xs ys : List Bytes} : sortCids xs = sortCids ys ↔ ys.Perm xs :=
  MergeSort.eq_iff_perm.trans perm_comm

theorem computeMerkleRoot_tree (sha256 : Bytes → Bytes) {cids : List Bytes} (hne : cids ≠ []) :
    ∃ t : HashTree.Tree UInt8, computeMerkleRoot sha256 cids = some (t.digest sha256) ∧ t.leaves = sortCids cids ∧
      ∀ s ∈ t.strings sha256, s ∈ hashedStrings sha256 cids := by
  have hsort : sortCids cids ≠ [] := fun h => hne (Perm.nil_eq (h ▸ perm_sortCids cids)).symm
  obtain ⟨t, hroot, hl, hstrings⟩ := reduce_digests sha256 ((sortCids cids).map .leaf) (by simpa using hsort)
  have hdigests : ((sortCids cids).map Tree.leaf).map (Tree.digest sha256) = (sortCids cids).map sha256 := by
    rw [map_map]
    rfl
  rw [hdigests] at hroot hstrings
  refine ⟨t, ?_, by simpa [flatMap_map, Tree.leaves] using hl, fun s hs => ?_⟩
  · rw [computeMerkleRoot, if_neg (by simpa using hne), hroot]
  · rw [hashedStrings, mem_append]
    rcases hstrings s hs with hs | hs
    · exact .inl ((perm_sortCids cids).mem_iff.mp (by simpa [flatMap_map, Tree.strings] using hs))
    · exact .inr hs

variable {xs ys : List Bytes}

theorem computeMerkleRoot_eq_iff (hwidth : ∀ data, (sha256 data).length = 32) (hxs : xs ≠ []) (hys : ys ≠ [])
    (hlen : ∀ cid ∈ xs ++ ys, cid.length ≠ 64)
    (hfree : Set.InjOn sha256 {s | s ∈ hashedStrings sha256 xs ++ hashedStrings sha256 ys}) :
    computeMerkleRoot sha256 xs = computeMerkleRoot sha256 ys ↔ ys.Perm xs := by
  constructor
  · intro h
    obtain ⟨t, ht, hleaves, hstrings⟩ := computeMerkleRoot_tree sha256 hxs
    obtain ⟨u, hu, hleaves', hstrings'⟩ := computeMerkleRoot_tree sha256 hys
    rw [ht, hu, Option.some.injEq] at h
    have heq : t = u := by
      refine Tree.digest_injective hwidth hfree (fun s hs => ?_) (fun s hs => ?_) (fun d hd => ?_) (fun d hd => ?_) h
      · exact mem_append_left _ (hstrings s hs)
      · exact mem_append_right _ (hstrings' s hs)
      · rw [hleaves, (perm_sortCids xs).mem_iff] at hd
        exact hlen d (mem_append_left _ hd)
      · rw [hleaves', (perm_sortCids ys).mem_iff] at hd
        exact hlen d (mem_append_right _ hd)
    rw [← sortCids_eq_iff, ← hleaves, ← hleaves', heq]
  · intro h
    rw [computeMerkleRoot, computeMerkleRoot, if_neg (by simpa using hxs), if_neg (by simpa using hys),
      sortCids_eq_iff.mpr h]

theorem verifyBatchSignature_root {crypto : Crypto} {sig : BatchSignature}
    (h : verifyBatchSignature crypto sig ys = .ok true) :
    ∃ root, computeMerkleRoot crypto.sha256 ys = some root ∧ verifySignature crypto sig root = .ok true := by
  unfold verifyBatchSignature at h
  split at h
  case h_1 => cases h
  case h_2 root hr =>
    split at h
    · cases h
    · exact ⟨root, hr, h⟩

/-- Two batches have one root exactly when they hold the same CIDs, each as often. So a signature over `xs` verifies only for
    a reordering of `xs`. -/
theorem signature_binds_batch (crypto : Crypto) (hwidth : ∀ data, (crypto.sha256 data).length = 32) (hxs : xs ≠ [])
    (hys : ys ≠ []) (hlen : ∀ cid ∈ xs ++ ys, cid.length ≠ 64)
    (hfree : Set.InjOn crypto.sha256 {s | s ∈ hashedStrings crypto.sha256 xs ++ hashedStrings crypto.sha256 ys}) :
    (computeMerkleRoot crypto.sha256 xs = computeMerkleRoot crypto.sha256 ys ↔ ys.Perm xs) ∧
      ∀ (config : SigningConfig) (signed sig : BatchSignature), signBatch crypto xs config = .ok signed →
        sig.sigType = signed.sigType → sig.identity = signed.identity → sig.value = signed.value →
        (∀ root, verifySignature crypto signed root = .ok true → computeMerkleRoot crypto.sha256 xs = some root) →
        verifyBatchSignature crypto sig ys = .ok true → ys.Perm xs := by
  have hiff := computeMerkleRoot_eq_iff hwidth hxs hys hlen hfree
  refine ⟨hiff, fun config signed sig _ htype hi hv honly hverify => ?_⟩
  obtain ⟨root, hr, haccept⟩ := verifyBatchSignature_root hverify
  have hs : verifySignature crypto signed root = .ok true := by
    rw [← haccept, verifySignature, verifySignature, htype, hi, hv]
  exact hiff.mp ((honly root hs).trans hr.symm)

def checksum (data : Bytes) : Bytes := replicate 31 0 ++ [data.foldl (fun sum byte => 3 * sum + byte + 1) 0]

def demoScheme : Scheme where
  name := "demo"
  privateFromBytes := .ok
  sign key root := .ok (key ++ root)
  publicFromBytes := .ok
  verify key root value := .ok (value == key ++ root)

def demoCrypto : Crypto where
  sha256 := checksum
  hexDecode text := .ok (utf8 text)
  ed25519 := demoScheme
  secp256k1 := demoScheme

/-- The CIDs `[1]` and `[2]`, in either order. -/
theorem sortCids_demo : sortCids [[1], [2]] = [[1], [2]] ∧ sortCids [[2], [1]] = [[1], [2]] := by
  have hsort : sortCids [[1], [2]] = [[1], [2]] := mergeSort_of_pairwise (by decide)
  exact ⟨hsort, (sortCids_eq_iff.mpr (Perm.swap _ _ _)).trans hsort⟩

def demoRoot : Bytes := checksum (checksum [1] ++ checksum [2])

theorem computeMerkleRoot_demo : computeMerkleRoot checksum [[1], [2]] = some demoRoot ∧
    computeMerkleRoot checksum [[2], [1]] = some demoRoot := by
  simp [computeMerkleRoot, sortCids_demo, reduce, nextLevel, demoRoot]

def demoConfig : SigningConfig := { keyType := .ed25519, privateKeyBytes := utf8 "key", publicKeyHex := "key" }

def demoSignature : BatchSignature :=
  { sigType := "EdDSA", identity := "key", value := utf8 "key" ++ demoRoot, merkleRoot := demoRoot, cidCount := 2 }

set_option maxRecDepth 4000 in
theorem checksum_apart : ∀ a ∈ [[1], [2], checksum [1] ++ checksum [2]],
    ∀ b ∈ [[1], [2], checksum [1] ++ checksum [2]], checksum a = checksum b → a = b := by decide

theorem signature_binds_batch_demo : (computeMerkleRoot checksum [[1], [2]] = computeMerkleRoot checksum [[2], [1]] ↔
      [([2] : Bytes), [1]].Perm [[1], [2]]) ∧
    signBatch demoCrypto [[1], [2]] demoConfig = .ok demoSignature ∧
    verifyBatchSignature demoCrypto demoSignature [[2], [1]] = .ok true ∧ [([2] : Bytes), [1]].Perm [[1], [2]] := by
  have hwidth : ∀ data, (checksum data).length = 32 := fun data => by simp [checksum]
  have hhashed : ∀ s, s ∈ hashedStrings checksum [[1], [2]] ++ hashedStrings checksum [[2], [1]] →
      s ∈ [[1], [2], checksum [1] ++ checksum [2]] := fun s hs => by
    simp [hashedStrings, hashedAbove, sortCids_demo, hashedPairs, nextLevel] at hs ⊢
    tauto
  have hbinds := @signature_binds_batch [[1], [2]] [[2], [1]] demoCrypto hwidth (by simp) (by simp) (by simp)
    (fun a ha b hb => checksum_apart a (hhashed a ha) b (hhashed b hb))
  have hsign : signBatch demoCrypto [[1], [2]] demoConfig = .ok demoSignature := by
    rw [signBatch, show computeMerkleRoot demoCrypto.sha256 [[1], [2]] = some demoRoot from computeMerkleRoot_demo.1]
    rfl
  have haccept : ∀ root, verifySignature demoCrypto demoSignature root =
      .ok (utf8 "key" ++ demoRoot == utf8 "key" ++ root) := fun _ => rfl
  have hverify : verifyBatchSignature demoCrypto demoSignature [[2], [1]] = .ok true := by
    rw [verifyBatchSignature, show computeMerkleRoot demoCrypto.sha256 [[2], [1]] = some demoRoot from
      computeMerkleRoot_demo.2]
    exact (if_neg (by simp [demoSignature])).trans (by rw [haccept, beq_self_eq_true])
  refine ⟨hbinds.1, hsign, hverify, hbinds.2 demoConfig demoSignature demoSignature hsign rfl rfl rfl (fun root h => ?_)
    hverify⟩
  rw [haccept, Except.ok.injEq, beq_iff_eq, append_cancel_left_eq] at h
  exact h ▸ computeMerkleRoot_demo.1

end Defra.Batch
