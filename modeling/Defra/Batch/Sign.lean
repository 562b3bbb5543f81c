import Defra.Bytes

/-! Batch signatures (`defra-core/src/batch_signing.rs`, `crypto/src/batch.rs`): one signature over the Merkle root of a set of
    CIDs. A CID is its binary form; the hash, the hex decoder and the two signature schemes are parameters. -/

namespace Defra.Batch

/-- Adjacent hashes are paired, an odd last one stays. -/
def nextLevel (sha256 : Bytes → Bytes) : List Bytes → List Bytes
  | left :: right :: hashes => sha256 (left ++ right) :: nextLevel sha256 hashes
  | hashes => hashes

theorem length_nextLevel (sha256 : Bytes → Bytes) :
    ∀ hashes : List Bytes, (nextLevel sha256 hashes).length = (hashes.length + 1) / 2
  | left :: right :: hashes => by
    simp only [nextLevel, List.length_cons, length_nextLevel sha256 hashes]
    omega
  | [_] => by simp [nextLevel]
  | [] => by simp [nextLevel]

def reduce (sha256 : Bytes → Bytes) : List Bytes → Option Bytes
  | [] => none
  | [root] => some root
  | left :: right :: hashes => reduce sha256 (nextLevel sha256 (left :: right :: hashes))
termination_by hashes => hashes.length
decreasing_by
  rw [length_nextLevel]
  simp only [List.length_cons]
  omega

variable (crypto : Crypto) (scheme : Scheme) (cids : List Bytes) (sig : BatchSignature)

def sortCids : List Bytes := cids.mergeSort (· ≤ ·)

def computeMerkleRoot (sha256 : Bytes → Bytes) (cids : List Bytes) : Option Bytes :=
  if cids.isEmpty then none else reduce sha256 ((sortCids cids).map sha256)

inductive SigningKeyType
  | ed25519
  | secp256k1
  | secp256r1
  | blsAugV1
  deriving DecidableEq, Repr

def SigningKeyType.asStr : SigningKeyType → String
  | ed25519 => "ed25519"
  | secp256k1 => "secp256k1"
  | secp256r1 => "secp256r1"
  | blsAugV1 => "bls_aug_v1"

inductive BatchSignError
  | missingKey
  | unsupportedKeyType (keyType : String)
  | signingFailed (reason : String)
  deriving DecidableEq, Repr

structure SigningConfig where
  keyType : SigningKeyType
  privateKeyBytes : Bytes
  publicKeyHex : String

structure BatchSignature where
  sigType : String
  identity : String
  value : Bytes
  merkleRoot : Bytes
  cidCount : Nat
  deriving DecidableEq

/-- The private key's `from_bytes` and `sign`, and the public key's `from_bytes` and `verify`. -/
structure Scheme where
  name : String
  privateFromBytes : Bytes → Except String Bytes
  sign : Bytes → Bytes → Except String Bytes
  publicFromBytes : Bytes → Except String Bytes
  verify : Bytes → Bytes → Bytes → Except String Bool

structure Crypto where
  sha256 : Bytes → Bytes
  hexDecode : String → Except String Bytes
  ed25519 : Scheme
  secp256k1 : Scheme

def Scheme.signRoot (privateKeyBytes root : Bytes) : Except BatchSignError Bytes := do
  let key ← (scheme.privateFromBytes privateKeyBytes).mapError fun e =>
    .signingFailed s!"invalid {scheme.name} key: {e}"
  (scheme.sign key root).mapError fun e => .signingFailed s!"{scheme.name} sign failed: {e}"

def Scheme.verifyRoot (pubBytes root value : Bytes) : Except String Bool := do
  let pubkey ← (scheme.publicFromBytes pubBytes).mapError fun e => s!"invalid {scheme.name} public key: {e}"
  (scheme.verify pubkey root value).mapError fun e => s!"{scheme.name} verify failed: {e}"

def signBatch (config : SigningConfig) : Except BatchSignError BatchSignature := do
  let root ← match computeMerkleRoot crypto.sha256 cids with
    | some root => .ok root
    | none => .error .missingKey
  let (sigType, sigBytes) ← match config.keyType with
    | .ed25519 => do .ok ("EdDSA", ← crypto.ed25519.signRoot config.privateKeyBytes root)
    | .secp256k1 => do .ok ("ES256K", ← crypto.secp256k1.signRoot config.privateKeyBytes root)
    | other => .error (.unsupportedKeyType other.asStr)
  .ok { sigType, identity := config.publicKeyHex, value := sigBytes, merkleRoot := root, cidCount := cids.length }

/-- The part of `verify_batch_signature` that follows the comparison of the roots. -/
def verifySignature (root : Bytes) : Except String Bool := do
  let pubBytes ← (crypto.hexDecode sig.identity).mapError fun e => s!"invalid identity hex: {e}"
  match sig.sigType with
  | "EdDSA" => crypto.ed25519.verifyRoot pubBytes root sig.value
  | "ES256K" => crypto.secp256k1.verifyRoot pubBytes root sig.value
  | other => .error s!"unsupported sig type: {other}"

def verifyBatchSignature (cids : List Bytes) : Except String Bool :=
  match computeMerkleRoot crypto.sha256 cids with
  | none => .error "cannot verify empty batch"
  | some root => if root ≠ sig.merkleRoot then .ok false else verifySignature crypto sig root

end Defra.Batch
