import Mathlib.Data.List.Basic
import Mathlib.Data.Set.Function

/-! # Hash trees

A leaf is digested by the digest of its string, a node by that of its children's digests put together. Where the hash has no
collision among the strings hashed, the digest of the root tells the tree. -/

namespace HashTree
open List
variable {β : Type}

inductive Tree (β : Type)
  | leaf (data : List β)
  | node (left right : Tree β)

namespace Tree

def leaves : Tree β → List (List β)
  | leaf data => [data]
  | node left right => left.leaves ++ right.leaves

def digest (hash : List β → List β) : Tree β → List β
  | leaf data => hash data
  | node left right => hash (left.digest hash ++ right.digest hash)

/-- The strings that are hashed for a digest. -/
def strings (hash : List β → List β) : Tree β → List (List β)
  | leaf data => [data]
  | node left right => (left.digest hash ++ right.digest hash) :: (left.strings hash ++ right.strings hash)

variable {hash : List β → List β} {width : Nat}

theorem length_digest (hw : ∀ data, (hash data).length = width) (t : Tree β) : (t.digest hash).length = width := by
  cases t <;> exact hw _

theorem length_pair (hw : ∀ data, (hash data).length = width) (l r : Tree β) :
    (l.digest hash ++ r.digest hash).length = 2 * width := by
  rw [length_append, length_digest hw, length_digest hw, Nat.two_mul]

/-- Without collisions, and with no leaf as long as a pair of digests, a digest tells the tree. -/
theorem digest_injective (hw : ∀ data, (hash data).length = width) {S : Set (List β)} (hinj : S.InjOn hash) :
    ∀ {t u : Tree β}, (∀ s ∈ t.strings hash, s ∈ S) → (∀ s ∈ u.strings hash, s ∈ S) →
      (∀ data ∈ t.leaves, data.length ≠ 2 * width) → (∀ data ∈ u.leaves, data.length ≠ 2 * width) →
      t.digest hash = u.digest hash → t = u
  | leaf a, leaf b, ha, hb, _, _, h => by
    rw [hinj (ha a (by simp [strings])) (hb b (by simp [strings])) h]
  | leaf a, node l r, ha, hb, hlen, _, h => by
    have heq : a = l.digest hash ++ r.digest hash := hinj (ha a (by simp [strings])) (hb _ (by simp [strings])) h
    exact absurd (heq ▸ length_pair hw l r) (hlen a (by simp [leaves]))
  | node l r, leaf b, ha, hb, _, hlen, h => by
    have heq : l.digest hash ++ r.digest hash = b := hinj (ha _ (by simp [strings])) (hb b (by simp [strings])) h
    exact absurd (heq ▸ length_pair hw l r) (hlen b (by simp [leaves]))
  | node l r, node l' r', ha, hb, hlen, hlen', h => by
    have heq : l.digest hash ++ r.digest hash = l'.digest hash ++ r'.digest hash :=
      hinj (ha _ (by simp [strings])) (hb _ (by simp [strings])) h
    have hsame : (l.digest hash).length = (l'.digest hash).length := by
      rw [length_digest hw, length_digest hw]
    obtain ⟨hl, hr⟩ := append_inj heq hsame
    simp only [strings, leaves, mem_cons, mem_append] at ha hb hlen hlen'
    have hleft : l = l' := digest_injective hw hinj (fun s hs => ha s (.inr (.inl hs)))
      (fun s hs => hb s (.inr (.inl hs))) (fun d hd => hlen d (.inl hd)) (fun d hd => hlen' d (.inl hd)) hl
    have hright : r = r' := digest_injective hw hinj (fun s hs => ha s (.inr (.inr hs)))
      (fun s hs => hb s (.inr (.inr hs))) (fun d hd => hlen d (.inr hd)) (fun d hd => hlen' d (.inr hd)) hr
    rw [hleft, hright]

/-- Neighbours are joined, an odd last tree is left as it is. -/
def pairUp : List (Tree β) → List (Tree β)
  | left :: right :: trees => node left right :: pairUp trees
  | trees => trees

theorem leaves_pairUp : ∀ trees : List (Tree β), (pairUp trees).flatMap leaves = trees.flatMap leaves
  | left :: right :: trees => by simp [pairUp, leaves, leaves_pairUp trees]
  | [_] => rfl
  | [] => rfl

theorem length_pairUp : ∀ trees : List (Tree β), (pairUp trees).length = (trees.length + 1) / 2
  | left :: right :: trees => by
    simp only [pairUp, length_cons, length_pairUp trees]
    omega
  | [_] => by simp [pairUp]
  | [] => by simp [pairUp]

end Tree
end HashTree
