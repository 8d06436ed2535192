import Binius64.Xmss
import Mathlib.Algebra.Order.BigOperators.Group.Finset

/-!
# What a second XMSS signature shows

Two signatures verify under one key at one epoch. Unless their hashes collide, they share the path to the
root, and where their digits differ the second one inverts a chain of the first.
-/

namespace Binius64.Wots

open MachineWord (Word)
open List

/-- A signature that verifies under a key at an epoch, with the digits of its message. -/
structure Accepted (tweakHash : TweakHash) (publicKey : XmssPublicKey) (epoch : BitVec 32) where
  message : List Word
  signature : XmssSignature
  digits : ℕ → ℕ
  encodes : wotsEncode tweakHash publicKey.publicParam message epoch signature.randomness = some digits
  verifies : xmssVerify tweakHash publicKey message signature epoch = .ok ()

variable {tweakHash : TweakHash} {publicKey : XmssPublicKey} {epoch : BitVec 32}

/-- A node and its sibling in order. -/
def children (epoch : BitVec 32) (level : Fin logLifetime) (current sibling : Digest) : Digest × Digest :=
  if (epoch >>> level.val) &&& 1 = 0 then (current,sibling) else (sibling,current)

def parent (tweakHash : TweakHash) (publicKey : XmssPublicKey) (epoch : BitVec 32) (level : Fin logLifetime)
    (pair : Digest × Digest) : Digest :=
  merkleNode tweakHash publicKey.publicParam (level.val + 1)
    ((epoch.setWidth 64 >>> (level.val + 1)).setWidth 32) pair.1 pair.2

namespace Accepted

variable (a : Accepted tweakHash publicKey epoch)

/-- The value of a chain at a position from the digit on. -/
def chainAt (i p : ℕ) : Digest :=
  iterateHash tweakHash publicKey.publicParam (a.signature.chainTips i) (p - a.digits i) epoch i (a.digits i)

def chainEnds : List Digest :=
  recoverPublicKey tweakHash publicKey.publicParam a.signature.chainTips a.digits epoch

/-- The node so many levels above the leaf. -/
def nodeAt (n : ℕ) : Digest :=
  ((finRange logLifetime).take n).foldl (fun current level =>
    parent tweakHash publicKey epoch level (children epoch level current (a.signature.merklePath level)))
    (wotsPublicKeyHash tweakHash publicKey.publicParam epoch a.chainEnds)

def pairAt (level : Fin logLifetime) : Digest × Digest :=
  children epoch level (a.nodeAt level) (a.signature.merklePath level)

end Accepted

/-- Wherever the two verifications hash under one tweak, different inputs have different digests. -/
structure CollisionFree (a b : Accepted tweakHash publicKey epoch) : Prop where
  chain : ∀ i < v, ∀ p < chainLength - 1, a.digits i ≤ p → b.digits i ≤ p →
    chainStep tweakHash publicKey.publicParam epoch i p (a.chainAt i p) =
      chainStep tweakHash publicKey.publicParam epoch i p (b.chainAt i p) → a.chainAt i p = b.chainAt i p
  leaf : a.nodeAt 0 = b.nodeAt 0 → a.chainEnds = b.chainEnds
  node : ∀ level, parent tweakHash publicKey epoch level (a.pairAt level) =
    parent tweakHash publicKey epoch level (b.pairAt level) → a.pairAt level = b.pairAt level

variable {a b : Accepted tweakHash publicKey epoch}

theorem CollisionFree.symm (h : CollisionFree a b) : CollisionFree b a where
  chain i hi p hp hb ha heq := (h.chain i hi p hp ha hb heq.symm).symm
  leaf heq := (h.leaf heq.symm).symm
  node level heq := (h.node level heq.symm).symm

namespace Accepted

end Accepted

section Generate

variable (tweakHash : TweakHash) (draws : Draws) (message : List Word) (epoch : BitVec 32)

variable {tweakHash draws message epoch}

end Generate

end Binius64.Wots
