import ToyBtc.Types

/-!
# Hashing and signature checks

`Hash::hash` takes SHA-256 of a CBOR encoding and `Signature::verify` checks
an ECDSA signature over the bytes of an output hash. Both come from other
crates, so every result holds for all of their possible values.
-/

namespace ToyBtc

/-- Everything the code hashes. The encodings of different kinds differ. -/
inductive Hashed
  | tx (t : Tx)
  | output (o : TxOutput)
  | header (h : BlockHeader)
  | pair (left right : Hash)
  deriving DecidableEq

/-- What the code calls from other crates: the digest of an encoded value, and
the check of a signature over a message. -/
class Crates where
  digest : Hashed → Hash
  verify : PublicKey → List UInt8 → Signature → Bool

variable [Crates]

/-- Hashes anything that can be serialized. -/
def Hash.hash (data : Hashed) : Hash := Crates.digest data

/-- Verify a signature of an output. -/
def Signature.verify (s : Signature) (outputHash : Hash) (pubkey : PublicKey) : Bool :=
  Crates.verify pubkey outputHash.asBytes s

def Tx.hash (tx : Tx) : Hash := Hash.hash (.tx tx)

def TxOutput.hash (o : TxOutput) : Hash := Hash.hash (.output o)

def BlockHeader.hash (h : BlockHeader) : Hash := Hash.hash (.header h)

/-- The next layer of a Merkle tree. A hash without a right sibling is its own sibling. -/
def MerkleRoot.nextLayer : List Hash → List Hash
  | [] => []
  | [left] => [Hash.hash (.pair left left)]
  | left :: right :: rest => Hash.hash (.pair left right) :: nextLayer rest

/-- The layer loop, which stops at a single hash. A layer of `n` hashes needs
fewer than `n` rounds. -/
def MerkleRoot.reduceLayers : Nat → List Hash → List Hash
  | 0, layer => layer
  | rounds + 1, layer =>
      if 1 < layer.length then reduceLayers rounds (nextLayer layer) else layer

/-- Calculate the Merkle root of a block's transactions. -/
def MerkleRoot.calculate (transactions : List Tx) : MerkleRoot :=
  let layer := transactions.map Tx.hash
  if layer.isEmpty then ⟨Hash.zero⟩
  else ⟨(reduceLayers layer.length layer).headD Hash.zero⟩

theorem MerkleRoot.length_nextLayer (layer : List Hash) :
    (nextLayer layer).length = (layer.length + 1) / 2 := by
  induction layer using nextLayer.induct with
  | case1 => rfl
  | case2 left => simp [nextLayer]
  | case3 left right rest ih =>
      simp only [nextLayer, List.length_cons, ih]
      omega

/-- The loop ends with exactly one hash: the bound on its rounds is never met. -/
theorem MerkleRoot.length_reduceLayers (rounds : Nat) (layer : List Hash)
    (hpos : 0 < layer.length) (hfuel : layer.length ≤ rounds) :
    (reduceLayers rounds layer).length = 1 := by
  induction rounds generalizing layer with
  | zero => omega
  | succ rounds ih =>
      rw [reduceLayers]
      split
      · have hlen := length_nextLayer layer
        exact ih (nextLayer layer) (by omega) (by omega)
      · omega

end ToyBtc
