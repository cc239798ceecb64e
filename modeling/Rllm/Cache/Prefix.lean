import Mathlib.Data.List.AList
import Rllm.Core.Request

/-! # Block hashes

A full block is identified by a chained hash of its tokens and of the block
before it. The digests of the `sha2` and `xxhash-rust` crates are parameters.
-/

namespace Rllm

/-- A 64-bit hash identifying the content of a full block. -/
abbrev BlockHash := UInt64

inductive PrefixHashAlgorithm where
  | sha256Cbor
  | xxHash
  deriving DecidableEq, Repr

/-- The digest functions of the `sha2` and `xxhash-rust` crates. -/
structure HashFns where
  sha256 : List UInt8 → List UInt8
  xxh3 : List UInt8 → UInt64

structure BlockHashInput where
  parentHash : BlockHash
  tokenIds : List Token
  cacheSalt : Option String
  extraKeys : List (String × List UInt8)
  deriving DecidableEq, Repr

def beBytes (x : UInt64) : List UInt8 :=
  ([56, 48, 40, 32, 24, 16, 8, 0] : List UInt64).map fun k => (x >>> k).toUInt8

def leBytes (x : UInt64) : List UInt8 := (beBytes x).reverse

def leBytes32 (x : UInt32) : List UInt8 :=
  ([0, 8, 16, 24] : List UInt32).map fun k => (x >>> k).toUInt8

def ofBeBytes (bs : List UInt8) : UInt64 :=
  bs.foldl (fun h b => h * 256 + b.toUInt64) 0

def utf8Bytes (s : String) : List UInt8 := s.toUTF8.data.toList

/-- The bytes fed to a digest; the two algorithms differ in how they write lengths. -/
def BlockHashInput.encode (input : BlockHashInput) (lenBytes : UInt64 → List UInt8) :
    List UInt8 :=
  let text (bs : List UInt8) := lenBytes (UInt64.ofNat bs.length) ++ bs
  beBytes input.parentHash ++ input.tokenIds.flatMap leBytes32 ++
    (match input.cacheSalt with
      | some salt => text (utf8Bytes salt)
      | none => []) ++
    input.extraKeys.flatMap fun (key, value) => text (utf8Bytes key) ++ text value

variable (H : HashFns)

/-- The first eight bytes of the SHA-256 digest. -/
def sha256CborHash (input : BlockHashInput) : BlockHash :=
  ofBeBytes ((H.sha256 (input.encode leBytes)).take 8)

def xxhashHash (input : BlockHashInput) : BlockHash := H.xxh3 (input.encode beBytes)

def blockHash (algo : PrefixHashAlgorithm) (input : BlockHashInput) : BlockHash :=
  match algo with
  | .sha256Cbor => sha256CborHash H input
  | .xxHash => xxhashHash H input

/-- Hash the next `n` blocks of the tokens, each on top of its parent. -/
def hashBlocks (algo : PrefixHashAlgorithm) (blockSize : ℕ) (cacheSalt : Option String) :
    ℕ → BlockHash → List Token → List BlockHash
  | 0, _, _ => []
  | n + 1, parentHash, tokenIds =>
    let hash := blockHash H algo
      { parentHash, tokenIds := tokenIds.take blockSize, cacheSalt, extraKeys := [] }
    hash :: hashBlocks algo blockSize cacheSalt n hash (tokenIds.drop blockSize)

/-- One chained hash per full block of the tokens, starting from parent `0`. -/
def computeBlockHashes (algo : PrefixHashAlgorithm) (tokenIds : List Token) (blockSize : ℕ)
    (cacheSalt : Option String) : List BlockHash :=
  hashBlocks H algo blockSize cacheSalt (tokenIds.length / blockSize) 0 tokenIds

/-- The number of hashes before the first one that is not cached. -/
def findPrefixHit {β : Type} (cachedHashes : AList fun _ : BlockHash => β) :
    List BlockHash → ℕ
  | [] => 0
  | hash :: computedHashes =>
    if hash ∈ cachedHashes then findPrefixHit cachedHashes computedHashes + 1 else 0

variable {H} {algo : PrefixHashAlgorithm} {blockSize : ℕ} {salt : Option String}

@[simp] theorem length_hashBlocks (n : ℕ) (parent : BlockHash) (tokens : List Token) :
    (hashBlocks H algo blockSize salt n parent tokens).length = n := by
  induction n generalizing parent tokens with
  | zero => rfl
  | succ n ih => simp [hashBlocks, ih]

@[simp] theorem length_computeBlockHashes (tokens : List Token) :
    (computeBlockHashes H algo tokens blockSize salt).length = tokens.length / blockSize :=
  length_hashBlocks _ _ _

theorem findPrefixHit_eq {β : Type} {cached : AList fun _ : BlockHash => β}
    {hashes : List BlockHash} {k : ℕ} (hk : k ≤ hashes.length)
    (hhit : ∀ i < k, ∀ h, hashes[i]? = some h → h ∈ cached)
    (hmiss : ∀ h, hashes[k]? = some h → h ∉ cached) : findPrefixHit cached hashes = k := by
  induction hashes generalizing k with
  | nil => exact (Nat.le_zero.mp hk).symm
  | cons hash hashes ih =>
    unfold findPrefixHit
    cases k with
    | zero => exact if_neg (hmiss hash rfl)
    | succ k =>
      rw [if_pos (hhit 0 (Nat.succ_pos k) hash rfl)]
      refine congrArg (· + 1) (ih (Nat.le_of_succ_le_succ hk) (fun i hi h hh => ?_) hmiss)
      exact hhit (i + 1) (Nat.succ_lt_succ hi) h hh

/-- With fewer cached hashes, the hit is as long if the hashes it consists of are still cached. -/
theorem findPrefixHit_eq_iff {β : Type} {cached cached' : AList fun _ : BlockHash => β}
    (hsub : ∀ h ∈ cached', h ∈ cached) (hashes : List BlockHash) :
    findPrefixHit cached' hashes = findPrefixHit cached hashes ↔
      ∀ h ∈ hashes.take (findPrefixHit cached hashes), h ∈ cached' := by
  induction hashes with
  | nil => simp [findPrefixHit]
  | cons hash hashes ih =>
    by_cases hin : hash ∈ cached
    · by_cases hin' : hash ∈ cached'
      · simp [findPrefixHit, hin, hin', ih]
      · simp [findPrefixHit, hin, hin']
    · have hin' : hash ∉ cached' := fun hm => hin (hsub hash hm)
      simp [findPrefixHit, hin, hin']

/-- A toy digest: the sum of the bytes, each weighted by its place. -/
def smallHash : HashFns where
  sha256 bytes := bytes
  xxh3 bytes := (bytes.foldl (fun (k, h) b => (k + 1, h + k * b.toUInt64)) ((1 : UInt64), 0)).2

end Rllm
