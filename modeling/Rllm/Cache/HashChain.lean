import Rllm.Cache.Prefix
import Rllm.Library.Framing

/-! # Block hashes identify prefixes

What is fed to a digest can be read back, whatever the salt and the extra keys
contain. So, as far as the digest is injective on what it is fed, the hash of a
block determines the salt and all the tokens up to the end of the block.
-/

namespace Rllm

/-! ## Integers and texts as bytes -/

theorem beBytes_injective : Function.Injective beBytes := by
  intro x y h
  have hshift := List.map_inj_left.mp h
  refine UInt64.toNat_inj.mp (digits_inj (b := 256) 8 x.toNat_lt y.toNat_lt fun k hk => ?_)
  have hmem : ∀ k < 8, UInt64.ofNat (8 * k) ∈ ([56, 48, 40, 32, 24, 16, 8, 0] : List UInt64) := by
    decide
  have hdigit : ∀ z : UInt64,
      (z >>> UInt64.ofNat (8 * k)).toUInt8.toNat = z.toNat / 256 ^ k % 256 := by
    intro z
    have hk' : 8 * k % 2 ^ 64 % 64 = 8 * k := by omega
    rw [UInt64.toNat_toUInt8, UInt64.toNat_shiftRight, UInt64.toNat_ofNat', hk',
      Nat.shiftRight_eq_div_pow, Nat.pow_mul]
  have hbyte := congrArg UInt8.toNat (hshift _ (hmem k hk))
  rwa [hdigit, hdigit] at hbyte

theorem leBytes32_injective : Function.Injective leBytes32 := by
  intro x y h
  have hshift := List.map_inj_left.mp h
  refine UInt32.toNat_inj.mp (digits_inj (b := 256) 4 x.toNat_lt y.toNat_lt fun k hk => ?_)
  have hmem : ∀ k < 4, UInt32.ofNat (8 * k) ∈ ([0, 8, 16, 24] : List UInt32) := by decide
  have hdigit : ∀ z : UInt32,
      (z >>> UInt32.ofNat (8 * k)).toUInt8.toNat = z.toNat / 256 ^ k % 256 := by
    intro z
    have hk' : 8 * k % 2 ^ 32 % 32 = 8 * k := by omega
    rw [UInt32.toNat_toUInt8, UInt32.toNat_shiftRight, UInt32.toNat_ofNat', hk',
      Nat.shiftRight_eq_div_pow, Nat.pow_mul]
  have hbyte := congrArg UInt8.toNat (hshift _ (hmem k hk))
  rwa [hdigit, hdigit] at hbyte

theorem leBytes_injective : Function.Injective leBytes :=
  List.reverse_injective.comp beBytes_injective

theorem utf8Bytes_injective : Function.Injective utf8Bytes := fun _ _ h =>
  String.toByteArray_inj.mp (ByteArray.ext (Array.toList_inj.mp h))

@[simp] theorem length_beBytes (x : UInt64) : (beBytes x).length = 8 := rfl

@[simp] theorem length_leBytes (x : UInt64) : (leBytes x).length = 8 := rfl

@[simp] theorem length_leBytes32 (x : UInt32) : (leBytes32 x).length = 4 := rfl

/-- Lengths as 64-bit integers. -/
def lengthCode (bytes : UInt64 → List UInt8) (hlen : ∀ x, (bytes x).length = 8)
    (hinj : Function.Injective bytes) : LengthCode UInt8 where
  write n := bytes (UInt64.ofNat n)
  width := 8
  bound := 2 ^ 64
  width_pos := by decide
  length_write _ := hlen _
  write_inj {m n} hm hn h := by
    have hmod := congrArg UInt64.toNat (hinj h)
    rwa [UInt64.toNat_ofNat', UInt64.toNat_ofNat', Nat.mod_eq_of_lt hm, Nat.mod_eq_of_lt hn] at hmod

namespace PrefixHashAlgorithm

/-- How the algorithm writes the length of a text. -/
def lengths : PrefixHashAlgorithm → LengthCode UInt8
  | sha256Cbor => lengthCode leBytes length_leBytes leBytes_injective
  | xxHash => lengthCode beBytes length_beBytes beBytes_injective

/-- The byte string that the algorithm feeds to its digest. -/
def fed : PrefixHashAlgorithm → BlockHashInput → List UInt8
  | sha256Cbor, input => input.encode leBytes
  | xxHash, input => input.encode beBytes

/-- The 64-bit hash of a byte string. -/
def digest (H : HashFns) : PrefixHashAlgorithm → List UInt8 → BlockHash
  | sha256Cbor, bytes => ofBeBytes ((H.sha256 bytes).take 8)
  | xxHash, bytes => H.xxh3 bytes

theorem blockHash_eq (H : HashFns) (algo : PrefixHashAlgorithm) (input : BlockHashInput) :
    blockHash H algo input = algo.digest H (algo.fed input) := by
  cases algo <;> rfl

end PrefixHashAlgorithm

/-! ## What is fed to a digest can be read back -/

namespace BlockHashInput

variable {a b : BlockHashInput}

/-- The salt and the extra keys, as the texts that are written after their lengths. -/
def texts (input : BlockHashInput) : List (List UInt8) :=
  input.cacheSalt.toList.map utf8Bytes ++
    input.extraKeys.flatMap fun (key, value) => [utf8Bytes key, value]

/-- The lengths of the texts are machine integers. -/
def Fits (input : BlockHashInput) : Prop := ∀ text ∈ input.texts, text.length < 2 ^ 64

theorem length_texts (input : BlockHashInput) :
    input.texts.length = input.cacheSalt.toList.length + 2 * input.extraKeys.length := by
  simp [texts, List.length_flatMap, Nat.mul_comm]

theorem texts_inj (h : a.texts = b.texts) :
    a.cacheSalt = b.cacheSalt ∧ a.extraKeys = b.extraKeys := by
  have hlen := congrArg List.length h
  rw [length_texts, length_texts] at hlen
  have hkeys : a.extraKeys.length = b.extraKeys.length := by
    have ha := Option.length_toList_le (o := a.cacheSalt)
    have hb := Option.length_toList_le (o := b.cacheSalt)
    omega
  have hsalts : (a.cacheSalt.toList.map utf8Bytes).length =
      (b.cacheSalt.toList.map utf8Bytes).length := by
    rw [List.length_map, List.length_map]
    omega
  obtain ⟨hsalt, hextra⟩ := List.append_inj h hsalts
  constructor
  · have hlist := List.map_injective_iff.mpr utf8Bytes_injective hsalt
    rw [← Option.head?_toList (o := a.cacheSalt), hlist, Option.head?_toList]
  · refine (flatMap_append_inj (w := 2) (fun _ => rfl) ?_ hkeys (congrArg (· ++ []) hextra)).1
    rintro ⟨key, value⟩ ⟨key', value'⟩ hpair
    obtain ⟨hkey, hvalue⟩ := List.cons.inj hpair
    rw [utf8Bytes_injective hkey, (List.cons.inj hvalue).1]

theorem fed_eq (algo : PrefixHashAlgorithm) (input : BlockHashInput) :
    algo.fed input = beBytes input.parentHash ++
      (input.tokenIds.flatMap leBytes32 ++ algo.lengths.frames input.texts) := by
  obtain ⟨parent, tokens, salt, extra⟩ := input
  cases algo <;> cases salt <;>
    simp [PrefixHashAlgorithm.fed, encode, PrefixHashAlgorithm.lengths, LengthCode.frames,
      LengthCode.frame, lengthCode, texts, List.flatMap_assoc]

theorem fed_inj {algo : PrefixHashAlgorithm} (ha : a.Fits) (hb : b.Fits)
    (hlen : a.tokenIds.length = b.tokenIds.length) (h : algo.fed a = algo.fed b) : a = b := by
  rw [fed_eq, fed_eq] at h
  obtain ⟨hparent, hrest⟩ := List.append_inj h rfl
  obtain ⟨htokens, hframes⟩ :=
    flatMap_append_inj length_leBytes32 leBytes32_injective hlen hrest
  have hbound : algo.lengths.bound = 2 ^ 64 := by cases algo <;> rfl
  have hfits : ∀ input : BlockHashInput, input.Fits → algo.lengths.Fits input.texts := by
    intro input hinput text htext
    rw [hbound]
    exact hinput text htext
  obtain ⟨hsalt, hextra⟩ := texts_inj (LengthCode.frames_inj (hfits a ha) (hfits b hb) hframes)
  cases a
  cases b
  cases beBytes_injective hparent
  cases htokens
  cases hsalt
  cases hextra
  rfl

end BlockHashInput

/-! ## Chains -/

section Chains

variable (H : HashFns) (algo : PrefixHashAlgorithm) (blockSize : ℕ)

/-- What is hashed for the next `n` blocks of the tokens. -/
def chainInputs (cacheSalt : Option String) : ℕ → BlockHash → List Token → List BlockHashInput
  | 0, _, _ => []
  | n + 1, parentHash, tokenIds =>
    let input := { parentHash, tokenIds := tokenIds.take blockSize, cacheSalt, extraKeys := [] }
    input :: chainInputs cacheSalt n (blockHash H algo input) (tokenIds.drop blockSize)

/-- What is hashed for the full blocks of the tokens. -/
def hashInputs (tokenIds : List Token) (cacheSalt : Option String) : List BlockHashInput :=
  chainInputs H algo blockSize cacheSalt (tokenIds.length / blockSize) 0 tokenIds

/-- The 64-bit hash is injective on the bytes that are fed to it for the inputs. -/
def DigestInjective (inputs : List BlockHashInput) : Prop :=
  ∀ a ∈ inputs, ∀ b ∈ inputs, algo.digest H (algo.fed a) = algo.digest H (algo.fed b) →
    algo.fed a = algo.fed b

variable {H algo blockSize} {salt salt' : Option String} {n m : ℕ} {p q : BlockHash}
  {s t : List Token}

theorem hashBlocks_prefix (hnm : n ≤ m) (hs : n * blockSize ≤ s.length) (p : BlockHash)
    (t : List Token) :
    hashBlocks H algo blockSize salt n p s <+: hashBlocks H algo blockSize salt m p (s ++ t) := by
  induction n generalizing m p s with
  | zero => exact List.nil_prefix
  | succ n ih =>
    obtain ⟨m, rfl⟩ := Nat.exists_eq_add_of_lt hnm
    rw [Nat.succ_mul] at hs
    have hfull : blockSize ≤ s.length := by omega
    have hrest : n * blockSize ≤ (s.drop blockSize).length := by
      rw [List.length_drop]
      omega
    have htake : (s ++ t).take blockSize = s.take blockSize := List.take_append_of_le_length hfull
    have hdrop : (s ++ t).drop blockSize = s.drop blockSize ++ t :=
      List.drop_append_of_le_length hfull
    rw [hashBlocks, hashBlocks, htake, hdrop, List.prefix_cons_inj]
    exact ih (by omega) hrest _

theorem blockHash_eq_iff {inputs : List BlockHashInput} (hfits : ∀ a ∈ inputs, a.Fits)
    (hinj : DigestInjective H algo inputs) {a b : BlockHashInput} (ha : a ∈ inputs)
    (hb : b ∈ inputs) (hlen : a.tokenIds.length = b.tokenIds.length) :
    blockHash H algo a = blockHash H algo b ↔ a = b := by
  constructor
  · intro h
    rw [algo.blockHash_eq, algo.blockHash_eq] at h
    exact BlockHashInput.fed_inj (hfits a ha) (hfits b hb) hlen (hinj a ha b hb h)
  · rintro rfl
    rfl

theorem hashBlocks_eq_iff {inputs : List BlockHashInput} (hfits : ∀ a ∈ inputs, a.Fits)
    (hinj : DigestInjective H algo inputs) (hs : n * blockSize ≤ s.length)
    (ht : m * blockSize ≤ t.length)
    (hsub : ∀ a ∈ chainInputs H algo blockSize salt n p s, a ∈ inputs)
    (hsub' : ∀ a ∈ chainInputs H algo blockSize salt' m q t, a ∈ inputs) {i : ℕ}
    {g g' : BlockHash} (hg : (hashBlocks H algo blockSize salt n p s)[i]? = some g)
    (hg' : (hashBlocks H algo blockSize salt' m q t)[i]? = some g') :
    g = g' ↔ p = q ∧ salt = salt' ∧
      s.take ((i + 1) * blockSize) = t.take ((i + 1) * blockSize) := by
  induction n generalizing m p q s t i with
  | zero => cases hg
  | succ n ih =>
    cases m with
    | zero => cases hg'
    | succ m =>
      rw [Nat.succ_mul] at hs ht
      have hfirst : blockHash H algo ⟨p, s.take blockSize, salt, []⟩ =
          blockHash H algo ⟨q, t.take blockSize, salt', []⟩ ↔
            p = q ∧ s.take blockSize = t.take blockSize ∧ salt = salt' := by
        rw [blockHash_eq_iff hfits hinj (hsub _ List.mem_cons_self) (hsub' _ List.mem_cons_self)]
        · simp
        · simp only [List.length_take]
          omega
      cases i with
      | zero =>
        cases hg
        cases hg'
        rw [hfirst, Nat.zero_add, Nat.one_mul, and_comm (a := salt = salt')]
      | succ i =>
        have hrest := ih (by rw [List.length_drop]; omega) (by rw [List.length_drop]; omega)
          (fun a ha => hsub a (List.mem_cons_of_mem _ ha))
          (fun a ha => hsub' a (List.mem_cons_of_mem _ ha)) hg hg'
        have hlong : (s.take blockSize).length = (t.take blockSize).length := by
          simp only [List.length_take]
          omega
        have htakes : s.take ((i + 1 + 1) * blockSize) = t.take ((i + 1 + 1) * blockSize) ↔
            s.take blockSize = t.take blockSize ∧
              (s.drop blockSize).take ((i + 1) * blockSize) =
                (t.drop blockSize).take ((i + 1) * blockSize) := by
          rw [Nat.succ_mul (i + 1), Nat.add_comm _ blockSize, List.take_add, List.take_add]
          exact ⟨fun h => List.append_inj h hlong, fun h => congrArg₂ _ h.1 h.2⟩
        rw [hrest, hfirst, htakes]
        tauto

end Chains

/-! ## The hashes of a token list -/

variable {H : HashFns} {algo : PrefixHashAlgorithm} {blockSize : ℕ}

/-- The hashes of a list continue the hashes of its prefixes; the `i`-th one tells the salt and
the tokens up to the end of the `i`-th block; and the bytes tell what is hashed. -/
theorem computeBlockHashes_identify_prefixes (H : HashFns) (algo : PrefixHashAlgorithm)
    (blockSize : ℕ) :
    (∀ (s t : List Token) (salt : Option String),
      computeBlockHashes H algo s blockSize salt <+:
        computeBlockHashes H algo (s ++ t) blockSize salt) ∧
    (∀ (s t : List Token) (salt salt' : Option String),
      (∀ input ∈ hashInputs H algo blockSize s salt ++ hashInputs H algo blockSize t salt',
        input.Fits) →
      DigestInjective H algo
        (hashInputs H algo blockSize s salt ++ hashInputs H algo blockSize t salt') →
      ∀ (i : ℕ) (h h' : BlockHash),
        (computeBlockHashes H algo s blockSize salt)[i]? = some h →
        (computeBlockHashes H algo t blockSize salt')[i]? = some h' →
        (h = h' ↔ salt = salt' ∧
          s.take ((i + 1) * blockSize) = t.take ((i + 1) * blockSize))) ∧
    ∀ a b : BlockHashInput, a.Fits → b.Fits → a.tokenIds.length = b.tokenIds.length →
      algo.fed a = algo.fed b → a = b := by
  refine ⟨fun s t salt => ?_, fun s t salt salt' hfits hinj i h h' hh hh' => ?_,
    fun a b ha hb hlen h => BlockHashInput.fed_inj ha hb hlen h⟩
  · have hlen : s.length ≤ (s ++ t).length := by
      rw [List.length_append]
      exact Nat.le_add_right _ _
    exact hashBlocks_prefix (Nat.div_le_div_right hlen) (Nat.div_mul_le_self _ _) 0 t
  · have hiff := hashBlocks_eq_iff hfits hinj (Nat.div_mul_le_self _ _) (Nat.div_mul_le_self _ _)
      (fun a ha => List.mem_append_left _ ha) (fun a ha => List.mem_append_right _ ha) hh hh'
    rw [hiff]
    exact and_iff_right rfl

/-- Two tenants with one prompt. -/
theorem computeBlockHashes_identify_prefixes_small :
    (computeBlockHashes smallHash .xxHash [1, 2, 3, 4] 2 (some "a"))[1]? = some 4031 ∧
      (computeBlockHashes smallHash .xxHash [1, 2, 3, 4] 2 none)[1]? = some 359 ∧
      (4031 = (359 : BlockHash) ↔ some "a" = (none : Option String) ∧
        ([1, 2, 3, 4] : List Token).take 4 = [1, 2, 3, 4]) := by
  have hsalted :
      (computeBlockHashes smallHash .xxHash [1, 2, 3, 4] 2 (some "a"))[1]? = some 4031 := by
    decide +kernel
  have hplain : (computeBlockHashes smallHash .xxHash [1, 2, 3, 4] 2 none)[1]? = some 359 := by
    decide +kernel
  refine ⟨hsalted, hplain, ?_⟩
  refine (computeBlockHashes_identify_prefixes smallHash .xxHash 2).2.1 [1, 2, 3, 4] [1, 2, 3, 4]
    (some "a") none ?_ ?_ 1 4031 359 hsalted hplain
  · unfold BlockHashInput.Fits
    decide +kernel
  · unfold DigestInjective
    decide +kernel

end Rllm
