import Mathlib.Data.Rat.Floor
import Rllm.Library.Checked
import Rllm.Library.Loops

/-! # Packed GPTQ layers

Quantized weights are packed eight to a word along the inputs, zero points
along the outputs and stored minus one. The runtime unpacks both by divisions
and floors; in exact arithmetic these are the nibbles of the words.
-/

namespace Rllm

open Checked (index)

namespace Gptq

/-- The values in one word. -/
def packFactor : ℕ := 8

/-! ## The packer -/

/-- One word out of its nibbles, the first one lowest. -/
def packWord (read : ℕ → Except String UInt32) : Except String Int32 := do
  let acc ← (List.range packFactor).foldlM (fun acc nibble => do
    let q ← read nibble
    pure (acc ||| q <<< (4 * nibble).toUInt32)) 0
  pure acc.toInt32

def packQweight (qByInput : List UInt8) (inFeatures outFeatures : ℕ) :
    Except String (List Int32) := do
  let packedRows := inFeatures / packFactor
  let packed ← (List.range packedRows).mapM fun packedRow =>
    (List.range outFeatures).mapM fun outCol =>
      packWord fun nibble => do
        let inIdx := packedRow * packFactor + nibble
        let q ← index qByInput (inIdx * outFeatures + outCol)
        pure q.toUInt32
  pure packed.flatten

/-- Zero points are stored minus one, saturating. -/
def packQzeros (zeros : List UInt8) (numGroups outFeatures : ℕ) : Except String (List Int32) := do
  if outFeatures % packFactor ≠ 0 then
    throw s!"qzero packer requires out_features divisible by {packFactor}, got {outFeatures}"
  let packedCols := outFeatures / packFactor
  let packed ← (List.range numGroups).mapM fun group =>
    (List.range packedCols).mapM fun packedCol =>
      packWord fun nibble => do
        let outCol := packedCol * packFactor + nibble
        let zero ← index zeros (group * outFeatures + outCol)
        pure (UInt8.ofNat (zero.toNat - 1)).toUInt32
  pure packed.flatten

end Gptq

structure QuantizedGptqLayer where
  qweight : List Int32
  qzeros : List Int32
  scales : List ℚ
  gIdx : List UInt32
  inFeatures : ℕ
  outFeatures : ℕ
  numGroups : ℕ
  bits : ℕ

namespace Gptq

/-- The layer of quantized values, the end of the quantizer. -/
def packLayer (qByInput zeros : List UInt8) (scales : List ℚ) (gIdx : List UInt32)
    (inFeatures outFeatures numGroups bits : ℕ) : Except String QuantizedGptqLayer := do
  let qweight ← packQweight qByInput inFeatures outFeatures
  let qzeros ← packQzeros zeros numGroups outFeatures
  pure { qweight, qzeros, scales, gIdx, inFeatures, outFeatures, numGroups, bits }

/-! ## The runtime decoder

Conversions between number types and roundings are exact here.
-/

/-- A signed word as an unsigned number: a negative one is offset. -/
def unsigned (w : Int32) : ℚ := w.toInt + (if (w.toInt : ℚ) < 0 then 1 else 0) * 4294967296

/-- Divide, floor, and take off the multiples of sixteen. -/
def unpackNibble (i : ℕ) (w : ℚ) : ℚ :=
  let shifted : ℚ := ⌊w / 2 ^ (4 * i)⌋
  let temp : ℚ := ⌊shifted / 16⌋ * 16
  shifted - temp

def dims2 {α : Type} (t : Tensor α) : Except String (ℕ × ℕ) :=
  match t.shape with
  | [rows, cols] => .ok (rows, cols)
  | _ => .error "unexpected rank"

theorem dims2_ok {α : Type} {t : Tensor α} {rows cols : ℕ} (ht : t.shape = [rows, cols]) :
    dims2 t = .ok (rows, cols) := by
  rw [dims2, ht]

def dim0 {α : Type} (t : Tensor α) : Except String ℕ :=
  match t.shape with
  | rows :: _ => .ok rows
  | [] => .error "dimension out of range"

def dequantizeGptqImpl (T : TensorOps) (qweight qzeros : Tensor Int32) (scales : Tensor ℚ)
    (gIdx : Tensor UInt32) (bits : ℕ) : Except String (Tensor ℚ) := do
  if bits ≠ 4 then throw s!"Only 4-bit GPTQ is supported, got {bits}"
  let (packedInFeatures, outFeatures) ← dims2 qweight
  let inFeatures := packedInFeatures * 8
  let wUnpacked := (List.range 8).map fun i => (qweight.map unsigned).map (unpackNibble i)
  let wStacked ← T.stack wUnpacked 1
  let wRaw ← T.reshape wStacked [inFeatures, outFeatures]
  let zUnpacked := (List.range 8).map fun i =>
    (qzeros.map unsigned).map fun z => unpackNibble i z + 1
  let zStacked ← T.stack zUnpacked 2
  let numGroups ← dim0 qzeros
  let zRaw ← T.reshape zStacked [numGroups, outFeatures]
  let selectScales ← T.indexSelect scales gIdx
  let selectZeros ← T.indexSelect zRaw gIdx
  let wDequant ← T.zipWith (· - ·) wRaw selectZeros
  let wDequant ← T.zipWith (· * ·) wDequant selectScales
  T.transpose wDequant

/-- The decoder on the tensors of a layer. -/
def dequantizeGptq (T : TensorOps) (layer : QuantizedGptqLayer) : Except String (Tensor ℚ) := do
  let qweight ← Tensor.fromVec layer.qweight
    [layer.inFeatures / packFactor, layer.outFeatures]
  let qzeros ← Tensor.fromVec layer.qzeros [layer.numGroups, layer.outFeatures / packFactor]
  let scales ← Tensor.fromVec layer.scales [layer.numGroups, layer.outFeatures]
  let gIdx ← Tensor.fromVec layer.gIdx [layer.inFeatures]
  dequantizeGptqImpl T qweight qzeros scales gIdx layer.bits

/-- The bitwise decoder. -/
def dequantizeCpu (layer : QuantizedGptqLayer) : Except String (List ℚ) := do
  let out ← (List.range layer.outFeatures).mapM fun outCol =>
    (List.range layer.inFeatures).mapM fun inIdx => do
      let packed ← index layer.qweight (inIdx / packFactor * layer.outFeatures + outCol)
      let q := packed.toUInt32 >>> (4 * (inIdx % packFactor)).toUInt32 &&& 0xF
      let group ← index layer.gIdx inIdx
      let scale ← index layer.scales (group.toNat * layer.outFeatures + outCol)
      let packedZero ← index layer.qzeros
        (group.toNat * (layer.outFeatures / packFactor) + outCol / packFactor)
      let z := packedZero.toUInt32 >>> (4 * (outCol % packFactor)).toUInt32 &&& 0xF
      pure ((q.toNat - (z.toNat + 1)) * scale)
  pure out.flatten

/-! ## Words -/

/-- The `i`-th nibble of a word. -/
def nibble (w : Int32) (i : ℕ) : ℕ := w.toUInt32.toNat / 16 ^ i % 16

theorem unsigned_eq (w : Int32) : unsigned w = (w.toUInt32.toNat : ℚ) := by
  have hcond : w.toInt = if 2 * w.toUInt32.toNat < 2 ^ 32 then (w.toUInt32.toNat : ℤ)
      else w.toUInt32.toNat - (2 ^ 32 : ℕ) := w.toBitVec.toInt_eq_toNat_cond
  have hlt : w.toUInt32.toNat < 2 ^ 32 := w.toUInt32.toNat_lt
  have hneg : (w.toInt : ℚ) < 0 ↔ w.toInt < 0 := Int.cast_lt_zero
  simp only [unsigned, hneg]
  split at hcond
  · have hpos : ¬ w.toInt < 0 := by omega
    rw [if_neg hpos, hcond, zero_mul, add_zero, Int.cast_natCast]
  · have hlt' : w.toInt < 0 := by omega
    rw [if_pos hlt', hcond]
    push_cast
    ring

theorem unpackNibble_eq (w : Int32) (i : ℕ) : unpackNibble i (unsigned w) = nibble w i := by
  have hpow : (2 : ℚ) ^ (4 * i) = ((16 ^ i : ℕ) : ℚ) := by
    rw [pow_mul]
    norm_num
  have hshift : ⌊unsigned w / 2 ^ (4 * i)⌋ = ((w.toUInt32.toNat / 16 ^ i : ℕ) : ℤ) := by
    rw [unsigned_eq, hpow, Rat.floor_natCast_div_natCast]
    rfl
  have hmask : ∀ n : ℕ, ⌊(n : ℚ) / 16⌋ = ((n / 16 : ℕ) : ℤ) := fun n =>
    Rat.floor_natCast_div_natCast n 16
  have hdiv : ∀ n : ℕ, (n : ℚ) = (n % 16 : ℕ) + (n / 16 : ℕ) * 16 := fun n => by
    exact_mod_cast (Nat.mod_add_div' n 16).symm
  simp only [unpackNibble, nibble, hshift, Int.cast_natCast, hmask]
  rw [sub_eq_iff_eq_add]
  exact hdiv _

theorem toNat_nibble (w : Int32) {i : ℕ} (hi : i < 8) :
    (w.toUInt32 >>> (4 * i).toUInt32 &&& 0xF).toNat = nibble w i := by
  have hshift : (4 * i).toUInt32.toNat % 32 = 4 * i := by
    rw [Nat.toUInt32, UInt32.toNat_ofNat']
    omega
  rw [UInt32.toNat_and, UInt32.toNat_shiftRight, hshift, Nat.shiftRight_eq_div_pow, Nat.pow_mul]
  exact Nat.and_two_pow_sub_one_eq_mod _ 4

theorem foldl_nibbles {v : ℕ → UInt32} {k : ℕ} (hk : k ≤ 8) (hv : ∀ n < k, (v n).toNat < 16) :
    ((List.range k).foldl (fun acc n => acc ||| v n <<< (4 * n).toUInt32) 0).toNat < 16 ^ k ∧
      ∀ i < k, ((List.range k).foldl (fun acc n => acc ||| v n <<< (4 * n).toUInt32) 0).toNat /
        16 ^ i % 16 = (v i).toNat := by
  induction k with
  | zero => exact ⟨Nat.one_pos, fun i hi => absurd hi (Nat.not_lt_zero i)⟩
  | succ k ih =>
    obtain ⟨hlt, hget⟩ := ih (by omega) fun n hn => hv n (by omega)
    rw [List.range_succ, List.foldl_append, List.foldl_cons, List.foldl_nil]
    generalize (List.range k).foldl (fun acc n => acc ||| v n <<< (4 * n).toUInt32) 0 = acc
      at hlt hget ⊢
    have hvk := hv k k.lt_succ_self
    have hpow : 16 ^ k = 2 ^ (4 * k) := by rw [Nat.pow_mul]
    have hshift : (4 * k).toUInt32.toNat % 32 = 4 * k := by
      rw [Nat.toUInt32, UInt32.toNat_ofNat']
      omega
    have hfit : (v k).toNat * 2 ^ (4 * k) < 2 ^ 32 := by
      calc (v k).toNat * 2 ^ (4 * k) < 16 * 2 ^ (4 * k) :=
            Nat.mul_lt_mul_of_pos_right hvk (Nat.two_pow_pos _)
        _ = 2 ^ (4 * k + 4) := by rw [Nat.pow_add, Nat.mul_comm]
        _ ≤ 2 ^ 32 := Nat.pow_le_pow_right Nat.two_pos (by omega)
    have hsum : (acc ||| v k <<< (4 * k).toUInt32).toNat = 16 ^ k * (v k).toNat + acc.toNat := by
      rw [UInt32.toNat_or, UInt32.toNat_shiftLeft, hshift, Nat.shiftLeft_eq, Nat.mod_eq_of_lt hfit,
        Nat.or_comm, Nat.mul_comm, hpow]
      exact (Nat.two_pow_add_eq_or_of_lt (hpow ▸ hlt) _).symm
    rw [hsum]
    refine ⟨?_, fun i hi => ?_⟩
    · rw [Nat.pow_succ]
      have hle : 16 ^ k * (v k).toNat + 16 ^ k ≤ 16 ^ k * 16 := by
        rw [← Nat.mul_succ]
        exact Nat.mul_le_mul_left _ hvk
      omega
    · rcases Nat.lt_succ_iff_lt_or_eq.mp hi with hi | rfl
      · -- the new nibble is above the ones that are read
        obtain ⟨d, rfl⟩ := Nat.exists_eq_add_of_lt hi
        have hsplit : 16 ^ (i + d + 1) * (v (i + d + 1)).toNat + acc.toNat =
            acc.toNat + 16 ^ i * (16 * (16 ^ d * (v (i + d + 1)).toNat)) := by
          ring
        rw [hsplit, Nat.add_mul_div_left _ _ (by positivity), Nat.add_mul_mod_self_left]
        exact hget i hi
      · rw [Nat.mul_add_div (by positivity), Nat.div_eq_of_lt hlt, Nat.add_zero,
          Nat.mod_eq_of_lt hvk]

/-! ## Loops without panics -/

theorem mapM_grid {α : Type} {rows cols : ℕ} {f : ℕ → ℕ → Except String α} {g : ℕ → ℕ → α}
    (h : ∀ r < rows, ∀ c < cols, f r c = .ok (g r c)) :
    (do let xs ← (List.range rows).mapM fun r => (List.range cols).mapM (f r)
        pure xs.flatten : Except String (List α)) = .ok (grid rows cols g) := by
  have hrow : ∀ r ∈ List.range rows, (List.range cols).mapM (f r) =
      (pure ((List.range cols).map (g r)) : Except String (List α)) := fun r hr =>
    mapM_eq_pure fun c hc => h r (List.mem_range.mp hr) c (List.mem_range.mp hc)
  rw [mapM_eq_pure hrow]
  rfl

/-- The word of some nibbles. -/
def wordOf (v : ℕ → UInt32) : Int32 :=
  ((List.range packFactor).foldl (fun acc n => acc ||| v n <<< (4 * n).toUInt32) 0).toInt32

theorem packWord_ok {read : ℕ → Except String UInt32} {v : ℕ → UInt32}
    (h : ∀ n < packFactor, read n = .ok (v n)) : packWord read = .ok (wordOf v) := by
  have hfold : ∀ (ns : List ℕ) (acc : UInt32), (∀ n ∈ ns, read n = .ok (v n)) →
      ns.foldlM (fun acc nibble => do
        let q ← read nibble
        pure (acc ||| q <<< (4 * nibble).toUInt32)) acc =
      (.ok (ns.foldl (fun acc n => acc ||| v n <<< (4 * n).toUInt32) acc) :
        Except String UInt32) := by
    intro ns
    induction ns with
    | nil => exact fun _ _ => rfl
    | cons n ns ih =>
      intro acc hns
      rw [List.foldlM_cons, hns n List.mem_cons_self]
      exact ih _ fun m hm => hns m (List.mem_cons_of_mem _ hm)
  rw [packWord, hfold _ _ fun n hn => h n (List.mem_range.mp hn)]
  rfl

theorem nibble_wordOf {v : ℕ → UInt32} (hv : ∀ n < packFactor, (v n).toNat < 16) {i : ℕ}
    (hi : i < packFactor) : nibble (wordOf v) i = (v i).toNat :=
  (foldl_nibbles le_rfl hv).2 i hi

/-! ## The packed tables -/

variable {rows cols : ℕ}

theorem getElem?_table {xs : List UInt8} (hlen : xs.length = rows * cols) {r c : ℕ} (hr : r < rows)
    (hc : c < cols) : xs[r * cols + c]? = some (xs.getD (r * cols + c) 0) := by
  rw [List.getD_eq_getElem?_getD, List.getElem?_eq_getElem (hlen ▸ block_lt hr hc),
    Option.getD_some]

theorem div_packFactor_lt {n i : ℕ} (hi : i < n * packFactor) : i / packFactor < n :=
  Nat.div_lt_of_lt_mul (by rwa [Nat.mul_comm])

theorem mod_packFactor_lt (i : ℕ) : i % packFactor < packFactor := Nat.mod_lt i (by decide)

/-- The weights behind the words: the eight of a word lie below each other. -/
theorem packQweight_ok {q : List UInt8} (hlen : q.length = rows * packFactor * cols)
    (hq : ∀ x ∈ q, x.toNat < 16) :
    ∃ ws : List Int32, packQweight q (rows * packFactor) cols = .ok ws ∧
      ws.length = rows * cols ∧
      ∀ i < rows * packFactor, ∀ o < cols, ∃ w x, ws[i / packFactor * cols + o]? = some w ∧
        q[i * cols + o]? = some x ∧ nibble w (i % packFactor) = x.toNat := by
  have hget : ∀ r < rows, ∀ n < packFactor, ∀ c < cols,
      q[(r * packFactor + n) * cols + c]? = some (q.getD ((r * packFactor + n) * cols + c) 0) :=
    fun r hr n hn c hc => getElem?_table hlen (block_lt hr hn) hc
  refine ⟨grid rows cols fun r c => wordOf fun n =>
    (q.getD ((r * packFactor + n) * cols + c) 0).toUInt32, ?_, length_grid, fun i hi o ho => ?_⟩
  · rw [packQweight, Nat.mul_div_cancel _ (by decide)]
    refine mapM_grid fun r hr c hc => packWord_ok fun n hn => ?_
    dsimp only
    rw [Checked.index_of_eq (hget r hr n hn c hc)]
    rfl
  · have hr := div_packFactor_lt hi
    refine ⟨_, _, getElem?_grid hr ho, getElem?_table hlen hi ho, ?_⟩
    rw [nibble_wordOf (fun n hn => ?_) (mod_packFactor_lt i), Nat.div_add_mod' i packFactor]
    · rfl
    · exact hq _ (List.mem_of_getElem? (hget _ hr n hn o ho))

theorem packQzeros_ok {zeros : List UInt8} (hlen : zeros.length = rows * (cols * packFactor))
    (hz : ∀ z ∈ zeros, 1 ≤ z.toNat ∧ z.toNat ≤ 16) :
    ∃ ws : List Int32, packQzeros zeros rows (cols * packFactor) = .ok ws ∧
      ws.length = rows * cols ∧
      ∀ g < rows, ∀ o < cols * packFactor, ∃ w z, ws[g * cols + o / packFactor]? = some w ∧
        zeros[g * (cols * packFactor) + o]? = some z ∧
          nibble w (o % packFactor) + 1 = z.toNat := by
  have hget : ∀ g < rows, ∀ c < cols, ∀ n < packFactor,
      zeros[g * (cols * packFactor) + (c * packFactor + n)]? =
        some (zeros.getD (g * (cols * packFactor) + (c * packFactor + n)) 0) :=
    fun g hg c hc n hn => getElem?_table hlen hg (block_lt hc hn)
  have hsub : ∀ z ∈ zeros, (UInt8.ofNat (z.toNat - 1)).toUInt32.toNat = z.toNat - 1 := by
    intro z hmem
    have hle := (hz z hmem).2
    rw [UInt8.toNat_toUInt32, UInt8.toNat_ofNat']
    omega
  refine ⟨grid rows cols fun g c => wordOf fun n => (UInt8.ofNat ((zeros.getD
    (g * (cols * packFactor) + (c * packFactor + n)) 0).toNat - 1)).toUInt32, ?_, length_grid,
    fun g hg o ho => ?_⟩
  · rw [packQzeros, if_neg (by simp), Nat.mul_div_cancel _ (by decide)]
    refine mapM_grid fun g hg c hc => packWord_ok fun n hn => ?_
    dsimp only
    rw [Checked.index_of_eq (hget g hg c hc n hn)]
    rfl
  · have hc := div_packFactor_lt ho
    refine ⟨_, _, getElem?_grid hg hc, getElem?_table hlen hg ho, ?_⟩
    rw [nibble_wordOf (fun n hn => ?_) (mod_packFactor_lt o), Nat.div_add_mod' o packFactor]
    · have hmem := List.mem_of_getElem? (getElem?_table hlen hg ho)
      have hone := (hz _ hmem).1
      rw [hsub _ hmem]
      omega
    · have hmem := List.mem_of_getElem? (hget g hg _ hc n hn)
      have hle := (hz _ hmem).2
      rw [hsub _ hmem]
      omega

/-! ## The decoded weights -/

theorem unpacked {t : Tensor Int32} {shape : List ℕ} (ht : t.shape = shape) (f : ℕ → ℚ → ℚ) :
    (∀ u ∈ (List.range 8).map fun i => (t.map unsigned).map (f i), u.shape = shape) ∧
      ∀ n < 8, ∃ u, ((List.range 8).map fun i => (t.map unsigned).map (f i))[n]? = some u ∧
        ∀ (k : ℕ) w, t.data[k]? = some w → u.data[k]? = some (f n (unsigned w)) := by
  constructor
  · intro u hu
    obtain ⟨i, -, rfl⟩ := List.mem_map.mp hu
    exact ht
  · intro n hn
    refine ⟨(t.map unsigned).map (f n), ?_, fun k w hw => ?_⟩
    · rw [List.getElem?_map, List.getElem?_range hn, Option.map_some]
    · simp only [Tensor.map, List.getElem?_map, hw, Option.map_some]

variable {T : TensorOps} {qweight qzeros : Tensor Int32} {scales : Tensor ℚ} {gIdx : Tensor UInt32}
  {groups : ℕ}

/-- The decoder finds the nibbles. -/
theorem dequantizeGptqImpl_ok (hT : T.Lawful) (hw : qweight.shape = [rows, cols * 8])
    (hz : qzeros.shape = [groups, cols]) (hs : scales.shape = [groups, cols * 8])
    (hg : gIdx.shape = [rows * 8]) (hin : ∀ g ∈ gIdx.data, g.toNat < groups) :
    ∃ r, dequantizeGptqImpl T qweight qzeros scales gIdx 4 = .ok r ∧
      r.shape = [cols * 8, rows * 8] ∧
      ∀ i < rows * 8, ∀ o < cols * 8, ∀ w g z s, qweight.data[i / 8 * (cols * 8) + o]? = some w →
        gIdx.data[i]? = some g → qzeros.data[g.toNat * cols + o / 8]? = some z →
        scales.data[g.toNat * (cols * 8) + o]? = some s →
        r.data[o * (rows * 8) + i]? =
          some ((nibble w (i % 8) - (nibble z (o % 8) + 1)) * s) := by
  obtain ⟨hwshape, hwdata⟩ := unpacked hw unpackNibble
  obtain ⟨wStacked, hwStack, hwStackShape, hwStackData⟩ :=
    hT.stack_ok 1 (by simp) hwshape
  obtain ⟨wRaw, hwRaw, hwRawShape, hwRawData⟩ :=
    hT.reshape_ok [rows * 8, cols * 8] (show _ = wStacked.shape.prod by
      rw [hwStackShape]
      simp [Nat.mul_assoc])
  obtain ⟨hzshape, hzdata⟩ := unpacked hz fun i z => unpackNibble i z + 1
  obtain ⟨zStacked, hzStack, hzStackShape, hzStackData⟩ :=
    hT.stack_ok 2 (by simp) hzshape
  obtain ⟨zRaw, hzRaw, hzRawShape, hzRawData⟩ :=
    hT.reshape_ok [groups, cols * 8] (show _ = zStacked.shape.prod by
      rw [hzStackShape]
      simp)
  have hlen : gIdx.data.length = rows * 8 := by rw [gIdx.size_eq, hg, List.prod_singleton]
  obtain ⟨selScales, hsel, hselShape, hselData⟩ :=
    hT.indexSelect_ok hs (by rw [hg]; rfl) hin
  obtain ⟨selZeros, hselZ, hselZShape, hselZData⟩ :=
    hT.indexSelect_ok hzRawShape (by rw [hg]; rfl) hin
  obtain ⟨diff, hdiff, hdiffShape, hdiffData⟩ :=
    hT.zipWith_ok (t := wRaw) (u := selZeros) (· - ·) (by rw [hwRawShape, hselZShape, hlen])
  obtain ⟨prod, hprod, hprodShape, hprodData⟩ :=
    hT.zipWith_ok (t := diff) (u := selScales) (· * ·)
      (by rw [hdiffShape, hwRawShape, hselShape, hlen])
  obtain ⟨r, hr, hrShape, hrData⟩ :=
    hT.transpose_ok (hprodShape.trans (hdiffShape.trans hwRawShape))
  refine ⟨r, ?_, hrShape, ?_⟩
  · simp only [dequantizeGptqImpl, dims2, dim0, hw, hz, hwStack, hwRaw, hzStack, hzRaw, hsel, hselZ,
      hdiff, hprod, bind, Except.bind, ne_eq, not_true_eq_false, if_false]
    exact hr
  · intro i hi o ho w g z s hwi hgi hzi hsi
    have hi8 : i / 8 < rows := div_packFactor_lt hi
    have ho8 : o / 8 < cols := div_packFactor_lt ho
    rw [hrData i o hi ho]
    refine hprodData _ _ _ (hdiffData _ _ _ ?_ ?_) ?_
    · -- weight `i` is nibble `i % 8` of the words of row `i / 8`
      obtain ⟨u, hu, hud⟩ := hwdata (i % 8) (Nat.mod_lt i (by decide))
      have hget := hwStackData (i / 8) (i % 8) o (by simpa using hi8) (by simpa using ho) u hu
      have hidx : i / 8 * (8 * (cols * 8)) + (i % 8 * (cols * 8) + o) = i * (cols * 8) + o := by
        rw [← Nat.add_assoc, ← Nat.mul_assoc, ← Nat.add_mul, Nat.div_add_mod' i 8]
      rw [hwRawData]
      simpa [hidx, hud _ w hwi, unpackNibble_eq] using hget
    · -- zero point `o` of the group is nibble `o % 8` of word `o / 8`
      obtain ⟨u, hu, hud⟩ := hzdata (o % 8) (Nat.mod_lt o (by decide))
      have hget := hzStackData (g.toNat * cols + o / 8) (o % 8) 0
        (by simpa using block_lt (hin g (List.mem_of_getElem? hgi)) ho8)
        (by simp) u hu
      have hidx : (g.toNat * cols + o / 8) * 8 + o % 8 = g.toNat * (cols * 8) + o := by
        rw [Nat.add_mul, Nat.add_assoc, Nat.div_add_mod' o 8, Nat.mul_assoc]
      rw [hselZData i o g ho hgi, hzRawData]
      simpa [hidx, hud _ z hzi, unpackNibble_eq] using hget
    · rw [hselData i o g ho hgi]
      exact hsi

/-- The entry of a decoded layer, from the nibbles of its words. -/
def Entry (layer : QuantizedGptqLayer) (i o : ℕ) (value : ℚ) : Prop :=
  ∃ w g z s, layer.qweight[i / packFactor * layer.outFeatures + o]? = some w ∧
    layer.gIdx[i]? = some g ∧
    layer.qzeros[g.toNat * (layer.outFeatures / packFactor) + o / packFactor]? = some z ∧
    layer.scales[g.toNat * layer.outFeatures + o]? = some s ∧
    value = (nibble w (i % packFactor) - (nibble z (o % packFactor) + 1)) * s

theorem dequantizeCpu_ok {layer : QuantizedGptqLayer} {value : ℕ → ℕ → ℚ}
    (h : ∀ o < layer.outFeatures, ∀ i < layer.inFeatures, Entry layer i o (value o i)) :
    dequantizeCpu layer = .ok (grid layer.outFeatures layer.inFeatures value) := by
  refine mapM_grid fun o ho i hi => ?_
  obtain ⟨w, g, z, s, hw, hg, hz, hs, hv⟩ := h o ho i hi
  simp only [Checked.index_of_eq hw, Checked.index_of_eq hg, Checked.index_of_eq hz,
    Checked.index_of_eq hs, bind, Except.bind, toNat_nibble _ (mod_packFactor_lt _), hv]
  rfl

/-- Packing and decoding give back the quantized values, whatever the groups of the inputs are, and
the runtime decodes what a bitwise decoder does. -/
theorem dequantize_packLayer (T : TensorOps) (hT : T.Lawful) (inFeatures outFeatures numGroups : ℕ)
    (hin : 8 ∣ inFeatures) (hout : 8 ∣ outFeatures) (q zeros : List UInt8) (scales : List ℚ)
    (gIdx : List UInt32) (hq : q.length = inFeatures * outFeatures) (hq15 : ∀ x ∈ q, x.toNat ≤ 15)
    (hzeros : zeros.length = numGroups * outFeatures)
    (hz16 : ∀ z ∈ zeros, 1 ≤ z.toNat ∧ z.toNat ≤ 16)
    (hscales : scales.length = numGroups * outFeatures) (hgIdx : gIdx.length = inFeatures)
    (hgroup : ∀ g ∈ gIdx, g.toNat < numGroups) :
    ∃ layer r, packLayer q zeros scales gIdx inFeatures outFeatures numGroups 4 = .ok layer ∧
      dequantizeGptq T layer = .ok r ∧ r.shape = [outFeatures, inFeatures] ∧
      (∀ i < inFeatures, ∀ o < outFeatures, ∃ x g z s, q[i * outFeatures + o]? = some x ∧
        gIdx[i]? = some g ∧ zeros[g.toNat * outFeatures + o]? = some z ∧
        scales[g.toNat * outFeatures + o]? = some s ∧
        r.data[o * inFeatures + i]? = some (((x.toNat : ℚ) - (z.toNat : ℚ)) * s)) ∧
      dequantizeCpu layer = .ok r.data := by
  obtain ⟨rows, rfl⟩ := exists_eq_mul_left_of_dvd hin
  obtain ⟨cols, rfl⟩ := exists_eq_mul_left_of_dvd hout
  obtain ⟨qweight, hpackq, hlenq, hgetq⟩ := packQweight_ok hq fun x hx =>
    Nat.lt_succ_of_le (hq15 x hx)
  obtain ⟨qzeros, hpackz, hlenz, hgetz⟩ := packQzeros_ok hzeros hz16
  change packQweight q (rows * 8) (cols * 8) = .ok qweight at hpackq
  change packQzeros zeros numGroups (cols * 8) = .ok qzeros at hpackz
  have hdiv : ∀ n, n * 8 / packFactor = n := fun n => Nat.mul_div_cancel n (by decide)
  obtain ⟨r, hr, hshape, hdata⟩ := dequantizeGptqImpl_ok hT
    (show (⟨[rows, cols * 8], qweight, by simpa using hlenq⟩ : Tensor Int32).shape = _ from rfl)
    (show (⟨[numGroups, cols], qzeros, by simpa using hlenz⟩ : Tensor Int32).shape = _ from rfl)
    (show (⟨[numGroups, cols * 8], scales, by simpa using hscales⟩ : Tensor ℚ).shape = _ from rfl)
    (show (⟨[rows * 8], gIdx, by simpa using hgIdx⟩ : Tensor UInt32).shape = _ from rfl) hgroup
  have hentry : ∀ i < rows * 8, ∀ o < cols * 8, ∃ w x g z zq s,
      qweight[i / 8 * (cols * 8) + o]? = some w ∧ q[i * (cols * 8) + o]? = some x ∧
      nibble w (i % 8) = x.toNat ∧ gIdx[i]? = some g ∧
      qzeros[g.toNat * cols + o / 8]? = some zq ∧ zeros[g.toNat * (cols * 8) + o]? = some z ∧
      nibble zq (o % 8) + 1 = z.toNat ∧ scales[g.toNat * (cols * 8) + o]? = some s := by
    intro i hi o ho
    obtain ⟨w, x, hw, hx, hwx⟩ := hgetq i hi o ho
    have hgi : i < gIdx.length := hgIdx ▸ hi
    have hg := hgroup _ (List.getElem_mem hgi)
    obtain ⟨zq, z, hzq, hz, hzz⟩ := hgetz _ hg o ho
    have hs : gIdx[i].toNat * (cols * 8) + o < scales.length := hscales ▸ block_lt hg ho
    exact ⟨w, x, gIdx[i], z, zq, scales[gIdx[i].toNat * (cols * 8) + o], hw, hx, hwx,
      List.getElem?_eq_getElem hgi, hzq, hz, hzz, List.getElem?_eq_getElem hs⟩
  refine ⟨⟨qweight, qzeros, scales, gIdx, rows * 8, cols * 8, numGroups, 4⟩, r, ?_, ?_, hshape,
    fun i hi o ho => ?_, ?_⟩
  · simp only [packLayer, hpackq, hpackz, bind, Except.bind]
    rfl
  · rw [dequantizeGptq]
    dsimp only
    rw [hdiv, hdiv, Tensor.fromVec_ok (by simpa using hlenq),
      Tensor.fromVec_ok (by simpa using hlenz), Tensor.fromVec_ok (by simpa using hscales),
      Tensor.fromVec_ok (by simpa using hgIdx)]
    exact hr
  · obtain ⟨w, x, g, z, zq, s, hw, hx, hwx, hg, hzq, hz, hzz, hs⟩ := hentry i hi o ho
    refine ⟨x, g, z, s, hx, hg, hz, hs, ?_⟩
    rw [hdata i hi o ho w g zq s hw hg hzq hs, hwx, ← hzz]
    push_cast
    rfl
  · have hlen : r.data.length = cols * 8 * (rows * 8) := by
      rw [r.size_eq, hshape, List.prod_pair]
    have hvalue : ∀ o < cols * 8, ∀ i < rows * 8,
        Entry ⟨qweight, qzeros, scales, gIdx, rows * 8, cols * 8, numGroups, 4⟩ i o
          (r.data.getD (o * (rows * 8) + i) 0) ∧
        r.data[o * (rows * 8) + i]? = some (r.data.getD (o * (rows * 8) + i) 0) := by
      intro o ho i hi
      obtain ⟨w, x, g, z, zq, s, hw, -, -, hg, hzq, -, -, hs⟩ := hentry i hi o ho
      have hv := hdata i hi o ho w g zq s hw hg hzq hs
      rw [List.getD_eq_getElem?_getD, hv, Option.getD_some]
      refine ⟨⟨w, g, zq, s, hw, hg, ?_, hs, rfl⟩, rfl⟩
      dsimp only
      rwa [hdiv]
    rw [eq_grid hlen fun o ho i hi => (hvalue o ho i hi).2]
    exact dequantizeCpu_ok fun o ho i hi => (hvalue o ho i hi).1

/-- Every value of a weight, in two groups out of order. -/
theorem dequantize_packLayer_small :
    let q := (List.range 64).map fun k => UInt8.ofNat (k % 16)
    let zeros := (List.range 16).map fun k => UInt8.ofNat (k + 1)
    let scales := List.replicate 16 (1 / 2 : ℚ)
    let gIdx : List UInt32 := [1, 0, 0, 1, 1, 0, 1, 0]
    ∃ layer r, packLayer q zeros scales gIdx 8 8 2 4 = .ok layer ∧
      dequantizeGptq .rowMajor layer = .ok r ∧ r.shape = [8, 8] ∧
      (∀ i < 8, ∀ o < 8, ∃ x g z s, q[i * 8 + o]? = some x ∧ gIdx[i]? = some g ∧
        zeros[g.toNat * 8 + o]? = some z ∧ scales[g.toNat * 8 + o]? = some s ∧
        r.data[o * 8 + i]? = some (((x.toNat : ℚ) - (z.toNat : ℚ)) * s)) ∧
      dequantizeCpu layer = .ok r.data :=
  dequantize_packLayer .rowMajor TensorOps.rowMajor_lawful 8 8 2 (by decide) (by decide) _ _ _ _
    (by decide) (List.forall_mem_map.mpr (by decide)) (by decide)
    (List.forall_mem_map.mpr (by decide)) (by decide) (by decide) (by simp)

end Gptq

end Rllm
