import Rllm.Kernels.Layout
import Rllm.Library.Loops
import Rllm.Library.SlotStore
import Rllm.Model.Layers

/-! # Caches on a device

The cache of a layer lies in the memory of a device, keys and values apart. A thread for
each number of the new rows stores it, in the cell that the slot of its token names. The
threads run in any order.
-/

namespace Rllm

/-- How a cache stores numbers, and how the attention loads them. -/
structure CacheFormat (K C : Type) where
  storeKey : K → C
  storeValue : K → C
  loadKey : C → K
  loadValue : C → K

/-- The cache of a layer. -/
structure DeviceCache (K C : Type) where
  format : CacheFormat K C
  key : ℕ → C
  value : ℕ → C

/-- What the operation of a layer is given beside its tensors. -/
structure PagedAttentionOp (K : Type) where
  numBlocks : ℕ
  blockSize : ℕ
  numQHeads : ℕ
  numKvHeads : ℕ
  headDim : ℕ
  numTokens : ℕ
  numSeqs : ℕ
  maxNumBlocksPerSeq : ℕ
  scale : K
  isPrefill : Bool
  slotMapping : List ℤ
  blockTablesFlat : List ℤ
  seqLens : List ℤ
  queryStartLoc : List ℤ

abbrev PagedAttentionOp.Kv {K : Type} (op : PagedAttentionOp K) : Type :=
  KvRow K op.numKvHeads op.headDim op.headDim

/-- The metadata on a device. -/
structure DeviceMetadata where
  slotMapping : ℕ → ℤ
  blockTables : ℕ → ℤ
  seqLens : ℕ → ℤ
  queryStartLoc : ℕ → ℤ

/-- Copy the metadata to a device, where other memory lies behind them. -/
def PagedAttentionOp.upload {K : Type} (op : PagedAttentionOp K) (beyond : DeviceMetadata) :
    DeviceMetadata where
  slotMapping i := op.slotMapping.getD i (beyond.slotMapping i)
  blockTables i := op.blockTablesFlat.getD i (beyond.blockTables i)
  seqLens i := op.seqLens.getD i (beyond.seqLens i)
  queryStartLoc i := op.queryStartLoc.getD i (beyond.queryStartLoc i)

attribute [ext] KvRow

variable {K C : Type}

/-- Rows of heads, one after another, and the memory behind them. -/
def tokenMajor {heads dim : ℕ} (beyond : ℕ → K) (rows : List (Fin heads → Fin dim → K))
    (idx : ℕ) : K :=
  match rows[idx / (heads * dim)]? with
  | none => beyond idx
  | some row =>
    if h : idx % (heads * dim) / dim < heads ∧ idx % dim < dim then row ⟨_, h.1⟩ ⟨_, h.2⟩
    else beyond idx

theorem tokenMajor_apply {heads dim t : ℕ} (beyond : ℕ → K) {rows : List (Fin heads → Fin dim → K)}
    {row : Fin heads → Fin dim → K} (hrow : rows[t]? = some row) (h : Fin heads) (d : Fin dim) :
    tokenMajor beyond rows ((t * heads + h) * dim + d) = row h d := by
  have hpos : 0 < heads * dim := Nat.mul_pos h.pos d.pos
  have hlt : (h : ℕ) * dim + d < heads * dim := block_lt h.isLt d.isLt
  have hidx : (t * heads + h) * dim + d = t * (heads * dim) + (h * dim + d) := by ring
  have hdiv : (t * (heads * dim) + (h * dim + d)) / (heads * dim) = t := block_div hlt
  have hmod : (t * (heads * dim) + (h * dim + d)) % (heads * dim) = h * dim + d :=
    block_mod hlt
  have hd : ((t * heads + h) * dim + d) % dim = d := block_mod d.isLt
  have hh : ((h : ℕ) * dim + d) / dim = h := block_div d.isLt
  rw [tokenMajor]
  simp only [hd]
  simp only [hidx, hdiv, hmod, hh, hrow, h.isLt, d.isLt, and_self, ↓reduceDIte, Fin.eta]

/-! ## Rows -/

namespace DeviceCache

/-- The keys and values of a slot, as they are loaded. -/
def rowAt (cache : DeviceCache K C) (blockSize numKvHeads headDim slot : ℕ) :
    KvRow K numKvHeads headDim headDim where
  key h d := cache.format.loadKey (cache.key (KvLayout.legacy.offset (slot / blockSize)
    (slot % blockSize) h d blockSize numKvHeads headDim))
  value h d := cache.format.loadValue (cache.value (KvLayout.legacy.offset (slot / blockSize)
    (slot % blockSize) h d blockSize numKvHeads headDim))

end DeviceCache

/-- What is left of a row when it is stored. -/
def CacheFormat.round (format : CacheFormat K C) {numKvHeads headDim : ℕ}
    (row : KvRow K numKvHeads headDim headDim) : KvRow K numKvHeads headDim headDim where
  key h d := format.loadKey (format.storeKey (row.key h d))
  value h d := format.loadValue (format.storeValue (row.value h d))

/-! ## Writing -/

section Write

variable (op : PagedAttentionOp K) (dev : DeviceMetadata)

/-- Where a thread writes, and which number, if it does. -/
def writeTarget (idx : ℕ) : Option (ℕ × ℕ) :=
  let tokenIdx := idx / (op.numKvHeads * op.headDim)
  let remainder := idx % (op.numKvHeads * op.headDim)
  let kvHead := remainder / op.headDim
  let d := remainder % op.headDim
  let slot := dev.slotMapping tokenIdx
  -- a negative slot pads
  if slot < 0 then none
  else
    let blockId := slot.toNat / op.blockSize
    let blockOffset := slot.toNat % op.blockSize
    if op.numBlocks ≤ blockId then none
    else
      some (KvLayout.legacy.offset blockId blockOffset kvHead d op.blockSize op.numKvHeads
        op.headDim, (tokenIdx * op.numKvHeads + kvHead) * op.headDim + d)

/-- The threads of a launch, in some order. Those behind the last number do nothing. -/
def cacheWriteKernel (order : List ℕ) (newKey newValue : ℕ → K) (cache : DeviceCache K C) :
    DeviceCache K C :=
  order.foldl (fun cache idx =>
    if op.numTokens * op.numKvHeads * op.headDim ≤ idx then cache
    else
      match writeTarget op dev idx with
      | none => cache
      | some (dst, src) =>
        { cache with
          key := Function.update cache.key dst (cache.format.storeKey (newKey src))
          value := Function.update cache.value dst (cache.format.storeValue (newValue src)) }) cache

/-- The write of a thread, if it has one. -/
def threadWrite (idx : ℕ) : Option (ℕ × ℕ) :=
  if op.numTokens * op.numKvHeads * op.headDim ≤ idx then none else writeTarget op dev idx

variable {op dev} {order : List ℕ} {newKey newValue : ℕ → K} {cache : DeviceCache K C}

theorem cacheWriteKernel_eq :
    cacheWriteKernel op dev order newKey newValue cache =
      { cache with
        key := storeAll cache.key ((order.filterMap (threadWrite op dev)).map fun w =>
          (w.1, cache.format.storeKey (newKey w.2)))
        value := storeAll cache.value ((order.filterMap (threadWrite op dev)).map fun w =>
          (w.1, cache.format.storeValue (newValue w.2))) } := by
  induction order generalizing cache with
  | nil => rfl
  | cons idx order ih =>
    rw [cacheWriteKernel, List.foldl_cons, ← cacheWriteKernel, ih, List.filterMap_cons, threadWrite]
    split
    · rfl
    · cases writeTarget op dev idx <;> rfl

/-- Every token has a slot of its own in the cache. -/
structure PagedAttentionOp.SlotsFit (op : PagedAttentionOp K) (slots : List ℕ) : Prop where
  blockSize_pos : 0 < op.blockSize
  mapping : op.slotMapping = slots.map Int.ofNat
  tokens : op.numTokens = slots.length
  inside : ∀ slot ∈ slots, slot / op.blockSize < op.numBlocks
  nodup : slots.Nodup

variable {slots : List ℕ} {beyond : DeviceMetadata}

theorem threadWrite_eq (hfit : op.SlotsFit slots) {t slot h d : ℕ} (hslot : slots[t]? = some slot)
    (hh : h < op.numKvHeads) (hd : d < op.headDim) :
    threadWrite op (op.upload beyond) ((t * op.numKvHeads + h) * op.headDim + d) =
      some (KvLayout.legacy.offset (slot / op.blockSize) (slot % op.blockSize) h d op.blockSize
        op.numKvHeads op.headDim, (t * op.numKvHeads + h) * op.headDim + d) := by
  have ht : t < op.numTokens := hfit.tokens ▸ (List.getElem?_eq_some_iff.mp hslot).1
  have hlt : h * op.headDim + d < op.numKvHeads * op.headDim := block_lt hh hd
  have hidx : (t * op.numKvHeads + h) * op.headDim + d =
      t * (op.numKvHeads * op.headDim) + (h * op.headDim + d) := by ring
  have hsmall : ¬ op.numTokens * op.numKvHeads * op.headDim ≤
      (t * op.numKvHeads + h) * op.headDim + d :=
    Nat.not_le.mpr (block_lt (block_lt ht hh) hd)
  have hmap : (op.upload beyond).slotMapping t = slot := by
    change op.slotMapping.getD t _ = _
    rw [hfit.mapping, List.getD_eq_getElem?_getD, List.getElem?_map, hslot]
    rfl
  rw [threadWrite, if_neg hsmall, writeTarget]
  simp only [hidx, block_div hlt, block_mod hlt, block_div hd, block_mod hd, hmap]
  rw [if_neg (Int.not_lt.mpr (Int.natCast_nonneg slot)), Int.toNat_natCast,
    if_neg (Nat.not_le.mpr (hfit.inside slot (List.mem_of_getElem? hslot)))]

theorem exists_thread {n idx : ℕ} (h : idx < n * op.numKvHeads * op.headDim) :
    ∃ t < n, ∃ h < op.numKvHeads, ∃ d < op.headDim,
      idx = (t * op.numKvHeads + h) * op.headDim + d := by
  have hd : 0 < op.headDim := Nat.pos_of_mul_pos_left (Nat.zero_lt_of_lt h)
  have hrow : idx / op.headDim < n * op.numKvHeads := (Nat.div_lt_iff_lt_mul hd).mpr h
  have hh : 0 < op.numKvHeads := Nat.pos_of_mul_pos_left (Nat.zero_lt_of_lt hrow)
  refine ⟨idx / op.headDim / op.numKvHeads, (Nat.div_lt_iff_lt_mul hh).mpr hrow,
    idx / op.headDim % op.numKvHeads, Nat.mod_lt _ hh, idx % op.headDim, Nat.mod_lt _ hd, ?_⟩
  rw [Nat.div_add_mod', Nat.div_add_mod']

theorem exists_of_threadWrite (hfit : op.SlotsFit slots) {idx : ℕ} {w : ℕ × ℕ}
    (hw : threadWrite op (op.upload beyond) idx = some w) :
    ∃ t slot, slots[t]? = some slot ∧ ∃ h < op.numKvHeads, ∃ d < op.headDim,
      idx = (t * op.numKvHeads + h) * op.headDim + d ∧
      w.1 = KvLayout.legacy.offset (slot / op.blockSize) (slot % op.blockSize) h d op.blockSize
        op.numKvHeads op.headDim := by
  have hidx : idx < op.numTokens * op.numKvHeads * op.headDim := by
    by_contra hge
    rw [threadWrite, if_pos (Nat.not_lt.mp hge)] at hw
    cases hw
  obtain ⟨t, ht, h, hh, d, hd, rfl⟩ := exists_thread hidx
  rw [hfit.tokens] at ht
  have hslot : slots[t]? = some slots[t] := List.getElem?_eq_getElem ht
  rw [threadWrite_eq hfit hslot hh hd] at hw
  exact ⟨t, _, hslot, h, hh, d, hd, rfl, (congrArg Prod.fst (Option.some.inj hw)).symm⟩

theorem slot_eq_of_offset {blockSize numKvHeads headDim slot slot' h d h' d' : ℕ}
    (hbs : 0 < blockSize) (hh : h < numKvHeads) (hd : d < headDim) (hh' : h' < numKvHeads)
    (hd' : d' < headDim)
    (heq : KvLayout.legacy.offset (slot / blockSize) (slot % blockSize) h d blockSize numKvHeads
        headDim =
      KvLayout.legacy.offset (slot' / blockSize) (slot' % blockSize) h' d' blockSize numKvHeads
        headDim) : slot = slot' ∧ h = h' ∧ d = d' := by
  obtain ⟨hdiv, hmod, hhead, hdim⟩ := KvLayout.offset_inj (Nat.mod_lt _ hbs) hh hd
    (Nat.mod_lt _ hbs) hh' hd' heq
  exact ⟨by rw [← Nat.div_add_mod slot blockSize, hdiv, hmod, Nat.div_add_mod], hhead, hdim⟩

theorem nodup_threadWrites (hfit : op.SlotsFit slots)
    (horder : order.Perm (List.range (op.numTokens * op.numKvHeads * op.headDim))) :
    ((order.filterMap (threadWrite op (op.upload beyond))).map Prod.fst).Nodup := by
  rw [List.map_filterMap]
  refine (horder.nodup_iff.mpr List.nodup_range).filterMap fun a a' dst ha ha' => ?_
  obtain ⟨w, hw, rfl⟩ := Option.map_eq_some_iff.mp ha
  obtain ⟨w', hw', heq⟩ := Option.map_eq_some_iff.mp ha'
  obtain ⟨t, slot, hslot, h, hh, d, hd, rfl, hdst⟩ := exists_of_threadWrite hfit hw
  obtain ⟨t', slot', hslot', h', hh', d', hd', rfl, hdst'⟩ := exists_of_threadWrite hfit hw'
  rw [hdst, hdst'] at heq
  obtain ⟨rfl, rfl, rfl⟩ := slot_eq_of_offset hfit.blockSize_pos hh' hd' hh hd heq
  obtain ⟨ht, rfl⟩ := List.getElem?_eq_some_iff.mp hslot
  rw [(List.getElem?_inj ht hfit.nodup).mp (hslot.trans hslot'.symm)]

variable (beyond) in
theorem storeAll_threadWrites {A : Type} (hfit : op.SlotsFit slots)
    (horder : order.Perm (List.range (op.numTokens * op.numKvHeads * op.headDim)))
    (old new : ℕ → A) (slot : ℕ) {h d : ℕ} (hh : h < op.numKvHeads) (hd : d < op.headDim) :
    storeAll old ((order.filterMap (threadWrite op (op.upload beyond))).map fun w =>
        (w.1, new w.2))
      (KvLayout.legacy.offset (slot / op.blockSize) (slot % op.blockSize) h d op.blockSize
        op.numKvHeads op.headDim) =
      storeAll (fun slot => old (KvLayout.legacy.offset (slot / op.blockSize)
          (slot % op.blockSize) h d op.blockSize op.numKvHeads op.headDim))
        (slots.mapIdx fun t slot => (slot, new ((t * op.numKvHeads + h) * op.headDim + d)))
        slot := by
  have hfst : (slots.mapIdx fun t slot =>
      (slot, new ((t * op.numKvHeads + h) * op.headDim + d))).map Prod.fst = slots :=
    List.ext_getElem (by simp) (by simp)
  have hslots : ((slots.mapIdx fun t slot =>
      (slot, new ((t * op.numKvHeads + h) * op.headDim + d))).map Prod.fst).Nodup := by
    rw [hfst]
    exact hfit.nodup
  by_cases hmem : slot ∈ slots
  · obtain ⟨t, ht, rfl⟩ := List.mem_iff_getElem.mp hmem
    have hslot : slots[t]? = some slots[t] := List.getElem?_eq_getElem ht
    rw [storeAll_of_mem hslots (List.mem_mapIdx.mpr ⟨t, ht, rfl⟩)]
    refine storeAll_of_mem ?_ (List.mem_map.mpr ⟨_, List.mem_filterMap.mpr
      ⟨_, horder.mem_iff.mpr (List.mem_range.mpr ?_), threadWrite_eq hfit hslot hh hd⟩, rfl⟩)
    · rw [List.map_map]
      exact nodup_threadWrites hfit horder
    · exact block_lt (block_lt (hfit.tokens ▸ ht) hh) hd
  · have hout : slot ∉ (slots.mapIdx fun t slot =>
        (slot, new ((t * op.numKvHeads + h) * op.headDim + d))).map Prod.fst := by
      rwa [hfst]
    rw [storeAll_of_notMem hout]
    refine storeAll_of_notMem ?_
    rw [List.map_map]
    intro hcell
    obtain ⟨w, hw, heq⟩ := List.mem_map.mp hcell
    obtain ⟨idx, -, hidx⟩ := List.mem_filterMap.mp hw
    obtain ⟨t, slot', hslot, h', hh', d', hd', -, hdst⟩ := exists_of_threadWrite hfit hidx
    rw [Function.comp_apply, hdst] at heq
    obtain ⟨rfl, -, -⟩ := slot_eq_of_offset hfit.blockSize_pos hh' hd' hh hd heq
    exact hmem (List.mem_of_getElem? hslot)

/-- In whatever order the threads run, they put the rows into the slots of their tokens. -/
theorem rowAt_cacheWriteKernel (hfit : op.SlotsFit slots)
    (horder : order.Perm (List.range (op.numTokens * op.numKvHeads * op.headDim)))
    {rows : List (op.Kv)} (hrows : rows.length = slots.length)
    (behind : ℕ → K) :
    (cacheWriteKernel op (op.upload beyond) order (tokenMajor behind (rows.map KvRow.key))
        (tokenMajor behind (rows.map KvRow.value)) cache).rowAt op.blockSize op.numKvHeads
          op.headDim =
      storeAll (cache.rowAt op.blockSize op.numKvHeads op.headDim)
        (slots.zip (rows.map cache.format.round)) := by
  have hcell : ∀ (f g : op.Kv → K) (load : C → K) (store : K → C) (old : ℕ → C)
      (newRows : ℕ → K) (slot : ℕ) (h : Fin op.numKvHeads) (d : Fin op.headDim),
      (∀ row, g (cache.format.round row) = load (store (f row))) →
      (∀ t row, rows[t]? = some row →
        newRows ((t * op.numKvHeads + h) * op.headDim + d) = f row) →
      load (storeAll old ((order.filterMap (threadWrite op (op.upload beyond))).map fun w =>
          (w.1, store (newRows w.2))) (KvLayout.legacy.offset (slot / op.blockSize)
            (slot % op.blockSize) h d op.blockSize op.numKvHeads op.headDim)) =
        storeAll (fun slot => load (old (KvLayout.legacy.offset (slot / op.blockSize)
            (slot % op.blockSize) h d op.blockSize op.numKvHeads op.headDim)))
          ((slots.zip (rows.map cache.format.round)).map fun w => (w.1, g w.2)) slot := by
    intro f g load store old newRows slot h d hround hnew
    rw [storeAll_threadWrites beyond hfit horder old (fun src => store (newRows src)) slot h.isLt
      d.isLt, apply_storeAll load]
    refine congrArg (fun writes => storeAll _ writes slot) ?_
    refine List.ext_getElem (by simp [hrows]) fun t ht ht' => ?_
    rw [List.length_map, List.length_mapIdx] at ht
    rw [List.getElem_map, List.getElem_map, List.getElem_mapIdx, List.getElem_zip,
      List.getElem_map, hround, hnew t _ (List.getElem?_eq_getElem (hrows ▸ ht))]
  have hrow : ∀ {t : ℕ} {row}, rows[t]? = some row → ∀ f : op.Kv →
      Fin op.numKvHeads → Fin op.headDim → K, (rows.map f)[t]? = some (f row) := by
    intro t row hrow f
    rw [List.getElem?_map, hrow, Option.map_some]
  rw [cacheWriteKernel_eq]
  ext slot h d
  · refine Eq.trans ?_ (apply_storeAll
      fun row : op.Kv => row.key h d).symm
    exact hcell (·.key h d) (·.key h d) _ _ _ _ _ _ _ (fun _ => rfl) fun t row hr =>
      tokenMajor_apply behind (hrow hr KvRow.key) h d
  · refine Eq.trans ?_ (apply_storeAll
      fun row : op.Kv => row.value h d).symm
    exact hcell (·.value h d) (·.value h d) _ _ _ _ _ _ _ (fun _ => rfl) fun t row hr =>
      tokenMajor_apply behind (hrow hr KvRow.value) h d

end Write

/-! ## Block tables in one piece -/

namespace AttentionMetadata

variable {md : AttentionMetadata}

/-- Copy a table to the place of its sequence, cut off at the greatest length. -/
def copyBlockTable (md : AttentionMetadata) (flat : List ℤ) (table : List ℤ × ℕ) :
    Option (List ℤ) :=
  let start := table.2 * md.maxNumBlocksPerSeq
  let len := min table.1.length md.maxNumBlocksPerSeq
  if start + len ≤ flat.length then
    some (flat.take start ++ table.1.take len ++ flat.drop (start + len))
  else none

/-- The block tables in one piece. There has to be a sequence for each of them. -/
def flattenBlockTables (md : AttentionMetadata) : Option (List ℤ) :=
  md.blockTables.zipIdx.foldlM md.copyBlockTable
    (List.replicate (md.seqLens.length * md.maxNumBlocksPerSeq) (-1))

/-- The first tables have been copied. -/
def Copied (md : AttentionMetadata) (k : ℕ) (flat : List ℤ) : Prop :=
  flat.length = md.seqLens.length * md.maxNumBlocksPerSeq ∧
    ∀ i < k, ∀ bt, md.blockTables[i]? = some bt → ∀ b < md.maxNumBlocksPerSeq,
      ∀ block, bt[b]? = some block → flat[i * md.maxNumBlocksPerSeq + b]? = some block

theorem Copied.copyBlockTable {k : ℕ} {flat bt : List ℤ} (h : md.Copied k flat)
    (hk : k < md.seqLens.length) (hbt : md.blockTables[k]? = some bt) :
    ∃ flat', md.copyBlockTable flat (bt, k) = some flat' ∧ md.Copied (k + 1) flat' := by
  obtain ⟨hlen, hdone⟩ := h
  have hfit : k * md.maxNumBlocksPerSeq + min bt.length md.maxNumBlocksPerSeq ≤ flat.length := by
    have hrow := Nat.mul_le_mul_right md.maxNumBlocksPerSeq hk
    rw [Nat.succ_mul] at hrow
    omega
  refine ⟨_, if_pos hfit, ?_, fun i hi bt' hbt' b hb block hblock => ?_⟩
  · simp only [List.length_append, List.length_take, List.length_drop]
    omega
  · dsimp only
    rw [List.append_assoc]
    rcases Nat.lt_succ_iff_lt_or_eq.mp hi with hlt | rfl
    · have hplace : i * md.maxNumBlocksPerSeq + b < k * md.maxNumBlocksPerSeq := block_lt hlt hb
      rw [List.getElem?_append_left (by rw [List.length_take]; omega),
        List.getElem?_take_of_lt hplace]
      exact hdone i hlt bt' hbt' b hb block hblock
    · obtain rfl : bt = bt' := Option.some.inj (hbt.symm.trans hbt')
      have hlong : b < bt.length := (List.getElem?_eq_some_iff.mp hblock).1
      have htake : (flat.take (i * md.maxNumBlocksPerSeq)).length = i * md.maxNumBlocksPerSeq := by
        rw [List.length_take]
        omega
      rw [List.getElem?_append_right (by omega), htake, Nat.add_sub_cancel_left,
        List.getElem?_append_left (by rw [List.length_take]; omega),
        List.getElem?_take_of_lt (by omega)]
      exact hblock

theorem flattenBlockTables_ok (h : md.blockTables.length ≤ md.seqLens.length) :
    ∃ flat, md.flattenBlockTables = some flat ∧ md.Copied md.blockTables.length flat :=
  foldlM_zipIdx_inv (m := Option) md.Copied
    ⟨List.length_replicate, fun i hi => absurd hi (Nat.not_lt_zero i)⟩ fun _ _ hbt _ hcopied =>
      hcopied.copyBlockTable ((List.getElem?_eq_some_iff.mp hbt).1.trans_le h) hbt

end AttentionMetadata

end Rllm
