import Mathlib.Analysis.SpecialFunctions.Exp
import Mathlib.Analysis.SpecialFunctions.Sqrt
import Mathlib.Tactic.Linarith
import Mathlib.Tactic.LinearCombination
import Mathlib.Tactic.Positivity
import Rllm.Kernels.DeviceCache
import Rllm.Library.Loops
import Rllm.Library.TreeReduction

/-! # Paged attention on a device

One block of threads computes one head of one token, a thread for each dimension of the
head. The threads add up the products of a query and a key in shared memory, and each
of them keeps an average of its own dimension of the values. The kernels for the element
types of a cache differ in how they load an element.
-/

namespace Rllm

variable {K : Type}

/-! ## A block of threads -/

/-- How the threads of a block run. No barrier stands between the read of a sum and the
next product of the first thread, so that another thread may read late. -/
structure BlockSchedule (headDim : ℕ) where
  /-- A block has at most so many threads. -/
  fits : headDim ≤ 1024
  /-- The order of the threads, by position and stride. -/
  order : ℕ → ℕ → List ℕ
  complete : ∀ j, TreeReduction.Complete headDim (order j)
  /-- Whether a thread reads the sum of a position late. -/
  late : ℕ → ℕ → Bool
  late_zero : ∀ j, late j 0 = false

/-- All threads in order, and none late. -/
def BlockSchedule.inOrder {headDim : ℕ} (fits : headDim ≤ 1024) : BlockSchedule headDim where
  fits
  order _ _ := List.range headDim
  complete _ _ := .refl _
  late _ _ := false
  late_zero _ := rfl

section Block

variable [Field K] {headDim : ℕ} (sched : BlockSchedule headDim) (scale : K) (query : ℕ → K)

/-- The logit that a thread reads for a position. -/
def threadLogit (keys : List (ℕ → K)) (tid j : ℕ) (key : ℕ → K) : K :=
  match sched.late j tid, keys[j + 1]? with
  | true, some next => query 0 * next 0 * scale
  | _, _ =>
    TreeReduction.reduce (sched.order j) headDim ((headDim + 1) / 2) (fun d => query d * key d) 0 *
      scale

variable {sched scale query} {keys : List (ℕ → K)} {tid j : ℕ} {key : ℕ → K}

theorem threadLogit_inTime (hlate : sched.late j tid = false) :
    threadLogit sched scale query keys tid j key =
      TreeReduction.reduce (sched.order j) headDim ((headDim + 1) / 2)
        (fun d => query d * key d) 0 * scale := by
  rw [threadLogit, hlate]

theorem threadLogit_eq (hlate : sched.late j tid = false) (hpow : ∃ k, (headDim + 1) / 2 = 2 ^ k)
    (hdim : headDim ≠ 0) :
    threadLogit sched scale query keys tid j key =
      (∑ i : Fin headDim, query i * key i) * scale := by
  rw [threadLogit_inTime hlate, TreeReduction.reduce_eq_sum (sched.complete j) hdim hpow,
    Finset.sum_range]

theorem threadLogit_of_head (hkey : ∀ d, d ≠ 0 → key d = 0) :
    threadLogit sched scale query keys tid j key =
      (if sched.late j tid then (keys[j + 1]?.getD key) 0 else key 0) * query 0 * scale := by
  have hsum : TreeReduction.reduce (sched.order j) headDim ((headDim + 1) / 2)
      (fun d => query d * key d) 0 = query 0 * key 0 :=
    TreeReduction.reduce_of_head (sched.complete j) fun d hd => by
      simp only [hkey d hd, mul_zero]
  unfold threadLogit
  rw [hsum]
  cases sched.late j tid <;> cases keys[j + 1]? <;> simp [mul_comm (query 0)]

variable [LinearOrder K]

variable (sched scale query) in
/-- What a thread computes from the rows of keys and values that the block visits. -/
def threadOutput (E : Elementary K) (rows : List ((ℕ → K) × (ℕ → K))) (tid : ℕ) : K :=
  (Softmax.Online.run E.exp (rows.mapIdx fun j row =>
    (((threadLogit sched scale query (rows.map Prod.fst) tid j row.1 : K) : WithBot K),
      row.2 tid))).result

variable {E : Elementary K} {rows : List ((ℕ → K) × (ℕ → K))}

/-- The rows of a block for the dimensions of its head. -/
def headRows (headDim : ℕ) (rows : List ((ℕ → K) × (ℕ → K))) :
    List ((Fin headDim → K) × (Fin headDim → K)) :=
  rows.map fun row => (fun i => row.1 i, fun i => row.2 i)

theorem attendHead_headRows (hexp : Softmax.IsExp E.exp) (d : Fin headDim) :
    attendHead scale (fun i : Fin headDim => query i) E (headRows headDim rows) (fun _ => 0) d =
      (rows.map fun row =>
        row.2 d * E.exp ((∑ i : Fin headDim, query i * row.1 i) * scale)).sum /
        (rows.map fun row => E.exp ((∑ i : Fin headDim, query i * row.1 i) * scale)).sum := by
  have h := Softmax.average_coe hexp (rows.map fun row =>
    ((∑ i : Fin headDim, query i * row.1 i) * scale, row.2 (d : ℕ)))
  rw [attendHead_eq_average, headRows, List.map_map]
  rw [List.map_map, List.map_map, List.map_map] at h
  exact h

variable [IsStrictOrderedRing K]

theorem threadOutput_of_logits (hexp : Softmax.IsExp E.exp) {logits : List (K × K)}
    (h : (rows.mapIdx fun j row =>
      (threadLogit sched scale query (rows.map Prod.fst) tid j row.1, row.2 tid)) = logits) :
    threadOutput sched scale query E rows tid =
      (logits.map fun row => row.2 * E.exp row.1).sum /
        (logits.map fun row => E.exp row.1).sum := by
  have hmap : (rows.mapIdx fun j row =>
      (((threadLogit sched scale query (rows.map Prod.fst) tid j row.1 : K) : WithBot K),
        row.2 tid)) = logits.map fun row => ((row.1 : WithBot K), row.2) := by
    subst h
    exact List.ext_getElem (by simp) (by simp)
  rw [threadOutput, hmap, Softmax.Online.result_run hexp, Softmax.average_coe hexp]

/-- A thread in time computes attention, if the reduction is complete. -/
theorem threadOutput_eq (hexp : Softmax.IsExp E.exp) (tid : Fin headDim)
    (hlate : ∀ j, sched.late j tid = false) (hpow : ∃ k, (headDim + 1) / 2 = 2 ^ k) :
    threadOutput sched scale query E rows tid =
      attendHead scale (fun i : Fin headDim => query i) E (headRows headDim rows) (fun _ => 0)
        tid := by
  have hdim : headDim ≠ 0 := fun h => (h ▸ tid).elim0
  have hlogits : (rows.mapIdx fun j row =>
      (threadLogit sched scale query (rows.map Prod.fst) tid j row.1, row.2 (tid : ℕ))) =
      rows.map fun row => ((∑ i : Fin headDim, query i * row.1 i) * scale, row.2 (tid : ℕ)) := by
    simp only [threadLogit_eq (hlate _) hpow hdim]
    exact List.ext_getElem (by simp) (by simp)
  rw [attendHead_headRows hexp, threadOutput_of_logits hexp hlogits, List.map_map, List.map_map]
  rfl

/-- A schedule on which no run of a block goes wrong. -/
def BlockSchedule.Sound (sched : BlockSchedule headDim) : Prop :=
  (∃ k, (headDim + 1) / 2 = 2 ^ k) ∧ ∀ j, ∀ tid : Fin headDim, sched.late j tid = false

omit [LinearOrder K] [IsStrictOrderedRing K] in
theorem sum_mul_single {i : ℕ} (hi : i < headDim) (y : K) :
    ∑ d : Fin headDim, y * (Pi.single i 1 : ℕ → K) d = y := by
  rw [Finset.sum_eq_single ⟨i, hi⟩ (fun d _ hd => ?_) fun h => absurd (Finset.mem_univ _) h]
  · simp
  · rw [Pi.single_eq_of_ne (fun h => hd (Fin.ext h)), mul_zero]

variable (sched) in
/-- Where the reduction loses an entry, a key in this dimension does not count. -/
theorem exists_threadOutput_ne_of_lost (hexp : Softmax.IsExp E.exp) {x : K} (hx : E.exp x ≠ 1)
    (hscale : scale ≠ 0) (hdim : headDim ≠ 0) (hpow : ¬ ∃ k, (headDim + 1) / 2 = 2 ^ k) :
    ∃ (query : ℕ → K) (rows : List ((ℕ → K) × (ℕ → K))) (tid : Fin headDim),
      threadOutput sched scale query E rows tid ≠
        attendHead scale (fun i : Fin headDim => query i) E (headRows headDim rows) (fun _ => 0)
          tid := by
  obtain ⟨i, -, hi, hlost⟩ := TreeReduction.exists_lost (K := K) (sched.complete 0) hdim hpow
  have hpos := Nat.pos_of_ne_zero hdim
  let query : ℕ → K := fun _ => x / scale
  let rows : List ((ℕ → K) × (ℕ → K)) := [(Pi.single i 1, fun _ => 1), (0, fun _ => 0)]
  have hfirst : threadLogit sched scale query (rows.map Prod.fst) 0 0 (Pi.single i 1) = 0 := by
    have hprod : (fun d => query d * (Pi.single i 1 : ℕ → K) d) = Pi.single i (x / scale) := by
      ext d
      rw [Pi.single_apply, Pi.single_apply, mul_ite, mul_one, mul_zero]
    rw [threadLogit_inTime (sched.late_zero 0), hprod, hlost, zero_mul]
  have hsecond : threadLogit sched scale query (rows.map Prod.fst) 0 1 0 = 0 := by
    have hzero : ∀ d, d ≠ 0 → (0 : ℕ → K) d = 0 := fun _ _ => rfl
    rw [threadLogit_of_head hzero, sched.late_zero]
    simp
  have hlogits : (rows.mapIdx fun j row =>
      (threadLogit sched scale query (rows.map Prod.fst) 0 j row.1, row.2 0)) =
      [(0, 1), (0, 0)] := by
    change [(threadLogit sched scale query (rows.map Prod.fst) 0 0 (Pi.single i 1), (1 : K)),
      (threadLogit sched scale query (rows.map Prod.fst) 0 1 0, 0)] = _
    rw [hfirst, hsecond]
  refine ⟨query, rows, ⟨0, hpos⟩, ?_⟩
  rw [threadOutput_of_logits hexp hlogits, attendHead_headRows hexp]
  have hsum : (∑ d : Fin headDim, query d * (Pi.single i 1 : ℕ → K) d) * scale = x := by
    rw [sum_mul_single hi, div_mul_cancel₀ _ hscale]
  simp only [rows, List.map_cons, List.map_nil, hsum, hexp.zero, Pi.zero_apply, mul_zero,
    Finset.sum_const_zero, zero_mul, one_mul, List.sum_cons, List.sum_nil, add_zero]
  intro h
  have hx' := hexp.pos x
  rw [div_eq_div_iff (by norm_num) (by positivity)] at h
  exact hx (by linarith)

/-- A thread that reads late weighs a position by the next one. -/
theorem exists_threadOutput_ne_of_late (hexp : Softmax.IsExp E.exp) {x : K} (hx : E.exp x ≠ 1)
    (hscale : scale ≠ 0) {tid : Fin headDim} (hlate : sched.late j tid = true) :
    ∃ (query : ℕ → K) (rows : List ((ℕ → K) × (ℕ → K))),
      threadOutput sched scale query E rows tid ≠
        attendHead scale (fun i : Fin headDim => query i) E (headRows headDim rows) (fun _ => 0)
          tid := by
  let query : ℕ → K := fun _ => x / scale
  let rows : List ((ℕ → K) × (ℕ → K)) :=
    List.replicate j (0, fun _ => 0) ++ [(0, fun _ => 1), (Pi.single 0 1, fun _ => 0)]
  have hkeys : rows.map Prod.fst = List.replicate (j + 1) 0 ++ [Pi.single 0 1] := by
    simp [rows, List.replicate_succ']
  have hzero : ∀ d, d ≠ 0 → (0 : ℕ → K) d = 0 := fun _ _ => rfl
  have hbefore : ∀ i < j, threadLogit sched scale query (rows.map Prod.fst) tid i 0 = 0 := by
    intro i hi
    rw [threadLogit_of_head hzero, hkeys, List.getElem?_append_left (by simpa using by omega),
      List.getElem?_replicate_of_lt (by omega)]
    simp
  have hlast : threadLogit sched scale query (rows.map Prod.fst) tid j 0 = x := by
    rw [threadLogit_of_head hzero, hkeys, hlate, List.getElem?_append_right (by simp)]
    simp [query, div_mul_cancel₀ _ hscale]
  have hnext : threadLogit sched scale query (rows.map Prod.fst) tid (j + 1) (Pi.single 0 1) =
      x := by
    rw [threadLogit_of_head fun d hd => Pi.single_eq_of_ne hd _, hkeys,
      List.getElem?_eq_none (by simp)]
    simp [query, div_mul_cancel₀ _ hscale]
  have hlogits : (rows.mapIdx fun i row =>
      (threadLogit sched scale query (rows.map Prod.fst) tid i row.1, row.2 (tid : ℕ))) =
      List.replicate j (0, 0) ++ [(x, 1), (x, 0)] := by
    generalize rows.map Prod.fst = keys at hbefore hlast hnext
    rw [List.mapIdx_append]
    refine congrArg₂ _ (List.eq_replicate_iff.mpr ⟨by simp, fun y hy => ?_⟩) ?_
    · obtain ⟨i, hi, rfl⟩ := List.mem_mapIdx.mp hy
      rw [List.getElem_replicate, hbefore i (by simpa using hi)]
    · simp only [List.length_replicate, List.mapIdx_cons, List.mapIdx_nil, Nat.zero_add,
        Nat.add_comm 1, hlast, hnext]
  refine ⟨query, rows, ?_⟩
  rw [threadOutput_of_logits hexp hlogits, attendHead_headRows hexp]
  have hsum : (∑ d : Fin headDim, query d * (Pi.single 0 1 : ℕ → K) d) * scale = x := by
    rw [sum_mul_single tid.pos, div_mul_cancel₀ _ hscale]
  simp only [rows, List.map_append, List.map_replicate, List.map_cons, List.map_nil, hsum,
    hexp.zero, Pi.zero_apply, mul_zero, Finset.sum_const_zero, zero_mul, one_mul, List.sum_append,
    List.sum_replicate, List.sum_cons, List.sum_nil, add_zero, zero_add, smul_zero, nsmul_eq_mul,
    mul_one]
  intro h
  have hx' := hexp.pos x
  have hj : (0 : K) ≤ j := Nat.cast_nonneg j
  rw [div_eq_div_iff (by positivity) (by positivity)] at h
  have hfactor : (E.exp x - 1) * (E.exp x + j) = 0 := by linear_combination h
  rcases mul_eq_zero.mp hfactor with h | h
  · exact hx (sub_eq_zero.mp h)
  · linarith

/-- Every run of a block computes attention exactly if the first stride is a power of two
and no thread reads late. -/
theorem threadOutput_iff (hexp : Softmax.IsExp E.exp) (hne : ∃ x, E.exp x ≠ 1)
    (hscale : scale ≠ 0) (hdim : headDim ≠ 0) :
    (∀ (query : ℕ → K) (rows : List ((ℕ → K) × (ℕ → K))) (tid : Fin headDim),
      threadOutput sched scale query E rows tid =
        attendHead scale (fun i : Fin headDim => query i) E (headRows headDim rows) (fun _ => 0)
          tid) ↔ sched.Sound := by
  obtain ⟨x, hx⟩ := hne
  constructor
  · intro h
    constructor
    · by_contra hpow
      obtain ⟨query, rows, tid, hne⟩ :=
        exists_threadOutput_ne_of_lost sched hexp hx hscale hdim hpow
      exact hne (h query rows tid)
    · intro j tid
      by_contra hlate
      rw [Bool.not_eq_false] at hlate
      obtain ⟨query, rows, hne⟩ := exists_threadOutput_ne_of_late hexp hx hscale hlate
      exact hne (h query rows tid)
  · rintro ⟨hpow, hlate⟩ query rows tid
    exact threadOutput_eq hexp tid (fun j => hlate j tid) hpow

theorem isExp_exp : Softmax.IsExp Real.exp := ⟨Real.exp_add, Real.exp_pos⟩

/-- Heads of 96 dimensions start with a stride of 48. -/
theorem not_threadOutput_eq : ¬ ∀ (query : ℕ → ℝ) (rows : List ((ℕ → ℝ) × (ℕ → ℝ)))
    (tid : Fin 96), threadOutput (.inOrder (by decide : 96 ≤ 1024)) 1 query
      ⟨Real.exp, Real.sqrt, id⟩ rows tid =
      attendHead 1 (fun i : Fin 96 => query i) ⟨Real.exp, Real.sqrt, id⟩ (headRows 96 rows)
        (fun _ => 0) tid := by
  intro h
  have hexp : ∃ x, Real.exp x ≠ 1 := ⟨1, (Real.one_lt_exp_iff.mpr one_pos).ne'⟩
  obtain ⟨⟨k, hk⟩, -⟩ := (threadOutput_iff isExp_exp hexp one_ne_zero (by decide)).mp h
  have hthree : 3 ∣ 2 ^ k := hk ▸ (by decide : 3 ∣ (96 + 1) / 2)
  exact absurd (Nat.prime_three.dvd_of_dvd_pow hthree) (by decide)

end Block

/-! ## Positions -/

/-- The blocks and slots that are visited for so many positions. Blocks that are not there
are passed over. -/
def visitedSlots (blockSize : ℕ) (table : ℕ → ℤ) (len : ℕ) : List (ℕ × ℕ) :=
  (List.range (divCeil len blockSize)).flatMap fun b =>
    let physicalBlock := table b
    if physicalBlock < 0 then []
    else
      let blockStart := b * blockSize
      let blockEnd := min (blockStart + blockSize) len
      (List.range (blockEnd - blockStart)).map fun blkOff => (physicalBlock.toNat, blkOff)

theorem flatMap_range_blocks {A : Type} {blockSize len : ℕ} (f : ℕ → ℕ → A)
    (hbs : 0 < blockSize) (n : ℕ) :
    ((List.range n).flatMap fun b =>
      (List.range (min (b * blockSize + blockSize) len - b * blockSize)).map (f b)) =
      (List.range (min (n * blockSize) len)).map fun p => f (p / blockSize) (p % blockSize) := by
  induction n with
  | zero => simp
  | succ n ih =>
    rw [List.range_succ, List.flatMap_append, ih, List.flatMap_singleton, Nat.succ_mul]
    rcases Nat.le_total len (n * blockSize) with h | h
    · rw [Nat.min_eq_right h, Nat.min_eq_right (by omega), Nat.sub_eq_zero_of_le h, List.range_zero,
        List.map_nil, List.append_nil]
    · have hsplit : min (n * blockSize + blockSize) len =
          n * blockSize + (min (n * blockSize + blockSize) len - n * blockSize) := by omega
      rw [Nat.min_eq_left h]
      conv_rhs => rw [hsplit, List.range_add, List.map_append, List.map_map]
      refine congrArg _ (List.map_congr_left fun off hoff => ?_)
      have hlt : off < blockSize := by
        rw [List.mem_range] at hoff
        omega
      rw [Function.comp_apply, block_div hlt, block_mod hlt]

theorem visitedSlots_eq {blockSize : ℕ} (hbs : 0 < blockSize) {table : ℕ → ℤ} {len : ℕ}
    (htable : ∀ b < divCeil len blockSize, 0 ≤ table b) :
    visitedSlots blockSize table len =
      (List.range len).map fun p => ((table (p / blockSize)).toNat, p % blockSize) := by
  have hlen : min (divCeil len blockSize * blockSize) len = len :=
    Nat.min_eq_right (le_divCeil_mul hbs)
  conv_rhs => rw [← hlen]
  rw [← flatMap_range_blocks (fun b off => ((table b).toNat, off)) hbs, visitedSlots]
  refine List.flatMap_congr fun b hb => ?_
  dsimp only
  rw [if_neg (Int.not_lt.mpr (htable b (List.mem_range.mp hb)))]

/-! ## The kernels -/

section Kernels

variable {C : Type} [Field K] [LinearOrder K] (E : Elementary K) (op : PagedAttentionOp K)
  (sched : ℕ → BlockSchedule op.headDim) (dev : DeviceMetadata) (query : ℕ → K)
  (cache : DeviceCache K C)

/-- What a thread of a block computes of a row of the query, over so many positions of a
sequence. -/
def attendThread (block row seqIdx qHead len tid : ℕ) : K :=
  let kvHead := qHead * op.numKvHeads / op.numQHeads
  let table := fun b => dev.blockTables (seqIdx * op.maxNumBlocksPerSeq + b)
  threadOutput (sched block) op.scale
    (fun d => query ((row * op.numQHeads + qHead) * op.headDim + d)) E
    ((visitedSlots op.blockSize table len).map fun (physicalBlock, blkOff) =>
      let idx := fun d => KvLayout.legacy.offset physicalBlock blkOff kvHead d op.blockSize
        op.numKvHeads op.headDim
      (fun d => cache.format.loadKey (cache.key (idx d)),
        fun d => cache.format.loadValue (cache.value (idx d)))) tid

/-- One token of every sequence. A thread may leave its output as it is. -/
def pagedAttentionDecode (block tid : ℕ) : Option K :=
  let seqIdx := block / op.numQHeads
  let qHead := block % op.numQHeads
  if op.numSeqs ≤ seqIdx then none
  else
    let seqLen := dev.seqLens seqIdx
    if seqLen = 0 ∨ op.headDim ≤ tid then none
    else some (attendThread E op sched dev query cache block seqIdx seqIdx qHead seqLen.toNat tid)

/-- The last sequence that starts no later than a token. -/
def seqOfToken (queryStartLoc : ℕ → ℤ) (numSeqs tokenIdx : ℕ) : ℕ :=
  ((List.range numSeqs).reverse.find? fun s => queryStartLoc s ≤ tokenIdx).getD 0

/-- Several tokens of every sequence, each of which sees what is not behind it. -/
def pagedAttentionPrefill (block tid : ℕ) : Option K :=
  let tokenIdx := block / op.numQHeads
  let qHead := block % op.numQHeads
  if op.numTokens ≤ tokenIdx ∨ op.headDim ≤ tid then none
  else
    let seqIdx := seqOfToken dev.queryStartLoc op.numSeqs tokenIdx
    let position := tokenIdx - dev.queryStartLoc seqIdx
    let queryLen := dev.queryStartLoc (seqIdx + 1) - dev.queryStartLoc seqIdx
    let prefixLen := dev.seqLens seqIdx - queryLen
    let causalLen := prefixLen + position + 1
    some (attendThread E op sched dev query cache block tokenIdx seqIdx qHead causalLen.toNat tid)

/-- The output of a launch, where memory that is not written keeps what it had. -/
def launchOutput (kernel : ℕ → ℕ → Option K) (grid headDim : ℕ) (memory : ℕ → K) (idx : ℕ) : K :=
  if idx / headDim < grid then (kernel (idx / headDim) (idx % headDim)).getD (memory idx)
  else memory idx

/-- The keys and values are written, then read for all rows of the query. -/
def PagedAttentionOp.forward (order : List ℕ) (memory : ℕ → K) (newKey newValue : ℕ → K) :
    (ℕ → K) × DeviceCache K C :=
  let cache := cacheWriteKernel op dev order newKey newValue cache
  let output :=
    if op.isPrefill then
      launchOutput (pagedAttentionPrefill E op sched dev query cache)
        (op.numTokens * op.numQHeads) op.headDim memory
    else
      launchOutput (pagedAttentionDecode E op sched dev query cache)
        (op.numSeqs * op.numQHeads) op.headDim memory
  (output, cache)

end Kernels

/-! ## What the kernels compute -/

/-- A sequence of a batch: its blocks, and how many tokens ran before and run now. -/
structure PagedSeq where
  blocks : List ℕ
  past : ℕ
  new : ℕ

/-- The slot of a position. -/
def PagedSeq.place (s : PagedSeq) (blockSize p : ℕ) : ℕ :=
  s.blocks.getD (p / blockSize) 0 * blockSize + p % blockSize

/-- The slots of the tokens that run now. -/
def PagedSeq.slots (s : PagedSeq) (blockSize : ℕ) : List ℕ :=
  (List.range' s.past s.new).map (s.place blockSize)

/-- The metadata of an operation belong to a list of sequences, whose tables are long
enough. -/
structure PagedAttentionOp.Describes (op : PagedAttentionOp K) (seqs : List PagedSeq) :
    Prop where
  slots : op.SlotsFit (seqs.flatMap (·.slots op.blockSize))
  numSeqs : op.numSeqs = seqs.length
  seqLens : op.seqLens = seqs.map fun s => ((s.past + s.new : ℕ) : ℤ)
  starts : ∀ i ≤ seqs.length, op.queryStartLoc[i]? = some (blockStart PagedSeq.new seqs i : ℤ)
  tables : ∀ i s, seqs[i]? = some s → ∀ b < divCeil (s.past + s.new) op.blockSize,
    ∃ block : ℕ, s.blocks[b]? = some block ∧
      op.blockTablesFlat[i * op.maxNumBlocksPerSeq + b]? = some (block : ℤ)

namespace PagedAttentionOp

variable {C : Type} {E : Elementary K} {op : PagedAttentionOp K} {seqs : List PagedSeq}
  {s : PagedSeq} {beyond : DeviceMetadata} {query : ℕ → K} {cache : DeviceCache K C}
  {i j qHead tid : ℕ}

theorem Describes.seqLens_upload (h : op.Describes seqs) (hs : seqs[i]? = some s) :
    (op.upload beyond).seqLens i = ((s.past + s.new : ℕ) : ℤ) := by
  change op.seqLens.getD i _ = _
  rw [h.seqLens, List.getD_eq_getElem?_getD, List.getElem?_map, hs]
  rfl

theorem Describes.starts_upload (h : op.Describes seqs) (hi : i ≤ seqs.length) :
    (op.upload beyond).queryStartLoc i = (blockStart PagedSeq.new seqs i : ℤ) := by
  change op.queryStartLoc.getD i _ = _
  rw [List.getD_eq_getElem?_getD, h.starts i hi]
  rfl

theorem Describes.tables_upload (h : op.Describes seqs) (hs : seqs[i]? = some s) {b : ℕ}
    (hb : b < divCeil (s.past + s.new) op.blockSize) :
    (op.upload beyond).blockTables (i * op.maxNumBlocksPerSeq + b) = (s.blocks.getD b 0 : ℤ) := by
  obtain ⟨block, hblock, hflat⟩ := h.tables i s hs b hb
  change op.blockTablesFlat.getD _ _ = _
  rw [List.getD_eq_getElem?_getD, hflat, List.getD_eq_getElem?_getD, hblock]
  rfl

theorem Describes.numTokens (h : op.Describes seqs) :
    op.numTokens = (seqs.map PagedSeq.new).sum := by
  rw [h.slots.tokens, List.length_flatMap]
  exact congrArg List.sum (List.map_congr_left fun s _ => by simp [PagedSeq.slots])

theorem Describes.token_lt (h : op.Describes seqs) (hs : seqs[i]? = some s) (hj : j < s.new) :
    blockStart PagedSeq.new seqs i + j < op.numTokens := by
  have hle : blockStart PagedSeq.new seqs (i + 1) ≤ _ := blockStart_le (i + 1)
  rw [blockStart_succ hs, ← h.numTokens] at hle
  omega

theorem find?_reverse_range {n i : ℕ} {p : ℕ → Bool} (hi : i < n) (hp : p i = true)
    (hlast : ∀ k < n, i < k → p k = false) : (List.range n).reverse.find? p = some i := by
  induction n with
  | zero => cases hi
  | succ n ih =>
    rw [List.range_succ, List.reverse_append, List.reverse_singleton, List.singleton_append,
      List.find?_cons]
    rcases Nat.lt_succ_iff_lt_or_eq.mp hi with hlt | rfl
    · rw [hlast n n.lt_succ_self hlt]
      exact ih hlt fun k hk => hlast k (Nat.lt_succ_of_lt hk)
    · rw [hp]

theorem Describes.seqOfToken (h : op.Describes seqs) (hs : seqs[i]? = some s) (hj : j < s.new) :
    seqOfToken (op.upload beyond).queryStartLoc op.numSeqs
      (blockStart PagedSeq.new seqs i + j) = i := by
  have hi : i < seqs.length := (List.getElem?_eq_some_iff.mp hs).1
  have hfind := find?_reverse_range (n := op.numSeqs)
    (p := fun s => (op.upload beyond).queryStartLoc s ≤
      ((blockStart PagedSeq.new seqs i + j : ℕ) : ℤ)) (h.numSeqs ▸ hi)
    (by rw [h.starts_upload hi.le]; simp)
    (fun k hk hik => by
      have hnext : blockStart PagedSeq.new seqs (i + 1) ≤ blockStart PagedSeq.new seqs k :=
        blockStart_mono hik
      rw [blockStart_succ hs] at hnext
      rw [h.starts_upload (h.numSeqs ▸ hk).le, decide_eq_false_iff_not]
      omega)
  rw [Rllm.seqOfToken, hfind]
  rfl

variable {sched : ℕ → BlockSchedule op.headDim}

section Threads

variable [Field K] [LinearOrder K]

theorem Describes.prefill_eq (h : op.Describes seqs) (hs : seqs[i]? = some s) (hj : j < s.new)
    (hhead : qHead < op.numQHeads) (htid : tid < op.headDim) :
    let token := blockStart PagedSeq.new seqs i + j
    pagedAttentionPrefill E op sched (op.upload beyond) query cache
        (token * op.numQHeads + qHead) tid =
      some (attendThread E op sched (op.upload beyond) query cache (token * op.numQHeads + qHead)
        token i qHead (s.past + j + 1) tid) := by
  intro token
  have hi : i < seqs.length := (List.getElem?_eq_some_iff.mp hs).1
  have hlen : ((op.upload beyond).seqLens i - ((op.upload beyond).queryStartLoc (i + 1) -
      (op.upload beyond).queryStartLoc i) + ((token : ℤ) - (op.upload beyond).queryStartLoc i) +
        1).toNat = s.past + j + 1 := by
    rw [h.seqLens_upload hs, h.starts_upload hi, h.starts_upload hi.le, blockStart_succ hs]
    omega
  rw [pagedAttentionPrefill]
  simp only [block_div hhead, block_mod hhead]
  rw [if_neg (not_or.mpr ⟨Nat.not_le.mpr (h.token_lt hs hj), Nat.not_le.mpr htid⟩),
    h.seqOfToken hs hj, hlen]

theorem Describes.decode_eq (h : op.Describes seqs) (hs : seqs[i]? = some s) (hone : s.new = 1)
    (hhead : qHead < op.numQHeads) (htid : tid < op.headDim) :
    pagedAttentionDecode E op sched (op.upload beyond) query cache
        (i * op.numQHeads + qHead) tid =
      some (attendThread E op sched (op.upload beyond) query cache (i * op.numQHeads + qHead)
        i i qHead (s.past + 1) tid) := by
  have hi : i < op.numSeqs := h.numSeqs ▸ (List.getElem?_eq_some_iff.mp hs).1
  have hlen : (op.upload beyond).seqLens i = ((s.past + 1 : ℕ) : ℤ) :=
    hone ▸ h.seqLens_upload hs
  rw [pagedAttentionDecode]
  simp only [block_div hhead, block_mod hhead, hlen]
  rw [if_neg (Nat.not_le.mpr hi), if_neg (by omega), Int.toNat_natCast]

variable [IsStrictOrderedRing K]

theorem Describes.attendThread_eq (h : op.Describes seqs) (hexp : Softmax.IsExp E.exp)
    {block : ℕ} (hsound : (sched block).Sound) (hs : seqs[i]? = some s) {row len : ℕ}
    (hlen : len ≤ s.past + s.new) {kvHead : Fin op.numKvHeads}
    (hkv : qHead * op.numKvHeads / op.numQHeads = kvHead) (tid : Fin op.headDim) :
    attendThread E op sched (op.upload beyond) query cache block row i qHead len tid =
      attendHead op.scale
        (fun d : Fin op.headDim => query ((row * op.numQHeads + qHead) * op.headDim + d)) E
        ((List.range len).map fun p =>
          let kv := cache.rowAt op.blockSize op.numKvHeads op.headDim (s.place op.blockSize p)
          (kv.key kvHead, kv.value kvHead)) (fun _ => 0) tid := by
  have hbs := h.slots.blockSize_pos
  have htable : ∀ b < divCeil len op.blockSize,
      (op.upload beyond).blockTables (i * op.maxNumBlocksPerSeq + b) = (s.blocks.getD b 0 : ℤ) :=
    fun b hb => h.tables_upload hs (hb.trans_le (divCeil_mono hbs hlen))
  have hvisited : visitedSlots op.blockSize
      (fun b => (op.upload beyond).blockTables (i * op.maxNumBlocksPerSeq + b)) len =
      (List.range len).map fun p => (s.blocks.getD (p / op.blockSize) 0, p % op.blockSize) := by
    rw [visitedSlots_eq hbs fun b hb => by rw [htable b hb]; exact Int.natCast_nonneg _]
    refine List.map_congr_left fun p hp => ?_
    rw [htable _ (lt_divCeil_of_lt hbs (List.mem_range.mp hp)), Int.toNat_natCast]
  rw [attendThread, hvisited, hkv, threadOutput_eq hexp tid (fun j => hsound.2 j tid) hsound.1,
    headRows, List.map_map, List.map_map]
  refine congrFun (congrArg (fun rows => attendHead _ _ E rows _) ?_) tid
  refine List.map_congr_left fun p _ => ?_
  have hmod : p % op.blockSize < op.blockSize := Nat.mod_lt _ hbs
  simp only [Function.comp_apply, DeviceCache.rowAt, PagedSeq.place, block_div hmod,
    block_mod hmod]

/-- What the operation gives for a head of a token: attention over the positions up to the
token's own, from the slots of its sequence. -/
theorem Describes.forward_apply (h : op.Describes seqs) (hexp : Softmax.IsExp E.exp)
    (hsound : ∀ block, (sched block).Sound)
    (hkernel : op.isPrefill = true ∨ ∀ s ∈ seqs, s.new = 1) (hs : seqs[i]? = some s)
    (hj : j < s.new) {queries : List (Fin op.numQHeads → Fin op.headDim → K)}
    {q : Fin op.numQHeads → Fin op.headDim → K}
    (hq : queries[blockStart PagedSeq.new seqs i + j]? = some q) {order : List ℕ}
    {behind memory newKey newValue : ℕ → K} {head : Fin op.numQHeads}
    {kvHead : Fin op.numKvHeads} (hkv : head * op.numKvHeads / op.numQHeads = kvHead)
    (d : Fin op.headDim) :
    let out := op.forward E sched (op.upload beyond) (tokenMajor behind queries) cache order memory
      newKey newValue
    out.1 (((blockStart PagedSeq.new seqs i + j) * op.numQHeads + head) * op.headDim + d) =
      attendHead op.scale (q head) E ((List.range (s.past + j + 1)).map fun p =>
        let kv := out.2.rowAt op.blockSize op.numKvHeads op.headDim (s.place op.blockSize p)
        (kv.key kvHead, kv.value kvHead)) (fun _ => 0) d := by
  intro out
  have hquery : (fun d' : Fin op.headDim => tokenMajor behind queries
      (((blockStart PagedSeq.new seqs i + j) * op.numQHeads + head) * op.headDim + d')) = q head :=
    funext fun d' => tokenMajor_apply behind hq head d'
  rw [← hquery]
  by_cases hprefill : op.isPrefill = true
  · have hgrid : (blockStart PagedSeq.new seqs i + j) * op.numQHeads + head <
        op.numTokens * op.numQHeads := block_lt (h.token_lt hs hj) head.isLt
    simp only [out, forward, hprefill, ↓reduceIte]
    rw [launchOutput, block_div d.isLt, block_mod d.isLt, if_pos hgrid,
      h.prefill_eq hs hj head.isLt d.isLt, Option.getD_some]
    exact h.attendThread_eq hexp (hsound _) hs (by omega) hkv d
  · have hone := hkernel.resolve_left hprefill
    have hnew : s.new = 1 := hone s (List.mem_of_getElem? hs)
    have hi : i < seqs.length := (List.getElem?_eq_some_iff.mp hs).1
    have hstart : blockStart PagedSeq.new seqs i = i := by
      have hones : (seqs.take i).map PagedSeq.new = List.replicate i 1 := by
        refine List.eq_replicate_iff.mpr ⟨by simp [hi.le], fun n hn => ?_⟩
        obtain ⟨s', hs', rfl⟩ := List.mem_map.mp hn
        exact hone s' (List.mem_of_mem_take hs')
      rw [blockStart, hones, List.sum_replicate_nat, Nat.mul_one]
    obtain rfl : j = 0 := by omega
    have hgrid : i * op.numQHeads + head < op.numSeqs * op.numQHeads :=
      block_lt (h.numSeqs ▸ hi) head.isLt
    rw [hstart, Nat.add_zero]
    simp only [out, forward, hprefill, Bool.false_eq_true, ↓reduceIte]
    rw [launchOutput, block_div d.isLt, block_mod d.isLt, if_pos hgrid,
      h.decode_eq hs hnew head.isLt d.isLt, Option.getD_some]
    exact h.attendThread_eq hexp (hsound _) hs (by omega) hkv d

end Threads

end PagedAttentionOp

end Rllm
