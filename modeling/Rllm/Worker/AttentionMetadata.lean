import Mathlib.Algebra.Order.BigOperators.Group.List
import Mathlib.Algebra.Order.Ring.Nat
import Rllm.Kernels.Attention
import Rllm.Worker.Batch

/-! # Metadata of a batch

The runner groups the sequences of a batch, prefills first, and counts one token
for each decode. The metadata describe the batch exactly if no decode carries
drafts, the prefills come first already, and nothing overflows.
-/

namespace Rllm

namespace ModelRunner

/-- The block table of a sequence, as `i32` values. -/
def tableI32 (seq : BatchSeq) : List ℤ := seq.blockTable.map fun id : BlockId => asI32 (id : ℤ)

def buildAttentionMetadata (batch : InputBatch) : AttentionMetadata :=
  if batch.numSeqs = 0 then .new
  else
    let prefill := batch.seqs.filter (·.isPrefill)
    let decode := batch.seqs.filter (!·.isPrefill)
    let prefillSeqLens := prefill.map (·.seqLen)
    let prefillTokensPerSeq := prefill.map fun seq => seq.tokenIds.length % 2 ^ 32
    let prefillBlockTables := prefill.map tableI32
    let decodeSeqLens := decode.map (·.seqLen)
    let decodeBlockTables := decode.map tableI32
    let maxBlocks := batch.maxNumBlocksPerSeq
    if prefillSeqLens.isEmpty && decodeSeqLens.isEmpty then .new
    else if prefillSeqLens.isEmpty then
      { AttentionMetadata.forDecode decodeSeqLens decodeBlockTables maxBlocks with
        slotMapping := batch.slotMappings }
    else if decodeSeqLens.isEmpty then
      { AttentionMetadata.forPrefill prefillSeqLens prefillTokensPerSeq prefillBlockTables
          maxBlocks with
        slotMapping := batch.slotMappings }
    else
      -- one token for each decode, whatever it carries
      let numDecode := decodeSeqLens.length
      AttentionMetadata.detectCommonPrefixBlocks
        { seqLens := prefillSeqLens ++ decodeSeqLens
          queryStartLoc := (prefillTokensPerSeq ++ List.replicate numDecode 1).scanl addU32 0
          blockTables := prefillBlockTables ++ decodeBlockTables
          slotMapping := batch.slotMappings
          numPrefillTokens := prefillTokensPerSeq.sum
          numDecodeTokens := numDecode
          maxNumBlocksPerSeq := maxBlocks }

end ModelRunner

/-- The metadata describe a batch, sequence by sequence. -/
structure AttentionMetadata.Describes (md : AttentionMetadata) (b : InputBatch) : Prop where
  seqLens_eq : md.seqLens = b.seqLens
  blockTables_eq : md.blockTables = b.blockTables.map (·.map fun id : BlockId => (id : ℤ))
  starts_length : md.queryStartLoc.length = b.numSeqs + 1
  /-- The tokens of a sequence lie between two offsets. -/
  starts : ∀ i n, b.tokensPerSeq[i]? = some n → ∃ start, md.queryStartLoc[i]? = some start ∧
    md.queryStartLoc[i + 1]? = some (start + n)
  last : md.queryStartLoc.getLast? = some b.tokenIds.length
  slots_length : md.slotMapping.length = b.tokenIds.length
  counts : md.numPrefillTokens + md.numDecodeTokens = b.tokenIds.length

namespace InputBatch

variable (b : InputBatch)

/-- The sequences with the prefills first. -/
def regrouped : List BatchSeq := b.seqs.filter (·.isPrefill) ++ b.seqs.filter (!·.isPrefill)

/-- What the metadata say of a sequence. -/
def shape (seq : BatchSeq) : ℕ × List BlockId × ℕ :=
  (seq.seqLen, seq.blockTable, seq.tokenIds.length)

/-- Every decode feeds one token, the prefills might come first, and nothing overflows. -/
structure Describable : Prop where
  oneToken : ∀ seq ∈ b.seqs, seq.isPrefill = false → seq.tokenIds.length = 1
  grouped : b.regrouped.map shape = b.seqs.map shape
  tokens_lt : b.tokenIds.length < 2 ^ 32
  blocks_lt : ∀ seq ∈ b.seqs, ∀ id ∈ seq.blockTable, id < 2 ^ 31

end InputBatch

/-! ## Running sums -/

section Sums

variable {ts us : List ℕ} {c : ℕ}

theorem scanl_addU32_eq_iff (hts : ∀ t ∈ ts, t < 2 ^ 32) (hc : c < 2 ^ 32) :
    ts.scanl addU32 c = us.scanl (· + ·) c ↔ ts = us ∧ c + us.sum < 2 ^ 32 := by
  induction ts generalizing us c with
  | nil =>
    cases us with
    | nil => simpa using hc
    | cons u us => cases us <;> simp
  | cons t ts ih =>
    cases us with
    | nil => cases ts <;> simp
    | cons u us =>
      obtain ⟨ht, hts⟩ := List.forall_mem_cons.mp hts
      rw [List.scanl_cons, List.scanl_cons, List.cons.injEq, List.cons.injEq, List.sum_cons,
        ← Nat.add_assoc]
      constructor
      · rintro ⟨-, hscan⟩
        have hhead : addU32 c t = c + u := by
          simpa using congrArg List.head? hscan
        have hlt : c + u < 2 ^ 32 := hhead ▸ Nat.mod_lt _ (Nat.two_pow_pos 32)
        have htu : t = u := by
          unfold addU32 at hhead
          omega
        rw [hhead] at hscan
        obtain ⟨hus, hsum⟩ := (ih hts hlt).mp hscan
        exact ⟨⟨htu, hus⟩, hsum⟩
      · rintro ⟨⟨rfl, hus⟩, hsum⟩
        have hlt : c + t < 2 ^ 32 := (Nat.le_add_right _ _).trans_lt hsum
        have hadd : addU32 c t = c + t := Nat.mod_eq_of_lt hlt
        rw [hadd]
        exact ⟨rfl, (ih hts hlt).mpr ⟨hus, hsum⟩⟩

theorem eq_scanl_iff {l : List ℕ} : l = us.scanl (· + ·) c ↔
    l.length = us.length + 1 ∧ l.head? = some c ∧ ∀ i n, us[i]? = some n →
      ∃ start, l[i]? = some start ∧ l[i + 1]? = some (start + n) := by
  induction us generalizing l c with
  | nil =>
    constructor
    · rintro rfl
      simp
    · rintro ⟨hlen, hhead, -⟩
      obtain ⟨a, rfl⟩ := List.length_eq_one_iff.mp hlen
      rw [Option.some.inj hhead]
      rfl
  | cons u us ih =>
    cases l with
    | nil => simp
    | cons a l =>
      rw [List.scanl_cons, List.cons.injEq, ih]
      constructor
      · rintro ⟨rfl, hlen, hhead, hall⟩
        refine ⟨congrArg (· + 1) hlen, rfl, fun i n hn => ?_⟩
        cases i with
        | zero =>
          obtain rfl := Option.some.inj hn
          refine ⟨a, rfl, ?_⟩
          rw [List.getElem?_cons_succ, ← List.head?_eq_getElem?, hhead]
        | succ i => exact hall i n hn
      · rintro ⟨hlen, hhead, hall⟩
        obtain rfl := Option.some.inj hhead
        obtain ⟨start, hstart, hnext⟩ := hall 0 u rfl
        obtain rfl := Option.some.inj hstart
        rw [List.getElem?_cons_succ, ← List.head?_eq_getElem?] at hnext
        exact ⟨rfl, Nat.succ.inj hlen, hnext, fun i n hn => hall (i + 1) n hn⟩

theorem getLast?_scanl_add : (us.scanl (· + ·) c).getLast? = some (c + us.sum) := by
  induction us generalizing c with
  | nil => simp
  | cons u us ih =>
    rw [List.scanl_cons, List.getLast?_cons, ih]
    simp [Nat.add_assoc]

theorem scanl_addU32_replicate (n k : ℕ) :
    (List.replicate n 1).scanl addU32 (k % 2 ^ 32) = (List.range' k (n + 1)).map (· % 2 ^ 32) := by
  induction n generalizing k with
  | zero => rfl
  | succ n ih =>
    have hadd : addU32 (k % 2 ^ 32) 1 = (k + 1) % 2 ^ 32 := Nat.mod_add_mod k (2 ^ 32) 1
    rw [List.replicate_succ, List.scanl_cons, hadd, ih, List.range'_succ (n := n + 1),
      List.map_cons]

theorem foldl_addU32 (h : c + us.sum < 2 ^ 32) : us.foldl addU32 c = c + us.sum := by
  induction us generalizing c with
  | nil => rfl
  | cons u us ih =>
    rw [List.sum_cons, ← Nat.add_assoc] at h ⊢
    have hadd : addU32 c u = c + u := Nat.mod_eq_of_lt ((Nat.le_add_right _ _).trans_lt h)
    rw [List.foldl_cons, hadd, ih h]

end Sums

/-! ## The sequences of a batch -/

/-- What holds of every sequence the runner builds. -/
structure BatchSeq.Sound (seq : BatchSeq) : Prop where
  length_lt : seq.tokenIds.length < 2 ^ 32
  slots_length : seq.slotMapping.length = seq.tokenIds.length
  decode_ne : seq.isPrefill = false → seq.tokenIds ≠ []

namespace ModelRunner

variable {blockSize : ℕ} {out : SchedulerOutput} {m : ModelRunner} {id : RequestId}
  {seq : BatchSeq} {ids ids' : List RequestId} {seqs : List BatchSeq} {b : InputBatch}

theorem length_computeSlotMappings (positions : List ℕ) (table : List BlockId) (blockSize : ℕ) :
    (computeSlotMappings positions table blockSize).length = positions.length := by
  unfold computeSlotMappings
  split
  · exact List.length_map ..
  · exact List.length_replicate

theorem SeqSpec.slots_length {start : ℕ} {tokens : List Token} {isPrefill : Bool}
    (h : SeqSpec blockSize out id start tokens isPrefill seq) :
    seq.slotMapping.length = seq.tokenIds.length := by
  rw [h.slots_eq, length_computeSlotMappings, h.positions_eq, List.length_range', h.tokenIds_eq]

theorem SeqSpec.length_lt {start : ℕ} {tokens : List Token} {isPrefill : Bool}
    (h : SeqSpec blockSize out id start tokens isPrefill seq) :
    seq.tokenIds.length < 2 ^ 32 := by
  rw [h.tokenIds_eq]
  exact (Nat.le_add_left _ _).trans_lt h.seqLen_lt

theorem Feeds.sound (h : Feeds blockSize out m id (some seq)) : seq.Sound := by
  cases h with
  | prefill _ _ _ _ hs =>
    exact ⟨hs.length_lt, hs.slots_length, fun hd => by simp [hs.isPrefill_eq] at hd⟩
  | decode _ _ hs =>
    refine ⟨hs.length_lt, hs.slots_length, fun _ => ?_⟩
    rw [hs.tokenIds_eq]
    exact List.cons_ne_nil _ _

theorem Feeds.isPrefill_iff (h : Feeds blockSize out m id (some seq)) :
    seq.isPrefill = true ↔ id ∈ out.scheduledNew := by
  cases h with
  | prefill _ _ hid _ hs => simp [hs.isPrefill_eq, hid]
  | decode _ hid hs => simp [hs.isPrefill_eq, hid]

theorem buildLoop_feeds (h : (buildLoop blockSize out ids m).1 = .ok seqs) :
    ∀ seq ∈ seqs, ∃ id ∈ ids, ∃ m', Feeds blockSize out m' id (some seq) := by
  induction ids generalizing m seqs with
  | nil =>
    obtain rfl := Except.ok.inj h
    simp
  | cons id ids ih =>
    unfold buildLoop at h
    split at h
    · cases h
    · rename_i seq? m₁ he
      have hfeed : Feeds blockSize out m id seq? := buildSeq_ok (by rw [he])
      split at h
      · cases h
      · rename_i rest m₂ he₂
        obtain rfl := Except.ok.inj h
        intro seq hseq
        rcases List.mem_append.mp hseq with hfirst | hrest
        · obtain rfl := Option.mem_toList.mp hfirst
          exact ⟨id, List.mem_cons_self, m, hfeed⟩
        · obtain ⟨i, hi, hfeeds⟩ := ih (congrArg Prod.fst he₂) seq hrest
          exact ⟨i, List.mem_cons_of_mem _ hi, hfeeds⟩

theorem buildLoop_append (h : (buildLoop blockSize out (ids ++ ids') m).1 = .ok seqs) :
    ∃ xs ys m', seqs = xs ++ ys ∧ (buildLoop blockSize out ids m).1 = .ok xs ∧
      (buildLoop blockSize out ids' m').1 = .ok ys := by
  induction ids generalizing m seqs with
  | nil => exact ⟨[], seqs, m, rfl, rfl, h⟩
  | cons id ids ih =>
    rw [List.cons_append, buildLoop] at h
    split at h
    · cases h
    · rename_i seq? m₁ he
      split at h
      · cases h
      · rename_i rest m₂ he₂
        obtain rfl := Except.ok.inj h
        obtain ⟨xs, ys, m', rfl, hxs, hys⟩ := ih (congrArg Prod.fst he₂)
        refine ⟨seq?.toList ++ xs, ys, m', (List.append_assoc ..).symm, ?_, hys⟩
        rw [buildLoop, he]
        cases hl : buildLoop blockSize out ids m₁ with
        | mk r m₃ =>
          rw [hl] at hxs
          obtain rfl : r = .ok xs := hxs
          simp only [hl]

theorem buildTensors_seqs (h : (m.buildTensors blockSize out).1 = .ok b) : b.seqs = [] ∨
    (buildLoop blockSize out (out.scheduledNew ++ out.scheduledRunning) (m.clean out)).1 =
      .ok b.seqs := by
  rw [buildTensors_eq] at h
  split at h
  · obtain rfl := Except.ok.inj h
    exact Or.inl rfl
  · split at h
    · cases h
    · rename_i seqs m₁ he
      obtain rfl := Except.ok.inj h
      exact Or.inr (by rw [he])

theorem buildTensors_sound (h : (m.buildTensors blockSize out).1 = .ok b) :
    ∀ seq ∈ b.seqs, seq.Sound := by
  intro seq hseq
  rcases buildTensors_seqs h with hnil | hloop
  · rw [hnil] at hseq
    cases hseq
  · obtain ⟨id, -, m', hfeeds⟩ := buildLoop_feeds hloop seq hseq
    exact hfeeds.sound

/-- With every request scheduled once, the prefills come first. -/
theorem buildTensors_regrouped (h : (m.buildTensors blockSize out).1 = .ok b)
    (hdisj : ∀ id ∈ out.scheduledNew, id ∉ out.scheduledRunning) : b.regrouped = b.seqs := by
  rcases buildTensors_seqs h with hnil | hloop
  · rw [InputBatch.regrouped, hnil]
    rfl
  · obtain ⟨xs, ys, m', hseqs, hxs, hys⟩ := buildLoop_append hloop
    have hprefill : ∀ seq ∈ xs, seq.isPrefill = true := by
      intro seq hseq
      obtain ⟨id, hid, m'', hfeeds⟩ := buildLoop_feeds hxs seq hseq
      exact hfeeds.isPrefill_iff.mpr hid
    have hdecode : ∀ seq ∈ ys, seq.isPrefill = false := by
      intro seq hseq
      obtain ⟨id, hid, m'', hfeeds⟩ := buildLoop_feeds hys seq hseq
      rw [Bool.eq_false_iff, Ne, hfeeds.isPrefill_iff]
      exact fun hnew => hdisj id hnew hid
    have hfirst : b.seqs.filter (·.isPrefill) = xs := by
      rw [hseqs, List.filter_append, List.filter_eq_self.mpr hprefill,
        List.filter_eq_nil_iff.mpr fun seq hseq => by simp [hdecode seq hseq], List.append_nil]
    have hlast : b.seqs.filter (!·.isPrefill) = ys := by
      rw [hseqs, List.filter_append, List.filter_eq_nil_iff.mpr fun seq hseq => by
        simp [hprefill seq hseq], List.filter_eq_self.mpr fun seq hseq => by
        simp [hdecode seq hseq], List.nil_append]
    rw [InputBatch.regrouped, hfirst, hlast, hseqs]

end ModelRunner

/-! ## The metadata -/

namespace InputBatch

variable {b : InputBatch}

/-- The tokens the metadata count: all tokens of a prefill, and one for a decode. -/
def countedTokens (b : InputBatch) : List ℕ :=
  (b.seqs.filter (·.isPrefill)).map (·.tokenIds.length) ++
    List.replicate (b.seqs.filter (!·.isPrefill)).length 1

theorem regrouped_perm (b : InputBatch) : b.regrouped.Perm b.seqs := by
  have h := List.filter_append_perm (fun seq : BatchSeq => seq.isPrefill) b.seqs
  exact h

theorem sum_tokensPerSeq (b : InputBatch) : b.tokensPerSeq.sum = b.tokenIds.length := by
  rw [tokensPerSeq, tokenIds, List.length_flatMap]

theorem map_shape_eq_iff {l l' : List BatchSeq} : l.map shape = l'.map shape ↔
    l.map (·.seqLen) = l'.map (·.seqLen) ∧ l.map (·.blockTable) = l'.map (·.blockTable) ∧
      l.map (·.tokenIds.length) = l'.map (·.tokenIds.length) := by
  induction l generalizing l' with
  | nil => cases l' <;> simp
  | cons seq l ih =>
    cases l' with
    | nil => simp
    | cons seq' l' =>
      simp only [List.map_cons, List.cons.injEq, ih, shape, Prod.mk.injEq]
      tauto

theorem oneToken_of_sum (hs : ∀ seq ∈ b.seqs, seq.Sound)
    (h : b.countedTokens.sum = b.tokensPerSeq.sum) :
    ∀ seq ∈ b.seqs, seq.isPrefill = false → seq.tokenIds.length = 1 := by
  have hsum : b.tokensPerSeq.sum = ((b.seqs.filter (·.isPrefill)).map (·.tokenIds.length)).sum +
      ((b.seqs.filter (!·.isPrefill)).map (·.tokenIds.length)).sum := by
    rw [← List.sum_append, ← List.map_append]
    exact ((b.regrouped_perm.map _).sum_eq).symm
  have hones : ∀ l : List BatchSeq, (∀ seq ∈ l, 1 ≤ seq.tokenIds.length) →
      (l.map (·.tokenIds.length)).sum ≤ l.length → ∀ seq ∈ l, seq.tokenIds.length = 1 := by
    intro l
    induction l with
    | nil => simp
    | cons seq l ih =>
      intro hpos hle
      obtain ⟨hseq, hpos⟩ := List.forall_mem_cons.mp hpos
      have hrest : l.length ≤ (l.map (·.tokenIds.length)).sum := by
        have hcard := List.card_nsmul_le_sum (l.map (·.tokenIds.length)) 1 (by simpa using hpos)
        simpa using hcard
      rw [List.map_cons, List.sum_cons, List.length_cons] at hle
      exact List.forall_mem_cons.mpr ⟨by omega, ih hpos (by omega)⟩
  intro seq hseq hdecode
  refine hones (b.seqs.filter (!·.isPrefill)) (fun seq' h' => ?_) ?_ seq ?_
  · obtain ⟨hmem, hd⟩ := List.mem_filter.mp h'
    exact List.length_pos_iff.mpr ((hs seq' hmem).decode_ne (by simpa using hd))
  · rw [countedTokens, List.sum_append, List.sum_replicate_nat, hsum, Nat.mul_one] at h
    omega
  · exact List.mem_filter.mpr ⟨hseq, by simp [hdecode]⟩

theorem countedTokens_eq (h : ∀ seq ∈ b.seqs, seq.isPrefill = false → seq.tokenIds.length = 1) :
    b.countedTokens = b.regrouped.map (·.tokenIds.length) := by
  rw [countedTokens, regrouped, List.map_append]
  congr 1
  refine (List.eq_replicate_iff.mpr ⟨List.length_map .., fun n hn => ?_⟩).symm
  obtain ⟨seq, hseq, rfl⟩ := List.mem_map.mp hn
  obtain ⟨hmem, hd⟩ := List.mem_filter.mp hseq
  exact h seq hmem (by simpa using hd)

theorem map_tableI32 {l : List BatchSeq} (h : ∀ seq ∈ l, ∀ id ∈ seq.blockTable, id < 2 ^ 31) :
    l.map ModelRunner.tableI32 =
      l.map fun seq => seq.blockTable.map fun id : BlockId => (id : ℤ) := by
  refine List.map_congr_left fun seq hseq => ?_
  rw [ModelRunner.tableI32]
  exact List.map_congr_left fun id hid => asI32_of_lt (h seq hseq id hid)

end InputBatch

namespace ModelRunner

variable {b : InputBatch}

/-- What the metadata of a batch are made of. -/
structure Groups (b : InputBatch) (md : AttentionMetadata) : Prop where
  seqLens_eq : md.seqLens = b.regrouped.map (·.seqLen)
  blockTables_eq : md.blockTables = b.regrouped.map tableI32
  starts_eq : md.queryStartLoc = b.countedTokens.scanl addU32 0
  slots_eq : md.slotMapping = b.slotMappings
  counts : b.countedTokens.sum < 2 ^ 32 →
    md.numPrefillTokens + md.numDecodeTokens = b.countedTokens.sum

theorem buildAttentionMetadata_groups (hs : ∀ seq ∈ b.seqs, seq.Sound) :
    Groups b (buildAttentionMetadata b) := by
  have htokens : (b.seqs.filter (·.isPrefill)).map (fun seq => seq.tokenIds.length % 2 ^ 32) =
      (b.seqs.filter (·.isPrefill)).map (·.tokenIds.length) :=
    List.map_congr_left fun seq hseq =>
      Nat.mod_eq_of_lt (hs seq (List.mem_of_mem_filter hseq)).length_lt
  unfold buildAttentionMetadata
  dsimp only
  rw [htokens]
  split
  · rename_i hz
    have hnil : b.seqs = [] := List.eq_nil_of_length_eq_zero hz
    constructor <;> simp [AttentionMetadata.new, InputBatch.regrouped, InputBatch.countedTokens,
      InputBatch.slotMappings, hnil]
  · rename_i hz
    have hne : ¬ (b.seqs.filter (·.isPrefill) = [] ∧ b.seqs.filter (!·.isPrefill) = []) := by
      rintro ⟨hp, hd⟩
      have hlen := b.regrouped_perm.length_eq
      rw [InputBatch.regrouped, hp, hd] at hlen
      exact hz hlen.symm
    have hsome : ¬ (((b.seqs.filter (·.isPrefill)).map (·.seqLen)).isEmpty &&
        ((b.seqs.filter (!·.isPrefill)).map (·.seqLen)).isEmpty) = true := by
      rwa [Bool.and_eq_true, List.isEmpty_iff, List.isEmpty_iff, List.map_eq_nil_iff,
        List.map_eq_nil_iff]
    rw [if_neg hsome]
    split
    · rename_i hp
      rw [List.isEmpty_iff, List.map_eq_nil_iff] at hp
      refine ⟨?_, ?_, ?_, rfl, fun _ => ?_⟩
      · rw [InputBatch.regrouped, hp]
        rfl
      · rw [InputBatch.regrouped, hp]
        rfl
      · rw [InputBatch.countedTokens, hp, List.map_nil, List.nil_append]
        have hcount := scanl_addU32_replicate (b.seqs.filter (!·.isPrefill)).length 0
        rw [Nat.zero_mod, ← List.range_eq_range'] at hcount
        rw [hcount, AttentionMetadata.forDecode, List.length_map]
      · rw [InputBatch.countedTokens, hp, List.map_nil, List.nil_append, List.sum_replicate_nat,
          Nat.mul_one, AttentionMetadata.forDecode, List.length_map, Nat.zero_add]
    · split
      · rename_i hd
        rw [List.isEmpty_iff, List.map_eq_nil_iff] at hd
        refine ⟨?_, ?_, ?_, rfl, fun hlt => ?_⟩
        · rw [InputBatch.regrouped, hd, List.append_nil]
          rfl
        · rw [InputBatch.regrouped, hd, List.append_nil]
          rfl
        · rw [InputBatch.countedTokens, hd, List.length_nil, List.replicate_zero, List.append_nil]
          rfl
        · rw [InputBatch.countedTokens, hd, List.length_nil, List.replicate_zero,
            List.append_nil] at hlt ⊢
          have hsum := foldl_addU32 (c := 0) ((Nat.zero_add _).trans_lt hlt)
          rw [Nat.zero_add] at hsum
          exact hsum
      · refine ⟨?_, ?_, ?_, rfl, fun _ => ?_⟩
        · rw [InputBatch.regrouped, List.map_append]
          rfl
        · rw [InputBatch.regrouped, List.map_append]
          rfl
        · rw [List.length_map]
          rfl
        · rw [InputBatch.countedTokens, List.sum_append, List.sum_replicate_nat, Nat.mul_one,
            List.length_map]
          rfl

theorem countedTokens_of_describes (hs : ∀ seq ∈ b.seqs, seq.Sound)
    (h : (buildAttentionMetadata b).Describes b) :
    b.countedTokens = b.tokensPerSeq ∧ b.tokensPerSeq.sum < 2 ^ 32 := by
  have hg := buildAttentionMetadata_groups hs
  have hlen : b.tokensPerSeq.length = b.numSeqs := List.length_map ..
  have hstarts : b.countedTokens.scanl addU32 0 = b.tokensPerSeq.scanl (· + ·) 0 := by
    rw [← hg.starts_eq]
    refine eq_scanl_iff.mpr ⟨by rw [h.starts_length, hlen], ?_, h.starts⟩
    rw [hg.starts_eq, List.head?_scanl]
  have hlt : ∀ t ∈ b.countedTokens, t < 2 ^ 32 := by
    intro t ht
    rcases List.mem_append.mp ht with ht | ht
    · obtain ⟨seq, hseq, rfl⟩ := List.mem_map.mp ht
      exact (hs seq (List.mem_of_mem_filter hseq)).length_lt
    · rw [List.eq_of_mem_replicate ht]
      decide
  obtain ⟨hcount, hsum⟩ := (scanl_addU32_eq_iff hlt (by decide)).mp hstarts
  exact ⟨hcount, by rwa [Nat.zero_add] at hsum⟩

/-- The metadata describe a batch exactly if it can be described. -/
theorem describes_iff (hs : ∀ seq ∈ b.seqs, seq.Sound) :
    (buildAttentionMetadata b).Describes b ↔ b.Describable := by
  have hg := buildAttentionMetadata_groups hs
  have hsum := b.sum_tokensPerSeq
  have hmem : ∀ seq, seq ∈ b.regrouped ↔ seq ∈ b.seqs := fun seq => b.regrouped_perm.mem_iff
  constructor
  · intro h
    obtain ⟨hcount, hlt⟩ := countedTokens_of_describes hs h
    have hone := InputBatch.oneToken_of_sum hs (congrArg List.sum hcount)
    have htables : b.regrouped.map tableI32 =
        b.seqs.map fun seq => seq.blockTable.map fun id : BlockId => (id : ℤ) := by
      rw [← hg.blockTables_eq, h.blockTables_eq, InputBatch.blockTables, List.map_map]
      rfl
    have hblocks : ∀ seq ∈ b.seqs, ∀ id ∈ seq.blockTable, id < 2 ^ 31 := by
      intro seq hseq id hid
      have hrow : seq.blockTable.map (fun id : BlockId => (id : ℤ)) ∈ b.regrouped.map tableI32 := by
        rw [htables]
        exact List.mem_map_of_mem hseq
      obtain ⟨seq', -, hrow⟩ := List.mem_map.mp hrow
      have hin : (id : ℤ) ∈ tableI32 seq' := by
        rw [hrow]
        exact List.mem_map_of_mem hid
      obtain ⟨id', -, hid'⟩ := List.mem_map.mp hin
      have hlt : asI32 (id' : ℤ) < 2 ^ 31 := asI32_lt _
      have heq : asI32 (id' : ℤ) = id := hid'
      rw [heq] at hlt
      exact_mod_cast hlt
    rw [InputBatch.map_tableI32 fun seq hseq => hblocks seq ((hmem seq).mp hseq)] at htables
    refine ⟨hone, InputBatch.map_shape_eq_iff.mpr ⟨?_, ?_, ?_⟩, hsum ▸ hlt, hblocks⟩
    · exact hg.seqLens_eq.symm.trans h.seqLens_eq
    · have hcast : Function.Injective (List.map fun id : BlockId => (id : ℤ)) :=
        List.map_injective_iff.mpr fun _ _ => Int.ofNat.inj
      refine (List.map_injective_iff.mpr hcast) ?_
      rw [List.map_map, List.map_map]
      exact htables
    · rw [← InputBatch.countedTokens_eq hone, hcount]
      rfl
  · intro h
    obtain ⟨hlens, htables, htokens⟩ := InputBatch.map_shape_eq_iff.mp h.grouped
    have hcount : b.countedTokens = b.tokensPerSeq :=
      (InputBatch.countedTokens_eq h.oneToken).trans htokens
    have hlt : b.tokensPerSeq.sum < 2 ^ 32 := hsum ▸ h.tokens_lt
    have hstarts : (buildAttentionMetadata b).queryStartLoc = b.tokensPerSeq.scanl (· + ·) 0 := by
      rw [hg.starts_eq, hcount]
      refine (scanl_addU32_eq_iff (fun t ht => ?_) (by decide)).mpr ⟨rfl, by rwa [Nat.zero_add]⟩
      obtain ⟨seq, hseq, rfl⟩ := List.mem_map.mp ht
      exact (hs seq hseq).length_lt
    obtain ⟨hlen, -, hall⟩ := eq_scanl_iff.mp hstarts
    constructor
    case seqLens_eq => exact hg.seqLens_eq.trans hlens
    case blockTables_eq =>
      rw [hg.blockTables_eq, InputBatch.map_tableI32 fun seq hseq =>
        h.blocks_lt seq ((hmem seq).mp hseq), InputBatch.blockTables, ← htables, List.map_map]
      rfl
    case starts_length => rw [hlen, InputBatch.tokensPerSeq, List.length_map]; rfl
    case starts => exact hall
    case last => rw [hstarts, getLast?_scanl_add, Nat.zero_add, hsum]
    case slots_length =>
      rw [hg.slots_eq, InputBatch.slotMappings, InputBatch.tokenIds, List.length_flatMap,
        List.length_flatMap, List.map_congr_left fun seq hseq => (hs seq hseq).slots_length]
    case counts => rw [hg.counts (hcount ▸ hlt), hcount, hsum]

/-- The metadata of a built batch describe it exactly if no decode carries drafts, no count
overflows and the prefills come first, as they do if no request is scheduled twice. -/
theorem buildAttentionMetadata_describes_iff (m : ModelRunner) (blockSize : ℕ)
    (out : SchedulerOutput) (b : InputBatch) (hb : (m.buildTensors blockSize out).1 = .ok b) :
    ((buildAttentionMetadata b).Describes b ↔ b.Describable) ∧
      ((∀ id ∈ out.scheduledNew, id ∉ out.scheduledRunning) → b.regrouped = b.seqs) :=
  ⟨describes_iff (buildTensors_sound hb), buildTensors_regrouped hb⟩

/-- A request that decodes, with drafts, and one with a prompt to prefill. -/
def draftRunner (drafts : List Token) : ModelRunner where
  requestStates := (AList.insert 2 { promptTokenIds := [7, 8] }
    (AList.insert 1 { promptTokenIds := [5], generatedTokenIds := [6], numComputedTokens := 1 } ∅))
  requestSamplingParams := ∅
  speculativeDrafts := AList.insert 1 drafts ∅

def draftOutput : SchedulerOutput where
  scheduledNew := [2]
  scheduledRunning := [1]
  numScheduledTokens := AList.insert 2 2 (AList.insert 1 3 ∅)
  blockTables := AList.insert 2 [4] (AList.insert 1 [3] ∅)

/-- The batch of a prefill and a decode with its drafts. -/
def draftBatch (drafts : List Token) : InputBatch where
  seqs := [
    { requestId := 2, tokenIds := [7, 8], positions := [0, 1], seqLen := 2, blockTable := [4],
      slotMapping := [64, 65], isPrefill := true },
    { requestId := 1, tokenIds := 6 :: drafts,
      positions := List.range' 1 (drafts.length + 1), seqLen := drafts.length + 2,
      blockTable := [3], slotMapping := (List.range' 49 (drafts.length + 1)).map (↑),
      isPrefill := false }]

theorem buildAttentionMetadata_describes_plain :
    (buildAttentionMetadata (draftBatch [])).Describes (draftBatch []) := by
  refine (buildAttentionMetadata_describes_iff (draftRunner []) 16 draftOutput (draftBatch [])
    (by decide)).1.mpr ⟨?_, ?_, ?_, ?_⟩ <;> decide

/-- The offsets end behind the first token of a decode with two drafts. -/
theorem not_buildAttentionMetadata_describes : ¬ ∀ (m : ModelRunner) (blockSize : ℕ)
    (out : SchedulerOutput) (b : InputBatch), (m.buildTensors blockSize out).1 = .ok b →
    (buildAttentionMetadata b).Describes b := by
  intro h
  have hlast := (h (draftRunner [9, 9]) 16 draftOutput (draftBatch [9, 9]) (by decide)).last
  exact absurd hlast (by decide)

end ModelRunner

end Rllm
