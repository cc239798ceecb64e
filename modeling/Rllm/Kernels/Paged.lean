import Rllm.Kernels.Layout
import Rllm.Library.Loops

/-! # Paged attention is dense attention

Every layout puts the elements of a cache at places of their own, so the writes
leave in the page of a position what belongs to it, and the page lists of a step
find it again.
-/

namespace Rllm

/-! ## Writing -/

section Write

variable {F32 : Type} {layout : KvLayout} {numBlocks blockSize numKvHeads headDim : ℕ}
  {k v kCache vCache : List F32} {slots : List ℤ}

/-- Where a slot keeps an element. -/
def cell (layout : KvLayout) (blockSize numKvHeads headDim : ℕ) (slot : ℤ) (head d : ℕ) : ℕ :=
  layout.offset (slot.toNat / blockSize) (slot.toNat % blockSize) head d blockSize numKvHeads
    headDim

/-- Whether an element comes before another in the order of writing. -/
def Before (token head d token' head' d' : ℕ) : Prop :=
  token < token' ∨ token = token' ∧ (head < head' ∨ head = head' ∧ d < d')

/-- The caches hold what was written before an element. -/
structure Written (layout : KvLayout) (numBlocks blockSize numKvHeads headDim : ℕ)
    (k v : List F32) (slots : List ℤ) (token head d : ℕ) (caches : List F32 × List F32) : Prop where
  kLength : caches.1.length = (layout.shape numBlocks blockSize numKvHeads headDim).prod
  vLength : caches.2.length = (layout.shape numBlocks blockSize numKvHeads headDim).prod
  holds : ∀ token' slot', slots[token']? = some slot' → ∀ head' < numKvHeads, ∀ d' < headDim,
    Before token' head' d' token head d →
    caches.1[cell layout blockSize numKvHeads headDim slot' head' d']? =
        k[token' * (numKvHeads * headDim) + head' * headDim + d']? ∧
      caches.2[cell layout blockSize numKvHeads headDim slot' head' d']? =
        v[token' * (numKvHeads * headDim) + head' * headDim + d']?

/-- Slots lie in the cache, and tokens that share one have the same keys and values. -/
structure SlotsAgree (numBlocks blockSize numKvHeads headDim : ℕ) (k v : List F32)
    (slots : List ℤ) : Prop where
  inside : ∀ slot ∈ slots, 0 ≤ slot ∧ slot.toNat / blockSize < numBlocks
  kLength : k.length = slots.length * (numKvHeads * headDim)
  vLength : v.length = slots.length * (numKvHeads * headDim)
  agree : ∀ token token' slot, slots[token]? = some slot → slots[token']? = some slot →
    ∀ c < numKvHeads * headDim,
      k[token * (numKvHeads * headDim) + c]? = k[token' * (numKvHeads * headDim) + c]? ∧
      v[token * (numKvHeads * headDim) + c]? = v[token' * (numKvHeads * headDim) + c]?

variable {token head d : ℕ} {caches : List F32 × List F32}

theorem Written.mono {token' head' d' : ℕ}
    (h : Written layout numBlocks blockSize numKvHeads headDim k v slots token head d caches)
    (hle : ∀ t s, slots[t]? = some s → ∀ h < numKvHeads, ∀ e < headDim,
      Before t h e token' head' d' → Before t h e token head d) :
    Written layout numBlocks blockSize numKvHeads headDim k v slots token' head' d' caches where
  kLength := h.kLength
  vLength := h.vLength
  holds t s hs h' hh' e he hb := h.holds t s hs h' hh' e he (hle t s hs h' hh' e he hb)

theorem Written.element (hbs : 0 < blockSize)
    (hslots : SlotsAgree numBlocks blockSize numKvHeads headDim k v slots)
    (h : Written layout numBlocks blockSize numKvHeads headDim k v slots token head d caches)
    {slot : ℤ} (hslot : slots[token]? = some slot) (hhead : head < numKvHeads)
    (hd : d < headDim) :
    ∃ caches',
      writeElement layout k v blockSize numKvHeads headDim slot.toNat token head d caches =
        some caches' ∧
      Written layout numBlocks blockSize numKvHeads headDim k v slots token head (d + 1)
        caches' := by
  have hmem : slot ∈ slots := List.mem_of_getElem? hslot
  have htoken : token < slots.length := (List.getElem?_eq_some_iff.mp hslot).1
  have hc : head * headDim + d < numKvHeads * headDim := block_lt hhead hd
  have hsrc : token * (numKvHeads * headDim) + (head * headDim + d) <
      slots.length * (numKvHeads * headDim) := block_lt htoken hc
  rw [← Nat.add_assoc] at hsrc
  have hdst : cell layout blockSize numKvHeads headDim slot head d <
      (layout.shape numBlocks blockSize numKvHeads headDim).prod :=
    KvLayout.offset_lt layout (hslots.inside slot hmem).2 (Nat.mod_lt _ hbs) hhead hd
  obtain ⟨x, hx⟩ : ∃ x, k[token * (numKvHeads * headDim) + head * headDim + d]? = some x :=
    ⟨_, List.getElem?_eq_getElem (hslots.kLength ▸ hsrc)⟩
  obtain ⟨y, hy⟩ : ∃ y, v[token * (numKvHeads * headDim) + head * headDim + d]? = some y :=
    ⟨_, List.getElem?_eq_getElem (hslots.vLength ▸ hsrc)⟩
  have hwrite :
      writeElement layout k v blockSize numKvHeads headDim slot.toNat token head d caches =
      some (caches.1.set (cell layout blockSize numKvHeads headDim slot head d) x,
        caches.2.set (cell layout blockSize numKvHeads headDim slot head d) y) := by
    have hk := h.kLength
    have hv := h.vLength
    unfold cell at hdst ⊢
    simp only [writeElement, hx, hy]
    exact if_neg (by omega)
  refine ⟨_, hwrite, ?_, ?_, ?_⟩
  · rw [List.length_set, h.kLength]
  · rw [List.length_set, h.vLength]
  · intro t s hs h' hh' e he hb
    have hinside := hslots.inside s (List.mem_of_getElem? hs)
    by_cases hcell : cell layout blockSize numKvHeads headDim slot head d =
        cell layout blockSize numKvHeads headDim s h' e
    · -- a token that shares the slot has the same keys and values
      obtain ⟨hdiv, hmod, rfl, rfl⟩ := KvLayout.offset_inj (Nat.mod_lt _ hbs) hhead hd
        (Nat.mod_lt _ hbs) hh' he hcell
      have hnat : slot.toNat = s.toNat := by
        rw [← Nat.div_add_mod slot.toNat blockSize, hdiv, hmod, Nat.div_add_mod]
      obtain rfl : slot = s := by
        have := (hslots.inside slot hmem).1
        omega
      obtain ⟨hk, hv⟩ := hslots.agree token t slot hslot hs _ hc
      rw [List.getElem?_set_self (h.kLength ▸ hdst), List.getElem?_set_self (h.vLength ▸ hdst),
        ← hx, ← hy, Nat.add_assoc, Nat.add_assoc]
      exact ⟨hk, hv⟩
    · rw [List.getElem?_set_ne hcell, List.getElem?_set_ne hcell]
      refine h.holds t s hs h' hh' e he ?_
      by_cases heq : t = token ∧ h' = head ∧ e = d
      · obtain ⟨rfl, rfl, rfl⟩ := heq
        obtain rfl : slot = s := Option.some.inj (hslot.symm.trans hs)
        exact absurd rfl hcell
      · unfold Before at hb ⊢
        omega

theorem writeKvHost_ok (hbs : 0 < blockSize)
    (hslots : SlotsAgree numBlocks blockSize numKvHeads headDim k v slots)
    (hk : kCache.length = (layout.shape numBlocks blockSize numKvHeads headDim).prod)
    (hv : vCache.length = (layout.shape numBlocks blockSize numKvHeads headDim).prod) :
    ∃ caches,
      writeKvHost kCache vCache layout k v slots blockSize numKvHeads headDim = some caches ∧
      Written layout numBlocks blockSize numKvHeads headDim k v slots slots.length 0 0 caches := by
  unfold writeKvHost
  dsimp only
  rw [if_neg (by simp [hslots.kLength, hslots.vLength, hbs.ne'])]
  refine foldlM_zipIdx_inv (m := Option)
    (fun t => Written layout numBlocks blockSize numKvHeads headDim k v slots t 0 0)
    ⟨hk, hv, fun t s _ h' _ e _ hb => by unfold Before at hb; omega⟩ ?_
  intro token slot hslot caches hw
  have hpos := (hslots.inside slot (List.mem_of_getElem? hslot)).1
  dsimp only
  rw [if_neg (Int.not_lt.mpr hpos)]
  have hrow : ∀ head < numKvHeads, ∀ caches,
      Written layout numBlocks blockSize numKvHeads headDim k v slots token head 0 caches →
      ∃ caches', (List.range headDim).foldlM (fun caches d => writeElement layout k v blockSize
          numKvHeads headDim slot.toNat token head d caches) caches = some caches' ∧
        Written layout numBlocks blockSize numKvHeads headDim k v slots token (head + 1) 0
          caches' := by
    intro head hhead caches hw
    obtain ⟨caches', heq, hw'⟩ := foldlM_range_inv (m := Option) (n := headDim)
      (fun d => Written layout numBlocks blockSize numKvHeads headDim k v slots token head d) hw
      fun d hd caches hw => hw.element hbs hslots hslot hhead hd
    refine ⟨caches', heq, hw'.mono fun t s _ h' _ e he hb => ?_⟩
    unfold Before at hb ⊢
    omega
  obtain ⟨caches', heq, hw'⟩ := foldlM_range_inv (m := Option) (n := numKvHeads)
    (fun head => Written layout numBlocks blockSize numKvHeads headDim k v slots token head 0) hw
    hrow
  refine ⟨caches', heq, hw'.mono fun t s _ h' hh' e _ hb => ?_⟩
  unfold Before at hb ⊢
  omega

end Write

/-! ## Attending -/

section Attend

variable {F32 F64 : Type} (ops : ScalarOps F32 F64) (spec : AttnSpec F32) (kScale vScale : F32)

/-- The capped logit of a query against a key. -/
def logit (query key : ℕ → F32) : F64 :=
  let dot := (List.range spec.headDim).foldl (fun dot d =>
    ops.add dot (ops.mul (ops.widen (query d)) (ops.mul (ops.widen (key d)) (ops.widen kScale))))
    ops.zero
  match spec.softCap with
  | none => ops.mul dot (ops.widen spec.scale)
  | some cap => ops.mul (ops.widen cap)
      (ops.tanh (ops.div (ops.mul dot (ops.widen spec.scale)) (ops.widen cap)))

/-- The weights of the positions from `winStart` to `pos`, not yet divided by their sum. -/
def weights (query : ℕ → F32) (key : ℕ → ℕ → F32) (winStart pos : ℕ) : List F64 :=
  expWeights ops ((List.range' winStart (pos + 1 - winStart)).map fun p =>
    logit ops spec kScale query (key p))

/-- The weighted sum of one dimension of the values. -/
def mix (ws : List F64) (value : ℕ → ℕ → F32) (winStart d : ℕ) : F64 :=
  ws.zipIdx.foldl (fun a (w, i) => ops.add a (ops.mul (ops.div w (ws.foldl ops.add ops.zero))
    (ops.mul (ops.widen (value (winStart + i) d)) (ops.widen vScale)))) ops.zero

/-- What one query head at a position makes of the keys and values of its sequence: causal
attention in a window, zeros when no weight is left. -/
def headRow (query : ℕ → F32) (key value : ℕ → ℕ → F32) (pos : ℕ) : List F32 :=
  let ws := weights ops spec kScale query key (winStart spec pos) pos
  if ops.isZero (ws.foldl ops.add ops.zero) then List.replicate spec.headDim ops.zero32
  else (List.range spec.headDim).map fun d =>
    ops.narrow (mix ops vScale ws value (winStart spec pos) d)

variable {ops spec kScale vScale}

theorem length_headRow {query : ℕ → F32} {key value : ℕ → ℕ → F32} {pos : ℕ} :
    (headRow ops spec kScale vScale query key value pos).length = spec.headDim := by
  unfold headRow
  dsimp only
  split
  · exact List.length_replicate
  · rw [List.length_map, List.length_range]

/-- Rows that can be read at the positions and dimensions that attention looks at. -/
def Readable (headDim start stop : ℕ) (row : ℕ → Option (ℕ → Option F32))
    (entry : ℕ → ℕ → F32) : Prop :=
  ∀ p, start ≤ p → p < stop → ∃ r, row p = some r ∧ ∀ d < headDim, r d = some (entry p d)

theorem zipIdx_map_range {α : Type} (n : ℕ) (f : ℕ → α) :
    ((List.range n).map f).zipIdx = (List.range n).map fun d => (f d, d) := by
  refine List.ext_getElem? fun i => ?_
  rw [List.getElem?_zipIdx, List.getElem?_map, List.getElem?_map]
  rcases Nat.lt_or_ge i n with hi | hi
  · rw [List.getElem?_range hi]
    simp
  · rw [List.getElem?_eq_none (by simpa using hi)]
    rfl

theorem logitAt_ok {query : ℕ → Option F32} {keyRow : ℕ → Option (ℕ → Option F32)}
    {entry key : ℕ → F32} {r : ℕ → Option F32} {p : ℕ}
    (hq : ∀ d < spec.headDim, query d = some (entry d)) (hr : keyRow p = some r)
    (hrow : ∀ d < spec.headDim, r d = some (key d)) :
    logitAt ops spec kScale query keyRow p = some (logit ops spec kScale entry key) := by
  unfold logitAt
  rw [hr, Option.bind_eq_bind, Option.bind_some]
  rw [foldlM_eq_pure (f := fun dot d => ops.add dot (ops.mul (ops.widen (entry d))
    (ops.mul (ops.widen (key d)) (ops.widen kScale))))]
  · rw [pure_bind]
    unfold logit
    cases spec.softCap <;> rfl
  · intro dot d hd
    rw [List.mem_range] at hd
    simp only [hq d hd, hrow d hd]
    rfl

theorem addValues_ok {valueRow : ℕ → Option (ℕ → Option F32)} {value : ℕ → ℕ → F32}
    {start stop headDim : ℕ} {ws : List F64} (hlen : ws.length ≤ stop - start)
    (hv : Readable headDim start stop valueRow value) (total : F64) :
    ws.zipIdx.foldlM (fun acc (w, i) =>
        addValues ops vScale valueRow (ops.div w total) (start + i) acc)
        (List.replicate headDim ops.zero) =
      some ((List.range headDim).map fun d => ws.zipIdx.foldl (fun a (w, i) => ops.add a
        (ops.mul (ops.div w total) (ops.mul (ops.widen (value (start + i) d))
          (ops.widen vScale)))) ops.zero) := by
  have hloop := foldlM_zipIdx_inv (m := Option) (l := ws)
    (b := fun acc (w, i) => addValues ops vScale valueRow (ops.div w total) (start + i) acc)
    (fun i acc => acc = (List.range headDim).map fun d =>
      (ws.zipIdx.take i).foldl (fun a (w, i) => ops.add a (ops.mul (ops.div w total)
        (ops.mul (ops.widen (value (start + i) d)) (ops.widen vScale)))) ops.zero)
    (s := List.replicate headDim ops.zero) (by simp) ?_
  · obtain ⟨acc, hacc, hinv⟩ := hloop
    rw [hacc, hinv, List.take_of_length_le (by simp)]
    rfl
  · rintro i w hw acc rfl
    have hi : i < ws.length := (List.getElem?_eq_some_iff.mp hw).1
    obtain ⟨r, hr, hrow⟩ := hv (start + i) (Nat.le_add_right _ _) (by omega)
    have htake : ws.zipIdx.take (i + 1) = ws.zipIdx.take i ++ [(w, i)] := by
      rw [List.take_add_one, List.getElem?_zipIdx, hw]
      simp
    refine ⟨_, ?_, rfl⟩
    dsimp only
    unfold addValues
    rw [hr, Option.bind_eq_bind, Option.bind_some, zipIdx_map_range, mapM_eq_pure (g := fun x =>
      ops.add x.1 (ops.mul (ops.div w total) (ops.mul (ops.widen (value (start + i) x.2))
        (ops.widen vScale))))]
    · rw [List.map_map, htake]
      simp only [List.foldl_append]
      rfl
    · intro x hx
      obtain ⟨d, hd, rfl⟩ := List.mem_map.mp hx
      simp only [hrow d (List.mem_range.mp hd)]
      rfl

theorem attend_ok {query : ℕ → Option F32} {keyRow valueRow : ℕ → Option (ℕ → Option F32)}
    {entry : ℕ → F32} {key value : ℕ → ℕ → F32} {start pos : ℕ}
    (hq : ∀ d < spec.headDim, query d = some (entry d))
    (hk : Readable spec.headDim start (pos + 1) keyRow key)
    (hv : Readable spec.headDim start (pos + 1) valueRow value) :
    attend ops spec kScale vScale query keyRow valueRow start pos =
      some (let ws := weights ops spec kScale entry key start pos
        if ops.isZero (ws.foldl ops.add ops.zero) then none
        else some ((List.range spec.headDim).map fun d => mix ops vScale ws value start d)) := by
  have hlogit : ∀ p ∈ List.range' start (pos + 1 - start),
      logitAt ops spec kScale query keyRow p = pure (logit ops spec kScale entry (key p)) := by
    intro p hp
    rw [List.mem_range'_1] at hp
    obtain ⟨r, hr, hrow⟩ := hk p hp.1 (by omega)
    exact logitAt_ok hq hr hrow
  have hlen : (weights ops spec kScale entry key start pos).length = pos + 1 - start := by
    simp [weights, expWeights]
  unfold attend
  rw [mapM_eq_pure hlogit, pure_bind, ← weights]
  dsimp only
  split
  · rfl
  · rw [addValues_ok hlen.le hv]
    rfl

theorem writeRow_ok {α : Type} (row before after old : List α) (hold : old.length = row.length) :
    writeRow (before ++ old ++ after) before.length row = some (before ++ row ++ after) := by
  have hloop := foldlM_zipIdx_inv (m := Option) (l := row)
    (b := fun out (a, d) =>
      if before.length + d < out.length then some (out.set (before.length + d) a) else none)
    (fun i out => out = before ++ (row.take i ++ (old.drop i ++ after)))
    (s := before ++ old ++ after) (by simp) ?_
  · obtain ⟨out, hout, hinv⟩ := hloop
    refine hout.trans (congrArg some ?_)
    rw [hinv, List.take_length, List.drop_eq_nil_of_le hold.le, List.nil_append,
      List.append_assoc]
  · rintro i a ha out rfl
    obtain ⟨hi, rfl⟩ := List.getElem?_eq_some_iff.mp ha
    refine ⟨_, if_pos (by simp; omega), ?_⟩
    rw [List.set_append_right _ _ (Nat.le_add_right _ _), Nat.add_sub_cancel_left,
      List.set_append_right _ _ (List.length_take_le _ _), List.length_take_of_le hi.le,
      Nat.sub_self, List.drop_eq_getElem_cons (hold ▸ hi), List.cons_append, List.set_cons_zero,
      List.take_add_one, ha]
    simp only [Option.toList_some, List.append_assoc, List.singleton_append]

/-- The loop over a sequence fills the next stretch of the output with the rows of its heads. -/
theorem attendSeq_ok {q : List F32} {keyRow valueRow : ℕ → ℕ → Option (ℕ → Option F32)}
    (entry : ℕ → F32) (key value : ℕ → ℕ → ℕ → F32) {qBegin qLen kvLen : ℕ} (hle : qLen ≤ kvLen)
    (hq : ∀ i < (qBegin + qLen) * (spec.numQHeads * spec.headDim), q[i]? = some (entry i))
    (hk : ∀ head < spec.numQHeads, Readable spec.headDim 0 kvLen
      (keyRow (head / (spec.numQHeads / spec.numKvHeads)))
      (key (head / (spec.numQHeads / spec.numKvHeads))))
    (hv : ∀ head < spec.numQHeads, Readable spec.headDim 0 kvLen
      (valueRow (head / (spec.numQHeads / spec.numKvHeads)))
      (value (head / (spec.numQHeads / spec.numKvHeads))))
    {before after : List F32} (hbefore : before.length = qBegin * (spec.numQHeads * spec.headDim)) :
    attendSeq ops spec kScale vScale q keyRow valueRow qBegin qLen kvLen
        (before ++ List.replicate (qLen * (spec.numQHeads * spec.headDim)) ops.zero32 ++ after) =
      some (before ++ ((List.range qLen).flatMap fun j => (List.range spec.numQHeads).flatMap
        fun head => headRow ops spec kScale vScale
          (fun d =>
            entry ((qBegin + j) * (spec.numQHeads * spec.headDim) + head * spec.headDim + d))
          (key (head / (spec.numQHeads / spec.numKvHeads)))
          (value (head / (spec.numQHeads / spec.numKvHeads))) (kvLen - qLen + j)) ++ after) := by
  have hlenToken : ∀ j, ((List.range spec.numQHeads).flatMap fun head =>
      headRow ops spec kScale vScale
        (fun d => entry ((qBegin + j) * (spec.numQHeads * spec.headDim) + head * spec.headDim + d))
        (key (head / (spec.numQHeads / spec.numKvHeads)))
        (value (head / (spec.numQHeads / spec.numKvHeads))) (kvLen - qLen + j)).length =
      spec.numQHeads * spec.headDim := by
    intro j
    rw [length_flatMap_block fun _ _ => length_headRow, List.length_range]
  have hlen : ∀ n, ((List.range n).flatMap fun j => (List.range spec.numQHeads).flatMap fun head =>
      headRow ops spec kScale vScale
        (fun d => entry ((qBegin + j) * (spec.numQHeads * spec.headDim) + head * spec.headDim + d))
        (key (head / (spec.numQHeads / spec.numKvHeads)))
        (value (head / (spec.numQHeads / spec.numKvHeads))) (kvLen - qLen + j)).length =
      n * (spec.numQHeads * spec.headDim) := by
    intro n
    rw [length_flatMap_block fun j _ => hlenToken j, List.length_range]
  unfold attendSeq
  rw [← hlen qLen]
  refine foldlM_fill before after fun j hj pre post hpre => ?_
  rw [hlen, hbefore, ← Nat.add_mul] at hpre
  have hsub : checkedSub kvLen qLen = some (kvLen - qLen) := if_pos hle
  rw [hsub, Option.bind_eq_bind, Option.bind_some]
  refine foldlM_fill pre post fun head hhead pre' post' hpre' => ?_
  rw [length_flatMap_block fun _ _ => length_headRow, List.length_range, hpre] at hpre'
  have hpos : kvLen - qLen + j + 1 ≤ kvLen := by omega
  have hrow : (qBegin + j) * spec.numQHeads * spec.headDim + head * spec.headDim =
      pre'.length := by
    rw [hpre', Nat.mul_assoc]
  have hentry : ∀ d < spec.headDim, q[(qBegin + j) * spec.numQHeads * spec.headDim +
      head * spec.headDim + d]? =
      some (entry ((qBegin + j) * (spec.numQHeads * spec.headDim) + head * spec.headDim + d)) := by
    intro d hd
    rw [Nat.mul_assoc]
    refine hq _ ?_
    have hlt := block_lt (m := spec.numQHeads * spec.headDim) (Nat.add_lt_add_left hj qBegin)
      (block_lt hhead hd)
    omega
  have hattend : attend ops spec kScale vScale _ _ _ (winStart spec (kvLen - qLen + j))
      (kvLen - qLen + j) = _ := attend_ok hentry
    (fun p _ hp => hk head hhead p p.zero_le (hp.trans_le hpos))
    (fun p _ hp => hv head hhead p p.zero_le (hp.trans_le hpos))
  dsimp only
  rw [hattend, Option.bind_eq_bind, Option.bind_some, length_headRow, hrow]
  unfold headRow
  generalize weights ops spec kScale _ _ _ _ = ws
  dsimp only
  cases ops.isZero (ws.foldl ops.add ops.zero) with
  | true => rfl
  | false =>
    simp only [Bool.false_eq_true, if_false]
    refine (writeRow_ok _ pre' post' _ (by simp)).trans ?_
    rw [List.map_map]
    rfl

end Attend

end Rllm
