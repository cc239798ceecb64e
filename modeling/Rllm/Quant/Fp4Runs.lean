import Rllm.Quant.Fp4

/-! # Runs of the FP4 formats

What quantizing and dequantizing give at each entry, and that a second run gives
the same again: the greatest entry of a group keeps a code at which the next scale
represents all that is left.
-/

namespace Rllm

namespace Fp4

/-! ## What the loops compute -/

variable (scaleOf : ℚ → ℚ) (wData : List ℚ) (groupSize : ℕ)

def groupMax (n : ℕ) : ℚ :=
  maxAbs ((List.range groupSize).map fun k => wData.getD (n * groupSize + k) 0)

def groupScale (n : ℕ) : ℚ := scaleOf (groupMax wData groupSize n)

/-- The entry in scales of its group. -/
def scaled (e : ℕ) : ℚ := wData.getD e 0 / groupScale scaleOf wData groupSize (e / groupSize)

def byteAt (p : ℕ) : UInt8 :=
  findClosestFp4 (scaled scaleOf wData groupSize (2 * p)) |||
    findClosestFp4 (scaled scaleOf wData groupSize (2 * p + 1)) <<< 4

variable {scaleOf wData groupSize} {rows numGroups half : ℕ}

theorem groupAbsMax_ok {start n : ℕ} (hstart : start = n * groupSize)
    (hlen : (n + 1) * groupSize ≤ wData.length) :
    groupAbsMax wData start groupSize = .ok (groupMax wData groupSize n) := by
  subst hstart
  rw [Nat.succ_mul] at hlen
  rw [groupMax, maxAbs, List.foldl_map]
  refine foldlM_eq_pure (fun absMax k hk => ?_) 0
  have hk := List.mem_range.mp hk
  rw [Checked.index_getD 0 (by omega), ok_bind]

theorem quantizeGroup_ok {o g : ℕ} {qData : List UInt8} (ho : o < rows) (hg : g < numGroups)
    (hlen : wData.length = rows * (numGroups * (2 * half)))
    (hq : Filled (byteAt scaleOf wData (2 * half)) (rows * numGroups * half)
      ((o * numGroups + g) * half) qData) :
    ∃ qData', quantizeGroup wData (groupScale scaleOf wData (2 * half) (o * numGroups + g))
        (numGroups * (2 * half)) (2 * half) o g qData = .ok qData' ∧
      Filled (byteAt scaleOf wData (2 * half)) (rows * numGroups * half)
        ((o * numGroups + g) * half + half) qData' := by
  have hsteps : (2 * half + 1) / 2 = half := by omega
  have hbytes : numGroups * (2 * half) / 2 = numGroups * half := by
    rw [Nat.mul_left_comm, Nat.mul_div_cancel_left _ Nat.two_pos]
  rw [quantizeGroup, hsteps, hbytes]
  refine foldlM_range_inv (fun j => Filled (byteAt scaleOf wData (2 * half))
    (rows * numGroups * half) ((o * numGroups + g) * half + j)) hq fun j hj qData hq => ?_
  have hgroup : o * numGroups + g < rows * numGroups := block_lt ho hg
  have hplace : (o * numGroups + g) * half + j < rows * numGroups * half := block_lt hgroup hj
  have hp : o * (numGroups * half) + (g * (2 * half) + 2 * j) / 2 =
      (o * numGroups + g) * half + j := by
    rw [Nat.mul_left_comm g, ← Nat.mul_add, Nat.mul_div_cancel_left _ Nat.two_pos]
    ring
  have h0 : o * (numGroups * (2 * half)) + (g * (2 * half) + 2 * j) =
      2 * ((o * numGroups + g) * half + j) := by ring
  have h1 : o * (numGroups * (2 * half)) + (g * (2 * half) + 2 * j + 1) =
      2 * ((o * numGroups + g) * half + j) + 1 := by ring
  have hsize : wData.length = 2 * (rows * numGroups * half) := by rw [hlen]; ring
  have hdiv : ∀ b < 2, (2 * ((o * numGroups + g) * half + j) + b) / (2 * half) =
      o * numGroups + g := by
    intro b hb
    rw [← Nat.div_div_eq_div_mul, Nat.mul_comm 2, block_div hb, block_div hj]
  have hdiv0 : 2 * ((o * numGroups + g) * half + j) / (2 * half) = o * numGroups + g :=
    hdiv 0 Nat.two_pos
  refine ⟨_, ?_, hq.set hplace⟩
  dsimp only
  rw [h0, h1, hp, Checked.index_getD 0 (by omega), ok_bind, Checked.index_getD 0 (by omega),
    ok_bind, Checked.set_of_lt (hplace.trans_eq hq.length_eq.symm), byteAt, scaled, scaled, hdiv0,
    hdiv 1 Nat.one_lt_two]
  rfl

theorem quantizeGroups_ok (hhalf : 0 < half)
    (hlen : wData.length = rows * (numGroups * (2 * half))) :
    quantizeGroups scaleOf wData rows (numGroups * (2 * half)) (2 * half) =
      .ok ((List.range (rows * numGroups * half)).map (byteAt scaleOf wData (2 * half)),
        (List.range (rows * numGroups)).map (groupScale scaleOf wData (2 * half))) := by
  have hgroups : numGroups * (2 * half) / (2 * half) = numGroups :=
    Nat.mul_div_cancel _ (by omega)
  have hbytes : rows * (numGroups * (2 * half) / 2) = rows * numGroups * half := by
    rw [Nat.mul_left_comm numGroups, Nat.mul_div_cancel_left _ Nat.two_pos, Nat.mul_assoc]
  have hrun : ∃ s, (List.range rows).foldlM (fun s o => (List.range numGroups).foldlM (quantizeTurn
      scaleOf wData (numGroups * (2 * half)) (2 * half) numGroups o) s)
        (List.replicate (rows * numGroups * half) 0, List.replicate (rows * numGroups) 0) = .ok s ∧
      Filled (byteAt scaleOf wData (2 * half)) (rows * numGroups * half) (rows * numGroups * half)
        s.1 ∧
      Filled (groupScale scaleOf wData (2 * half)) (rows * numGroups) (rows * numGroups) s.2 := by
    refine foldlM_nested_inv (fun n (s : List UInt8 × List ℚ) =>
      Filled (byteAt scaleOf wData (2 * half)) (rows * numGroups * half) (n * half) s.1 ∧
        Filled (groupScale scaleOf wData (2 * half)) (rows * numGroups) n s.2) ?_ ?_
    · exact ⟨⟨List.length_replicate, fun p hp => by simp at hp⟩,
        ⟨List.length_replicate, fun p hp => absurd hp (Nat.not_lt_zero p)⟩⟩
    · rintro o ho g hg s ⟨hq, hscales⟩
      have hgroup : o * numGroups + g < rows * numGroups := block_lt ho hg
      have hstart : o * (numGroups * (2 * half)) + g * (2 * half) =
          (o * numGroups + g) * (2 * half) := by ring
      have hend : (o * numGroups + g + 1) * (2 * half) ≤ wData.length := by
        rw [hlen]
        exact (Nat.mul_le_mul_right (2 * half) hgroup).trans_eq (Nat.mul_assoc ..)
      obtain ⟨q, hquant, hq'⟩ := quantizeGroup_ok ho hg hlen hq
      refine ⟨(q, _), ?_, (Nat.succ_mul (o * numGroups + g) half).symm ▸ hq', hscales.set hgroup⟩
      rw [quantizeTurn, groupAbsMax_ok hstart hend, ok_bind]
      dsimp only
      rw [Checked.set_of_lt (hgroup.trans_eq hscales.length_eq.symm), ok_bind]
      change (quantizeGroup wData (groupScale scaleOf wData (2 * half) (o * numGroups + g))
        _ _ _ _ _ >>= _) = _
      rw [hquant, ok_bind]
      rfl
  obtain ⟨⟨q, scales⟩, hs, hq, hscales⟩ := hrun
  obtain rfl : q = _ := hq.eq_map
  obtain rfl : scales = _ := hscales.eq_map
  rw [quantizeGroups, hgroups, hbytes, hs]

/-- The code of an entry within its byte. -/
def codeOf (byte : UInt8) (e : ℕ) : UInt8 := if e % 2 = 0 then byte &&& 0x0F else byte >>> 4

theorem codeOf_lt (byte : UInt8) (e : ℕ) : (codeOf byte e).toNat < fp4Values.length := by
  change _ < 16
  rw [codeOf]
  split
  · rw [UInt8.toNat_and]
    exact Nat.and_lt_two_pow _ (show (0x0F : UInt8).toNat < 2 ^ 4 by decide)
  · have hlt := byte.toNat_lt
    rw [UInt8.toNat_shiftRight, Nat.shiftRight_eq_div_pow]
    exact Nat.div_lt_of_lt_mul hlt

def entryAt (qData : List UInt8) (scales : List ℚ) (groupSize e : ℕ) : ℚ :=
  fp4Values.getD (codeOf (qData.getD (e / 2) 0) e).toNat 0 * scales.getD (e / groupSize) 0

variable {qData : List UInt8} {scales : List ℚ}

theorem dequantizeEntry_ok {o g k : ℕ} {dequant : List ℚ} (ho : o < rows) (hg : g < numGroups)
    (hk : k < 2 * half) (hq : qData.length = rows * numGroups * half)
    (hd : Filled (entryAt qData scales (2 * half)) (rows * numGroups * (2 * half))
      ((o * numGroups + g) * (2 * half) + k) dequant) :
    ∃ dequant', dequantizeEntry qData (scales.getD (o * numGroups + g) 0) (numGroups * (2 * half))
        (2 * half) o g dequant k = .ok dequant' ∧
      Filled (entryAt qData scales (2 * half)) (rows * numGroups * (2 * half))
        ((o * numGroups + g) * (2 * half) + (k + 1)) dequant' := by
  have hgroup : o * numGroups + g < rows * numGroups := block_lt ho hg
  have hplace : (o * numGroups + g) * (2 * half) + k < rows * numGroups * (2 * half) :=
    block_lt hgroup hk
  have hidx : o * (numGroups * (2 * half)) + (g * (2 * half) + k) =
      (o * numGroups + g) * (2 * half) + k := by ring
  have hsplit : (o * numGroups + g) * (2 * half) + k =
      g * (2 * half) + k + 2 * (o * (numGroups * half)) := by ring
  have hbyte : o * (numGroups * (2 * half) / 2) + (g * (2 * half) + k) / 2 =
      ((o * numGroups + g) * (2 * half) + k) / 2 := by
    rw [Nat.mul_left_comm numGroups, Nat.mul_div_cancel_left _ Nat.two_pos, hsplit]
    omega
  have hparity : (g * (2 * half) + k) % 2 = ((o * numGroups + g) * (2 * half) + k) % 2 := by
    rw [hsplit]
    omega
  have hlt : ((o * numGroups + g) * (2 * half) + k) / 2 < qData.length := by
    rw [hq]
    have hdouble : rows * numGroups * (2 * half) = 2 * (rows * numGroups * half) := by ring
    omega
  refine ⟨_, ?_, hd.set hplace⟩
  rw [dequantizeEntry]
  dsimp only
  rw [hbyte, hparity, hidx, Checked.index_getD 0 hlt, ok_bind]
  change (Checked.index fp4Values (codeOf (qData.getD _ 0) _).toNat >>= _) = _
  rw [Checked.index_getD 0 (codeOf_lt _ _), ok_bind,
    Checked.set_of_lt (hplace.trans_eq hd.length_eq.symm), entryAt, block_div hk]

theorem dequantizeGroups_ok (hhalf : 0 < half) (hq : qData.length = rows * numGroups * half)
    (hs : scales.length = rows * numGroups) :
    dequantizeGroups qData scales rows (numGroups * (2 * half)) (2 * half) =
      .ok ((List.range (rows * numGroups * (2 * half))).map (entryAt qData scales (2 * half))) := by
  have hgroups : numGroups * (2 * half) / (2 * half) = numGroups :=
    Nat.mul_div_cancel _ (by omega)
  have hrun : ∃ d, (List.range rows).foldlM (fun d o => (List.range numGroups).foldlM
      (dequantizeTurn qData scales (numGroups * (2 * half)) (2 * half) numGroups o) d)
        (List.replicate (rows * numGroups * (2 * half)) 0) = .ok d ∧
      Filled (entryAt qData scales (2 * half)) (rows * numGroups * (2 * half))
        (rows * numGroups * (2 * half)) d := by
    refine foldlM_nested_inv (fun n d => Filled (entryAt qData scales (2 * half))
      (rows * numGroups * (2 * half)) (n * (2 * half)) d) ?_ ?_
    · exact ⟨List.length_replicate, fun p hp => by simp at hp⟩
    · intro o ho g hg d hd
      have hgroup : o * numGroups + g < scales.length := hs ▸ block_lt ho hg
      rw [dequantizeTurn, Checked.index_getD 0 hgroup, ok_bind,
        Nat.succ_mul (o * numGroups + g) (2 * half)]
      exact foldlM_range_inv (fun k => Filled (entryAt qData scales (2 * half))
        (rows * numGroups * (2 * half)) ((o * numGroups + g) * (2 * half) + k)) hd
        fun k hk d hd => dequantizeEntry_ok ho hg hk hq hd
  obtain ⟨d, hd, hfilled⟩ := hrun
  rw [dequantizeGroups, hgroups, ← Nat.mul_assoc rows, hd, hfilled.eq_map]

/-! ## One run -/

theorem codeOf_pair {code0 code1 : UInt8} (h0 : code0.toNat < 16) (h1 : code1.toNat < 16) (e : ℕ) :
    codeOf (code0 ||| code1 <<< 4) e = if e % 2 = 0 then code0 else code1 := by
  have hall : ∀ a < 16, ∀ b < 16,
      (UInt8.ofNat a ||| UInt8.ofNat b <<< 4) &&& 0x0F = UInt8.ofNat a ∧
        (UInt8.ofNat a ||| UInt8.ofNat b <<< 4) >>> 4 = UInt8.ofNat b := by
    decide +kernel
  have hpair := hall _ h0 _ h1
  rw [UInt8.ofNat_toNat, UInt8.ofNat_toNat] at hpair
  rw [codeOf, hpair.1, hpair.2]

variable (scaleOf wData groupSize rows numGroups half) in
/-- The entry that a run gives. -/
def runAt (e : ℕ) : ℚ :=
  entryAt ((List.range (rows * numGroups * half)).map (byteAt scaleOf wData (2 * half)))
    ((List.range (rows * numGroups)).map (groupScale scaleOf wData (2 * half))) (2 * half) e

variable (wData) in
theorem abs_le_groupMax (hgs : 0 < groupSize) (e : ℕ) :
    |wData.getD e 0| ≤ groupMax wData groupSize (e / groupSize) := by
  refine abs_le_maxAbs (List.mem_map.mpr ⟨e % groupSize, ?_, ?_⟩)
  · exact List.mem_range.mpr (Nat.mod_lt e hgs)
  · rw [Nat.div_add_mod']

theorem mul_scale_mem {n : ℕ} {w : List ℚ} {s : ℚ} {c : ℕ → ℚ} (hs : 0 < s)
    (hc : ∀ k < groupSize, c k ∈ fp4Values ∧ w.getD (n * groupSize + k) 0 = c k * s)
    (hstable : ∀ m ∈ fp4Values, (∀ k < groupSize, |c k| ≤ m) → ∀ k < groupSize,
      ∃ c' ∈ fp4Values, c k * s = c' * scaleOf (m * s)) {k : ℕ} (hk : k < groupSize) :
    ∃ c' ∈ fp4Values, w.getD (n * groupSize + k) 0 = c' * groupScale scaleOf w groupSize n := by
  have habs : ∀ k < groupSize, |w.getD (n * groupSize + k) 0| = |c k| * s := by
    intro k hk
    rw [(hc k hk).2, abs_mul, abs_of_pos hs]
  have hle : ∀ k < groupSize, |c k| ≤ groupMax w groupSize n / s := by
    intro k hk
    rw [le_div_iff₀ hs, ← habs k hk]
    exact abs_le_maxAbs (List.mem_map.mpr ⟨k, List.mem_range.mpr hk, rfl⟩)
  have hmem : groupMax w groupSize n / s ∈ fp4Values := by
    rcases maxAbs_attained ((List.range groupSize).map fun k => w.getD (n * groupSize + k) 0) with
      hzero | ⟨v, hv, hmax⟩
    · rw [groupMax, hzero, zero_div]
      exact List.mem_cons_self
    · obtain ⟨k, hk, rfl⟩ := List.mem_map.mp hv
      have hk := List.mem_range.mp hk
      rw [groupMax, ← hmax, habs k hk, mul_div_cancel_right₀ _ hs.ne']
      exact abs_mem (hc k hk).1
  obtain ⟨c', hc', heq⟩ := hstable _ hmem hle k hk
  rw [div_mul_cancel₀ _ hs.ne'] at heq
  exact ⟨c', hc', (hc k hk).2.trans heq⟩

variable (hrule : IsScaleRule scaleOf)
include hrule

variable (wData groupSize) in
theorem groupScale_pos (n : ℕ) : 0 < groupScale scaleOf wData groupSize n :=
  hrule.pos (maxAbs_nonneg _)

variable (wData) in
theorem abs_le_six_scales (hgs : 0 < groupSize) (e : ℕ) :
    |wData.getD e 0| ≤ 6 * groupScale scaleOf wData groupSize (e / groupSize) :=
  (abs_le_groupMax wData hgs e).trans (hrule.le_six (maxAbs_nonneg _))

variable (wData) in
theorem abs_scaled_le (hgs : 0 < groupSize) (e : ℕ) :
    |scaled scaleOf wData groupSize e| ≤ 6 := by
  have hpos := groupScale_pos wData groupSize hrule (e / groupSize)
  rw [scaled, abs_div, abs_of_pos hpos, div_le_iff₀ hpos]
  exact abs_le_six_scales wData hrule hgs e

variable (wData) in
theorem runAt_eq (hhalf : 0 < half) {e : ℕ} (he : e < rows * numGroups * (2 * half)) :
    ∃ c, IsNearest fp4Values (scaled scaleOf wData (2 * half) e) c ∧
      runAt scaleOf wData rows numGroups half e =
        c * groupScale scaleOf wData (2 * half) (e / (2 * half)) := by
  have hgs : 0 < 2 * half := by omega
  obtain ⟨c, hget, hnearest⟩ := findClosestFp4_spec (abs_scaled_le wData hrule hgs e)
  have hcode : ∀ e, (findClosestFp4 (scaled scaleOf wData (2 * half) e)).toNat < 16 := fun e => by
    obtain ⟨c, hget, -⟩ := findClosestFp4_spec (abs_scaled_le wData hrule hgs e)
    exact (List.getElem?_eq_some_iff.mp hget).1
  have hbyte : e / 2 < rows * numGroups * half := by
    have hdouble : rows * numGroups * (2 * half) = 2 * (rows * numGroups * half) := by ring
    omega
  have hgroup : e / (2 * half) < rows * numGroups :=
    Nat.div_lt_of_lt_mul (by rwa [Nat.mul_comm])
  refine ⟨c, hnearest, ?_⟩
  have hplace : codeOf (byteAt scaleOf wData (2 * half) (e / 2)) e =
      findClosestFp4 (scaled scaleOf wData (2 * half) e) := by
    rw [byteAt, codeOf_pair (hcode _) (hcode _)]
    split
    · congr 2
      omega
    · congr 2
      omega
  rw [runAt, entryAt, getD_map_range 0 hbyte, getD_map_range 0 hgroup, hplace,
    List.getD_eq_getElem?_getD, hget, Option.getD_some]

theorem scaled_mem (hhalf : 0 < half) {w : List ℚ} {n k : ℕ} (hn : n < rows * numGroups)
    (hk : k < 2 * half) (h : ∀ e < rows * numGroups * (2 * half),
      w.getD e 0 = runAt scaleOf wData rows numGroups half e) :
    ∃ c' ∈ fp4Values,
      w.getD (n * (2 * half) + k) 0 = c' * groupScale scaleOf w (2 * half) n := by
  have hs := groupScale_pos wData (2 * half) hrule n
  have hcodes : ∀ k < 2 * half, ∃ c,
      IsNearest fp4Values (scaled scaleOf wData (2 * half) (n * (2 * half) + k)) c ∧
        w.getD (n * (2 * half) + k) 0 = c * groupScale scaleOf wData (2 * half) n := by
    intro k hk
    obtain ⟨c, hc, hrun⟩ := runAt_eq wData hrule hhalf (block_lt hn hk)
    rw [block_div hk] at hrun
    exact ⟨c, hc, (h _ (block_lt hn hk)).trans hrun⟩
  choose! c hc hw using hcodes
  refine mul_scale_mem hs (fun k hk => ⟨(hc k hk).1, hw k hk⟩) (fun m hm hle k' hk' => ?_) hk
  rcases (maxAbs_nonneg ((List.range (2 * half)).map fun k =>
    wData.getD (n * (2 * half) + k) 0)).eq_or_lt with hzero | hpos
  · -- a group of zeros
    have hvalue : wData.getD (n * (2 * half) + k') 0 = 0 := by
      have hle := abs_le_groupMax wData (by omega : 0 < 2 * half) (n * (2 * half) + k')
      rw [block_div hk', groupMax, ← hzero] at hle
      exact abs_nonpos_iff.mp hle
    have hnear := hc k' hk'
    rw [scaled, hvalue, zero_div] at hnear
    rw [hnear.eq_of_mem List.mem_cons_self, zero_mul]
    exact ⟨0, List.mem_cons_self, (zero_mul _).symm⟩
  · obtain ⟨v, hv, hmax⟩ := (maxAbs_attained _).resolve_left hpos.ne'
    obtain ⟨k₀, hk₀, rfl⟩ := List.mem_map.mp hv
    have hk₀ := List.mem_range.mp hk₀
    refine hrule.stable hpos ?_ (hc k₀ hk₀) hm (hle k₀ hk₀) _ (hc k' hk').1 (hle k' hk')
    rw [scaled, block_div hk₀, abs_div, abs_of_pos hs, hmax]
    rfl

/-- A second run gives what the first one gave. -/
theorem runAt_again (hhalf : 0 < half) {w : List ℚ} (h : ∀ e < rows * numGroups * (2 * half),
      w.getD e 0 = runAt scaleOf wData rows numGroups half e) {e : ℕ}
    (he : e < rows * numGroups * (2 * half)) :
    runAt scaleOf w rows numGroups half e = w.getD e 0 := by
  have hgroup : e / (2 * half) < rows * numGroups :=
    Nat.div_lt_of_lt_mul (by rwa [Nat.mul_comm])
  obtain ⟨c, hc, hrun⟩ := runAt_eq w hrule hhalf he
  obtain ⟨c', hc', hw⟩ := scaled_mem hrule hhalf hgroup (Nat.mod_lt e (by omega)) h
  rw [Nat.div_add_mod'] at hw
  have hscaled : scaled scaleOf w (2 * half) e = c' := by
    rw [scaled, hw, mul_div_cancel_right₀ _ (groupScale_pos w (2 * half) hrule _).ne']
  rw [hscaled] at hc
  rw [hrun, hw, hc.eq_of_mem hc']

omit hrule

/-! ## Both formats -/

/-- The nearest multiple of a scale by a code, within one scale and without clipping. -/
structure IsNearestMultiple (v d s : ℚ) : Prop where
  scale_pos : 0 < s
  code : ∃ c ∈ fp4Values, d = c * s
  nearest : ∀ c ∈ fp4Values, |v - d| ≤ |v - c * s|
  error_le : |v - d| ≤ s
  abs_le : |v| ≤ 6 * s

theorem IsNearestMultiple.of_isNearest {v c s : ℚ} (hs : 0 < s) (h : |v| ≤ 6 * s)
    (hc : IsNearest fp4Values (v / s) c) : IsNearestMultiple v (c * s) s := by
  have hscale : ∀ c, |v - c * s| = |v / s - c| * s := by
    intro c
    rw [← abs_of_pos hs, ← abs_mul, abs_of_pos hs, sub_mul, div_mul_cancel₀ _ hs.ne']
  have hsix : |v / s| ≤ 6 := by rwa [abs_div, abs_of_pos hs, div_le_iff₀ hs]
  refine ⟨hs, ⟨c, hc.1, rfl⟩, fun c' hc' => ?_, ?_, h⟩
  · rw [hscale, hscale]
    exact mul_le_mul_of_nonneg_right (hc.2 c' hc') hs.le
  · rw [hscale]
    exact mul_le_of_le_one_left hs.le (abs_sub_le_one hsix hc)

/-- Every entry is rounded to its nearest multiple, and a second run changes nothing. -/
def RoundTrips (quantize : Tensor ℚ → Except String (Tensor UInt8 × Tensor ℚ))
    (restore : Tensor UInt8 → Tensor ℚ → Except String (Tensor ℚ)) (weight : Tensor ℚ)
    (rows cols groupSize : ℕ) : Prop :=
  ∃ qweight scales out, quantize weight = .ok (qweight, scales) ∧ restore qweight scales = .ok out ∧
    out.shape = [rows, cols] ∧
    (∀ o < rows, ∀ i < cols, ∃ v d s, weight.data[o * cols + i]? = some v ∧
      out.data[o * cols + i]? = some d ∧
      scales.data[o * (cols / groupSize) + i / groupSize]? = some s ∧ IsNearestMultiple v d s) ∧
    ∃ qweight' scales', quantize out = .ok (qweight', scales') ∧
      restore qweight' scales' = .ok out

/-- A quantizer by a scale rule, on matrices of one shape. -/
def Quantizes (scaleOf : ℚ → ℚ) (quantize : Tensor ℚ → Except String (Tensor UInt8 × Tensor ℚ))
    (rows numGroups half : ℕ) : Prop :=
  ∀ t : Tensor ℚ, t.shape = [rows, numGroups * (2 * half)] → ∃ q s, quantize t = .ok (q, s) ∧
    q.shape = [rows, numGroups * half] ∧ s.shape = [rows, numGroups] ∧
    q.data = (List.range (rows * numGroups * half)).map (byteAt scaleOf t.data (2 * half)) ∧
    s.data = (List.range (rows * numGroups)).map (groupScale scaleOf t.data (2 * half))

/-- What gives the entries of bytes and positive scales. -/
def Restores (restore : Tensor UInt8 → Tensor ℚ → Except String (Tensor ℚ))
    (rows numGroups half : ℕ) : Prop :=
  ∀ (q : Tensor UInt8) (s : Tensor ℚ), q.shape = [rows, numGroups * half] →
    s.shape = [rows, numGroups] → (∀ x ∈ s.data, 0 < x) →
    ∃ out, restore q s = .ok out ∧ out.shape = [rows, numGroups * (2 * half)] ∧
      out.data = (List.range (rows * numGroups * (2 * half))).map
        (entryAt q.data s.data (2 * half))

section Run

variable {quantize : Tensor ℚ → Except String (Tensor UInt8 × Tensor ℚ)}
  {restore : Tensor UInt8 → Tensor ℚ → Except String (Tensor ℚ)} {weight : Tensor ℚ}
  (hrule : IsScaleRule scaleOf) (hquantize : Quantizes scaleOf quantize rows numGroups half)
  (hrestore : Restores restore rows numGroups half)
include hrule hquantize hrestore

theorem run_ok {t : Tensor ℚ} (ht : t.shape = [rows, numGroups * (2 * half)]) :
    ∃ q s out, quantize t = .ok (q, s) ∧ restore q s = .ok out ∧
      out.shape = [rows, numGroups * (2 * half)] ∧
      s.data = (List.range (rows * numGroups)).map (groupScale scaleOf t.data (2 * half)) ∧
      out.data = (List.range (rows * numGroups * (2 * half))).map
        (runAt scaleOf t.data rows numGroups half) := by
  obtain ⟨q, s, hq, hqshape, hsshape, hqdata, hsdata⟩ := hquantize t ht
  have hpos : ∀ x ∈ s.data, 0 < x := by
    rw [hsdata]
    intro x hx
    obtain ⟨n, -, rfl⟩ := List.mem_map.mp hx
    exact groupScale_pos _ _ hrule n
  obtain ⟨out, hout, hshape, hdata⟩ := hrestore q s hqshape hsshape hpos
  refine ⟨q, s, out, hq, hout, hshape, hsdata, ?_⟩
  rw [hdata, hqdata, hsdata]
  rfl

theorem roundTrips (hhalf : 0 < half) (hshape : weight.shape = [rows, numGroups * (2 * half)]) :
    RoundTrips quantize restore weight rows (numGroups * (2 * half)) (2 * half) := by
  have hgroups : numGroups * (2 * half) / (2 * half) = numGroups :=
    Nat.mul_div_cancel _ (by omega)
  obtain ⟨q, s, out, hq, hout, houtshape, hs, hdata⟩ := run_ok hrule hquantize hrestore hshape
  obtain ⟨q', s', out', hq', hout', houtshape', -, hdata'⟩ :=
    run_ok hrule hquantize hrestore houtshape
  have hget : ∀ e < rows * numGroups * (2 * half),
      out.data.getD e 0 = runAt scaleOf weight.data rows numGroups half e := fun e he => by
    rw [hdata, getD_map_range 0 he]
  refine ⟨q, s, out, hq, hout, houtshape, fun o ho i hi => ?_, q', s', hq', ?_⟩
  · have hplace : o * (numGroups * (2 * half)) + i < rows * numGroups * (2 * half) := by
      rw [Nat.mul_assoc rows]
      exact block_lt ho hi
    have hg : i / (2 * half) < numGroups := Nat.div_lt_of_lt_mul (by rwa [Nat.mul_comm])
    have hgroup : (o * (numGroups * (2 * half)) + i) / (2 * half) =
        o * numGroups + i / (2 * half) := by
      rw [← Nat.mul_assoc, Nat.mul_comm _ (2 * half), Nat.mul_add_div (by omega)]
    have hlt : o * (numGroups * (2 * half)) + i < weight.data.length := by
      rw [weight.size_eq, hshape, List.prod_pair]
      exact block_lt ho hi
    obtain ⟨c, hc, hrun⟩ := runAt_eq weight.data hrule hhalf hplace
    rw [hgroups]
    rw [hgroup] at hrun
    have hle := abs_le_six_scales weight.data hrule (by omega : 0 < 2 * half)
      (o * (numGroups * (2 * half)) + i)
    rw [scaled, hgroup] at hc
    rw [hgroup] at hle
    refine ⟨_, _, _, ?_, ?_, ?_, .of_isNearest (groupScale_pos weight.data (2 * half) hrule _) hle
      hc⟩
    · rw [List.getD_eq_getElem?_getD, List.getElem?_eq_getElem hlt, Option.getD_some]
    · rw [hdata, List.getElem?_map, List.getElem?_range hplace, Option.map_some, hrun]
    · rw [hs, List.getElem?_map, List.getElem?_range (block_lt ho hg), Option.map_some]
  · rw [hout']
    refine congrArg Except.ok (Tensor.eq_of_data (houtshape'.trans houtshape.symm)
      (hdata'.trans (Eq.trans (List.map_congr_left fun e he => ?_) hdata.symm)))
    have he := List.mem_range.mp he
    rw [runAt_again hrule hhalf hget he, hget e he]

end Run

/-! ## MXFP and NVFP -/

theorem restores_dequantize {restore : Tensor UInt8 → Tensor ℚ → Except String (Tensor ℚ)}
    (hhalf : 0 < half)
    (h : ∀ (q : Tensor UInt8) (s : Tensor ℚ), q.shape = [rows, numGroups * half] →
      s.shape = [rows, numGroups] → (∀ x ∈ s.data, 0 < x) →
      restore q s = (do
        let dequant ← dequantizeGroups q.data s.data rows (numGroups * (2 * half)) (2 * half)
        Tensor.fromVec dequant [rows, numGroups * (2 * half)])) :
    Restores restore rows numGroups half := by
  intro q s hq hs hpos
  have hqlen : q.data.length = rows * numGroups * half := by
    rw [q.size_eq, hq, List.prod_pair, Nat.mul_assoc]
  have hslen : s.data.length = rows * numGroups := by rw [s.size_eq, hs, List.prod_pair]
  rw [h q s hq hs hpos, dequantizeGroups_ok hhalf hqlen hslen, ok_bind, Tensor.fromVec_ok]
  · exact ⟨_, rfl, rfl, rfl⟩
  · rw [List.length_map, List.length_range, List.prod_pair, Nat.mul_assoc]

theorem half_mul (numGroups half : ℕ) : numGroups * (2 * half) / 2 = numGroups * half := by
  rw [Nat.mul_left_comm, Nat.mul_div_cancel_left _ Nat.two_pos]

theorem quantizes_groups (hhalf : 0 < half)
    {quantize : Tensor ℚ → Except String (Tensor UInt8 × Tensor ℚ)}
    (h : ∀ t : Tensor ℚ, t.shape = [rows, numGroups * (2 * half)] → quantize t = (do
      let s ← quantizeGroups scaleOf t.data rows (numGroups * (2 * half)) (2 * half)
      let qweight ← Tensor.fromVec s.1 [rows, numGroups * (2 * half) / 2]
      let scaleTensor ← Tensor.fromVec s.2 [rows, numGroups * (2 * half) / (2 * half)]
      pure (qweight, scaleTensor))) :
    Quantizes scaleOf quantize rows numGroups half := by
  intro t ht
  have hlen : t.data.length = rows * (numGroups * (2 * half)) := by
    rw [t.size_eq, ht, List.prod_pair]
  rw [h t ht, quantizeGroups_ok hhalf hlen, ok_bind, half_mul,
    Nat.mul_div_cancel _ (by omega : 0 < 2 * half), Tensor.fromVec_ok, ok_bind, Tensor.fromVec_ok]
  · exact ⟨_, _, rfl, rfl, rfl, rfl, rfl⟩
  · rw [List.length_map, List.length_range, List.prod_pair]
  · rw [List.length_map, List.length_range, List.prod_pair, Nat.mul_assoc]

/-- Quantized weights back through the layer that holds them. -/
def mxfp4Restore (groupSize : ℕ) (qweight : Tensor UInt8) (scales : Tensor ℚ) :
    Except String (Tensor ℚ) := do
  let linear ← MxfpLinear.new qweight scales 4 groupSize
  linear.dequantizeMxfp4Cpu

def nvfp4Restore (groupSize : ℕ) (qweight : Tensor UInt8) (scales : Tensor ℚ) :
    Except String (Tensor ℚ) := do
  let linear ← NvfpLinear.new qweight scales groupSize
  linear.dequantizeNvfp4Cpu

theorem any_nonpos_eq_false {xs : List ℚ} (h : ∀ x ∈ xs, 0 < x) :
    xs.any (fun x => decide (x ≤ 0)) = false := by
  simpa using h

variable (hrows : 0 < rows) (hgroups : 0 < numGroups)
include hrows hgroups

theorem mxfp4_roundTrips (hhalf : 0 < half) {weight : Tensor ℚ}
    (hshape : weight.shape = [rows, numGroups * (2 * half)]) :
    RoundTrips (Mxfp.quantizeMxfp4Cpu · (2 * half)) (mxfp4Restore (2 * half)) weight rows
      (numGroups * (2 * half)) (2 * half) := by
  have hcols : 0 < numGroups * half := Nat.mul_pos hgroups hhalf
  have hdouble : numGroups * half * 2 = numGroups * (2 * half) := by ring
  have hgs : ¬ (2 * half = 0 ∨ numGroups * (2 * half) % (2 * half) ≠ 0 ∨
      (True ∧ 2 * half % 2 ≠ 0)) := by
    rw [Nat.mul_mod_left, Nat.mul_mod_right]
    omega
  refine roundTrips isScaleRule_powerOfTwo (quantizes_groups hhalf fun t ht => ?_)
    (restores_dequantize hhalf fun q s hq hs hpos => ?_) hhalf hshape
  · have hvalid : Mxfp.validateOnlineShape t.shape (2 * half) true =
        .ok (rows, numGroups * (2 * half)) := by
      rw [ht, Mxfp.validateOnlineShape, if_neg (by omega)]
      exact if_neg (by simpa using hgs)
    rw [Mxfp.quantizeMxfp4Cpu, hvalid, ok_bind]
  · have hnew : MxfpLinear.new q s 4 (2 * half) =
        .ok ⟨q, s, 4, 2 * half, numGroups * (2 * half), rows⟩ := by
      rw [MxfpLinear.new, hq]
      dsimp only
      rw [if_neg (by omega), if_neg (by decide), if_pos rfl, hdouble, if_neg (by simpa using hgs),
        Nat.mul_div_cancel _ (by omega), if_neg (by simp [hs]), any_nonpos_eq_false hpos]
      rfl
    rw [mxfp4Restore, hnew, ok_bind]
    rfl

theorem nvfp4_roundTrips {weight : Tensor ℚ} (hshape : weight.shape = [rows, numGroups * 16]) :
    RoundTrips (Nvfp.quantizeNvfp4Cpu · 16) (nvfp4Restore 16) weight rows (numGroups * 16) 16 := by
  have hcols : 0 < numGroups * 8 := by omega
  have hdouble : numGroups * 8 * 2 = numGroups * (2 * 8) := by omega
  have hgs : Nvfp.validateGroupSize (numGroups * (2 * 8)) 16 = .ok () :=
    if_neg (by simp)
  have hquantizes : Quantizes absmaxScale (Nvfp.quantizeNvfp4Cpu · 16) rows numGroups 8 := by
    refine quantizes_groups (by decide) fun t ht => ?_
    rw [Nvfp.quantizeNvfp4Cpu, ht]
    dsimp only
    rw [if_neg (by omega), hgs, ok_bind]
  have hrestores : Restores (nvfp4Restore 16) rows numGroups 8 := by
    refine restores_dequantize (by decide) fun q s hq hs hpos => ?_
    have hnew : NvfpLinear.new q s 16 = .ok ⟨q, s, 16, numGroups * (2 * 8), rows⟩ := by
      rw [NvfpLinear.new, hq]
      dsimp only
      rw [if_neg (by omega), hdouble, hgs, ok_bind, Nat.mul_div_cancel _ (by decide),
        if_neg (by simp [hs]), any_nonpos_eq_false hpos]
      rfl
    rw [nvfp4Restore, hnew, ok_bind]
    rfl
  exact roundTrips isScaleRule_absmax hquantizes hrestores (by decide) hshape

omit hrows hgroups

/-- Both formats round every entry to the nearest multiple of the scale of its group, and a second
run changes nothing, whatever the groups that the formats admit. -/
theorem fp4_roundTrips {cols : ℕ} (hrows : 0 < rows) (hcols : 0 < cols) {weight : Tensor ℚ}
    (hshape : weight.shape = [rows, cols]) :
    (∀ groupSize, 0 < groupSize → groupSize ∣ cols → 2 ∣ groupSize →
      RoundTrips (Mxfp.quantizeMxfp4Cpu · groupSize) (mxfp4Restore groupSize) weight rows cols
        groupSize) ∧
    (16 ∣ cols →
      RoundTrips (Nvfp.quantizeNvfp4Cpu · 16) (nvfp4Restore 16) weight rows cols 16) := by
  constructor
  · rintro groupSize hpos hdvd ⟨half, rfl⟩
    obtain ⟨numGroups, rfl⟩ := exists_eq_mul_left_of_dvd hdvd
    exact mxfp4_roundTrips hrows (Nat.pos_of_mul_pos_right hcols) (by omega) hshape
  · intro hdvd
    obtain ⟨numGroups, rfl⟩ := exists_eq_mul_left_of_dvd hdvd
    exact nvfp4_roundTrips hrows (by omega) hshape

/-- A row whose groups have scales of their own, one of them halved by the second run. -/
def halved : Tensor ℚ :=
  ⟨[1, 16], [7 / 2, 1, 0, 0, 1 / 3, -5, 9, 9, 1, 1, 1, 1, 1, 1, 1, 1], rfl⟩

theorem fp4_roundTrips_halved :
    RoundTrips (Mxfp.quantizeMxfp4Cpu · 2) (mxfp4Restore 2) halved 1 16 2 ∧
      RoundTrips (Nvfp.quantizeNvfp4Cpu · 16) (nvfp4Restore 16) halved 1 16 16 := by
  have hshape : halved.shape = [1, 16] := rfl
  have hboth := fp4_roundTrips Nat.one_pos (by decide) hshape
  exact ⟨hboth.1 2 (by decide) (by decide) (by decide), hboth.2 (by decide)⟩

end Fp4

end Rllm
