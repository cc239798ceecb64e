import Mathlib.Data.Finset.Card
import Mathlib.Data.Finset.Prod
import Mathlib.Data.List.Sort
import Mathlib.Order.BoundedOrder.Basic
import Rllm.Library.Tensor

/-! # Selections by score

The indices of a pool with the highest scores are the first ones of any order in
which the scores descend. A mask takes indices out of the pool by the least score,
as long as the pool has enough of them.
-/

namespace Rllm

namespace Selection

variable {V : Type*} [LinearOrder V] {score : ℕ → V} {pool : Finset ℕ} {k n : ℕ}
  {ids order : List ℕ}

/-- `k` indices of the pool such that none that is left out has a higher score. -/
structure Selects (score : ℕ → V) (pool : Finset ℕ) (k : ℕ) (ids : List ℕ) : Prop where
  nodup : ids.Nodup
  length_eq : ids.length = k
  mem_pool : ∀ i ∈ ids, i ∈ pool
  best : ∀ i ∈ ids, ∀ j ∈ pool, j ∉ ids → score j ≤ score i

theorem Selects.le_card (h : Selects score pool k ids) : k ≤ pool.card := by
  rw [← h.length_eq, ← List.toFinset_card_of_nodup h.nodup]
  exact Finset.card_le_card fun i hi => h.mem_pool i (List.mem_toFinset.mp hi)

theorem Selects.congr {score' : ℕ → V} (h : Selects score pool k ids)
    (he : ∀ i ∈ pool, score i = score' i) : Selects score' pool k ids := by
  refine ⟨h.nodup, h.length_eq, h.mem_pool, fun i hi j hj hne => ?_⟩
  rw [← he i (h.mem_pool i hi), ← he j hj]
  exact h.best i hi j hj hne

/-- An order of all indices in which the scores descend. -/
structure Descends (score : ℕ → V) (n : ℕ) (order : List ℕ) : Prop where
  perm : order.Perm (List.range n)
  pairwise : order.Pairwise fun i j => score j ≤ score i

theorem Descends.selects_take (h : Descends score n order) (hk : k ≤ n) :
    Selects score (Finset.range n) k (order.take k) := by
  have hlen : order.length = n := by rw [h.perm.length_eq, List.length_range]
  constructor
  · exact (h.perm.nodup_iff.mpr List.nodup_range).sublist (List.take_sublist k order)
  · exact List.length_take_of_le (hk.trans_eq hlen.symm)
  · intro i hi
    exact Finset.mem_range.mpr (List.mem_range.mp (h.perm.mem_iff.mp (List.mem_of_mem_take hi)))
  · intro i hi j hj hne
    have hj : j ∈ order.take k ++ order.drop k := by
      rw [List.take_append_drop]
      exact h.perm.mem_iff.mpr (List.mem_range.mpr (Finset.mem_range.mp hj))
    have hpairs := h.pairwise
    rw [← List.take_append_drop k order, List.pairwise_append] at hpairs
    exact hpairs.2.2 i hi j ((List.mem_append.mp hj).resolve_left hne)

/-- A selection by masked scores stays in the pool if the pool is large enough. -/
theorem Selects.of_mask [OrderBot V] (h : Selects (fun i => if i ∈ pool then score i else ⊥)
    (Finset.range n) k ids) (hpool : pool ⊆ Finset.range n) (hscore : ∀ i ∈ pool, score i ≠ ⊥)
    (hk : k ≤ pool.card) : Selects score pool k ids := by
  have hmem : ∀ i ∈ ids, i ∈ pool := by
    intro i hi
    by_contra hnot
    have hall : pool ⊆ ids.toFinset.erase i := by
      intro j hj
      refine Finset.mem_erase.mpr ⟨fun he => hnot (he ▸ hj), List.mem_toFinset.mpr ?_⟩
      by_contra hout
      have hle := h.best i hi j (hpool hj) hout
      rw [if_pos hj, if_neg hnot, le_bot_iff] at hle
      exact hscore j hj hle
    have hcard := Finset.card_le_card hall
    rw [Finset.card_erase_of_mem (List.mem_toFinset.mpr hi),
      List.toFinset_card_of_nodup h.nodup, h.length_eq] at hcard
    have hpos : 0 < k := by
      rw [← h.length_eq]
      exact List.length_pos_of_mem hi
    omega
  refine ⟨h.nodup, h.length_eq, hmem, fun i hi j hj hne => ?_⟩
  have hle := h.best i hi j (hpool hj) hne
  rwa [if_pos hj, if_pos (hmem i hi)] at hle

/-! ## Groups of one size -/

/-- The members of some groups of size `m`. -/
def members (m n : ℕ) (groups : List ℕ) : Finset ℕ :=
  (Finset.range n).filter fun i => i / m ∈ groups

theorem members_subset (m n : ℕ) (groups : List ℕ) : members m n groups ⊆ Finset.range n :=
  Finset.filter_subset _ _

theorem mem_members {m i : ℕ} {groups : List ℕ} :
    i ∈ members m n groups ↔ i < n ∧ i / m ∈ groups := by
  rw [members, Finset.mem_filter, Finset.mem_range]

theorem card_members {m g : ℕ} {groups : List ℕ} (hm : 0 < m) (hnodup : groups.Nodup)
    (hg : ∀ i ∈ groups, i < g) : (members m (g * m) groups).card = groups.length * m := by
  have himage : members m (g * m) groups =
      (groups.toFinset ×ˢ Finset.range m).image fun p => p.1 * m + p.2 := by
    ext i
    simp only [mem_members, Finset.mem_image, Finset.mem_product, List.mem_toFinset,
      Finset.mem_range, Prod.exists]
    constructor
    · rintro ⟨-, hi⟩
      exact ⟨i / m, i % m, ⟨hi, Nat.mod_lt i hm⟩, Nat.div_add_mod' i m⟩
    · rintro ⟨a, b, ⟨ha, hb⟩, rfl⟩
      have hdiv : (a * m + b) / m = a := by
        rw [Nat.mul_comm, Nat.mul_add_div hm, Nat.div_eq_of_lt hb, Nat.add_zero]
      rw [hdiv]
      exact ⟨block_lt (hg a ha) hb, ha⟩
  rw [himage, Finset.card_image_of_injOn, Finset.card_product, Finset.card_range,
    List.toFinset_card_of_nodup hnodup]
  rintro ⟨a, b⟩ hp ⟨a', b'⟩ hq he
  have hb := Finset.mem_range.mp (Finset.mem_product.mp hp).2
  have hb' := Finset.mem_range.mp (Finset.mem_product.mp hq).2
  exact Prod.ext_iff.mpr (block_inj hb hb' he)

end Selection

end Rllm
