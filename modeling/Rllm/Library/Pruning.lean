import Mathlib.Data.List.Sort

/-! # Pruning

Candidates are ranked by a key, and only the first of them are kept. How many
candidates are ahead of one decides whether it is kept, so pruning the parts of
a collection before the whole loses nothing, and what a later filter keeps of
the first candidates can be told from counts.
-/

namespace Rllm

namespace Pruning

variable {α κ : Type*} [LinearOrder κ] (key : α → κ)

/-- The candidates in the order of their keys. -/
def ranked (xs : List α) : List α := xs.insertionSort fun x y => key x ≤ key y

/-- The number of candidates ahead of one. -/
def ahead (xs : List α) (x : α) : ℕ := (xs.filter fun y => key y < key x).length

variable {key} {xs ys : List α} {x : α} {n : ℕ}

theorem ranked_perm (xs : List α) : (ranked key xs).Perm xs := List.perm_insertionSort _ xs

theorem mem_ranked : x ∈ ranked key xs ↔ x ∈ xs := (ranked_perm xs).mem_iff

@[simp] theorem length_ranked (xs : List α) : (ranked key xs).length = xs.length :=
  (ranked_perm xs).length_eq

theorem pairwise_ranked (xs : List α) : (ranked key xs).Pairwise fun x y => key x ≤ key y := by
  have : Std.Total fun x y : α => key x ≤ key y := ⟨fun x y => le_total (key x) (key y)⟩
  have : IsTrans α fun x y => key x ≤ key y := ⟨fun _ _ _ h h' => h.trans h'⟩
  exact List.pairwise_insertionSort _ xs

theorem sorted_ranked (h : (xs.map key).Nodup) :
    (ranked key xs).Pairwise fun x y => key x < key y := by
  have hne : (ranked key xs).Pairwise fun x y => key x ≠ key y :=
    List.pairwise_map.mp (((ranked_perm xs).map key).nodup_iff.mpr h)
  exact (pairwise_ranked xs).imp₂ (fun _ _ h h' => lt_of_le_of_ne h h') hne

theorem ahead_perm (h : xs.Perm ys) : ahead key xs x = ahead key ys x :=
  (h.filter _).length_eq

theorem ahead_ranked (xs : List α) (x : α) : ahead key (ranked key xs) x = ahead key xs x :=
  ahead_perm (ranked_perm xs)

theorem eq_of_sorted (hx : xs.Pairwise fun x y => key x < key y)
    (hy : ys.Pairwise fun x y => key x < key y) (h : ∀ x, x ∈ xs ↔ x ∈ ys) : xs = ys := by
  have hirrefl : Std.Irrefl fun x y : α => key x < key y := ⟨fun x => lt_irrefl (key x)⟩
  have hperm := (List.perm_ext_iff_of_nodup hx.nodup hy.nodup).mpr h
  exact hperm.eq_of_pairwise (fun x y _ _ h h' => absurd (h.trans h') (lt_irrefl _)) hx hy

theorem filter_of_sorted (h : xs.Pairwise fun x y => key x < key y) (hx : xs[n]? = some x) :
    xs.filter (fun y => key y < key x) = xs.take n := by
  obtain ⟨hn, rfl⟩ := List.getElem?_eq_some_iff.mp hx
  have hlt := List.pairwise_iff_getElem.mp h
  have happend : xs.filter (fun y => key y < key xs[n]) =
      (xs.take n ++ xs.drop n).filter (fun y => key y < key xs[n]) := by
    rw [List.take_append_drop]
  have htake : (xs.take n).filter (fun y => key y < key xs[n]) = xs.take n := by
    rw [List.filter_eq_self]
    intro y hy
    obtain ⟨i, hi, rfl⟩ := List.mem_take_iff_getElem.mp hy
    exact decide_eq_true (hlt i n (by omega) hn (by omega))
  have hdrop : (xs.drop n).filter (fun y => key y < key xs[n]) = [] := by
    rw [List.filter_eq_nil_iff]
    intro y hy
    obtain ⟨i, hi, rfl⟩ := List.mem_drop_iff_getElem.mp hy
    rw [decide_eq_true_eq, not_lt]
    rcases Nat.eq_zero_or_pos i with rfl | hpos
    · exact le_rfl
    · exact (hlt n (n + i) hn (by omega) (by omega)).le
  rw [happend, List.filter_append, htake, hdrop, List.append_nil]

theorem ahead_of_sorted (h : xs.Pairwise fun x y => key x < key y) (hx : xs[n]? = some x) :
    ahead key xs x = n := by
  have hn := (List.getElem?_eq_some_iff.mp hx).1
  rw [ahead, filter_of_sorted h hx, List.length_take]
  omega

theorem mem_take_ranked (h : (xs.map key).Nodup) :
    x ∈ (ranked key xs).take n ↔ x ∈ xs ∧ ahead key xs x < n := by
  have hsorted := sorted_ranked h
  constructor
  · intro hx
    have hmem : x ∈ ranked key xs := List.mem_of_mem_take hx
    refine ⟨mem_ranked.mp hmem, ?_⟩
    obtain ⟨i, hi, rfl⟩ := List.mem_take_iff_getElem.mp hx
    have hlt : i < (ranked key xs).length := by omega
    rw [← ahead_ranked, ahead_of_sorted hsorted (List.getElem?_eq_getElem hlt)]
    omega
  · rintro ⟨hx, hlt⟩
    have hmem : x ∈ ranked key xs := mem_ranked.mpr hx
    obtain ⟨i, hi, rfl⟩ := List.mem_iff_getElem.mp hmem
    rw [← ahead_ranked, ahead_of_sorted hsorted (List.getElem?_eq_getElem hi)] at hlt
    exact List.mem_take_iff_getElem.mpr ⟨i, by omega, rfl⟩

theorem ranked_of_perm (h : (xs.map key).Nodup) (hperm : xs.Perm ys) :
    ranked key xs = ranked key ys := by
  have hys : (ys.map key).Nodup := (hperm.map key).nodup_iff.mp h
  refine eq_of_sorted (sorted_ranked h) (sorted_ranked hys) fun x => ?_
  rw [mem_ranked, mem_ranked, hperm.mem_iff]

omit [LinearOrder κ] in
theorem map_inj_of_mem {β : Type*} {f : α → β}
    (hf : ∀ x ∈ xs, ∀ y ∈ ys, f x = f y → x = y) : xs.map f = ys.map f ↔ xs = ys := by
  refine ⟨fun h => ?_, congrArg _⟩
  induction xs generalizing ys with
  | nil => exact (List.map_eq_nil_iff.mp h.symm).symm
  | cons x xs ih =>
    cases ys with
    | nil => cases h
    | cons y ys =>
      obtain ⟨hx, hxs⟩ := List.cons.inj h
      rw [hf x List.mem_cons_self y List.mem_cons_self hx, ih (fun x hx y hy =>
        hf x (List.mem_cons_of_mem _ hx) y (List.mem_cons_of_mem _ hy)) hxs]

theorem ranked_filter (h : (xs.map key).Nodup) (p : α → Bool) :
    ranked key (xs.filter p) = (ranked key xs).filter p := by
  have hsub := h.sublist (List.filter_sublist (p := p).map key)
  refine eq_of_sorted (sorted_ranked hsub) ((sorted_ranked h).filter p) fun x => ?_
  rw [mem_ranked, List.mem_filter, List.mem_filter, mem_ranked]

theorem ranked_map {β κ' : Type*} [LinearOrder κ'] {key' : β → κ'} {f : α → β}
    (h : (xs.map key).Nodup)
    (hf : ∀ x ∈ xs, ∀ y ∈ xs, key' (f x) < key' (f y) ↔ key x < key y) :
    ranked key' (xs.map f) = (ranked key xs).map f := by
  have hmap : ((ranked key xs).map f).Pairwise fun x y => key' x < key' y := by
    rw [List.pairwise_map]
    refine (sorted_ranked h).imp_of_mem fun hx hy hlt => ?_
    exact (hf _ (mem_ranked.mp hx) _ (mem_ranked.mp hy)).mpr hlt
  have hperm : ((ranked key xs).map f).Perm (xs.map f) := (ranked_perm xs).map f
  have hnodup : ((xs.map f).map key').Nodup := by
    rw [← (hperm.map key').nodup_iff, List.Nodup, List.pairwise_map]
    exact hmap.imp fun hlt => hlt.ne
  refine eq_of_sorted (sorted_ranked hnodup) hmap fun x => ?_
  rw [mem_ranked, hperm.mem_iff]

theorem ahead_filter_add (p : α → Bool) :
    ahead key (xs.filter p) x + ahead key (xs.filter (!p ·)) x = ahead key xs x := by
  have hcomm : ∀ q : α → Bool, ahead key (xs.filter q) x =
      ((xs.filter fun y => key y < key x).filter q).length := fun q => by
    rw [ahead, List.filter_comm]
  rw [hcomm, hcomm, ahead, ← List.length_eq_length_filter_add]

theorem take_ranked_append (h : ((xs ++ ys).map key).Nodup)
    (hy : ∀ y ∈ ys, n ≤ ahead key xs y) :
    (ranked key (xs ++ ys)).take n = (ranked key xs).take n := by
  have hxs := h.sublist ((List.sublist_append_left xs ys).map key)
  refine eq_of_sorted ((sorted_ranked h).sublist (List.take_sublist n _))
    ((sorted_ranked hxs).sublist (List.take_sublist n _)) fun x => ?_
  have happend : ahead key (xs ++ ys) x = ahead key xs x + ahead key ys x := by
    rw [ahead, List.filter_append, List.length_append]
    rfl
  rw [mem_take_ranked h, mem_take_ranked hxs, List.mem_append, happend]
  constructor
  · rintro ⟨hx | hx, hlt⟩
    · exact ⟨hx, by omega⟩
    · exact absurd (hy x hx) (by omega)
  · rintro ⟨hx, hlt⟩
    refine ⟨.inl hx, ?_⟩
    have hnone : ahead key ys x = 0 := by
      rw [ahead, List.length_eq_zero_iff, List.filter_eq_nil_iff]
      intro y hmem hlt'
      have hle : ahead key xs y ≤ ahead key xs x := by
        refine List.Sublist.length_le (List.monotone_filter_right xs fun z hz => ?_)
        rw [decide_eq_true_eq] at hz hlt' ⊢
        exact hz.trans hlt'
      exact absurd (hy y hmem) (by omega)
    omega

theorem le_ahead_of_mem_drop (h : (xs.map key).Nodup) (hx : x ∈ (ranked key xs).drop n) :
    n ≤ ahead key ((ranked key xs).take n) x := by
  obtain ⟨i, hi, rfl⟩ := List.mem_drop_iff_getElem.mp hx
  have hlt := List.pairwise_iff_getElem.mp (sorted_ranked h)
  have hall : ((ranked key xs).take n).filter
      (fun y => key y < key (ranked key xs)[n + i]) = (ranked key xs).take n := by
    rw [List.filter_eq_self]
    intro y hy
    obtain ⟨j, hj, rfl⟩ := List.mem_take_iff_getElem.mp hy
    exact decide_eq_true (hlt j (n + i) (by omega) (by omega) (by omega))
  rw [ahead, hall, List.length_take]
  omega

theorem ahead_le_of_sublist (h : xs.Sublist ys) : ahead key xs x ≤ ahead key ys x :=
  (h.filter _).length_le

theorem take_ranked_append_flatMap {β : Type*} (f : β → List α) (bs : List β) (zs : List α)
    (h : ((zs ++ bs.flatMap f).map key).Nodup) :
    (ranked key (zs ++ bs.flatMap fun b => (ranked key (f b)).take n)).take n =
      (ranked key (zs ++ bs.flatMap f)).take n := by
  induction bs generalizing zs with
  | nil => rfl
  | cons b bs ih =>
    have hperm : (zs ++ (b :: bs).flatMap f).Perm
        ((zs ++ (ranked key (f b)).take n ++ bs.flatMap f) ++ (ranked key (f b)).drop n) := by
      rw [List.flatMap_cons, List.append_assoc, List.append_assoc]
      refine List.Perm.append_left zs ?_
      have hranked : (ranked key (f b)).Perm (f b) := ranked_perm (f b)
      refine (List.Perm.append_right _ hranked.symm).trans ?_
      conv_lhs => rw [← List.take_append_drop n (ranked key (f b)), List.append_assoc]
      exact List.Perm.append_left _ List.perm_append_comm
    have hnodup := (hperm.map key).nodup_iff.mp h
    have hb : ((f b).map key).Nodup := by
      refine h.sublist (List.Sublist.map key ?_)
      rw [List.flatMap_cons]
      exact (List.sublist_append_left _ _).trans (List.sublist_append_right _ _)
    rw [List.flatMap_cons, ← List.append_assoc, ih, ranked_of_perm h hperm,
      take_ranked_append hnodup]
    · intro y hy
      refine (le_ahead_of_mem_drop hb hy).trans (ahead_le_of_sublist ?_)
      exact (List.sublist_append_right _ _).trans (List.sublist_append_left _ _)
    · exact hnodup.sublist ((List.sublist_append_left _ _).map key)

/-- Each part of a collection may be pruned first. -/
theorem take_ranked_flatMap {β : Type*} (f : β → List α) (bs : List β)
    (h : ((bs.flatMap f).map key).Nodup) :
    (ranked key (bs.flatMap fun b => (ranked key (f b)).take n)).take n =
      (ranked key (bs.flatMap f)).take n :=
  take_ranked_append_flatMap f bs [] h

/-- What a filter keeps of the first candidates: the first that it keeps at all, if each of these
has few enough candidates ahead. -/
theorem take_filter_take_iff {w : ℕ} (p : α → Bool) (h : (xs.map key).Nodup) :
    (((ranked key xs).take n).filter p).take w = (ranked key (xs.filter p)).take w ↔
      ∀ x ∈ xs, p x = true → ahead key (xs.filter p) x < w → ahead key xs x < n := by
  have hp := h.sublist ((List.filter_sublist (p := p)).map key)
  have hcut : ((ranked key xs).take n).filter p =
      (ranked key (xs.filter p)).take (((ranked key xs).take n).filter p).length := by
    have hsplit : ranked key (xs.filter p) =
        ((ranked key xs).take n).filter p ++ ((ranked key xs).drop n).filter p := by
      rw [ranked_filter h, ← List.filter_append, List.take_append_drop]
    rw [hsplit, List.take_left]
  generalize (((ranked key xs).take n).filter p).length = m at hcut
  have hmem : ∀ x, x ∈ xs → p x = true → (ahead key xs x < n ↔ ahead key (xs.filter p) x < m) := by
    intro x hx hpx
    have hleft : x ∈ ((ranked key xs).take n).filter p ↔ ahead key xs x < n := by
      rw [List.mem_filter, mem_take_ranked h, and_iff_left hpx, and_iff_right hx]
    rw [← hleft, hcut, mem_take_ranked hp, and_iff_right (List.mem_filter.mpr ⟨hx, hpx⟩)]
  rw [hcut, List.take_take]
  constructor
  · intro heq x hx hpx hlt
    have hright : x ∈ (ranked key (xs.filter p)).take w :=
      (mem_take_ranked hp).mpr ⟨List.mem_filter.mpr ⟨hx, hpx⟩, hlt⟩
    rw [← heq, mem_take_ranked hp] at hright
    exact (hmem x hx hpx).mpr (by omega)
  · intro hall
    refine eq_of_sorted ((sorted_ranked hp).sublist (List.take_sublist _ _))
      ((sorted_ranked hp).sublist (List.take_sublist _ _)) fun x => ?_
    rw [mem_take_ranked hp, mem_take_ranked hp]
    refine and_congr_right fun hx => ?_
    obtain ⟨hx, hpx⟩ := List.mem_filter.mp hx
    have hm := hmem x hx hpx
    have hn := hall x hx hpx
    omega

theorem exists_head?_take_ranked (hne : xs ≠ []) (hn : 0 < n) :
    ∃ x ∈ xs, ((ranked key xs).take n).head? = some x ∧ ∀ y ∈ xs, key x ≤ key y := by
  have hpairs : (ranked key xs).Pairwise fun x y => key x ≤ key y := pairwise_ranked xs
  have hperm : (ranked key xs).Perm xs := ranked_perm xs
  cases hxs : ranked key xs with
  | nil =>
    rw [hxs] at hperm
    exact absurd hperm.symm.eq_nil hne
  | cons x rest =>
    rw [hxs] at hperm hpairs
    obtain ⟨m, rfl⟩ := Nat.exists_eq_add_of_lt hn
    refine ⟨x, hperm.mem_iff.mp List.mem_cons_self, by rw [Nat.zero_add, List.take_succ_cons]; rfl,
      fun y hy => ?_⟩
    rcases List.mem_cons.mp (hperm.mem_iff.mpr hy) with rfl | hy
    · exact le_rfl
    · exact (List.pairwise_cons.mp hpairs).1 y hy

end Pruning

end Rllm
