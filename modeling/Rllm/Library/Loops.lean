import Mathlib.Algebra.BigOperators.Ring.List
import Mathlib.Data.List.Forall2
import Mathlib.Data.List.Induction
import Rllm.Library.Checked
import Rllm.Library.Tensor

/-! # Loops that may fail

Rules for loops with a monadic body: an invariant that every turn keeps holds at
the end, and a buffer that is written front to back holds what was written. Lists
of blocks of different lengths are read by where a block starts.
-/

namespace Rllm

universe u v w

section Rules

variable {m : Type u → Type v} [Monad m] [LawfulMonad m] {σ : Type u} {α : Type w} {n : ℕ}

theorem foldlM_range_inv {b : σ → ℕ → m σ} (Inv : ℕ → σ → Prop) {s : σ} (h0 : Inv 0 s)
    (hstep : ∀ i < n, ∀ s, Inv i s → ∃ s', b s i = pure s' ∧ Inv (i + 1) s') :
    ∃ s', (List.range n).foldlM b s = pure s' ∧ Inv n s' := by
  induction n with
  | zero => exact ⟨s, List.foldlM_nil, h0⟩
  | succ n ih =>
    obtain ⟨t, ht, hinv⟩ := ih fun i hi => hstep i (Nat.lt_succ_of_lt hi)
    obtain ⟨t', ht', hinv'⟩ := hstep n n.lt_succ_self t hinv
    refine ⟨t', ?_, hinv'⟩
    rw [List.range_succ, List.foldlM_append, ht, pure_bind, List.foldlM_cons, ht', pure_bind,
      List.foldlM_nil]

theorem foldlM_nested_inv {rows cols : ℕ} {b : ℕ → σ → ℕ → m σ} (Inv : ℕ → σ → Prop) {s : σ}
    (h0 : Inv 0 s) (hstep : ∀ r < rows, ∀ c < cols, ∀ s, Inv (r * cols + c) s →
      ∃ s', b r s c = pure s' ∧ Inv (r * cols + c + 1) s') :
    ∃ s', (List.range rows).foldlM (fun s r => (List.range cols).foldlM (b r) s) s = pure s' ∧
      Inv (rows * cols) s' := by
  refine foldlM_range_inv (fun r => Inv (r * cols)) (by rwa [Nat.zero_mul]) fun r hr s hinv => ?_
  rw [Nat.succ_mul]
  exact foldlM_range_inv (fun c => Inv (r * cols + c)) hinv fun c hc s => hstep r hr c hc s

theorem foldlM_zipIdx_inv {l : List α} {b : σ → α × ℕ → m σ} (Inv : ℕ → σ → Prop) {s : σ}
    (h0 : Inv 0 s) (hstep : ∀ i a, l[i]? = some a → ∀ s, Inv i s →
      ∃ s', b s (a, i) = pure s' ∧ Inv (i + 1) s') :
    ∃ s', l.zipIdx.foldlM b s = pure s' ∧ Inv l.length s' := by
  induction l using List.reverseRecOn with
  | nil => exact ⟨s, List.foldlM_nil, h0⟩
  | append_singleton l a ih =>
    obtain ⟨t, ht, hinv⟩ := ih fun i x hx => by
      refine hstep i x ?_
      rwa [List.getElem?_append_left (List.getElem?_eq_some_iff.mp hx).1]
    obtain ⟨t', ht', hinv'⟩ := hstep l.length a (by simp) t hinv
    refine ⟨t', ?_, by simpa using hinv'⟩
    rw [List.zipIdx_append, List.foldlM_append, ht, pure_bind, List.zipIdx_cons, List.zipIdx_nil,
      List.foldlM_cons, Nat.zero_add, ht', pure_bind, List.foldlM_nil]

theorem foldlM_eq_pure {l : List α} {b : σ → α → m σ} {f : σ → α → σ}
    (h : ∀ s, ∀ a ∈ l, b s a = pure (f s a)) (s : σ) :
    l.foldlM b s = pure (l.foldl f s) := by
  induction l generalizing s with
  | nil => exact List.foldlM_nil
  | cons a l ih =>
    rw [List.foldlM_cons, h s a List.mem_cons_self, pure_bind,
      ih fun s b hb => h s b (List.mem_cons_of_mem _ hb), List.foldl_cons]

theorem ite_error_eq_ok_iff {ε α : Type*} {c : Prop} [Decidable c] {e : ε} {x : Except ε α}
    {a : α} :
    (if c then .error e else x) = .ok a ↔ ¬ c ∧ x = .ok a := by
  split <;> simp_all

theorem foldlM_eq_ok_iff {ε β : Type*} {σ : Type*} {b : σ → β → Except ε σ} {V : β → Prop}
    {f : σ → β → σ} (h : ∀ s a t, b s a = .ok t ↔ V a ∧ t = f s a) (l : List β) (s t : σ) :
    l.foldlM b s = .ok t ↔ (∀ a ∈ l, V a) ∧ t = l.foldl f s := by
  induction l generalizing s with
  | nil => simp [pure, Except.pure, eq_comm]
  | cons a l ih =>
    rw [List.foldlM_cons, List.foldl_cons, List.forall_mem_cons]
    cases hb : b s a with
    | error e =>
      have hV : ¬ V a := by
        intro ha
        have hok := (h s a _).mpr ⟨ha, rfl⟩
        rw [hb] at hok
        cases hok
      simp [bind, Except.bind, hV]
    | ok t' =>
      obtain ⟨ha, rfl⟩ := (h s a t').mp hb
      exact (ih _).trans (by simp [ha])

theorem mapM_eq_pure {l : List α} {f : α → m σ} {g : α → σ} (h : ∀ a ∈ l, f a = pure (g a)) :
    l.mapM f = pure (l.map g) := by
  induction l with
  | nil => exact List.mapM_nil
  | cons a l ih =>
    rw [List.mapM_cons, h a List.mem_cons_self, pure_bind,
      ih fun b hb => h b (List.mem_cons_of_mem _ hb), pure_bind, List.map_cons]

theorem mapM_eq_ok_iff {ε : Type} {α β : Type} {f : α → Except ε β} {xs : List α} {ys : List β} :
    xs.mapM f = .ok ys ↔ List.Forall₂ (fun x y => f x = .ok y) xs ys := by
  induction xs generalizing ys with
  | nil =>
    rw [List.mapM_nil, List.forall₂_nil_left_iff]
    exact ⟨fun h => (Except.ok.inj h).symm, fun h => h ▸ rfl⟩
  | cons x xs ih =>
    rw [List.mapM_cons, bind_eq_ok]
    constructor
    · rintro ⟨y, hy, h⟩
      obtain ⟨ys', hys, h⟩ := bind_eq_ok.mp h
      obtain rfl := Except.ok.inj h
      exact .cons hy (ih.mp hys)
    · rintro (_ | ⟨hy, hys⟩)
      exact ⟨_, hy, bind_eq_ok.mpr ⟨_, ih.mpr hys, rfl⟩⟩

theorem exists_of_mem_mapM {ε : Type} {α β : Type} {f : α → Except ε β} {xs : List α}
    {ys : List β} (h : xs.mapM f = .ok ys) {y : β} (hy : y ∈ ys) : ∃ x ∈ xs, f x = .ok y := by
  have hrel := mapM_eq_ok_iff.mp h
  clear h
  induction hrel with
  | nil => cases hy
  | cons hx _ ih =>
    rcases List.mem_cons.mp hy with rfl | hy
    · exact ⟨_, List.mem_cons_self, hx⟩
    · obtain ⟨x, hmem, hx⟩ := ih hy
      exact ⟨x, List.mem_cons_of_mem _ hmem, hx⟩

theorem exists_mapM {ε : Type} {α β : Type} {f : α → Except ε β} {P : α → β → Prop} {xs : List α}
    (h : ∀ x ∈ xs, ∃ y, f x = .ok y ∧ P x y) :
    ∃ ys, xs.mapM f = .ok ys ∧ List.Forall₂ P xs ys := by
  induction xs with
  | nil => exact ⟨[], rfl, .nil⟩
  | cons x xs ih =>
    obtain ⟨⟨y, hy, hP⟩, hxs⟩ := List.forall_mem_cons.mp h
    obtain ⟨ys, hys, hall⟩ := ih hxs
    refine ⟨y :: ys, ?_, .cons hP hall⟩
    rw [List.mapM_cons, hy, hys]
    rfl

theorem forM_eq_ok {ε : Type} {α : Type} {f : α → Except ε Unit} {xs : List α}
    (h : ∀ x ∈ xs, f x = .ok ()) : xs.forM f = .ok () := by
  induction xs with
  | nil => rfl
  | cons x xs ih =>
    obtain ⟨hx, hxs⟩ := List.forall_mem_cons.mp h
    rw [List.forM_eq_forM, List.forM_cons, hx, ok_bind]
    exact ih hxs

end Rules

/-! ## Buffers that are written front to back -/

section Fill

variable {m : Type u → Type v} [Monad m] [LawfulMonad m] {α : Type u} {n : ℕ}

theorem foldlM_fill {rows : ℕ → List α} {zero : α} {b : List α → ℕ → m (List α)}
    (pre post : List α)
    (hbody : ∀ i < n, ∀ before after,
      before.length = pre.length + ((List.range i).flatMap rows).length →
      b (before ++ List.replicate (rows i).length zero ++ after) i =
        pure (before ++ rows i ++ after)) :
    (List.range n).foldlM b
        (pre ++ List.replicate ((List.range n).flatMap rows).length zero ++ post) =
      pure (pre ++ (List.range n).flatMap rows ++ post) := by
  induction n generalizing post with
  | zero => simp
  | succ n ih =>
    have hlen : ((List.range (n + 1)).flatMap rows).length =
        ((List.range n).flatMap rows).length + (rows n).length := by
      simp [List.range_succ, List.flatMap_append]
    have hfill := ih (List.replicate (rows n).length zero ++ post) fun i hi =>
      hbody i (Nat.lt_succ_of_lt hi)
    have hlast := hbody n n.lt_succ_self (pre ++ (List.range n).flatMap rows) post
      List.length_append
    rw [hlen, ← List.replicate_append_replicate, List.range_succ, List.foldlM_append]
    simp only [List.append_assoc] at hfill hlast ⊢
    rw [hfill, pure_bind, List.foldlM_cons, hlast, pure_bind, List.foldlM_nil]
    simp [List.flatMap_append]

theorem foldlM_fill_all {rows : ℕ → List α} {zero : α} {b : List α → ℕ → m (List α)}
    (hbody : ∀ i < n, ∀ before after, before.length = ((List.range i).flatMap rows).length →
      b (before ++ List.replicate (rows i).length zero ++ after) i =
        pure (before ++ rows i ++ after)) :
    (List.range n).foldlM b (List.replicate ((List.range n).flatMap rows).length zero) =
      pure ((List.range n).flatMap rows) := by
  have hfill := foldlM_fill (n := n) [] [] fun i hi before after hbefore =>
    hbody i hi before after (by simpa using hbefore)
  rwa [List.append_nil, List.append_nil] at hfill

end Fill

/-! ## Buffers that are written place by place -/

section Places

variable {α : Type u} {f : ℕ → α} {n k : ℕ} {buf : List α}

/-- The first `k` of the `n` places of a buffer are written. -/
structure Filled (f : ℕ → α) (n k : ℕ) (buf : List α) : Prop where
  length_eq : buf.length = n
  getElem?_eq : ∀ p < k, buf[p]? = some (f p)

theorem Filled.set (h : Filled f n k buf) (hk : k < n) : Filled f n (k + 1) (buf.set k (f k)) where
  length_eq := by rw [List.length_set, h.length_eq]
  getElem?_eq p hp := by
    rcases Nat.lt_succ_iff_lt_or_eq.mp hp with hlt | rfl
    · rw [List.getElem?_set_ne (Nat.ne_of_gt hlt), h.getElem?_eq p hlt]
    · rw [List.getElem?_set_self (hk.trans_eq h.length_eq.symm)]

theorem Filled.eq_map (h : Filled f n n buf) : buf = (List.range n).map f := by
  refine List.ext_getElem? fun p => ?_
  rcases Nat.lt_or_ge p n with hp | hp
  · rw [h.getElem?_eq p hp, List.getElem?_map, List.getElem?_range hp, Option.map_some]
  · rw [List.getElem?_eq_none (h.length_eq.trans_le hp),
      List.getElem?_eq_none (by rwa [List.length_map, List.length_range])]

/-- Threads that each write a place of their own, in any order. -/
theorem foldlM_threads {m : Type u → Type v} [Monad m] [LawfulMonad m] {threads : List ℕ}
    {thread : List α → ℕ → m (List α)}
    (h : ∀ i ∈ threads, ∀ out, out.length = n → thread out i = pure (out.set i (f i)))
    (hbuf : buf.length = n) :
    ∃ out, threads.foldlM thread buf = pure out ∧ out.length = n ∧
      ∀ p < n, out[p]? = if p ∈ threads then some (f p) else buf[p]? := by
  induction threads generalizing buf with
  | nil => exact ⟨buf, List.foldlM_nil, hbuf, fun p hp => by simp⟩
  | cons i threads ih =>
    have hset : (buf.set i (f i)).length = n := by rw [List.length_set, hbuf]
    obtain ⟨out, hout, hlen, hget⟩ := ih (fun j hj => h j (List.mem_cons_of_mem _ hj)) hset
    refine ⟨out, ?_, hlen, fun p hp => ?_⟩
    · rw [List.foldlM_cons, h i List.mem_cons_self buf hbuf, pure_bind, hout]
    · rw [hget p hp]
      by_cases hi : p = i
      · subst hi
        rw [List.getElem?_set_self (hp.trans_eq hbuf.symm), if_pos List.mem_cons_self, ite_self]
      · rw [List.getElem?_set_ne (Ne.symm hi)]
        simp only [List.mem_cons, hi, false_or]

theorem foldlM_threads_all {m : Type u → Type v} [Monad m] [LawfulMonad m] {threads : List ℕ}
    {thread : List α → ℕ → m (List α)}
    (h : ∀ i ∈ threads, ∀ out, out.length = n → thread out i = pure (out.set i (f i)))
    (hbuf : buf.length = n) (hall : ∀ p < n, p ∈ threads) :
    threads.foldlM thread buf = pure ((List.range n).map f) := by
  obtain ⟨out, hout, hlen, hget⟩ := foldlM_threads h hbuf
  have hfilled : Filled f n n out := ⟨hlen, fun p hp => by rw [hget p hp, if_pos (hall p hp)]⟩
  rw [hout, hfilled.eq_map]

end Places

section Rows

variable {V : Type}

/-- The outputs of one row, written behind those of the rows before it. -/
def writeOutputs (outFeatures : ℕ) (dot : ℕ → Except String V) (row : ℕ) (output : List V) :
    Except String (List V) :=
  (List.range outFeatures).foldlM (fun output out => do
    let acc ← dot out
    Checked.set output (row * outFeatures + out) acc) output

theorem writeOutputs_filled {rows cols row : ℕ} {dot : ℕ → Except String V} {f : ℕ → ℕ → V}
    {output : List V} (hrow : row < rows) (hdot : ∀ out < cols, dot out = .ok (f row out))
    (h : Filled (fun k => f (k / cols) (k % cols)) (rows * cols) (row * cols) output) :
    ∃ output', writeOutputs cols dot row output = .ok output' ∧
      Filled (fun k => f (k / cols) (k % cols)) (rows * cols) ((row + 1) * cols) output' := by
  rw [Nat.succ_mul]
  refine foldlM_range_inv (fun out => Filled _ (rows * cols) (row * cols + out)) h
    fun out hout output hfilled => ?_
  have hplace : row * cols + out < rows * cols := block_lt hrow hout
  have hset := hfilled.set hplace
  rw [block_div hout, block_mod hout] at hset
  refine ⟨_, ?_, hset⟩
  rw [hdot out hout, ok_bind, Checked.set_of_lt (hplace.trans_eq hfilled.length_eq.symm)]
  rfl

end Rows

/-! ## Blocks of different lengths -/

section Starts

variable {α β : Type*} {f : β → ℕ} {l : List β} {i : ℕ} {x : β}

/-- Where a block starts, given the lengths of the blocks. -/
def blockStart (f : β → ℕ) (l : List β) (i : ℕ) : ℕ := ((l.take i).map f).sum

@[simp] theorem blockStart_zero : blockStart f l 0 = 0 := by
  simp [blockStart]

theorem blockStart_succ (hx : l[i]? = some x) :
    blockStart f l (i + 1) = blockStart f l i + f x := by
  obtain ⟨hi, rfl⟩ := List.getElem?_eq_some_iff.mp hx
  rw [blockStart, List.take_add_one, List.map_append, List.sum_append, hx]
  simp [blockStart]

theorem blockStart_length : blockStart f l l.length = (l.map f).sum := by
  rw [blockStart, List.take_length]

theorem blockStart_mono {i j : ℕ} (h : i ≤ j) : blockStart f l i ≤ blockStart f l j := by
  obtain ⟨k, rfl⟩ := Nat.exists_eq_add_of_le h
  rw [blockStart, blockStart, List.take_add, List.map_append, List.sum_append]
  exact Nat.le_add_right _ _

theorem blockStart_le (i : ℕ) : blockStart f l i ≤ (l.map f).sum := by
  rcases Nat.le_total i l.length with h | h
  · exact (blockStart_mono h).trans blockStart_length.le
  · rw [blockStart, List.take_of_length_le h]

theorem blockStart_congr {g : β → ℕ} (h : ∀ x ∈ l, f x = g x) (i : ℕ) :
    blockStart f l i = blockStart g l i := by
  rw [blockStart, blockStart, List.map_congr_left fun x hx => h x (List.mem_of_mem_take hx)]

theorem blockStart_mul (c i : ℕ) : blockStart (fun x => f x * c) l i = blockStart f l i * c := by
  rw [blockStart, blockStart, List.sum_map_mul_right]

theorem getElem?_flatMap_start {f : β → List α} {j : ℕ} (hx : l[i]? = some x)
    (hj : j < (f x).length) :
    (l.flatMap f)[blockStart (fun y => (f y).length) l i + j]? = (f x)[j]? := by
  induction l generalizing i with
  | nil => simp at hx
  | cons y l ih =>
    rw [List.flatMap_cons]
    cases i with
    | zero =>
      obtain rfl : y = x := by simpa using hx
      rw [blockStart_zero, Nat.zero_add, List.getElem?_append_left hj]
    | succ i =>
      have hstart : blockStart (fun y => (f y).length) (y :: l) (i + 1) =
          (f y).length + blockStart (fun y => (f y).length) l i := by
        simp [blockStart]
      rw [hstart, Nat.add_assoc, List.getElem?_append_right (Nat.le_add_right _ _),
        Nat.add_sub_cancel_left]
      exact ih (by simpa using hx)

theorem slice_flatMap_start {f : β → List α} (hx : l[i]? = some x) :
    ((l.flatMap f).drop (blockStart (fun y => (f y).length) l i)).take (f x).length = f x := by
  obtain ⟨hi, rfl⟩ := List.getElem?_eq_some_iff.mp hx
  have hsplit : l.flatMap f = (l.take i).flatMap f ++ (f l[i] ++ (l.drop (i + 1)).flatMap f) := by
    conv_lhs => rw [← List.take_append_drop i l, List.drop_eq_getElem_cons hi]
    rw [List.flatMap_append, List.flatMap_cons]
  have hlen : ((l.take i).flatMap f).length = blockStart (fun y => (f y).length) l i := by
    rw [List.length_flatMap, blockStart]
  rw [hsplit, ← hlen, List.drop_left, List.take_left]

theorem exists_block {t : ℕ} (ht : t < (l.map f).sum) :
    ∃ i x j, l[i]? = some x ∧ j < f x ∧ t = blockStart f l i + j := by
  induction l generalizing t with
  | nil => simp at ht
  | cons y l ih =>
    rw [List.map_cons, List.sum_cons] at ht
    rcases Nat.lt_or_ge t (f y) with h | h
    · exact ⟨0, y, t, rfl, h, by simp⟩
    · obtain ⟨i, x, j, hx, hj, heq⟩ := ih (t := t - f y) (by omega)
      refine ⟨i + 1, x, j, hx, hj, ?_⟩
      have hstart : blockStart f (y :: l) (i + 1) = f y + blockStart f l i := by
        simp [blockStart]
      omega

theorem eq_flatMap_of_getElem? {g : β → List α} {as : List α} (hlen : ∀ x ∈ l, (g x).length = f x)
    (htotal : as.length = (l.map f).sum)
    (h : ∀ i x j, l[i]? = some x → j < f x → as[blockStart f l i + j]? = (g x)[j]?) :
    as = l.flatMap g := by
  have hsum : (l.flatMap g).length = (l.map f).sum := by
    rw [List.length_flatMap, List.map_congr_left hlen]
  refine List.ext_getElem? fun t => ?_
  rcases Nat.lt_or_ge t (l.map f).sum with ht | ht
  · obtain ⟨i, x, j, hx, hj, rfl⟩ := exists_block ht
    have hgx := hlen x (List.mem_of_getElem? hx)
    rw [h i x j hx hj, ← getElem?_flatMap_start hx (hgx ▸ hj), blockStart_congr hlen]
  · rw [List.getElem?_eq_none (htotal.trans_le ht), List.getElem?_eq_none (hsum.trans_le ht)]

theorem zipWith_flatMap {γ δ : Type*} {g : β → List α} {h : β → List γ} (op : α → γ → δ)
    (hlen : ∀ x ∈ l, (g x).length = (h x).length) :
    List.zipWith op (l.flatMap g) (l.flatMap h) =
      l.flatMap fun x => List.zipWith op (g x) (h x) := by
  induction l with
  | nil => rfl
  | cons x l ih =>
    rw [List.flatMap_cons, List.flatMap_cons, List.flatMap_cons,
      List.zipWith_append (hlen x List.mem_cons_self),
      ih fun y hy => hlen y (List.mem_cons_of_mem _ hy)]

end Starts

end Rllm
