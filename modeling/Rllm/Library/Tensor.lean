import Mathlib.Algebra.BigOperators.Group.List.Basic
import Mathlib.Algebra.Group.Nat.Even
import Mathlib.Tactic.Ring

/-! # Row-major tensors

Tensors as a shape and the entries in row-major order, with the operations that
rearrange them. A lookup in a rearranged tensor is a lookup in the original.
-/

namespace Rllm

/-! ## Lists in blocks -/

section Blocks

variable {α β : Type*} {m a b : ℕ}

theorem block_lt {n : ℕ} (ha : a < n) (hb : b < m) : a * m + b < n * m :=
  calc a * m + b < (a + 1) * m := by
        rw [Nat.succ_mul]
        exact Nat.add_lt_add_left hb _
    _ ≤ n * m := Nat.mul_le_mul_right _ ha

theorem block_div (hb : b < m) : (a * m + b) / m = a := by
  rw [Nat.add_comm, Nat.add_mul_div_right _ _ (Nat.zero_lt_of_lt hb), Nat.div_eq_of_lt hb,
    Nat.zero_add]

theorem block_mod (hb : b < m) : (a * m + b) % m = b := by
  rw [Nat.mul_add_mod', Nat.mod_eq_of_lt hb]

theorem block_inj {a' b' : ℕ} (hb : b < m) (hb' : b' < m) (h : a * m + b = a' * m + b') :
    a = a' ∧ b = b' := by
  obtain rfl : a = a' := by rw [← block_div (a := a) hb, h, block_div hb']
  exact ⟨rfl, Nat.add_left_cancel h⟩

theorem getElem?_flatMap_block {f : β → List α} {xs : List β} (hf : ∀ x ∈ xs, (f x).length = m)
    (hb : b < m) : (xs.flatMap f)[a * m + b]? = xs[a]?.bind fun x => (f x)[b]? := by
  induction xs generalizing a with
  | nil => rfl
  | cons x xs ih =>
    have hx : (f x).length = m := hf x List.mem_cons_self
    rw [List.flatMap_cons]
    cases a with
    | zero =>
      rw [Nat.zero_mul, Nat.zero_add, List.getElem?_append_left (by omega)]
      rfl
    | succ a =>
      have hle : (f x).length ≤ (a + 1) * m + b := by
        rw [hx, Nat.succ_mul]
        omega
      have hsub : (a + 1) * m + b - (f x).length = a * m + b := by
        rw [hx, Nat.succ_mul]
        omega
      rw [List.getElem?_append_right hle, hsub, ih fun y hy => hf y (List.mem_cons_of_mem _ hy)]
      rfl

theorem length_flatMap_block {f : β → List α} {xs : List β} (hf : ∀ x ∈ xs, (f x).length = m) :
    (xs.flatMap f).length = xs.length * m := by
  rw [List.length_flatMap, List.map_congr_left hf, List.map_const', List.sum_replicate,
    Nat.nsmul_eq_mul]

theorem length_flatten_block {xss : List (List α)} (h : ∀ row ∈ xss, row.length = m) :
    xss.flatten.length = xss.length * m := by
  rw [← List.flatMap_id]
  exact length_flatMap_block (f := id) h

theorem getElem?_block {xs : List α} (hb : b < m) :
    ((xs.drop (a * m)).take m)[b]? = xs[a * m + b]? := by
  rw [List.getElem?_take_of_lt hb, List.getElem?_drop]

theorem length_block {xs : List α} (h : (a + 1) * m ≤ xs.length) :
    ((xs.drop (a * m)).take m).length = m := by
  rw [List.length_take, List.length_drop]
  rw [Nat.succ_mul] at h
  omega

/-- A table of rows of one length. -/
def grid (rows cols : ℕ) (f : ℕ → ℕ → α) : List α :=
  ((List.range rows).map fun r => (List.range cols).map (f r)).flatten

variable {rows cols r c : ℕ} {f : ℕ → ℕ → α}

theorem grid_eq : grid rows cols f =
    (List.range rows).flatMap fun r => (List.range cols).map (f r) :=
  (List.flatMap_def ..).symm

theorem length_row {xs : List ℕ} : ∀ r ∈ xs, ((List.range cols).map (f r)).length = cols :=
  fun _ _ => by rw [List.length_map, List.length_range]

@[simp] theorem length_grid : (grid rows cols f).length = rows * cols := by
  rw [grid_eq, length_flatMap_block length_row, List.length_range]

theorem getElem?_grid (hr : r < rows) (hc : c < cols) :
    (grid rows cols f)[r * cols + c]? = some (f r c) := by
  rw [grid_eq, getElem?_flatMap_block length_row hc, List.getElem?_range hr, Option.bind_some,
    List.getElem?_map, List.getElem?_range hc, Option.map_some]

/-- An entry of a table, by its row and column. -/
def gridAt (default : α) (xs : List α) (cols r c : ℕ) : α := xs.getD (r * cols + c) default

theorem getElem?_gridAt {xs : List α} (default : α) (hlen : xs.length = rows * cols) (hr : r < rows)
    (hc : c < cols) : xs[r * cols + c]? = some (gridAt default xs cols r c) := by
  have hlt : r * cols + c < xs.length := hlen ▸ block_lt hr hc
  rw [gridAt, List.getD_eq_getElem?_getD, List.getElem?_eq_getElem hlt, Option.getD_some]

/-- A list is the table of its entries. -/
theorem eq_grid {xs : List α} (hlen : xs.length = rows * cols)
    (h : ∀ r < rows, ∀ c < cols, xs[r * cols + c]? = some (f r c)) : xs = grid rows cols f := by
  refine List.ext_getElem? fun k => ?_
  rcases lt_or_ge k (rows * cols) with hk | hk
  · have hcols : 0 < cols := Nat.pos_of_mul_pos_left (Nat.zero_lt_of_lt hk)
    have hr : k / cols < rows := Nat.div_lt_of_lt_mul (by rwa [Nat.mul_comm])
    have hc : k % cols < cols := Nat.mod_lt k hcols
    rw [← Nat.div_add_mod' k cols, h _ hr _ hc, getElem?_grid hr hc]
  · rw [List.getElem?_eq_none (hlen ▸ hk), List.getElem?_eq_none (length_grid ▸ hk)]

theorem getD_map_range {f : ℕ → α} {n i : ℕ} (default : α) (hi : i < n) :
    ((List.range n).map f).getD i default = f i := by
  rw [List.getD_eq_getElem?_getD, List.getElem?_map, List.getElem?_range hi, Option.map_some,
    Option.getD_some]

theorem grid_congr {g : ℕ → ℕ → α} (h : ∀ r < rows, ∀ c < cols, f r c = g r c) :
    grid rows cols f = grid rows cols g :=
  eq_grid length_grid fun r hr c hc => by rw [getElem?_grid hr hc, h r hr c hc]

theorem map_grid {β : Type*} (g : α → β) :
    (grid rows cols f).map g = grid rows cols fun r c => g (f r c) :=
  eq_grid (by rw [List.length_map, length_grid]) fun r hr c hc => by
    rw [List.getElem?_map, getElem?_grid hr hc, Option.map_some]

theorem gridAt_grid (default : α) (hr : r < rows) (hc : c < cols) :
    gridAt default (grid rows cols f) cols r c = f r c := by
  have hget := getElem?_gridAt default (length_grid (f := f)) hr hc
  rw [getElem?_grid hr hc] at hget
  exact (Option.some.inj hget).symm

theorem getD_block {xs : List α} (default : α) (r : ℕ) (hc : c < cols) :
    ((xs.drop (r * cols)).take cols).getD c default = gridAt default xs cols r c := by
  rw [gridAt, List.getD_eq_getElem?_getD, getElem?_block hc, List.getD_eq_getElem?_getD]

theorem gridAt_block {xs : List α} (default : α) (r : ℕ) (hc : c < cols) :
    gridAt default ((xs.drop (r * cols)).take cols) cols 0 c = gridAt default xs cols r c := by
  rw [gridAt, Nat.zero_mul, Nat.zero_add, getD_block default r hc]

theorem gridAt_eq_get {xs : List α} (default : α) (h : (r + 1) * cols ≤ xs.length)
    (hc : c < cols) :
    gridAt default xs cols r c =
      ((xs.drop (r * cols)).take cols).get ⟨c, hc.trans_eq (length_block h).symm⟩ := by
  rw [← getD_block default r hc, List.getD_eq_getElem?_getD,
    List.getElem?_eq_getElem (hc.trans_eq (length_block h).symm), Option.getD_some]
  rfl

theorem map_range_eq_grid :
    ((List.range (rows * cols)).map fun k => f (k / cols) (k % cols)) = grid rows cols f := by
  refine eq_grid (by rw [List.length_map, List.length_range]) fun r hr c hc => ?_
  rw [List.getElem?_map, List.getElem?_range (block_lt hr hc), Option.map_some, block_div hc,
    block_mod hc]

end Blocks

/-- The entries in row-major order. -/
structure Tensor (α : Type) where
  shape : List ℕ
  data : List α
  size_eq : data.length = shape.prod

namespace Tensor

variable {α β γ : Type}

def fromVec (data : List α) (shape : List ℕ) : Except String (Tensor α) :=
  if h : data.length = shape.prod then .ok ⟨shape, data, h⟩ else .error "shape mismatch"

def full (shape : List ℕ) (x : α) : Tensor α where
  shape := shape
  data := List.replicate shape.prod x
  size_eq := List.length_replicate

def map (f : α → β) (t : Tensor α) : Tensor β where
  shape := t.shape
  data := t.data.map f
  size_eq := by rw [List.length_map, t.size_eq]

def zipWith (f : α → β → γ) (t : Tensor α) (u : Tensor β) : Except String (Tensor γ) :=
  if h : t.shape = u.shape then
    .ok ⟨t.shape, List.zipWith f t.data u.data, by
      rw [List.length_zipWith, t.size_eq, u.size_eq, h, Nat.min_self]⟩
  else .error "shape mismatch"

def reshape (t : Tensor α) (shape : List ℕ) : Except String (Tensor α) :=
  if h : shape.prod = t.shape.prod then .ok ⟨shape, t.data, t.size_eq.trans h.symm⟩
  else .error "shape mismatch"

theorem length_stack {shape : List ℕ} {dim : ℕ} {ts : List (Tensor α)}
    (h : ∀ u ∈ ts, u.shape = shape) {a : ℕ} (ha : a ∈ List.range (shape.take dim).prod) :
    (ts.flatMap fun u => (u.data.drop (a * (shape.drop dim).prod)).take
      (shape.drop dim).prod).length = ts.length * (shape.drop dim).prod := by
  refine length_flatMap_block fun u hu => length_block ?_
  rw [u.size_eq, h u hu, ← List.prod_take_mul_prod_drop shape dim]
  exact Nat.mul_le_mul_right _ (List.mem_range.mp ha)

/-- Tensors of one shape side by side along a new dimension. -/
def stack (ts : List (Tensor α)) (dim : ℕ) : Except String (Tensor α) :=
  match ts.head? with
  | none => .error "stack of no tensors"
  | some t =>
    if h : ∀ u ∈ ts, u.shape = t.shape then
      .ok
        { shape := t.shape.take dim ++ ts.length :: t.shape.drop dim
          data := (List.range (t.shape.take dim).prod).flatMap fun a =>
            ts.flatMap fun u =>
              (u.data.drop (a * (t.shape.drop dim).prod)).take (t.shape.drop dim).prod
          size_eq := by
            rw [length_flatMap_block fun a ha => length_stack h ha, List.length_range,
              List.prod_append, List.prod_cons] }
    else .error "shape mismatch"

/-- The rows of the given indices. -/
def indexSelect (t : Tensor α) (ids : Tensor UInt32) : Except String (Tensor α) :=
  match ht : t.shape with
  | [] => .error "unexpected rank"
  | rows :: dims =>
    if h : ids.shape.length = 1 ∧ ids.data.all (·.toNat < rows) then
      .ok
        { shape := ids.data.length :: dims
          data := ids.data.flatMap fun id => (t.data.drop (id.toNat * dims.prod)).take dims.prod
          size_eq := by
            rw [List.prod_cons]
            refine length_flatMap_block fun id hid => length_block ?_
            rw [t.size_eq, ht, List.prod_cons]
            exact Nat.mul_le_mul_right _ (of_decide_eq_true (List.all_eq_true.mp h.2 id hid)) }
    else .error "index out of range"

theorem transpose_lt {t : Tensor α} {rows cols k : ℕ} (ht : t.shape = [rows, cols])
    (hk : k < cols * rows) : k % rows * cols + k / rows < t.data.length := by
  have hrows : 0 < rows := Nat.pos_of_mul_pos_left (Nat.zero_lt_of_lt hk)
  have hcol : k / rows < cols := Nat.div_lt_of_lt_mul (by rwa [Nat.mul_comm])
  have hsize : t.data.length = rows * cols := by rw [t.size_eq, ht, List.prod_pair]
  exact hsize ▸ block_lt (Nat.mod_lt k hrows) hcol

/-- The transpose of a matrix. -/
def transpose (t : Tensor α) : Except String (Tensor α) :=
  match ht : t.shape with
  | [rows, cols] =>
    .ok
      { shape := [cols, rows]
        data := List.ofFn fun k : Fin (cols * rows) =>
          t.data.get ⟨k % rows * cols + k / rows, transpose_lt ht k.isLt⟩
        size_eq := by rw [List.length_ofFn, List.prod_pair] }
  | _ => .error "unexpected rank"

/-- The rows of a matrix. -/
def toRows (t : Tensor α) (rows cols : ℕ) : List (List α) :=
  (List.range rows).map fun r => (t.data.drop (r * cols)).take cols

theorem length_eq_of_drop {t : Tensor α} {dim d : ℕ} {dims : List ℕ}
    (ht : t.shape.drop dim = d :: dims) :
    t.data.length = (t.shape.take dim).prod * (d * dims.prod) := by
  rw [t.size_eq, ← List.prod_cons, ← ht, List.prod_take_mul_prod_drop]

/-- Copies of a tensor side by side along a dimension. -/
def repeatDim (t : Tensor α) (dim n : ℕ) : Except String (Tensor α) :=
  match ht : t.shape.drop dim with
  | [] => .error "dimension out of range"
  | d :: dims =>
    .ok
      { shape := t.shape.take dim ++ (n * d) :: dims
        data := (List.range (t.shape.take dim).prod).flatMap fun a =>
          (List.range n).flatMap fun _ => (t.data.drop (a * (d * dims.prod))).take (d * dims.prod)
        size_eq := by
          rw [length_flatMap_block fun a ha => length_flatMap_block fun _ _ => length_block ?_]
          · rw [List.length_range, List.length_range, List.prod_append, List.prod_cons,
              Nat.mul_assoc n]
          · rw [length_eq_of_drop ht]
            exact Nat.mul_le_mul_right _ (List.mem_range.mp ha) }

def unsqueeze (t : Tensor α) (dim : ℕ) : Except String (Tensor α) :=
  if h : dim ≤ t.shape.length then
    .ok ⟨t.shape.take dim ++ 1 :: t.shape.drop dim, t.data, by
      rw [t.size_eq, List.prod_append, List.prod_cons, Nat.one_mul, List.prod_take_mul_prod_drop]⟩
  else .error "dimension out of range"

/-- The place that a place of an expanded shape reads. A dimension of one is read again and
again. -/
def expandIndex : List ℕ → List ℕ → ℕ → ℕ
  | d :: dims, _ :: shape, k =>
    (if d = 1 then 0 else k / shape.prod) * dims.prod + expandIndex dims shape (k % shape.prod)
  | _, _, _ => 0

theorem expandIndex_lt {dims shape : List ℕ} {k : ℕ}
    (h : List.Forall₂ (fun d e => d = e ∨ d = 1) dims shape) (hk : k < shape.prod) :
    expandIndex dims shape k < dims.prod := by
  induction h generalizing k with
  | nil => exact Nat.one_pos
  | @cons d e dims shape hd h ih =>
    rw [List.prod_cons] at hk ⊢
    have hrest := ih (Nat.mod_lt k (Nat.pos_of_mul_pos_left (Nat.zero_lt_of_lt hk)))
    refine block_lt ?_ hrest
    split
    · omega
    · exact Nat.div_lt_of_lt_mul (by rw [Nat.mul_comm, hd.resolve_right ‹_›]; exact hk)

/-- A tensor in a larger shape, of as many dimensions or more. -/
def expand (t : Tensor α) (shape : List ℕ) : Except String (Tensor α) :=
  let dims := List.replicate (shape.length - t.shape.length) 1 ++ t.shape
  if h : List.Forall₂ (fun d e => d = e ∨ d = 1) dims shape then
    .ok
      { shape := shape
        data := List.ofFn fun k : Fin shape.prod => t.data.get ⟨expandIndex dims shape k, by
          refine (expandIndex_lt h k.isLt).trans_eq ?_
          rw [List.prod_append, List.prod_replicate, one_pow, Nat.one_mul, t.size_eq]⟩
        size_eq := List.length_ofFn }
  else .error "cannot broadcast"

theorem length_narrow {t : Tensor α} {dim d start len a : ℕ} {dims : List ℕ}
    (ht : t.shape.drop dim = d :: dims) (h : start + len ≤ d)
    (ha : a ∈ List.range (t.shape.take dim).prod) :
    ((t.data.drop ((a * d + start) * dims.prod)).take (len * dims.prod)).length =
      len * dims.prod := by
  have hle : (a * d + start + len) * dims.prod ≤ t.data.length := by
    rw [length_eq_of_drop ht, ← Nat.mul_assoc]
    refine Nat.mul_le_mul_right _ ?_
    calc a * d + start + len ≤ (a + 1) * d := by
          rw [Nat.succ_mul]
          omega
      _ ≤ _ := Nat.mul_le_mul_right _ (List.mem_range.mp ha)
  rw [List.length_take, List.length_drop]
  rw [Nat.add_mul] at hle
  omega

/-- The entries from `start` on along a dimension. -/
def narrow (t : Tensor α) (dim start len : ℕ) : Except String (Tensor α) :=
  match ht : t.shape.drop dim with
  | [] => .error "dimension out of range"
  | d :: dims =>
    if h : start + len ≤ d then
      .ok
        { shape := t.shape.take dim ++ len :: dims
          data := (List.range (t.shape.take dim).prod).flatMap fun a =>
            (t.data.drop ((a * d + start) * dims.prod)).take (len * dims.prod)
          size_eq := by
            rw [length_flatMap_block fun a ha => length_narrow ht h ha, List.length_range,
              List.prod_append, List.prod_cons] }
    else .error "narrow invalid args"

/-- The product of two matrices. -/
def matmul (mul : α → β → γ) (sum : List γ → γ) (t : Tensor α) (u : Tensor β) :
    Except String (Tensor γ) :=
  match t.shape, u.shape with
  | [rows, inner], [inner', cols] =>
    if inner = inner' then
      .ok
        { shape := [rows, cols]
          data := grid rows cols fun r c => sum (List.zipWith mul
            ((t.data.drop (r * inner)).take inner)
            ((List.range inner).filterMap fun k => u.data[k * cols + c]?))
          size_eq := by rw [length_grid, List.prod_pair] }
    else .error "shape mismatch"
  | _, _ => .error "unexpected rank"

/-- The sums along the middle dimension. -/
def sumMiddle (sum : List α → α) (t : Tensor α) : Except String (Tensor α) :=
  match t.shape with
  | [rows, depth, cols] =>
    .ok
      { shape := [rows, cols]
        data := grid rows cols fun r c =>
          sum ((List.range depth).filterMap fun k => t.data[(r * depth + k) * cols + c]?)
        size_eq := by rw [length_grid, List.prod_pair] }
  | _ => .error "unexpected rank"

/-! ## Lookups -/

variable {t : Tensor α} {u : Tensor β} {rows cols : ℕ}

theorem getElem?_full {shape : List ℕ} {x : α} {k : ℕ} (hk : k < shape.prod) :
    (full shape x).data[k]? = some x :=
  List.getElem?_replicate_of_lt hk

theorem eq_of_data {t u : Tensor α} (hshape : t.shape = u.shape) (hdata : t.data = u.data) :
    t = u := by
  cases t
  cases u
  cases hshape
  cases hdata
  rfl

theorem length_toRows : (t.toRows rows cols).length = rows := by
  rw [toRows, List.length_map, List.length_range]

theorem length_of_mem_toRows (ht : t.data.length = rows * cols) :
    ∀ row ∈ t.toRows rows cols, row.length = cols := by
  intro row hrow
  obtain ⟨r, hr, rfl⟩ := List.mem_map.mp hrow
  refine length_block ?_
  rw [ht]
  exact Nat.mul_le_mul_right _ (List.mem_range.mp hr)

theorem getElem?_toRows {r : ℕ} (hr : r < rows) :
    (t.toRows rows cols)[r]? = some ((t.data.drop (r * cols)).take cols) := by
  rw [toRows, List.getElem?_map, List.getElem?_range hr, Option.map_some]

theorem fromVec_ok {data : List α} {shape : List ℕ} (h : data.length = shape.prod) :
    fromVec data shape = .ok ⟨shape, data, h⟩ :=
  dif_pos h

theorem fromVec_eq_ok {data : List α} {shape : List ℕ} (h : fromVec data shape = .ok t) :
    t.shape = shape ∧ t.data = data := by
  rw [fromVec] at h
  split at h
  · obtain rfl := Except.ok.inj h
    exact ⟨rfl, rfl⟩
  · cases h

theorem zipWith_ok (f : α → β → γ) (h : t.shape = u.shape) :
    ∃ r : Tensor γ, t.zipWith f u = .ok r ∧ r.shape = t.shape ∧ ∀ (k : ℕ) x y, t.data[k]? = some x →
      u.data[k]? = some y → r.data[k]? = some (f x y) := by
  refine ⟨_, dif_pos h, rfl, fun k x y hx hy => ?_⟩
  rw [List.getElem?_zipWith, hx, hy]

theorem reshape_ok (shape : List ℕ) (h : shape.prod = t.shape.prod) :
    ∃ r, t.reshape shape = .ok r ∧ r.shape = shape ∧ r.data = t.data :=
  ⟨_, dif_pos h, rfl, rfl⟩

theorem stack_ok (dim : ℕ) {ts : List (Tensor α)} {shape : List ℕ} (hne : ts ≠ [])
    (h : ∀ u ∈ ts, u.shape = shape) :
    ∃ r, stack ts dim = .ok r ∧ r.shape = shape.take dim ++ ts.length :: shape.drop dim ∧
      ∀ a n b, a < (shape.take dim).prod → b < (shape.drop dim).prod → ∀ u, ts[n]? = some u →
        r.data[a * (ts.length * (shape.drop dim).prod) + (n * (shape.drop dim).prod + b)]? =
          u.data[a * (shape.drop dim).prod + b]? := by
  obtain ⟨t, ts', rfl⟩ := List.exists_cons_of_ne_nil hne
  obtain rfl := h t List.mem_cons_self
  refine ⟨_, dif_pos h, rfl, fun a n b ha hb u hu => ?_⟩
  have hn : n < (t :: ts').length := (List.getElem?_eq_some_iff.mp hu).1
  have hlt : n * (t.shape.drop dim).prod + b <
      (t :: ts').length * (t.shape.drop dim).prod := block_lt hn hb
  have hblock : ∀ v ∈ t :: ts', ((v.data.drop (a * (t.shape.drop dim).prod)).take
      (t.shape.drop dim).prod).length = (t.shape.drop dim).prod := by
    intro v hv
    refine length_block ?_
    rw [v.size_eq, h v hv, ← List.prod_take_mul_prod_drop t.shape dim]
    exact Nat.mul_le_mul_right _ ha
  rw [getElem?_flatMap_block (fun a ha => length_stack h ha) hlt, List.getElem?_range ha,
    Option.bind_some, getElem?_flatMap_block hblock hb, hu, Option.bind_some, getElem?_block hb]

theorem indexSelect_ok {ids : Tensor UInt32} (ht : t.shape = [rows, cols])
    (hrank : ids.shape.length = 1) (hids : ∀ id ∈ ids.data, id.toNat < rows) :
    ∃ r, t.indexSelect ids = .ok r ∧ r.shape = [ids.data.length, cols] ∧
      ∀ (k b : ℕ) id, b < cols → ids.data[k]? = some id →
        r.data[k * cols + b]? = t.data[id.toNat * cols + b]? := by
  obtain ⟨shape, data, hsize⟩ := t
  obtain rfl : shape = [rows, cols] := ht
  have hall : ids.data.all (·.toNat < rows) = true :=
    List.all_eq_true.mpr fun id hid => decide_eq_true (hids id hid)
  refine ⟨_, dif_pos ⟨hrank, hall⟩, rfl, fun k b id hb hid => ?_⟩
  have hcols : [cols].prod = cols := List.prod_singleton
  have hblock : ∀ id ∈ ids.data, ((data.drop (id.toNat * cols)).take cols).length = cols := by
    intro id hid
    refine length_block ?_
    rw [hsize, List.prod_pair]
    exact Nat.mul_le_mul_right _ (hids id hid)
  simp only [hcols]
  rw [getElem?_flatMap_block hblock hb, hid, Option.bind_some, getElem?_block hb]

theorem transpose_ok (ht : t.shape = [rows, cols]) :
    ∃ r, t.transpose = .ok r ∧ r.shape = [cols, rows] ∧
      ∀ i j, i < rows → j < cols → r.data[j * rows + i]? = t.data[i * cols + j]? := by
  obtain ⟨shape, data, hsize⟩ := t
  obtain rfl : shape = [rows, cols] := ht
  refine ⟨_, rfl, rfl, fun i j hi hj => ?_⟩
  have hk : j * rows + i < cols * rows := block_lt hj hi
  have hmod : (j * rows + i) % rows = i := by
    rw [Nat.mul_add_mod', Nat.mod_eq_of_lt hi]
  have hdiv : (j * rows + i) / rows = j := by
    rw [Nat.mul_comm, Nat.mul_add_div (by omega), Nat.div_eq_of_lt hi, Nat.add_zero]
  rw [List.getElem?_ofFn, dif_pos hk]
  simp only [hmod, hdiv, List.get_eq_getElem]
  exact (List.getElem?_eq_getElem _).symm

theorem repeatDim_ok (outer : List ℕ) {dims : List ℕ} {d : ℕ} (n : ℕ)
    (ht : t.shape = outer ++ d :: dims) :
    ∃ r, t.repeatDim outer.length n = .ok r ∧ r.shape = outer ++ (n * d) :: dims ∧
      ∀ a k b, a < outer.prod → k < n → b < d * dims.prod →
        r.data[a * (n * (d * dims.prod)) + (k * (d * dims.prod) + b)]? =
          t.data[a * (d * dims.prod) + b]? := by
  obtain ⟨shape, data, hsize⟩ := t
  obtain rfl : shape = outer ++ d :: dims := ht
  have hdrop : (outer ++ d :: dims).drop outer.length = d :: dims := List.drop_left
  have htake : (outer ++ d :: dims).take outer.length = outer := List.take_left
  unfold repeatDim
  split
  · rename_i h
    rw [hdrop] at h
    cases h
  · rename_i d' dims' h
    obtain ⟨rfl, rfl⟩ : d = d' ∧ dims = dims' := by simpa [hdrop] using h
    refine ⟨_, rfl, congrArg (· ++ _) htake, fun a k b ha hk hb => ?_⟩
    have hblock : ∀ a ∈ List.range outer.prod,
        ((data.drop (a * (d * dims.prod))).take (d * dims.prod)).length = d * dims.prod := by
      intro a ha
      refine length_block ?_
      rw [hsize, List.prod_append, List.prod_cons]
      exact Nat.mul_le_mul_right _ (List.mem_range.mp ha)
    have hlt : k * (d * dims.prod) + b < n * (d * dims.prod) := block_lt hk hb
    simp only [htake]
    rw [getElem?_flatMap_block (fun a ha => ?_) hlt, List.getElem?_range ha, Option.bind_some,
      getElem?_flatMap_block (fun _ _ => hblock a (List.mem_range.mpr ha)) hb,
      List.getElem?_range hk, Option.bind_some, getElem?_block hb]
    rw [length_flatMap_block fun _ _ => hblock a ha, List.length_range]

theorem unsqueeze_ok {dim : ℕ} (h : dim ≤ t.shape.length) :
    ∃ r, t.unsqueeze dim = .ok r ∧ r.shape = t.shape.take dim ++ 1 :: t.shape.drop dim ∧
      r.data = t.data :=
  ⟨_, dif_pos h, rfl, rfl⟩

theorem expandIndex_cons {d e i k : ℕ} {dims shape : List ℕ} (hk : k < shape.prod) :
    expandIndex (d :: dims) (e :: shape) (i * shape.prod + k) =
      (if d = 1 then 0 else i) * dims.prod + expandIndex dims shape k := by
  rw [expandIndex, block_div hk, block_mod hk]

theorem expand_rows_ok (n : ℕ) (ht : t.shape = [rows, 1, cols]) :
    ∃ r, t.expand [rows, n, cols] = .ok r ∧ r.shape = [rows, n, cols] ∧
      ∀ i k j, i < rows → k < n → j < cols →
        r.data[(i * n + k) * cols + j]? = t.data[i * cols + j]? := by
  obtain ⟨shape, data, hsize⟩ := t
  obtain rfl : shape = [rows, 1, cols] := ht
  have hdims : List.Forall₂ (fun d e => d = e ∨ d = 1) [rows, 1, cols] [rows, n, cols] :=
    .cons (.inl rfl) (.cons (.inr rfl) (.cons (.inl rfl) .nil))
  refine ⟨_, dif_pos hdims, rfl, fun i k j hi hk hj => ?_⟩
  have hj' : j < [cols].prod := by rwa [List.prod_singleton]
  have hk' : k * [cols].prod + j < [n, cols].prod := by
    rw [List.prod_cons]
    exact block_lt hk hj'
  have hplace : (i * n + k) * cols + j = i * [n, cols].prod + (k * [cols].prod + j) := by
    simp only [List.prod_cons, List.prod_nil]
    ring
  have hlast : expandIndex [cols] [cols] j = j := by
    change (if cols = 1 then 0 else j / 1) * 1 + 0 = j
    split <;> omega
  have hrow : (if rows = 1 then 0 else i) = i := by
    split
    · omega
    · rfl
  have hread : expandIndex [rows, 1, cols] [rows, n, cols] ((i * n + k) * cols + j) =
      i * cols + j := by
    rw [hplace, expandIndex_cons hk', expandIndex_cons hj', hlast, hrow]
    simp
  have hlt : (i * n + k) * cols + j < [rows, n, cols].prod := by
    rw [hplace, List.prod_cons]
    exact block_lt hi hk'
  rw [List.getElem?_ofFn, dif_pos hlt, List.get_eq_getElem]
  exact (congrArg some (getElem_congr_idx hread)).trans (List.getElem?_eq_getElem _).symm

theorem narrow_ok (outer : List ℕ) {dims : List ℕ} {d : ℕ} (start len : ℕ)
    (ht : t.shape = outer ++ d :: dims) (h : start + len ≤ d) :
    ∃ r, t.narrow outer.length start len = .ok r ∧ r.shape = outer ++ len :: dims ∧
      ∀ a b, a < outer.prod → b < len * dims.prod →
        r.data[a * (len * dims.prod) + b]? = t.data[(a * d + start) * dims.prod + b]? := by
  obtain ⟨shape, data, hsize⟩ := t
  obtain rfl : shape = outer ++ d :: dims := ht
  have hdrop : (outer ++ d :: dims).drop outer.length = d :: dims := List.drop_left
  have htake : (outer ++ d :: dims).take outer.length = outer := List.take_left
  unfold narrow
  split
  · rename_i h
    rw [hdrop] at h
    cases h
  · rename_i d' dims' hd
    obtain ⟨rfl, rfl⟩ : d = d' ∧ dims = dims' := by simpa [hdrop] using hd
    rw [dif_pos h]
    refine ⟨_, rfl, congrArg (· ++ _) htake, fun a b ha hb => ?_⟩
    have hblock : ∀ a ∈ List.range outer.prod,
        ((data.drop ((a * d + start) * dims.prod)).take (len * dims.prod)).length =
          len * dims.prod := fun a ha => by
      refine length_narrow (t := ⟨_, data, hsize⟩) hdrop h ?_
      rwa [htake]
    simp only [htake]
    rw [getElem?_flatMap_block hblock hb, List.getElem?_range ha, Option.bind_some,
      List.getElem?_take_of_lt hb, List.getElem?_drop]

theorem matmul_ok (mul : α → β → γ) (sum : List γ → γ) {inner : ℕ} (ht : t.shape = [rows, inner])
    (hu : u.shape = [inner, cols]) :
    ∃ r, t.matmul mul sum u = .ok r ∧ r.shape = [rows, cols] ∧
      ∀ i < rows, ∀ j < cols, ∀ (f : ℕ → α) (g : ℕ → β),
        (∀ k < inner, t.data[i * inner + k]? = some (f k)) →
        (∀ k < inner, u.data[k * cols + j]? = some (g k)) →
        r.data[i * cols + j]? = some (sum ((List.range inner).map fun k => mul (f k) (g k))) := by
  unfold matmul
  rw [ht, hu]
  dsimp only
  rw [if_pos rfl]
  refine ⟨_, rfl, rfl, fun i hi j hj f g hf hg => ?_⟩
  have hrow : (t.data.drop (i * inner)).take inner = (List.range inner).map f := by
    refine List.ext_getElem? fun k => ?_
    rcases Nat.lt_or_ge k inner with hk | hk
    · rw [getElem?_block hk, hf k hk, List.getElem?_map, List.getElem?_range hk, Option.map_some]
    · rw [List.getElem?_eq_none (by rw [List.length_take]; omega),
        List.getElem?_eq_none (by rwa [List.length_map, List.length_range])]
  have hcol : ((List.range inner).filterMap fun k => u.data[k * cols + j]?) =
      (List.range inner).map g := by
    rw [← List.filterMap_eq_map]
    exact List.filterMap_congr fun k hk => hg k (List.mem_range.mp hk)
  rw [getElem?_grid hi hj, hrow, hcol, List.zipWith_map, List.zipWith_self]

theorem sumMiddle_ok (sum : List α → α) {depth : ℕ} (ht : t.shape = [rows, depth, cols]) :
    ∃ r, t.sumMiddle sum = .ok r ∧ r.shape = [rows, cols] ∧
      ∀ i < rows, ∀ j < cols, ∀ f : ℕ → α,
        (∀ k < depth, t.data[(i * depth + k) * cols + j]? = some (f k)) →
        r.data[i * cols + j]? = some (sum ((List.range depth).map f)) := by
  unfold sumMiddle
  rw [ht]
  refine ⟨_, rfl, rfl, fun i hi j hj f hf => ?_⟩
  have hcol : ((List.range depth).filterMap fun k => t.data[(i * depth + k) * cols + j]?) =
      (List.range depth).map f := by
    rw [← List.filterMap_eq_map]
    exact List.filterMap_congr fun k hk => hf k (List.mem_range.mp hk)
  rw [getElem?_grid hi hj, hcol]

end Tensor

/-! ## Operations as a parameter -/

/-- What a tensor library computes: element by element, and by places. -/
structure TensorOps where
  zipWith {α β γ : Type} (f : α → β → γ) (t : Tensor α) (u : Tensor β) : Except String (Tensor γ)
  reshape {α : Type} (t : Tensor α) (shape : List ℕ) : Except String (Tensor α)
  stack {α : Type} (ts : List (Tensor α)) (dim : ℕ) : Except String (Tensor α)
  indexSelect {α : Type} (t : Tensor α) (ids : Tensor UInt32) : Except String (Tensor α)
  transpose {α : Type} (t : Tensor α) : Except String (Tensor α)
  repeatDim {α : Type} (t : Tensor α) (dim n : ℕ) : Except String (Tensor α)
  unsqueeze {α : Type} (t : Tensor α) (dim : ℕ) : Except String (Tensor α)
  expand {α : Type} (t : Tensor α) (shape : List ℕ) : Except String (Tensor α)
  narrow {α : Type} (t : Tensor α) (dim start len : ℕ) : Except String (Tensor α)
  matmul {α β γ : Type} (mul : α → β → γ) (sum : List γ → γ) (t : Tensor α) (u : Tensor β) :
    Except String (Tensor γ)
  sumMiddle {α : Type} (sum : List α → α) (t : Tensor α) : Except String (Tensor α)

/-- What is known of the operations on tensors whose shapes fit. -/
structure TensorOps.Lawful (T : TensorOps) : Prop where
  zipWith_ok {α β γ : Type} {t : Tensor α} {u : Tensor β} (f : α → β → γ) (h : t.shape = u.shape) :
    ∃ r : Tensor γ, T.zipWith f t u = .ok r ∧ r.shape = t.shape ∧ ∀ (k : ℕ) x y,
      t.data[k]? = some x → u.data[k]? = some y → r.data[k]? = some (f x y)
  reshape_ok {α : Type} {t : Tensor α} (shape : List ℕ) (h : shape.prod = t.shape.prod) :
    ∃ r, T.reshape t shape = .ok r ∧ r.shape = shape ∧ r.data = t.data
  /-- Entry `(a, n, b)` of a stack is entry `(a, b)` of the `n`-th tensor. -/
  stack_ok {α : Type} (dim : ℕ) {ts : List (Tensor α)} {shape : List ℕ} (hne : ts ≠ [])
    (h : ∀ u ∈ ts, u.shape = shape) :
    ∃ r, T.stack ts dim = .ok r ∧ r.shape = shape.take dim ++ ts.length :: shape.drop dim ∧
      ∀ a n b, a < (shape.take dim).prod → b < (shape.drop dim).prod → ∀ u, ts[n]? = some u →
        r.data[a * (ts.length * (shape.drop dim).prod) + (n * (shape.drop dim).prod + b)]? =
          u.data[a * (shape.drop dim).prod + b]?
  indexSelect_ok {α : Type} {t : Tensor α} {rows cols : ℕ} {ids : Tensor UInt32}
    (ht : t.shape = [rows, cols]) (hrank : ids.shape.length = 1)
    (hids : ∀ id ∈ ids.data, id.toNat < rows) :
    ∃ r, T.indexSelect t ids = .ok r ∧ r.shape = [ids.data.length, cols] ∧
      ∀ (k b : ℕ) id, b < cols → ids.data[k]? = some id →
        r.data[k * cols + b]? = t.data[id.toNat * cols + b]?
  transpose_ok {α : Type} {t : Tensor α} {rows cols : ℕ} (ht : t.shape = [rows, cols]) :
    ∃ r, T.transpose t = .ok r ∧ r.shape = [cols, rows] ∧
      ∀ i j, i < rows → j < cols → r.data[j * rows + i]? = t.data[i * cols + j]?
  /-- The first copies along a dimension are those of the tensor. -/
  repeatDim_ok {α : Type} {t : Tensor α} (outer : List ℕ) {dims : List ℕ} {d : ℕ} (n : ℕ)
    (ht : t.shape = outer ++ d :: dims) :
    ∃ r, T.repeatDim t outer.length n = .ok r ∧ r.shape = outer ++ (n * d) :: dims ∧
      ∀ a k b, a < outer.prod → k < n → b < d * dims.prod →
        r.data[a * (n * (d * dims.prod)) + (k * (d * dims.prod) + b)]? =
          t.data[a * (d * dims.prod) + b]?
  unsqueeze_ok {α : Type} {t : Tensor α} {dim : ℕ} (h : dim ≤ t.shape.length) :
    ∃ r, T.unsqueeze t dim = .ok r ∧ r.shape = t.shape.take dim ++ 1 :: t.shape.drop dim ∧
      r.data = t.data
  /-- Rows that are read `n` times each. -/
  expand_rows_ok {α : Type} {t : Tensor α} {rows cols : ℕ} (n : ℕ)
    (ht : t.shape = [rows, 1, cols]) :
    ∃ r, T.expand t [rows, n, cols] = .ok r ∧ r.shape = [rows, n, cols] ∧
      ∀ i k j, i < rows → k < n → j < cols →
        r.data[(i * n + k) * cols + j]? = t.data[i * cols + j]?
  narrow_ok {α : Type} {t : Tensor α} (outer : List ℕ) {dims : List ℕ} {d : ℕ} (start len : ℕ)
    (ht : t.shape = outer ++ d :: dims) (h : start + len ≤ d) :
    ∃ r, T.narrow t outer.length start len = .ok r ∧ r.shape = outer ++ len :: dims ∧
      ∀ a b, a < outer.prod → b < len * dims.prod →
        r.data[a * (len * dims.prod) + b]? = t.data[(a * d + start) * dims.prod + b]?
  /-- A row times a column. -/
  matmul_ok {α β γ : Type} {t : Tensor α} {u : Tensor β} {rows cols : ℕ} (mul : α → β → γ)
    (sum : List γ → γ) {inner : ℕ} (ht : t.shape = [rows, inner]) (hu : u.shape = [inner, cols]) :
    ∃ r, T.matmul mul sum t u = .ok r ∧ r.shape = [rows, cols] ∧
      ∀ i < rows, ∀ j < cols, ∀ (f : ℕ → α) (g : ℕ → β),
        (∀ k < inner, t.data[i * inner + k]? = some (f k)) →
        (∀ k < inner, u.data[k * cols + j]? = some (g k)) →
        r.data[i * cols + j]? = some (sum ((List.range inner).map fun k => mul (f k) (g k)))
  sumMiddle_ok {α : Type} {t : Tensor α} {rows cols : ℕ} (sum : List α → α) {depth : ℕ}
    (ht : t.shape = [rows, depth, cols]) :
    ∃ r, T.sumMiddle sum t = .ok r ∧ r.shape = [rows, cols] ∧
      ∀ i < rows, ∀ j < cols, ∀ f : ℕ → α,
        (∀ k < depth, t.data[(i * depth + k) * cols + j]? = some (f k)) →
        r.data[i * cols + j]? = some (sum ((List.range depth).map f))

theorem TensorOps.Lawful.zipWith_grid {T : TensorOps} (hT : T.Lawful) {α β γ : Type} {t : Tensor α}
    {u : Tensor β} {rows cols : ℕ} {f : ℕ → ℕ → α} {g : ℕ → ℕ → β} (h : α → β → γ)
    (hshape : t.shape = u.shape) (ht : t.data = grid rows cols f) (hu : u.data = grid rows cols g) :
    ∃ r : Tensor γ, T.zipWith h t u = .ok r ∧ r.shape = t.shape ∧
      r.data = grid rows cols fun i j => h (f i j) (g i j) := by
  obtain ⟨r, hr, hrshape, hdata⟩ := hT.zipWith_ok h hshape
  refine ⟨r, hr, hrshape, eq_grid ?_ fun i hi j hj => hdata _ _ _ ?_ ?_⟩
  · rw [r.size_eq, hrshape, ← t.size_eq, ht, length_grid]
  · rw [ht, getElem?_grid hi hj]
  · rw [hu, getElem?_grid hi hj]

/-- The operations on row-major entries. -/
def TensorOps.rowMajor : TensorOps where
  zipWith := Tensor.zipWith
  reshape := Tensor.reshape
  stack := Tensor.stack
  indexSelect := Tensor.indexSelect
  transpose := Tensor.transpose
  repeatDim := Tensor.repeatDim
  unsqueeze := Tensor.unsqueeze
  expand := Tensor.expand
  narrow := Tensor.narrow
  matmul := Tensor.matmul
  sumMiddle := Tensor.sumMiddle

theorem TensorOps.rowMajor_lawful : rowMajor.Lawful where
  zipWith_ok := Tensor.zipWith_ok
  reshape_ok := Tensor.reshape_ok
  stack_ok := Tensor.stack_ok
  indexSelect_ok := Tensor.indexSelect_ok
  transpose_ok := Tensor.transpose_ok
  repeatDim_ok := Tensor.repeatDim_ok
  unsqueeze_ok := Tensor.unsqueeze_ok
  expand_rows_ok := Tensor.expand_rows_ok
  narrow_ok := Tensor.narrow_ok
  matmul_ok := Tensor.matmul_ok
  sumMiddle_ok := Tensor.sumMiddle_ok

end Rllm
