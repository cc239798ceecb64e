import Mathlib.Algebra.Group.Int.Defs
import Mathlib.Algebra.Group.Nat.Defs
import Mathlib.Data.List.Basic
import Mathlib.Order.Basic

/-! # Computations that may panic

Arithmetic on machine integers and access to slices, with the panic as an
error. A computation returns if it ends without a panic.
-/

namespace Rllm

/-- The computation ends without an error. -/
def Returns {ε α : Type*} (x : Except ε α) : Prop := ∃ a, x = .ok a

section

variable {ε α β : Type}

@[simp] theorem returns_ok (a : α) : Returns (.ok a : Except ε α) := ⟨a, rfl⟩

@[simp] theorem not_returns_error (e : ε) : ¬ Returns (.error e : Except ε α) := nofun

theorem error_bind (e : ε) (f g : α → Except ε β) :
    (Except.error e >>= f) = (Except.error e >>= g) := rfl

theorem ok_bind (a : α) (f : α → Except ε β) : (Except.ok a >>= f) = f a := rfl

theorem bind_eq_ok {x : Except ε α} {f : α → Except ε β} {b : β} :
    (x >>= f) = .ok b ↔ ∃ a, x = .ok a ∧ f a = .ok b := by
  cases x with
  | error e => exact iff_of_false nofun nofun
  | ok a =>
    constructor
    · exact fun h => ⟨a, rfl, h⟩
    · rintro ⟨a', ha, h⟩
      obtain rfl := Except.ok.inj ha
      exact h

/-- A loop whose steps succeed wherever the plain loop keeps `P` is the plain loop. -/
theorem foldlM_eq_ok {P : β → Prop} {f : β → α → Except ε β} {g : β → α → β}
    (hstep : ∀ b a, P (g b a) → f b a = .ok (g b a)) (as : List α) {b : β}
    (h : ∀ as', as' <+: as → P (as'.foldl g b)) : as.foldlM f b = .ok (as.foldl g b) := by
  induction as generalizing b with
  | nil => rfl
  | cons a as ih =>
    have hone : [a] <+: a :: as := ⟨as, rfl⟩
    rw [List.foldlM_cons, hstep b a (h [a] hone)]
    apply ih
    intro as' has'
    exact h (a :: as') (List.cons_prefix_cons.mpr ⟨rfl, has'⟩)

theorem exists_bind {x : Except ε α} {f : α → Except ε β} {P : α → Prop} {Q : β → Prop}
    (hx : ∃ a, x = pure a ∧ P a) (hf : ∀ a, P a → ∃ b, f a = .ok b ∧ Q b) :
    ∃ b, (x >>= f) = .ok b ∧ Q b := by
  obtain ⟨a, rfl, ha⟩ := hx
  exact hf a ha

theorem returns_bind {x : Except ε α} {f : α → Except ε β} :
    Returns (x >>= f) ↔ ∃ a, x = .ok a ∧ Returns (f a) := by
  constructor
  · rintro ⟨b, hb⟩
    cases x with
    | error e => cases hb
    | ok a => exact ⟨a, rfl, b, hb⟩
  · rintro ⟨a, rfl, h⟩
    exact h

end

/-- The cast of an index to `u32`. -/
def asU32 (i : ℕ) : ℕ := i % 2 ^ 32

theorem asU32_of_lt {i : ℕ} (h : i < 2 ^ 32) : asU32 i = i := Nat.mod_eq_of_lt h

theorem asU32_lt (i : ℕ) : asU32 i < 2 ^ 32 := Nat.mod_lt i (Nat.two_pow_pos 32)

theorem asU32_le (i : ℕ) : asU32 i ≤ i := Nat.mod_le i _

namespace Checked

/-- The number of values of a `usize`. -/
def usizeBound : ℕ := 2 ^ 64

/-- Addition of two `usize` values. -/
def add (a b : ℕ) : Except String ℕ :=
  if a + b < usizeBound then .ok (a + b) else .error "attempt to add with overflow"

/-- `count += 1` on a `u32`: a build that checks overflows panics, the others wrap. -/
def incU32 (checks : Bool) (count : ℕ) : Except String ℕ :=
  if count + 1 < 2 ^ 32 then .ok (count + 1)
  else if checks then .error "attempt to add with overflow"
  else .ok ((count + 1) % 2 ^ 32)

def sub (a b : ℕ) : Except String ℕ :=
  if b ≤ a then .ok (a - b) else .error "attempt to subtract with overflow"

def mul (a b : ℕ) : Except String ℕ :=
  if a * b < usizeBound then .ok (a * b) else .error "attempt to multiply with overflow"

def div (a b : ℕ) : Except String ℕ :=
  if b = 0 then .error "attempt to divide by zero" else .ok (a / b)

def rem (a b : ℕ) : Except String ℕ :=
  if b = 0 then .error "attempt to calculate the remainder with a divisor of zero"
  else .ok (a % b)

/-- The elements from index `a` up to index `b`. -/
def slice {α : Type} (xs : List α) (a b : ℕ) : Except String (List α) :=
  if a ≤ b ∧ b ≤ xs.length then .ok ((xs.drop a).take (b - a)) else .error "slice out of range"

def index {α : Type} (xs : List α) (i : ℕ) : Except String α :=
  match xs[i]? with
  | some x => .ok x
  | none => .error s!"index out of bounds: the len is {xs.length} but the index is {i}"

/-- An assignment to an element. -/
def set {α : Type} (xs : List α) (i : ℕ) (x : α) : Except String (List α) :=
  if i < xs.length then .ok (xs.set i x) else .error "index out of bounds"

def i32Min : ℤ := -2 ^ 31

def i32Max : ℤ := 2 ^ 31 - 1

/-- The result of an `i32` operation. -/
def toI32 (operation : String) (n : ℤ) : Except String ℤ :=
  if i32Min ≤ n ∧ n ≤ i32Max then .ok n
  else .error ("attempt to " ++ operation ++ " with overflow")

def addI32 (a b : ℤ) : Except String ℤ := toI32 "add" (a + b)

def mulI32 (a b : ℤ) : Except String ℤ := toI32 "multiply" (a * b)

/-- A float without a fraction as an `i32`, which saturates. -/
def castI32 (n : ℤ) : ℤ := if n < i32Min then i32Min else if i32Max < n then i32Max else n

variable {a b : ℕ} {α : Type} {xs : List α}

theorem returns_add_bind {β : Type} {f : ℕ → Except String β} :
    Returns (add a b >>= f) ↔ a + b < usizeBound ∧ Returns (f (a + b)) := by
  rw [returns_bind, add]
  split
  · rename_i h
    simp [h]
  · rename_i h
    simp [h]

theorem add_eq_ok {c : ℕ} : add a b = .ok c ↔ a + b < usizeBound ∧ a + b = c := by
  rw [add]
  split
  · rename_i h
    simp [h]
  · rename_i h
    simp [h]

theorem incU32_of_lt {checks : Bool} (h : a + 1 < 2 ^ 32) : incU32 checks a = .ok (a + 1) :=
  if_pos h

theorem incU32_lt {checks : Bool} {c : ℕ} (h : incU32 checks a = .ok c) : c < 2 ^ 32 := by
  rw [incU32] at h
  split at h
  · rename_i hlt
    exact Except.ok.inj h ▸ hlt
  · split at h
    · cases h
    · exact Except.ok.inj h ▸ Nat.mod_lt _ (Nat.two_pow_pos 32)

theorem sub_of_le (h : b ≤ a) : sub a b = .ok (a - b) := if_pos h

theorem toI32_of_le {operation : String} {n : ℤ} (hlo : i32Min ≤ n) (hhi : n ≤ i32Max) :
    toI32 operation n = .ok n :=
  if_pos ⟨hlo, hhi⟩

theorem toI32_eq_ok {operation : String} {n m : ℤ} (h : toI32 operation n = .ok m) : m = n := by
  rw [toI32] at h
  split at h
  · exact (Except.ok.inj h).symm
  · cases h

theorem castI32_of_le {n : ℤ} (hlo : i32Min ≤ n) (hhi : n ≤ i32Max) : castI32 n = n := by
  rw [castI32, if_neg (Int.not_lt.mpr hlo), if_neg (Int.not_lt.mpr hhi)]

theorem div_of_pos (h : 0 < b) : div a b = .ok (a / b) := if_neg (Nat.ne_of_gt h)

theorem mul_eq_ok {c : ℕ} : mul a b = .ok c ↔ a * b < usizeBound ∧ a * b = c := by
  rw [mul]
  split
  · rename_i h
    simp [h]
  · rename_i h
    simp [h]

theorem mul_of_lt (h : a * b < usizeBound) : mul a b = .ok (a * b) := if_pos h

theorem rem_of_pos (h : 0 < b) : rem a b = .ok (a % b) := if_neg (Nat.ne_of_gt h)

theorem slice_of_le (hab : a ≤ b) (hb : b ≤ xs.length) :
    slice xs a b = .ok ((xs.drop a).take (b - a)) := if_pos ⟨hab, hb⟩

theorem slice_block (h : (a + 1) * b ≤ xs.length) :
    slice xs (a * b) ((a + 1) * b) = .ok ((xs.drop (a * b)).take b) := by
  have hwidth : (a + 1) * b - a * b = b := by rw [Nat.succ_mul, Nat.add_sub_cancel_left]
  rw [slice_of_le (Nat.mul_le_mul_right b a.le_succ) h, hwidth]

theorem index_of_lt (h : a < xs.length) : index xs a = .ok xs[a] := by
  rw [index, List.getElem?_eq_getElem h]

theorem index_getD (default : α) (h : a < xs.length) : index xs a = .ok (xs.getD a default) := by
  rw [index_of_lt h, List.getD_eq_getElem?_getD, List.getElem?_eq_getElem h, Option.getD_some]

theorem index_of_eq {x : α} (h : xs[a]? = some x) : index xs a = .ok x := by
  rw [index, h]

theorem set_of_lt (h : a < xs.length) (x : α) : set xs a x = .ok (xs.set a x) := if_pos h

end Checked

end Rllm
