import Mathlib.Algebra.Group.Nat.Defs
import Mathlib.Data.List.Basic
import Mathlib.Data.Nat.Basic
import Mathlib.Order.Basic

/-! # Framing

Words are written one after another, and reading them back is unique: words of
one width need no mark, others follow a header that writes their length.
-/

namespace Rllm

/-! ## Digits -/

theorem digits_inj {b : ℕ} (w : ℕ) {m n : ℕ} (hm : m < b ^ w) (hn : n < b ^ w)
    (h : ∀ k < w, m / b ^ k % b = n / b ^ k % b) : m = n := by
  induction w generalizing m n with
  | zero => rw [Nat.lt_one_iff.mp hm, Nat.lt_one_iff.mp hn]
  | succ w ih =>
    have hhigh : m / b = n / b := by
      refine ih (Nat.div_lt_of_lt_mul ?_) (Nat.div_lt_of_lt_mul ?_) fun k hk => ?_
      · rwa [← Nat.pow_succ']
      · rwa [← Nat.pow_succ']
      · have hdigit := h (k + 1) (Nat.succ_lt_succ hk)
        rwa [Nat.pow_succ', ← Nat.div_div_eq_div_mul, ← Nat.div_div_eq_div_mul] at hdigit
    have hlow : m % b = n % b := by simpa using h 0 (Nat.succ_pos w)
    rw [← Nat.div_add_mod m b, ← Nat.div_add_mod n b, hhigh, hlow]

/-! ## Words of one width -/

theorem flatMap_append_inj {α β : Type*} {f : β → List α} {w : ℕ} (hw : ∀ x, (f x).length = w)
    (hf : Function.Injective f) {xs ys : List β} (hlen : xs.length = ys.length) {u v : List α}
    (h : xs.flatMap f ++ u = ys.flatMap f ++ v) : xs = ys ∧ u = v := by
  induction xs generalizing ys with
  | nil =>
    cases ys with
    | nil => exact ⟨rfl, h⟩
    | cons y ys => exact absurd hlen (Nat.succ_ne_zero _).symm
  | cons x xs ih =>
    cases ys with
    | nil => exact absurd hlen (Nat.succ_ne_zero _)
    | cons y ys =>
      rw [List.flatMap_cons, List.flatMap_cons, List.append_assoc, List.append_assoc] at h
      obtain ⟨hx, hrest⟩ := List.append_inj h ((hw x).trans (hw y).symm)
      obtain ⟨rfl, huv⟩ := ih (Nat.succ.inj hlen) hrest
      exact ⟨congrArg (· :: xs) (hf hx), huv⟩

/-! ## Words after their length -/

/-- A way to write lengths below a bound at one width. -/
structure LengthCode (α : Type*) where
  write : ℕ → List α
  width : ℕ
  bound : ℕ
  width_pos : 0 < width
  length_write : ∀ n, (write n).length = width
  write_inj : ∀ {m n}, m < bound → n < bound → write m = write n → m = n

namespace LengthCode

variable {α : Type*} (c : LengthCode α)

def frame (word : List α) : List α := c.write word.length ++ word

def frames (words : List (List α)) : List α := words.flatMap c.frame

/-- The lengths of the words can be written. -/
def Fits (words : List (List α)) : Prop := ∀ word ∈ words, word.length < c.bound

variable {c}

theorem frame_append_inj {v w u t : List α} (hv : v.length < c.bound) (hw : w.length < c.bound)
    (h : c.frame v ++ u = c.frame w ++ t) : v = w ∧ u = t := by
  rw [frame, frame, List.append_assoc, List.append_assoc] at h
  obtain ⟨hlen, hrest⟩ := List.append_inj h ((c.length_write _).trans (c.length_write _).symm)
  exact List.append_inj hrest (c.write_inj hv hw hlen)

theorem frame_append_ne_nil (v u : List α) : c.frame v ++ u ≠ [] := by
  intro h
  have hwrite : c.write v.length = [] := by
    rw [frame, List.append_assoc] at h
    exact (List.append_eq_nil_iff.mp h).1
  exact c.width_pos.ne' ((c.length_write v.length).symm.trans (congrArg List.length hwrite))

/-- Framed words can be read back, whatever they contain. -/
theorem frames_inj {vs ws : List (List α)} (hv : c.Fits vs) (hw : c.Fits ws)
    (h : c.frames vs = c.frames ws) : vs = ws := by
  induction vs generalizing ws with
  | nil =>
    cases ws with
    | nil => rfl
    | cons w ws => exact absurd h.symm (frame_append_ne_nil w _)
  | cons v vs ih =>
    cases ws with
    | nil => exact absurd h (frame_append_ne_nil v _)
    | cons w ws =>
      obtain ⟨rfl, hrest⟩ :=
        frame_append_inj (hv v List.mem_cons_self) (hw w List.mem_cons_self) h
      have htail := ih (fun x hx => hv x (List.mem_cons_of_mem _ hx))
        (fun x hx => hw x (List.mem_cons_of_mem _ hx)) hrest
      rw [htail]

end LengthCode

end Rllm
