import Mathlib.Data.List.Perm.Basic
import Mathlib.Data.List.GetD
import Mathlib.Logic.OpClass

/-! # Scattered additions

Values added to the places of a buffer one after another. What a place ends up with
depends on the values sent there only, and for a sum that commutes not on their
order. So values may be sent in groups, by whatever they have in common.
-/

namespace Rllm

section Scatter

variable {α β : Type*} (add : β → α → β)

/-- Add each value to its place. -/
def scatter (buf : List β) (writes : List (ℕ × α)) : List β :=
  writes.foldl (fun buf w => buf.modify w.1 (add · w.2)) buf

/-- The values that are sent to a place. -/
def sentTo (writes : List (ℕ × α)) (i : ℕ) : List α :=
  (writes.filter fun w => w.1 == i).map Prod.snd

variable {add} {buf : List β} {writes writes' : List (ℕ × α)} {i : ℕ}

theorem scatter_append :
    scatter add buf (writes ++ writes') = scatter add (scatter add buf writes) writes' :=
  List.foldl_append

@[simp] theorem length_scatter : (scatter add buf writes).length = buf.length := by
  induction writes generalizing buf with
  | nil => rfl
  | cons w writes ih => exact ih.trans (List.length_modify ..)

theorem sentTo_cons (w : ℕ × α) : sentTo (w :: writes) i =
    if w.1 = i then w.2 :: sentTo writes i else sentTo writes i := by
  rw [sentTo, List.filter_cons]
  by_cases hw : w.1 = i <;> simp [hw, sentTo]

theorem getElem?_scatter :
    (scatter add buf writes)[i]? = buf[i]?.map ((sentTo writes i).foldl add) := by
  induction writes generalizing buf with
  | nil => exact Option.map_id'.symm
  | cons w writes ih =>
    change (scatter add (buf.modify w.1 (add · w.2)) writes)[i]? = _
    rw [ih, List.getElem?_modify, sentTo_cons]
    cases buf[i]? with
    | none => rfl
    | some x => by_cases hw : w.1 = i <;> simp [hw]

theorem sentTo_perm (h : writes.Perm writes') : (sentTo writes i).Perm (sentTo writes' i) :=
  (h.filter _).map _

/-- The order of the values does not matter. -/
theorem scatter_perm [RightCommutative add] (h : writes.Perm writes') :
    scatter add buf writes = scatter add buf writes' := by
  refine List.ext_getElem? fun i => ?_
  rw [getElem?_scatter, getElem?_scatter]
  exact congrArg (Option.map · _) (funext (sentTo_perm h).foldl_eq)

theorem sentTo_flatMap {f : ℕ → List α} {n : ℕ} (hi : i < n) :
    sentTo ((List.range n).flatMap fun k => (f k).map (Prod.mk k)) i = f i := by
  have hgroup : ∀ k, ((f k).map (Prod.mk k)).filter (fun w => w.1 == i) =
      if k = i then (f k).map (Prod.mk k) else [] := by
    intro k
    rw [List.filter_map]
    by_cases hk : k = i
    · simp [Function.comp_def, hk]
    · simp [Function.comp_def, hk]
  rw [sentTo, List.filter_flatMap, List.flatMap_congr fun k _ => hgroup k]
  induction n with
  | zero => exact absurd hi (Nat.not_lt_zero i)
  | succ n ih =>
    rw [List.range_succ, List.flatMap_append, List.flatMap_singleton, List.map_append]
    rcases Nat.lt_succ_iff_lt_or_eq.mp hi with hlt | rfl
    · rw [ih hlt, if_neg (Nat.ne_of_gt hlt), List.map_nil, List.append_nil]
    · have hbelow : ((List.range i).flatMap fun k =>
          if k = i then (f k).map (Prod.mk k) else []) = [] :=
        List.flatMap_eq_nil_iff.mpr fun k hk => if_neg (Nat.ne_of_lt (List.mem_range.mp hk))
      rw [hbelow, if_pos rfl, List.map_nil, List.nil_append, List.map_map]
      exact List.map_id _

theorem perm_groups {n : ℕ} {xs : List α} {key : α → ℕ} (h : ∀ x ∈ xs, key x < n) :
    ((List.range n).flatMap fun k => xs.filter (key · == k)).Perm xs := by
  induction n generalizing xs with
  | zero =>
    obtain rfl := List.eq_nil_iff_forall_not_mem.mpr fun x hx => Nat.not_lt_zero _ (h x hx)
    exact .refl _
  | succ n ih =>
    have hlow := @ih (xs.filter (key · != n)) fun x hx => by
      obtain ⟨hx, hne⟩ := List.mem_filter.mp hx
      have hlt := h x hx
      simp only [bne_iff_ne] at hne
      omega
    have hgroup : ∀ k ∈ List.range n, (xs.filter (key · != n)).filter (key · == k) =
        xs.filter (key · == k) := by
      intro k hk
      have hk := List.mem_range.mp hk
      rw [List.filter_filter]
      refine List.filter_congr fun x _ => ?_
      by_cases hkey : key x = k
      · simp [hkey, Nat.ne_of_lt hk]
      · simp [hkey]
    rw [List.flatMap_congr hgroup] at hlow
    rw [List.range_succ, List.flatMap_append, List.flatMap_singleton]
    exact ((hlow.append_right _).trans List.perm_append_comm).trans
      (List.filter_append_perm (key · == n) xs)

end Scatter

end Rllm
