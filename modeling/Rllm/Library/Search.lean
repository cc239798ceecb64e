import Mathlib.Algebra.BigOperators.Group.List.Basic
import Mathlib.Algebra.GroupWithZero.Nat
import Mathlib.Data.List.DropRight
import Mathlib.Data.List.Forall2
import Mathlib.Data.List.Infix

/-! # Search in a text

The elements of a text take up a positive number of units each, as characters
do in an encoding, and offsets count units. What stands before the first
occurrence of a pattern does not depend on a beginning of the text that is free
of the pattern, as long as enough of it is kept.
-/

namespace Rllm

namespace Search

variable {α : Type*} (w : α → ℕ)

/-- The units of a text. -/
def weight (xs : List α) : ℕ := (xs.map w).sum

/-- The two sides of an offset, unless it lies inside of an element. -/
def split : List α → ℕ → Option (List α × List α)
  | xs, 0 => some ([], xs)
  | [], _ + 1 => none
  | x :: xs, n + 1 =>
    if w x ≤ n + 1 then (split xs (n + 1 - w x)).map (Prod.map (x :: ·) id) else none

section

variable [DecidableEq α]

/-- What stands before the first occurrence of a pattern. -/
def before (p : List α) : List α → Option (List α)
  | [] => if p = [] then some [] else none
  | x :: xs => if p <+: x :: xs then some [] else (before p xs).map (x :: ·)

def beforeLast (p : List α) : List α → Option (List α)
  | [] => if p = [] then some [] else none
  | x :: xs =>
    ((beforeLast p xs).map (x :: ·)).or (if p <+: x :: xs then some [] else none)

def contains (p xs : List α) : Bool := (before p xs).isSome

def find (p xs : List α) : Option ℕ := (before p xs).map (weight w)

def rfind (p xs : List α) : Option ℕ := (beforeLast p xs).map (weight w)

/-- What stands before all occurrences of the patterns. -/
def beforeAny (ps : List (List α)) : List α → List α
  | [] => []
  | x :: xs => if ∃ p ∈ ps, p <+: x :: xs then [] else x :: beforeAny ps xs

end

/-! ## Offsets -/

variable {w} {xs a b : List α} {n : ℕ}

@[simp] theorem weight_nil : weight w [] = 0 := rfl

@[simp] theorem weight_cons (x : α) (xs : List α) : weight w (x :: xs) = w x + weight w xs :=
  List.sum_cons

@[simp] theorem weight_append (xs ys : List α) :
    weight w (xs ++ ys) = weight w xs + weight w ys := by
  rw [weight, List.map_append, List.sum_append]
  rfl

@[simp] theorem split_zero (xs : List α) : split w xs 0 = some ([], xs) := by
  cases xs <;> rfl

theorem split_eq_some (h : split w xs n = some (a, b)) : a ++ b = xs ∧ weight w a = n := by
  induction xs generalizing n a with
  | nil =>
    cases n with
    | zero =>
      obtain ⟨rfl, rfl⟩ := Prod.mk.inj (Option.some.inj h)
      exact ⟨rfl, rfl⟩
    | succ n => cases h
  | cons x xs ih =>
    cases n with
    | zero =>
      obtain ⟨rfl, rfl⟩ := Prod.mk.inj (Option.some.inj h)
      exact ⟨rfl, rfl⟩
    | succ n =>
      rw [split] at h
      split at h
      · rename_i hle
        obtain ⟨⟨c, d⟩, hs, he⟩ := Option.map_eq_some_iff.mp h
        obtain ⟨rfl, rfl⟩ := Prod.mk.inj he
        obtain ⟨hcd, hw⟩ := ih hs
        refine ⟨by rw [← hcd]; rfl, ?_⟩
        rw [weight_cons, hw]
        omega
      · cases h

section Positive

variable (hw : ∀ x, 0 < w x)

include hw

theorem weight_eq_zero (h : weight w xs = 0) : xs = [] := by
  cases xs with
  | nil => rfl
  | cons x xs =>
    have := hw x
    rw [weight_cons] at h
    omega

theorem split_append_add (xs : List α) (ys : List α) (n : ℕ) :
    split w (xs ++ ys) (weight w xs + n) = (split w ys n).map (Prod.map (xs ++ ·) id) := by
  induction xs with
  | nil =>
    rw [weight_nil, Nat.zero_add]
    exact (Option.map_id' ..).symm
  | cons x xs ih =>
    have hx := hw x
    obtain ⟨m, hm⟩ : ∃ m, weight w (x :: xs) + n = m + 1 :=
      Nat.exists_eq_add_one_of_ne_zero (by rw [weight_cons]; omega)
    have hrest : m + 1 - w x = weight w xs + n := by
      rw [← hm, weight_cons]
      omega
    rw [hm, List.cons_append, split, if_pos, hrest, ih, Option.map_map]
    · rfl
    · rw [← hm, weight_cons]
      omega

theorem split_append (xs ys : List α) : split w (xs ++ ys) (weight w xs) = some (xs, ys) := by
  have h := split_append_add hw xs ys 0
  rwa [Nat.add_zero, split_zero, Option.map_some, Prod.map_apply, List.append_nil] at h

theorem split_isSome_append (xs ys : List α) (n : ℕ) :
    (split w (xs ++ ys) (weight w xs + n)).isSome = (split w ys n).isSome := by
  rw [split_append_add hw, Option.isSome_map]

end Positive

/-! ## Occurrences -/

variable [DecidableEq α] {p : List α} {ps : List (List α)}

theorem before_cons_of_isPrefix {x : α} (h : p <+: x :: xs) : before p (x :: xs) = some [] :=
  if_pos h

theorem before_cons_of_not_isPrefix {x : α} (h : ¬ p <+: x :: xs) :
    before p (x :: xs) = (before p xs).map (x :: ·) :=
  if_neg h

theorem before_eq_none_iff : before p xs = none ↔ ¬ p <:+: xs := by
  induction xs with
  | nil =>
    rw [before, List.infix_nil]
    split <;> simp [*]
  | cons x xs ih =>
    rw [List.infix_cons_iff, not_or]
    by_cases h : p <+: x :: xs
    · rw [before_cons_of_isPrefix h]
      exact iff_of_false (Option.some_ne_none _) fun hn => hn.1 h
    · rw [before_cons_of_not_isPrefix h, Option.map_eq_none_iff, ih, and_iff_right h]

theorem exists_before (h : p <:+: xs) : ∃ a, before p xs = some a :=
  Option.ne_none_iff_exists'.mp fun hn => before_eq_none_iff.mp hn h

theorem contains_iff : contains p xs = true ↔ p <:+: xs := by
  rw [contains, Option.isSome_iff_ne_none, ne_eq, before_eq_none_iff, not_not]

theorem before_eq_append (h : before p xs = some a) : ∃ b, xs = a ++ p ++ b := by
  induction xs generalizing a with
  | nil =>
    rw [before] at h
    split at h
    · rename_i hp
      obtain rfl := Option.some.inj h
      exact ⟨[], by rw [hp]; rfl⟩
    · cases h
  | cons x xs ih =>
    by_cases hp : p <+: x :: xs
    · rw [before_cons_of_isPrefix hp] at h
      obtain rfl := Option.some.inj h
      obtain ⟨b, hb⟩ := hp
      exact ⟨b, hb.symm⟩
    · rw [before_cons_of_not_isPrefix hp] at h
      obtain ⟨a', ha, rfl⟩ := Option.map_eq_some_iff.mp h
      obtain ⟨b, hb⟩ := ih ha
      exact ⟨b, by rw [hb]; rfl⟩

theorem infix_of_before (h : before p xs = some a) : p <:+: xs := by
  obtain ⟨b, rfl⟩ := before_eq_append h
  exact List.infix_append a p b

theorem beforeLast_isPrefix (h : beforeLast p xs = some a) : a <+: xs := by
  induction xs generalizing a with
  | nil =>
    rw [beforeLast] at h
    split at h
    · exact Option.some.inj h ▸ List.prefix_rfl
    · cases h
  | cons x xs ih =>
    rw [beforeLast, Option.or_eq_some_iff] at h
    rcases h with h | ⟨-, h⟩
    · obtain ⟨a', ha, rfl⟩ := Option.map_eq_some_iff.mp h
      exact (List.prefix_cons_inj x).mpr (ih ha)
    · split at h
      · exact Option.some.inj h ▸ List.nil_prefix
      · cases h

/-- A text that is free of the pattern is searched no more once it goes on, but for an end of the
weight of the pattern. -/
theorem before_append (hw : ∀ x, 0 < w x) {e k t : List α} (hfree : ¬ p <:+: e ++ k)
    (hlen : weight w p ≤ weight w k) :
    before p (e ++ (k ++ t)) = (before p (k ++ t)).map (e ++ ·) := by
  induction e with
  | nil => exact (Option.map_id' ..).symm
  | cons x e ih =>
    rw [List.cons_append, List.infix_cons_iff, not_or] at hfree
    have hnot : ¬ p <+: x :: (e ++ (k ++ t)) := by
      intro hp
      have hwhole : x :: (e ++ k) <+: x :: (e ++ (k ++ t)) :=
        ⟨t, by rw [List.cons_append, List.append_assoc]⟩
      rcases List.prefix_or_prefix_of_prefix hp hwhole with h | ⟨c, rfl⟩
      · exact hfree.1 h
      · have := hw x
        rw [List.cons_append, weight_cons, weight_append, weight_append] at hlen
        omega
    rw [List.cons_append, before_cons_of_not_isPrefix hnot, ih hfree.2, Option.map_map]
    rfl

theorem length_before_le (h : before p xs = some a) {u v : List α} (hu : xs = u ++ p ++ v) :
    a.length ≤ u.length := by
  induction u generalizing xs a with
  | nil =>
    have hp : p <+: xs := ⟨v, hu.symm⟩
    cases xs with
    | nil =>
      rw [before, if_pos (List.prefix_nil.mp hp)] at h
      exact Option.some.inj h ▸ le_rfl
    | cons x xs =>
      rw [before_cons_of_isPrefix hp] at h
      exact Option.some.inj h ▸ le_rfl
  | cons c u ih =>
    subst hu
    rw [List.cons_append, List.cons_append] at h
    by_cases hp : p <+: c :: (u ++ p ++ v)
    · rw [before_cons_of_isPrefix hp] at h
      exact Option.some.inj h ▸ Nat.zero_le _
    · rw [before_cons_of_not_isPrefix hp] at h
      obtain ⟨a', ha, rfl⟩ := Option.map_eq_some_iff.mp h
      exact Nat.succ_le_succ (ih ha rfl)

/-- The earliest place of a pattern in a text. -/
structure FirstAt {β : Type*} (p a xs b : List β) : Prop where
  eq_append : xs = a ++ p ++ b
  length_le : ∀ u v, xs = u ++ p ++ v → a.length ≤ u.length

theorem firstAt_of_before (h : before p xs = some a) : ∃ b, FirstAt p a xs b := by
  obtain ⟨b, hb⟩ := before_eq_append h
  exact ⟨b, hb, fun u v => length_before_le h⟩

/-! ## Several patterns -/

theorem beforeAny_cons_of_not {x : α} (h : ¬ ∃ p ∈ ps, p <+: x :: xs) :
    beforeAny ps (x :: xs) = x :: beforeAny ps xs :=
  if_neg h

theorem beforeAny_isPrefix (ps : List (List α)) (xs : List α) : beforeAny ps xs <+: xs := by
  induction xs with
  | nil => exact List.prefix_rfl
  | cons x xs ih =>
    rw [beforeAny]
    split
    · exact List.nil_prefix
    · exact (List.prefix_cons_inj x).mpr ih

theorem length_beforeAny_le (hp : p ∈ ps) {u v : List α} (h : xs = u ++ p ++ v) :
    (beforeAny ps xs).length ≤ u.length := by
  induction u generalizing xs with
  | nil =>
    cases xs with
    | nil => exact le_rfl
    | cons x xs => rw [beforeAny, if_pos ⟨p, hp, v, h.symm⟩]
  | cons c u ih =>
    rw [h, List.cons_append, List.cons_append, beforeAny]
    split
    · exact Nat.zero_le _
    · exact Nat.succ_le_succ (ih rfl)

theorem beforeAny_of_free (h : ∀ p ∈ ps, ¬ p <:+: xs) : beforeAny ps xs = xs := by
  induction xs with
  | nil => rfl
  | cons x xs ih =>
    rw [beforeAny_cons_of_not, ih fun p hp hi => h p hp (List.infix_cons_iff.mpr (.inr hi))]
    rintro ⟨p, hp, hx⟩
    exact h p hp hx.isInfix

theorem exists_beforeAny (hp : p ∈ ps) (h : p <:+: xs) :
    ∃ q ∈ ps, ∃ v, beforeAny ps xs ++ q ++ v = xs := by
  induction xs with
  | nil => exact ⟨p, hp, [], by rw [List.infix_nil.mp h]; rfl⟩
  | cons x xs ih =>
    by_cases hany : ∃ q ∈ ps, q <+: x :: xs
    · rw [beforeAny, if_pos hany]
      obtain ⟨q, hq, v, hv⟩ := hany
      exact ⟨q, hq, v, hv⟩
    · have hrest : p <:+: xs := (List.infix_cons_iff.mp h).resolve_left fun hx => hany ⟨p, hp, hx⟩
      obtain ⟨q, hq, v, hv⟩ := ih hrest
      rw [beforeAny_cons_of_not hany]
      exact ⟨q, hq, v, by rw [List.cons_append, List.cons_append, hv]⟩

theorem eq_beforeAny_iff {v : List α} (hp : p ∈ ps) (h : xs = a ++ p ++ v) :
    a = beforeAny ps xs ↔ ∀ q ∈ ps, ∀ u v, xs = u ++ q ++ v → a.length ≤ u.length := by
  constructor
  · rintro ha q hq u v hu
    rw [ha]
    exact length_beforeAny_le hq hu
  · intro hfirst
    obtain ⟨q, hq, v', hv⟩ := exists_beforeAny hp ⟨a, v, h.symm⟩
    have hle := hfirst q hq _ _ hv.symm
    have hge := length_beforeAny_le hp h
    have hpre : a <+: xs := ⟨p ++ v, by rw [h, List.append_assoc]⟩
    have hpre' := List.prefix_of_prefix_length_le hpre (beforeAny_isPrefix ps xs) hle
    exact hpre'.eq_of_length (le_antisymm hle hge)

/-! ## Trimming -/

section Trim

variable {q : α → Bool}

/-- The text without the elements at both ends that satisfy the predicate. -/
def trim (q : α → Bool) (xs : List α) : List α := (xs.dropWhile q).rdropWhile q

omit [DecidableEq α] in
theorem trim_spec (q : α → Bool) (xs : List α) :
    ∃ lead trail, xs = lead ++ trim q xs ++ trail ∧ (∀ x ∈ lead, q x) ∧ ∀ x ∈ trail, q x := by
  refine ⟨xs.takeWhile q, (xs.dropWhile q).rtakeWhile q, ?_, fun x => List.mem_takeWhile_imp,
    fun x => List.mem_rtakeWhile_imp⟩
  rw [trim, List.append_assoc, List.rdropWhile_append_rtakeWhile, List.takeWhile_append_dropWhile]

end Trim

/-! ## Pieces of a text -/

section Pieces

variable {β : Type*} {pieces pieces' : List (List β)} {s t : List β}

/-- The pieces stand in the text one behind the other, with anything between them. -/
inductive InOrder : List (List β) → List β → Prop
  | nil (gap : List β) : InOrder [] gap
  | cons (gap : List β) {piece rest : List β} {pieces : List (List β)} (h : InOrder pieces rest) :
    InOrder (piece :: pieces) (gap ++ piece ++ rest)

theorem InOrder.append_right (h : InOrder pieces s) (t : List β) : InOrder pieces (s ++ t) := by
  induction h with
  | nil gap => exact .nil _
  | cons gap _ ih =>
    rw [List.append_assoc]
    exact .cons gap ih

theorem InOrder.append_left (t : List β) (h : InOrder pieces s) : InOrder pieces (t ++ s) := by
  cases h with
  | nil gap => exact .nil _
  | cons gap h =>
    rw [← List.append_assoc, ← List.append_assoc]
    exact .cons (t ++ gap) h

theorem InOrder.append (h : InOrder pieces s) (h' : InOrder pieces' t) :
    InOrder (pieces ++ pieces') (s ++ t) := by
  induction h with
  | nil gap => exact h'.append_left gap
  | cons gap _ ih =>
    rw [List.append_assoc]
    exact .cons gap ih

theorem InOrder.of_infix (h : InOrder pieces s) (hst : s <:+: t) : InOrder pieces t := by
  obtain ⟨a, b, rfl⟩ := hst
  exact (h.append_left a).append_right b

theorem InOrder.singleton (h : s <:+: t) : InOrder [s] t := by
  obtain ⟨a, b, rfl⟩ := h
  exact .cons a (.nil b)

theorem InOrder.refine {γ δ : Type*} {R : γ → List β → Prop} {P : δ → List β → Prop}
    {Q : γ → List δ → Prop} {xs : List γ} (h : InOrder pieces s) (hR : List.Forall₂ R xs pieces)
    (hparts : ∀ x piece, R x piece →
      ∃ ys ps, Q x ys ∧ List.Forall₂ P ys ps ∧ InOrder ps piece) :
    ∃ yss ps, List.Forall₂ Q xs yss ∧ List.Forall₂ P yss.flatten ps ∧ InOrder ps s := by
  induction h generalizing xs with
  | nil gap =>
    cases hR
    exact ⟨[], [], .nil, .nil, .nil gap⟩
  | cons gap _ ih =>
    cases hR with
    | cons hx hR =>
      obtain ⟨ys, ps, hQ, hP, horder⟩ := hparts _ _ hx
      obtain ⟨yss, pss, hQs, hPs, horders⟩ := ih hR
      exact ⟨ys :: yss, ps ++ pss, .cons hQ hQs, List.rel_append hP hPs,
        (horder.append_left gap).append horders⟩

end Pieces

example : before [2, 1] [1, 2, 2, 1, 2, 1] = some [1, 2] ∧
    beforeLast [2, 1] [1, 2, 2, 1, 2, 1] = some [1, 2, 2, 1] := by
  decide

end Search

end Rllm
