import Mathlib.Data.List.AList

/-! # Tables

Finite tables of keys and values. A change of the entry of one key leaves those
of all other keys.
-/

namespace Rllm

variable {α β : Type} [DecidableEq α]

theorem lookup_erase_eq (l : AList fun _ : α => β) (a i : α) :
    (l.erase a).lookup i = if i = a then none else l.lookup i := by
  split
  · rename_i h
    rw [h, AList.lookup_erase]
  · rename_i h
    exact AList.lookup_erase_ne h

theorem lookup_insert_eq (l : AList fun _ : α => β) (a i : α) (b : β) :
    (l.insert a b).lookup i = if i = a then some b else l.lookup i := by
  split
  · rename_i h
    rw [h, AList.lookup_insert]
  · rename_i h
    exact AList.lookup_insert_ne h

theorem of_lookup_insert {l : AList fun _ : α => β} {a i : α} {b c : β}
    (h : (l.insert a b).lookup i = some c) : i = a ∧ b = c ∨ i ≠ a ∧ l.lookup i = some c := by
  rw [lookup_insert_eq] at h
  split at h
  · rename_i hi
    exact Or.inl ⟨hi, Option.some.inj h⟩
  · rename_i hi
    exact Or.inr ⟨hi, h⟩

/-- What holds of every entry can be tested entry by entry. -/
instance decidableForallLookup (l : AList fun _ : α => β) (p : α → β → Prop)
    [∀ a b, Decidable (p a b)] :
    Decidable (∀ a b, l.lookup a = some b → p a b) :=
  decidable_of_iff (∀ e ∈ l.entries, p e.1 e.2)
    ⟨fun h a b hb => h ⟨a, b⟩ (AList.mem_lookup_iff.mp hb),
      fun h e he => h e.1 e.2 (AList.mem_lookup_iff.mpr he)⟩

end Rllm
