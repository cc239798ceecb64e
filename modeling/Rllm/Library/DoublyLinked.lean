import Mathlib.Data.List.Basic
import Mathlib.Data.List.Nodup

/-! # Doubly linked lists over indexed cells

The links of a list live in the cells themselves, as two partial functions
`next` and `prev`. `Linked` says that they spell a given duplicate-free list
between two ends; pushing at either end and unlinking any cell keep it.
-/

namespace DoublyLinked

variable {ι : Type*}

/-- Following `next` from the given pointer visits exactly the listed cells. -/
def Path (next : ι → Option ι) : Option ι → List ι → Prop
  | h, [] => h = none
  | h, a :: l => h = some a ∧ Path next (next a) l

theorem Path.unique {next : ι → Option ι} {h : Option ι} {l m : List ι}
    (hl : Path next h l) (hm : Path next h m) : l = m := by
  induction l generalizing h m with
  | nil =>
    cases m with
    | nil => rfl
    | cons b m => rw [show h = none from hl] at hm; simp [Path] at hm
  | cons a l ih =>
    obtain ⟨rfl, hl⟩ := hl
    cases m with
    | nil => simp [Path] at hm
    | cons b m =>
      obtain ⟨hab, hm⟩ := hm
      obtain rfl : a = b := Option.some.inj hab
      rw [ih hl hm]

/-- Search along a chain of pointers, giving up after the stated number of cells. -/
def findAlong (next : ι → Option ι) (p : ι → Bool) : ℕ → Option ι → Option ι
  | 0, _ => none
  | _ + 1, none => none
  | n + 1, some a => if p a then some a else findAlong next p n (next a)

theorem Path.findAlong_eq {next : ι → Option ι} {h : Option ι} {l : List ι}
    (hl : Path next h l) (p : ι → Bool) {n : ℕ} (hn : l.length ≤ n) :
    findAlong next p n h = l.find? p := by
  induction l generalizing h n with
  | nil =>
    rw [show h = none from hl]
    cases n <;> rfl
  | cons a l ih =>
    obtain ⟨rfl, hl⟩ := hl
    cases n with
    | zero => simp at hn
    | succ n =>
      have hr := ih hl (show l.length ≤ n by simpa using hn)
      cases hp : p a <;> simp [findAlong, hp, hr]

theorem findAlong_some {next : ι → Option ι} {p : ι → Bool} {P : ι → Prop}
    (hnext : ∀ b c, next b = some c → P c) {n : ℕ} {h : Option ι} (hh : ∀ b, h = some b → P b)
    {a : ι} (hf : findAlong next p n h = some a) : P a ∧ p a = true := by
  induction n generalizing h with
  | zero => cases hf
  | succ n ih =>
    cases h with
    | none => cases hf
    | some b =>
      unfold findAlong at hf
      split at hf
      · rename_i hb
        obtain rfl := Option.some.inj hf
        exact ⟨hh b rfl, hb⟩
      · exact ih (hnext b) hf

/-- The links spell the list `l` from `head` to `tail`. -/
structure Linked (next prev : ι → Option ι) (head tail : Option ι) (l : List ι) : Prop where
  nodup : l.Nodup
  head_eq : head = l.head?
  tail_eq : tail = l.getLast?
  next_eq : ∀ l₁ a l₂, l = l₁ ++ a :: l₂ → next a = l₂.head?
  prev_eq : ∀ l₁ a l₂, l = l₁ ++ a :: l₂ → prev a = l₁.getLast?

variable {next prev next' prev' : ι → Option ι} {head tail : Option ι} {l l₁ l₂ : List ι} {a : ι}

theorem Linked.empty : Linked next prev none none [] where
  nodup := List.nodup_nil
  head_eq := rfl
  tail_eq := rfl
  next_eq l₁ a l₂ h := by simp at h
  prev_eq l₁ a l₂ h := by simp at h

theorem path_of_splits (hn : ∀ l₁ a l₂, l = l₁ ++ a :: l₂ → next a = l₂.head?) :
    Path next l.head? l := by
  induction l with
  | nil => rfl
  | cons a l ih =>
    refine ⟨rfl, ?_⟩
    rw [hn [] a l rfl]
    exact ih fun l₁ b l₂ hb => hn (a :: l₁) b l₂ (by rw [hb, List.cons_append])

theorem Linked.symm (h : Linked next prev head tail l) :
    Linked prev next tail head l.reverse where
  nodup := List.nodup_reverse.mpr h.nodup
  head_eq := by rw [List.head?_reverse]; exact h.tail_eq
  tail_eq := by rw [List.getLast?_reverse]; exact h.head_eq
  next_eq l₁ a l₂ hl := by
    have hr : l = l₂.reverse ++ a :: l₁.reverse := by
      rw [← List.reverse_reverse l, hl]; simp
    simpa using h.prev_eq _ _ _ hr
  prev_eq l₁ a l₂ hl := by
    have hr : l = l₂.reverse ++ a :: l₁.reverse := by
      rw [← List.reverse_reverse l, hl]; simp
    simpa using h.next_eq _ _ _ hr

theorem Linked.forward (h : Linked next prev head tail l) : Path next head l :=
  h.head_eq ▸ path_of_splits h.next_eq

theorem Linked.backward (h : Linked next prev head tail l) : Path prev tail l.reverse :=
  h.symm.forward

theorem Linked.congr (h : Linked next prev head tail l)
    (hn : ∀ b ∈ l, next' b = next b) (hp : ∀ b ∈ l, prev' b = prev b) :
    Linked next' prev' head tail l where
  nodup := h.nodup
  head_eq := h.head_eq
  tail_eq := h.tail_eq
  next_eq l₁ b l₂ hl := by rw [hn b (by simp [hl])]; exact h.next_eq _ _ _ hl
  prev_eq l₁ b l₂ hl := by rw [hp b (by simp [hl])]; exact h.prev_eq _ _ _ hl

theorem Linked.head_mem (h : Linked next prev head tail l) {b : ι} (hb : head = some b) :
    b ∈ l :=
  List.mem_of_mem_head? (h.head_eq ▸ hb)

theorem Linked.tail_mem (h : Linked next prev head tail l) {b : ι} (hb : tail = some b) :
    b ∈ l :=
  List.mem_of_mem_getLast? (h.tail_eq ▸ hb)

theorem Linked.next_mem (h : Linked next prev head tail l) {b : ι} (ha : a ∈ l)
    (hb : next a = some b) : b ∈ l := by
  obtain ⟨l₁, l₂, rfl⟩ := List.append_of_mem ha
  rw [h.next_eq _ _ _ rfl] at hb
  exact List.mem_append_right _ (List.mem_cons_of_mem _ (List.mem_of_mem_head? hb))

theorem Linked.prev_mem (h : Linked next prev head tail l) {b : ι} (ha : a ∈ l)
    (hb : prev a = some b) : b ∈ l := by
  obtain ⟨l₁, l₂, rfl⟩ := List.append_of_mem ha
  rw [h.prev_eq _ _ _ rfl] at hb
  exact List.mem_append_left _ (List.mem_of_mem_getLast? hb)

/-- A listed cell has a neighbour, or it is the head of a one-cell list. -/
theorem Linked.mem_links (h : Linked next prev head tail l) (ha : a ∈ l) :
    (prev a).isSome ∨ (next a).isSome ∨ head = some a := by
  obtain ⟨l₁, l₂, rfl⟩ := List.append_of_mem ha
  rw [h.prev_eq _ _ _ rfl, h.next_eq _ _ _ rfl, h.head_eq]
  cases l₁ with
  | nil => exact Or.inr (Or.inr rfl)
  | cons b l₁ => exact Or.inl (by simp [List.getLast?_cons])

theorem Linked.pushFront (h : Linked next prev head tail l) (ha : a ∉ l)
    (hna : next' a = head) (hpa : prev' a = none)
    (hn : ∀ b ∈ l, next' b = next b) (hph : ∀ b, head = some b → prev' b = some a)
    (hp : ∀ b ∈ l, head ≠ some b → prev' b = prev b) :
    Linked next' prev' (some a) (tail.or (some a)) (a :: l) where
  nodup := List.nodup_cons.mpr ⟨ha, h.nodup⟩
  head_eq := rfl
  tail_eq := by
    rw [h.tail_eq, List.getLast?_cons]
    cases l.getLast? <;> rfl
  next_eq l₁ b l₂ hl := by
    cases l₁ with
    | nil =>
      obtain ⟨rfl, rfl⟩ := List.cons.inj hl
      rw [hna, h.head_eq]
    | cons c l₁ =>
      obtain ⟨rfl, rfl⟩ := List.cons.inj hl
      rw [hn b (by simp)]
      exact h.next_eq _ _ _ rfl
  prev_eq l₁ b l₂ hl := by
    cases l₁ with
    | nil =>
      obtain ⟨rfl, rfl⟩ := List.cons.inj hl
      exact hpa
    | cons c l₁ =>
      obtain ⟨rfl, rfl⟩ := List.cons.inj hl
      cases l₁ with
      | nil => exact hph b (by rw [h.head_eq]; rfl)
      | cons d l₁ =>
        have hne : head ≠ some b := by
          rw [h.head_eq]
          have hd := (List.nodup_cons.mp h.nodup).1
          intro he
          obtain rfl : d = b := by simpa using he
          exact hd (by simp)
        rw [hp b (by simp) hne, h.prev_eq (d :: l₁) b l₂ rfl]
        simp [List.getLast?_cons]

theorem Linked.pushBack (h : Linked next prev head tail l) (ha : a ∉ l)
    (hpa : prev' a = tail) (hna : next' a = none)
    (hp : ∀ b ∈ l, prev' b = prev b) (hnt : ∀ b, tail = some b → next' b = some a)
    (hn : ∀ b ∈ l, tail ≠ some b → next' b = next b) :
    Linked next' prev' (head.or (some a)) (some a) (l ++ [a]) := by
  have ha' : a ∉ l.reverse := by simpa using ha
  have hr := h.symm.pushFront ha' hpa hna (fun b hb => hp b (by simpa using hb)) hnt
    fun b hb => hn b (by simpa using hb)
  simpa using hr.symm

theorem nodup_split_unique {m₁ m₂ : List ι} (hd : (l₁ ++ a :: l₂).Nodup)
    (h : l₁ ++ a :: l₂ = m₁ ++ a :: m₂) : l₁ = m₁ ∧ l₂ = m₂ := by
  have h₂ : a ∉ l₂ := (List.nodup_cons.mp (List.nodup_append.mp hd).2.1).1
  have h₁ : a ∉ l₁ := fun hm => (List.nodup_append.mp hd).2.2 a hm a (by simp) rfl
  obtain ⟨he₁, -, he₂⟩ := (List.append_cons_inj_of_notMem h₁ h₂).mp h
  exact ⟨he₁, he₂⟩

theorem Linked.next_remove (h : Linked next prev head tail (l₁ ++ a :: l₂))
    (hnp : ∀ b, prev a = some b → next' b = next a)
    (hn : ∀ b ∈ l₁ ++ l₂, prev a ≠ some b → next' b = next b) {m₁ m₂ : List ι} {b : ι}
    (hm : l₁ ++ l₂ = m₁ ++ b :: m₂) : next' b = m₂.head? := by
  have hpa := h.prev_eq l₁ a l₂ rfl
  have hnd : (l₁ ++ l₂).Nodup := h.nodup.sublist (by simp)
  have hmem : b ∈ l₁ ++ l₂ := by simp [hm]
  -- the cell before `a` inherits its successor; every other cell keeps its own
  by_cases hb : prev a = some b
  · rw [hnp b hb, h.next_eq l₁ a l₂ rfl]
    rw [hpa] at hb
    obtain ⟨k, rfl⟩ := List.getLast?_eq_some_iff.mp hb
    have hk : k ++ b :: l₂ = m₁ ++ b :: m₂ := by simpa using hm
    have h₂ := (nodup_split_unique (by simpa using hnd) hk).2
    rw [h₂]
  · rw [hn b hmem hb]
    rcases List.append_eq_append_iff.mp hm with ⟨k, rfl, hl⟩ | ⟨k, rfl, hl⟩
    · exact h.next_eq (l₁ ++ a :: k) b m₂ (by simp [hl])
    · cases k with
      | nil =>
        have hl' : b :: m₂ = l₂ := by simpa using hl
        exact h.next_eq (m₁ ++ [a]) b m₂ (by simp [← hl'])
      | cons c k =>
        obtain ⟨rfl, rfl⟩ := List.cons.inj hl
        cases k with
        | nil => exact absurd (by rw [hpa]; simp) hb
        | cons d k => exact h.next_eq m₁ b (d :: k ++ a :: l₂) (by simp)

/-- Unlink a cell: its neighbours, or the ends, take over its two pointers. -/
theorem Linked.remove (h : Linked next prev head tail (l₁ ++ a :: l₂))
    (hnp : ∀ b, prev a = some b → next' b = next a)
    (hn : ∀ b ∈ l₁ ++ l₂, prev a ≠ some b → next' b = next b)
    (hpn : ∀ b, next a = some b → prev' b = prev a)
    (hp : ∀ b ∈ l₁ ++ l₂, next a ≠ some b → prev' b = prev b) :
    Linked next' prev' (if (prev a).isSome then head else next a)
      (if (next a).isSome then tail else prev a) (l₁ ++ l₂) := by
  have hpa := h.prev_eq l₁ a l₂ rfl
  have hna := h.next_eq l₁ a l₂ rfl
  refine ⟨h.nodup.sublist (by simp), ?_, ?_, ?_, ?_⟩
  · rw [hpa, hna, h.head_eq]
    cases l₁ with
    | nil => rfl
    | cons b l₁ => simp [List.getLast?_cons]
  · rw [hpa, hna, h.tail_eq]
    cases l₂ with
    | nil => simp
    | cons b l₂ => simp [List.getLast?_append, List.getLast?_cons]
  · intro m₁ b m₂ hm
    exact h.next_remove hnp hn hm
  · intro m₁ b m₂ hm
    have hs : Linked prev next tail head (l₂.reverse ++ a :: l₁.reverse) := by
      simpa using h.symm
    have hm' : l₂.reverse ++ l₁.reverse = m₂.reverse ++ b :: m₁.reverse := by
      rw [← List.reverse_append, hm]
      simp
    have hr := hs.next_remove hpn (fun c hc => hp c (by simpa [or_comm] using hc)) hm'
    simpa using hr

end DoublyLinked
