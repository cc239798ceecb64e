import Mathlib.Data.Char
import Mathlib.Data.List.Lex
import Mathlib.Data.List.Sort
import Mathlib.Order.Interval.Finset.Nat
import Mathlib.Tactic.IntervalCases

/-! # File names

The components of a path, and numbers that are padded to a width, whose order as
texts is that of the numbers.
-/

namespace Rllm

/-! ## Paths -/

namespace Path

inductive Component where
  | rootDir
  | curDir
  | parentDir
  | normal (name : List Char)
  deriving DecidableEq

/-- What one part of a path stands for. A dot stands for nothing. -/
def componentOf (part : List Char) : Option Component :=
  if part = [] ∨ part = ['.'] then none
  else if part = ['.', '.'] then some .parentDir
  else some (.normal part)

/-- What a path starts with: a slash, or a dot that counts. -/
def start (p : List Char) : List Component :=
  if p.head? = some '/' then [.rootDir]
  else if (p.splitOn '/').head? = some ['.'] then [.curDir]
  else []

def components (p : List Char) : List Component := start p ++ (p.splitOn '/').filterMap componentOf

def join (dir p : List Char) : List Char :=
  if p.head? = some '/' then p
  else if dir = [] ∨ dir.getLast? = some '/' then dir ++ p
  else dir ++ '/' :: p

/-- The path leads into a directory, and not out of it again. -/
def Inside (dir p : List Char) : Prop :=
  ∃ rest, components p = components dir ++ rest ∧ .rootDir ∉ rest ∧ .parentDir ∉ rest

variable {dir p q name : List Char}

theorem splitOn_append_slash (dir q : List Char) :
    (dir ++ '/' :: q).splitOn '/' = dir.splitOn '/' ++ q.splitOn '/' :=
  List.splitOn_append_cons_self dir q

theorem filterMap_splitOn_nil : (([] : List Char).splitOn '/').filterMap componentOf = [] := by
  rw [List.splitOn_nil]
  rfl

theorem components_append_slash (dir q : List Char) :
    components (dir ++ '/' :: q) =
      components (dir ++ ['/']) ++ (q.splitOn '/').filterMap componentOf := by
  have hhead : (dir ++ '/' :: q).head? = (dir ++ ['/']).head? := by
    rw [List.head?_append, List.head?_append]
    rfl
  have hstart : start (dir ++ '/' :: q) = start (dir ++ ['/']) := by
    rw [start, start, hhead, splitOn_append_slash, splitOn_append_slash,
      List.head?_append_of_ne_nil _ (List.splitOn_ne_nil _ _),
      List.head?_append_of_ne_nil _ (List.splitOn_ne_nil _ _)]
  rw [components, components, hstart, splitOn_append_slash, splitOn_append_slash,
    List.filterMap_append, List.filterMap_append, filterMap_splitOn_nil, List.append_nil,
    List.append_assoc]

theorem components_slash (hdir : dir ≠ []) : components (dir ++ ['/']) = components dir := by
  have hstart : start (dir ++ ['/']) = start dir := by
    rw [start, start, List.head?_append_of_ne_nil _ hdir, splitOn_append_slash,
      List.head?_append_of_ne_nil _ (List.splitOn_ne_nil _ _)]
  rw [components, components, hstart, splitOn_append_slash, List.filterMap_append,
    filterMap_splitOn_nil, List.append_nil]

theorem components_of_notMem (hslash : '/' ∉ name) (hname : name ∉ [[], ['.'], ['.', '.']]) :
    components name = [.normal name] := by
  simp only [List.mem_cons, List.not_mem_nil, or_false, not_or] at hname
  have hhead : name.head? ≠ some '/' := fun h => hslash (List.mem_of_head? h)
  have hstart : start name = [] := by
    rw [start, if_neg hhead, List.splitOn_eq_singleton hslash, if_neg]
    exact fun h => hname.2.1 (Option.some.inj h)
  have hcomponent : componentOf name = some (.normal name) := by
    rw [componentOf, if_neg (by tauto), if_neg hname.2.2]
  rw [components, hstart, List.splitOn_eq_singleton hslash, List.nil_append,
    List.filterMap_cons_some hcomponent]
  rfl

theorem head?_ne_of_components (h : components name = [.normal name]) : name.head? ≠ some '/' := by
  intro hhead
  rw [components, start, if_pos hhead] at h
  cases (List.cons.inj h).1

theorem join_inj (hp : p.head? ≠ some '/') (hq : q.head? ≠ some '/')
    (h : join dir p = join dir q) : p = q := by
  rw [join, join, if_neg hp, if_neg hq] at h
  split at h
  · exact List.append_cancel_left h
  · exact List.cons.inj (List.append_cancel_left h) |>.2

theorem rootDir_notMem_filterMap (parts : List (List Char)) :
    .rootDir ∉ parts.filterMap componentOf := by
  intro h
  obtain ⟨part, -, hpart⟩ := List.mem_filterMap.mp h
  rw [componentOf] at hpart
  split at hpart
  · cases hpart
  · split at hpart <;> cases hpart

theorem parentDir_mem_components (h : .parentDir ∈ (p.splitOn '/').filterMap componentOf) :
    .parentDir ∈ components p :=
  List.mem_append_right _ h

/-- A path that neither starts at the root nor goes up stays inside. -/
theorem join_inside (hroot : .rootDir ∉ components p) (hparent : .parentDir ∉ components p) :
    Inside dir (join dir p) := by
  have hslash : ¬ p.head? = some '/' := by
    intro h
    refine hroot (List.mem_append_left _ ?_)
    rw [start, if_pos h]
    exact List.mem_cons_self
  have hrest : .parentDir ∉ (p.splitOn '/').filterMap componentOf :=
    fun h => hparent (parentDir_mem_components h)
  rw [join, if_neg hslash]
  split
  · rename_i hdir
    rcases List.eq_nil_or_concat dir with rfl | ⟨d, c, rfl⟩
    · exact ⟨components p, rfl, hroot, hparent⟩
    · obtain rfl : c = '/' := by simpa using hdir
      refine ⟨(p.splitOn '/').filterMap componentOf, ?_, rootDir_notMem_filterMap _, hrest⟩
      rw [List.concat_eq_append, List.append_assoc]
      exact components_append_slash d p
  · rename_i hdir
    refine ⟨(p.splitOn '/').filterMap componentOf, ?_, rootDir_notMem_filterMap _, hrest⟩
    rw [components_append_slash, components_slash fun h => hdir (.inl h)]

end Path

/-! ## Padded numbers -/

section Padding

variable {w n m : ℕ}

/-- A number in decimal, with zeros in front up to a width. -/
def zeroPad (w n : ℕ) : List Char := (Nat.toDigits 10 n).leftpad w '0'

theorem zeroPad_succ (hw : 0 < w) (n : ℕ) :
    zeroPad (w + 1) n = zeroPad w (n / 10) ++ [Nat.digitChar (n % 10)] := by
  rcases Nat.lt_or_ge n 10 with h | h
  · obtain ⟨w, rfl⟩ := Nat.exists_eq_succ_of_ne_zero hw.ne'
    rw [zeroPad, zeroPad, Nat.toDigits_of_lt_base h, Nat.div_eq_of_lt h, Nat.mod_eq_of_lt h,
      Nat.toDigits_zero, List.leftpad, List.leftpad]
    simp [List.replicate_succ']
  · rw [zeroPad, zeroPad, Nat.toDigits_of_base_le (by decide) h, List.leftpad, List.leftpad,
      List.length_append, List.length_singleton, Nat.add_sub_add_right, List.append_assoc]

theorem length_zeroPad (hw : 0 < w) (hn : n < 10 ^ w) : (zeroPad w n).length = w := by
  rw [zeroPad, List.length_leftpad]
  exact max_eq_left ((Nat.length_toDigits_le_iff (by decide) hw).mpr hn)

theorem isDigit_of_mem_zeroPad {c : Char} (h : c ∈ zeroPad w n) : c.isDigit := by
  rcases List.mem_append.mp h with h | h
  · rw [List.eq_of_mem_replicate h]
    rfl
  · exact Nat.isDigit_of_mem_toDigits (by decide) le_rfl h

theorem append_lt_append {a b : List Char} (hlen : a.length = b.length) (h : a < b)
    (c d : List Char) : a ++ c < b ++ d := by
  induction a generalizing b with
  | nil =>
    obtain rfl := List.length_eq_zero_iff.mp hlen.symm
    exact absurd h (List.lt_irrefl _)
  | cons x a ih =>
    cases b with
    | nil => cases hlen
    | cons y b =>
      rw [List.cons_append, List.cons_append, List.cons_lt_cons_iff]
      exact (List.cons_lt_cons_iff.mp h).imp_right fun h => ⟨h.1, ih (Nat.succ_inj.mp hlen) h.2⟩

theorem digitChar_lt (h : n < m) (hm : m < 10) : Nat.digitChar n < Nat.digitChar m := by
  interval_cases m <;> interval_cases n <;> decide

theorem zeroPad_lt (hw : 0 < w) (h : n < m) (hm : m < 10 ^ w) : zeroPad w n < zeroPad w m := by
  induction w, hw using Nat.le_induction generalizing n m with
  | base =>
    have hm : m < 10 := hm
    rw [zeroPad, zeroPad, Nat.toDigits_of_lt_base hm, Nat.toDigits_of_lt_base (h.trans hm)]
    exact List.cons_lt_cons_iff.mpr (.inl (digitChar_lt h hm))
  | succ w hw ih =>
    have hm' : m / 10 < 10 ^ w := Nat.div_lt_of_lt_mul (by rwa [pow_succ'] at hm)
    rw [zeroPad_succ hw, zeroPad_succ hw]
    rcases (Nat.div_le_div_right h.le (c := 10)).lt_or_eq with hlt | heq
    · refine append_lt_append ?_ (ih hlt hm') _ _
      rw [length_zeroPad hw (hlt.trans hm'), length_zeroPad hw hm']
    · rw [heq]
      exact List.append_left_lt (List.cons_lt_cons_iff.mpr (.inl (digitChar_lt (by omega)
        (Nat.mod_lt _ (by decide)))))

end Padding

end Rllm
