import Rllm.Executor.Speculative
import Rllm.Library.Checked
import Rllm.Scheduler.Runs

/-! # Panics of speculative decoding

The speculative parts of a step once more, with the checks at which they panic:
the assertions of the proposer, the overflow of `usize`, and the bounds of
slices. When they return, the result is that of the definitions without checks.
-/

namespace Rllm

open Checked

/-! ## Proposing drafts -/

namespace NGramProposer

/-- The constructor. -/
def checkNew (minNgram maxNgram : ℕ) : Except String Unit :=
  if minNgram = 0 then .error "assertion failed: min_ngram > 0"
  else if maxNgram < minNgram then .error "assertion failed: max_ngram >= min_ngram"
  else .ok ()

/-- The search for an earlier occurrence of the suffix, from the last start on. -/
def searchStarts (context suffix : List Token) (n maxTokens : ℕ) :
    List ℕ → Except String (Option (List Token))
  | [] => .ok none
  | start :: starts => do
    let window ← slice context start (start + n)
    if window = suffix then
      let continuationStart := start + n
      let limit ← add continuationStart maxTokens
      let continuationEnd := min limit context.length
      if continuationStart < continuationEnd then
        let continuation ← slice context continuationStart continuationEnd
        return some continuation
      else searchStarts context suffix n maxTokens starts
    else searchStarts context suffix n maxTokens starts

/-- The search over the lengths of the suffix, from the longest on. -/
def searchNgrams (context : List Token) (maxTokens : ℕ) :
    List ℕ → Except String (Option (List Token))
  | [] => .ok none
  | n :: ns => do
    let from' ← sub context.length n
    let suffix ← slice context from' context.length
    let found ← searchStarts context suffix n maxTokens (List.range from').reverse
    match found with
    | some continuation => return some continuation
    | none => searchNgrams context maxTokens ns

def proposeChecked (minNgram maxNgram : ℕ) (context : List Token) (maxTokens : ℕ) :
    Except String (List Token) :=
  if maxTokens = 0 ∨ context.length ≤ minNgram then .ok []
  else do
    let last ← sub context.length 1
    let maxN := min maxNgram last
    let found ← searchNgrams context maxTokens
      (List.range' minNgram (maxN + 1 - minNgram)).reverse
    return found.getD []

/-- Whether the suffix of length `n` occurs at a start, and where it is continued. -/
def matchAt (context : List Token) (n start : ℕ) : Option ℕ :=
  if (context.drop start).take n = context.drop (context.length - n) then some (start + n) else none

/-- Where the first match of the search is continued. -/
def firstMatch (minNgram maxNgram : ℕ) (context : List Token) : Option ℕ :=
  let maxN := min maxNgram (context.length - 1)
  (List.range' minNgram (maxN + 1 - minNgram)).reverse.findSome? fun n =>
    (List.range (context.length - n)).reverse.findSome? (matchAt context n)

/-- The result of a search whose first match is continued at `found`. -/
def continueFrom (context : List Token) (maxTokens : ℕ) (found : Option ℕ) :
    Except String (Option (List Token)) :=
  match found with
  | none => .ok none
  | some cs =>
    if cs + maxTokens < usizeBound then .ok (some ((context.drop cs).take maxTokens))
    else .error "attempt to add with overflow"

variable {context : List Token} {n maxTokens minNgram maxNgram : ℕ}

theorem searchStarts_eq (hpos : 0 < maxTokens) {starts : List ℕ}
    (hstarts : ∀ start ∈ starts, start + n < context.length) :
    searchStarts context (context.drop (context.length - n)) n maxTokens starts =
      continueFrom context maxTokens (starts.findSome? (matchAt context n)) := by
  induction starts with
  | nil => rfl
  | cons start starts ih =>
    obtain ⟨hstart, hrest⟩ := List.forall_mem_cons.mp hstarts
    have hwindow : slice context start (start + n) = .ok ((context.drop start).take n) := by
      rw [slice_of_le (Nat.le_add_right _ _) hstart.le, Nat.add_sub_cancel_left]
    rw [searchStarts, hwindow, List.findSome?_cons]
    change (if (context.drop start).take n = _ then _ else _) = _
    by_cases hmatch : (context.drop start).take n = context.drop (context.length - n)
    · rw [if_pos hmatch, matchAt, if_pos hmatch, continueFrom, add]
      by_cases hsum : start + n + maxTokens < usizeBound
      · -- some of the context follows the match, so the search ends here
        have hlt : start + n < min (start + n + maxTokens) context.length :=
          lt_min (Nat.lt_add_of_pos_right hpos) hstart
        have hcut : slice context (start + n) (min (start + n + maxTokens) context.length) =
            .ok ((context.drop (start + n)).take maxTokens) := by
          rw [slice_of_le hlt.le (min_le_right _ _), ← List.take_eq_take_iff.mpr]
          simp only [List.length_drop]
          omega
        rw [if_pos hsum, if_pos hsum]
        change (if start + n < min (start + n + maxTokens) context.length then _ else _) = _
        rw [if_pos hlt, hcut]
        rfl
      · rw [if_neg hsum, if_neg hsum]
        rfl
    · rw [if_neg hmatch, matchAt, if_neg hmatch]
      exact ih hrest

theorem searchNgrams_eq (hpos : 0 < maxTokens) {ns : List ℕ} (hns : ∀ n ∈ ns, n ≤ context.length) :
    searchNgrams context maxTokens ns = continueFrom context maxTokens (ns.findSome? fun n =>
      (List.range (context.length - n)).reverse.findSome? (matchAt context n)) := by
  induction ns with
  | nil => rfl
  | cons n ns ih =>
    obtain ⟨hn, hrest⟩ := List.forall_mem_cons.mp hns
    have hstarts : ∀ start ∈ (List.range (context.length - n)).reverse,
        start + n < context.length := by
      intro start hs
      have := List.mem_range.mp (List.mem_reverse.mp hs)
      omega
    have hsuffix : slice context (context.length - n) context.length =
        .ok (context.drop (context.length - n)) := by
      rw [slice_of_le (Nat.sub_le _ _) le_rfl, List.take_of_length_le]
      rw [List.length_drop]
    rw [searchNgrams, sub_of_le hn]
    change (slice context (context.length - n) context.length >>= _) = _
    rw [hsuffix]
    change (searchStarts context (context.drop (context.length - n)) n maxTokens
      (List.range (context.length - n)).reverse >>= _) = _
    rw [searchStarts_eq hpos hstarts, List.findSome?_cons]
    cases hfound : (List.range (context.length - n)).reverse.findSome? (matchAt context n) with
    | none => exact ih hrest
    | some cs =>
      simp only [continueFrom]
      split
      · rfl
      · rfl

theorem proposeChecked_eq (hpos : 0 < maxTokens) (hlen : minNgram < context.length) :
    proposeChecked minNgram maxNgram context maxTokens =
      (continueFrom context maxTokens (firstMatch minNgram maxNgram context)).map
        (·.getD []) := by
  have hns : ∀ n ∈ (List.range' minNgram
      (min maxNgram (context.length - 1) + 1 - minNgram)).reverse, n ≤ context.length := by
    intro n hn
    have := List.mem_range'_1.mp (List.mem_reverse.mp hn)
    omega
  rw [proposeChecked, if_neg (by omega), sub_of_le (by omega)]
  change (searchNgrams _ _ _ >>= _) = _
  rw [searchNgrams_eq hpos hns]
  rfl

theorem checkNew_eq_ok :
    checkNew minNgram maxNgram = .ok () ↔ 0 < minNgram ∧ minNgram ≤ maxNgram := by
  rw [checkNew]
  split
  · exact iff_of_false nofun (by omega)
  · split
    · exact iff_of_false nofun (by omega)
    · exact iff_of_true rfl (by omega)

theorem findSome?_congr {α β : Type} {f g : α → Option β} {xs : List α}
    (h : ∀ x ∈ xs, f x = g x) : xs.findSome? f = xs.findSome? g := by
  rw [← List.head?_filterMap, ← List.head?_filterMap, List.filterMap_congr h]

/-- Without checks, the proposal is the continuation of the first match. -/
theorem propose_eq (hpos : 0 < maxTokens) (hlen : minNgram < context.length) :
    propose minNgram maxNgram context maxTokens =
      ((firstMatch minNgram maxNgram context).map fun cs => (context.drop cs).take maxTokens).getD
        [] := by
  rw [propose, if_neg (by omega), firstMatch, List.map_findSome?]
  refine congrArg (fun found : Option (List Token) => found.getD [])
    (findSome?_congr fun n hn => ?_)
  rw [Function.comp_apply, List.map_findSome?]
  refine findSome?_congr fun start hs => ?_
  have hstart := List.mem_range.mp (List.mem_reverse.mp hs)
  have hcont : ((context.drop (start + n)).take maxTokens).isEmpty = false := by
    rw [List.isEmpty_eq_false_iff, ← List.length_pos_iff, List.length_take, List.length_drop]
    omega
  rw [Function.comp_apply, matchAt]
  dsimp only
  split
  · rw [hcont]
    rfl
  · rfl

/-- The suffix of length `n` occurs a second time, from `start` on. -/
def Repeats (context : List Token) (n start : ℕ) : Prop :=
  start + n < context.length ∧ (context.drop start).take n = context.drop (context.length - n)

/-- The last earlier occurrence of the longest suffix that occurs a second time. -/
structure LongestRepeat (minNgram maxNgram : ℕ) (context : List Token) (n start : ℕ) : Prop where
  min_le : minNgram ≤ n
  le_max : n ≤ maxNgram
  occurs : Repeats context n start
  last : ∀ later, start < later → ¬ Repeats context n later
  longest : ∀ n', n < n' → n' ≤ maxNgram → ∀ start', ¬ Repeats context n' start'

theorem findSome?_descending {β : Type} {f : ℕ → Option β} {xs : List ℕ} {y : β}
    (hxs : xs.Pairwise (· > ·)) :
    xs.findSome? f = some y ↔ ∃ x ∈ xs, f x = some y ∧ ∀ x' ∈ xs, x < x' → f x' = none := by
  induction hxs with
  | nil => simp
  | @cons x xs hx hxs ih =>
    rw [List.findSome?_cons]
    cases hfx : f x with
    | some z =>
      constructor
      · rintro ⟨⟩
        refine ⟨x, List.mem_cons_self, hfx, fun x' hx' hlt => ?_⟩
        rcases List.mem_cons.mp hx' with rfl | hx'
        · exact absurd hlt (lt_irrefl _)
        · exact absurd hlt (hx x' hx').le.not_gt
      · rintro ⟨x', hx', hy, hnone⟩
        rcases List.mem_cons.mp hx' with rfl | hx'
        · exact hfx.symm.trans hy
        · exact absurd (hnone x List.mem_cons_self (hx x' hx')) (by rw [hfx]; nofun)
    | none =>
      rw [ih]
      constructor
      · rintro ⟨x', hx', hy, hnone⟩
        refine ⟨x', List.mem_cons_of_mem _ hx', hy, List.forall_mem_cons.mpr ⟨fun _ => hfx, hnone⟩⟩
      · rintro ⟨x', hx', hy, hnone⟩
        rcases List.mem_cons.mp hx' with rfl | hx'
        · exact absurd (hfx.symm.trans hy) nofun
        · exact ⟨x', hx', hy, fun x'' h => hnone x'' (List.mem_cons_of_mem _ h)⟩

theorem matchAt_eq_some {start cs : ℕ} (hs : start + n < context.length) :
    matchAt context n start = some cs ↔ Repeats context n start ∧ start + n = cs := by
  rw [matchAt, Option.ite_none_right_eq_some, Option.some_inj, Repeats]
  exact ⟨fun h => ⟨⟨hs, h.1⟩, h.2⟩, fun h => ⟨h.1.2, h.2⟩⟩

theorem matchAt_eq_none {start : ℕ} (hs : start + n < context.length) :
    matchAt context n start = none ↔ ¬ Repeats context n start := by
  rw [matchAt, Repeats, ite_eq_right_iff]
  exact ⟨fun h hr => Option.some_ne_none _ (h hr.2), fun h hm => absurd ⟨hs, hm⟩ h⟩

theorem mem_starts {start : ℕ} :
    start ∈ (List.range (context.length - n)).reverse ↔ start + n < context.length := by
  rw [List.mem_reverse, List.mem_range]
  omega

theorem pairwise_starts : (List.range (context.length - n)).reverse.Pairwise (· > ·) :=
  List.pairwise_reverse.mpr List.pairwise_lt_range

theorem findSome?_matchAt_eq_none :
    (List.range (context.length - n)).reverse.findSome? (matchAt context n) = none ↔
      ∀ start, ¬ Repeats context n start := by
  rw [List.findSome?_eq_none_iff]
  constructor
  · intro h start hr
    exact (matchAt_eq_none hr.1).mp (h start (mem_starts.mpr hr.1)) hr
  · intro h start hs
    exact (matchAt_eq_none (mem_starts.mp hs)).mpr (h start)

theorem mem_lengths : n ∈ (List.range' minNgram
      (min maxNgram (context.length - 1) + 1 - minNgram)).reverse ↔
    minNgram ≤ n ∧ n ≤ maxNgram ∧ n ≤ context.length - 1 := by
  rw [List.mem_reverse, List.mem_range'_1]
  omega

/-- The search finds the last earlier occurrence of the longest repeated suffix. -/
theorem firstMatch_eq_some {cs : ℕ} :
    firstMatch minNgram maxNgram context = some cs ↔
      ∃ n start, LongestRepeat minNgram maxNgram context n start ∧ start + n = cs := by
  rw [firstMatch, findSome?_descending (List.pairwise_reverse.mpr List.pairwise_lt_range')]
  constructor
  · rintro ⟨n, hn, hfound, hlonger⟩
    obtain ⟨hmin, hmax, -⟩ := mem_lengths.mp hn
    obtain ⟨start, hs, hmatch, hlater⟩ := (findSome?_descending pairwise_starts).mp hfound
    obtain ⟨hrep, rfl⟩ := (matchAt_eq_some (mem_starts.mp hs)).mp hmatch
    refine ⟨n, start, ⟨hmin, hmax, hrep, fun later hlt hr => ?_, fun n' hlt hle start' hr => ?_⟩,
      rfl⟩
    · exact (matchAt_eq_none hr.1).mp (hlater later (mem_starts.mpr hr.1) hlt) hr
    · have hr₁ := hr.1
      exact findSome?_matchAt_eq_none.mp (hlonger n' (mem_lengths.mpr (by omega)) hlt) start' hr
  · rintro ⟨n, start, h, rfl⟩
    have hr := h.occurs.1
    refine ⟨n, mem_lengths.mpr ⟨h.min_le, h.le_max, by omega⟩,
      (findSome?_descending pairwise_starts).mpr ⟨start, mem_starts.mpr hr,
        (matchAt_eq_some hr).mpr ⟨h.occurs, rfl⟩, fun later hl hlt => ?_⟩, fun n' hn' hlt => ?_⟩
    · exact (matchAt_eq_none (mem_starts.mp hl)).mpr (h.last later hlt)
    · exact findSome?_matchAt_eq_none.mpr (h.longest n' hlt (mem_lengths.mp hn').2.1)

/-- The search misses no repeated suffix. -/
theorem firstMatch_eq_none : firstMatch minNgram maxNgram context = none ↔
    ∀ n start, minNgram ≤ n → n ≤ maxNgram → ¬ Repeats context n start := by
  rw [firstMatch, List.findSome?_eq_none_iff]
  constructor
  · intro h n start hmin hmax hr
    have hlt := hr.1
    have hn := mem_lengths.mpr ⟨hmin, hmax, show n ≤ context.length - 1 by omega⟩
    exact findSome?_matchAt_eq_none.mp (h n hn) start hr
  · intro h n hn
    obtain ⟨hmin, hmax, -⟩ := mem_lengths.mp hn
    exact findSome?_matchAt_eq_none.mpr fun start => h n start hmin hmax

theorem returns_map {α β : Type} {f : α → β} {x : Except String α} :
    Returns (x.map f) ↔ Returns x := by
  cases x with
  | error e => exact iff_of_false nofun nofun
  | ok a => exact iff_of_true ⟨_, rfl⟩ ⟨_, rfl⟩

theorem proposeChecked_returns :
    Returns (proposeChecked minNgram maxNgram context maxTokens) ↔
      (0 < maxTokens → ∀ n start, LongestRepeat minNgram maxNgram context n start →
        start + n + maxTokens < usizeBound) := by
  by_cases hpos : 0 < maxTokens
  · by_cases hlen : minNgram < context.length
    · rw [proposeChecked_eq hpos hlen, returns_map]
      constructor
      · intro h _ n start hl
        rw [firstMatch_eq_some.mpr ⟨n, start, hl, rfl⟩, continueFrom] at h
        by_contra hge
        rw [if_neg hge] at h
        exact not_returns_error _ h
      · intro h
        cases hfound : firstMatch minNgram maxNgram context with
        | none => exact ⟨none, rfl⟩
        | some cs =>
          obtain ⟨n, start, hl, rfl⟩ := firstMatch_eq_some.mp hfound
          rw [continueFrom, if_pos (h hpos n start hl)]
          exact returns_ok _
    · rw [proposeChecked, if_pos (.inr (not_lt.mp hlen))]
      refine iff_of_true (returns_ok _) fun _ n start hl => ?_
      obtain ⟨hmin, -, ⟨hlt, -⟩, -, -⟩ := hl
      omega
  · rw [proposeChecked, if_pos (.inl (by omega))]
    exact iff_of_true (returns_ok _) fun h => absurd h hpos

theorem propose_of_checked {drafts : List Token}
    (h : proposeChecked minNgram maxNgram context maxTokens = .ok drafts) :
    propose minNgram maxNgram context maxTokens = drafts := by
  by_cases hskip : maxTokens = 0 ∨ context.length ≤ minNgram
  · rw [proposeChecked, if_pos hskip] at h
    rw [propose, if_pos hskip]
    exact Except.ok.inj h
  · have hpos : 0 < maxTokens := by omega
    have hlen : minNgram < context.length := by omega
    rw [proposeChecked_eq hpos hlen] at h
    rw [propose_eq hpos hlen]
    cases hfound : firstMatch minNgram maxNgram context with
    | none =>
      rw [hfound] at h
      exact Except.ok.inj h
    | some cs =>
      rw [hfound, continueFrom] at h
      split at h
      · exact Except.ok.inj h
      · cases h

/-- A draft as the proposer promises it: there is one if a suffix is repeated, and it continues the
last earlier occurrence of the longest such suffix. -/
structure Follows (minNgram maxNgram : ℕ) (context : List Token) (maxTokens : ℕ)
    (draft : List Token) : Prop where
  ne_nil_iff : draft ≠ [] ↔ 0 < maxTokens ∧
    ∃ n start, minNgram ≤ n ∧ n ≤ maxNgram ∧ Repeats context n start
  continues : draft ≠ [] → ∃ n start, LongestRepeat minNgram maxNgram context n start ∧
    draft = (context.take (min (start + n + maxTokens) context.length)).drop (start + n)
  length_le : draft.length ≤ maxTokens

theorem follows_of_checked {draft : List Token}
    (h : proposeChecked minNgram maxNgram context maxTokens = .ok draft) :
    Follows minNgram maxNgram context maxTokens draft := by
  by_cases hskip : maxTokens = 0 ∨ context.length ≤ minNgram
  · rw [proposeChecked, if_pos hskip] at h
    obtain rfl := Except.ok.inj h
    refine ⟨iff_of_false (absurd rfl) ?_, fun hne => absurd rfl hne, Nat.zero_le _⟩
    rintro ⟨hpos, n, start, hmin, -, hlt, -⟩
    omega
  · have hpos : 0 < maxTokens := by omega
    have hlen : minNgram < context.length := by omega
    rw [proposeChecked_eq hpos hlen] at h
    cases hfound : firstMatch minNgram maxNgram context with
    | none =>
      rw [hfound] at h
      obtain rfl := Except.ok.inj h
      refine ⟨iff_of_false (absurd rfl) ?_, fun hne => absurd rfl hne, Nat.zero_le _⟩
      rintro ⟨-, n, start, hmin, hmax, hr⟩
      exact firstMatch_eq_none.mp hfound n start hmin hmax hr
    | some cs =>
      obtain ⟨n, start, hl, rfl⟩ := firstMatch_eq_some.mp hfound
      have hlt := hl.occurs.1
      rw [hfound, continueFrom] at h
      split at h
      · obtain rfl := Except.ok.inj h
        change Follows _ _ _ _ ((context.drop (start + n)).take maxTokens)
        refine ⟨iff_of_true ?_ ⟨hpos, n, start, hl.min_le, hl.le_max, hl.occurs⟩, fun _ => ?_,
          List.length_take_le _ _⟩
        · rw [← List.length_pos_iff, List.length_take, List.length_drop]
          omega
        · refine ⟨n, start, hl, ?_⟩
          rw [List.drop_take, List.take_eq_take_iff, List.length_drop]
          omega
      · cases h

/-- The proposer returns a draft as promised exactly if the limit of the continuation, the position
after the last earlier occurrence of the longest repeated suffix plus the tokens asked for, is a
`usize`. -/
theorem proposeChecked_follows_iff :
    (∃ draft, proposeChecked minNgram maxNgram context maxTokens = .ok draft ∧
        Follows minNgram maxNgram context maxTokens draft) ↔
      (0 < maxTokens → ∀ n start, LongestRepeat minNgram maxNgram context n start →
        start + n + maxTokens < usizeBound) := by
  rw [← proposeChecked_returns]
  constructor
  · rintro ⟨draft, h, -⟩
    exact ⟨draft, h⟩
  · rintro ⟨draft, h⟩
    exact ⟨draft, h, follows_of_checked h⟩

/-- The greatest number of tokens after a context that repeats its last token: the limit of the
continuation is no `usize`. -/
theorem not_proposeChecked_follows : ¬ ∀ (minNgram maxNgram : ℕ) (context : List Token)
    (maxTokens : ℕ), 1 ≤ minNgram → minNgram ≤ maxNgram → maxTokens < usizeBound →
      ∃ draft, proposeChecked minNgram maxNgram context maxTokens = .ok draft ∧
        Follows minNgram maxNgram context maxTokens draft := by
  intro h
  obtain ⟨draft, hdraft, -⟩ := h 1 1 [7, 7] (usizeBound - 1) le_rfl le_rfl (by decide)
  have hpanic : proposeChecked 1 1 [7, 7] (usizeBound - 1) =
      .error "attempt to add with overflow" := by decide
  rw [hpanic] at hdraft
  cases hdraft

example : proposeChecked 2 3 [1, 2, 3, 4, 2, 3] 2 = .ok [4, 2] := by decide

end NGramProposer

/-- The drafts of a decoding request, from its parameters and its context. -/
def SamplingParams.proposeChecked (p : SamplingParams) (context : List Token) :
    Except String (List Token) :=
  match p.speculativeDecoding with
  | some c =>
    if c.enabled && 0 < c.numSpeculativeTokens && c.proposer == "ngram" then do
      NGramProposer.checkNew c.minNgram c.maxNgram
      NGramProposer.proposeChecked c.minNgram c.maxNgram context c.numSpeculativeTokens
    else .ok []
  | none => .ok []

/-! ## Scheduling -/

namespace StepState

variable (cfg : Config) (st : StepState) (id : RequestId)

def scheduleDecodeChecked (tokens : ℕ) : Except String StepState := do
  let _ ← add st.budgetUsed tokens
  let _ ← add st.totalDecode tokens
  return st.scheduleDecode id tokens

/-- One request of the decode loop. -/
def runningIterChecked : Except String StepState :=
  match st.sched.requests.lookup id with
  | none => .ok st
  | some r =>
    if cfg.maxModelLen ≤ r.numComputedTokens then
      .ok { st with
        sched := st.sched.modifyRequest id fun r => { r with status := .finishedLength } }
    else do
      let tokens ← add 1 r.request.samplingParams.specTokens
      let total ← add r.numComputedTokens tokens
      if divCeil r.numComputedTokens cfg.cache.blockSize < divCeil total cfg.cache.blockSize then
        match st.sched.kvCacheManager.allocateSlots cfg.cache id total r.numComputedTokens with
        | (some _, kv) => (st.setKV kv).scheduleDecodeChecked id tokens
        | (none, kv) => .ok { st.setKV kv with toPreempt := st.toPreempt ++ [id] }
      else st.scheduleDecodeChecked id tokens

/-- A decode of so many tokens fits into the counters of the step. -/
def CountersFit (tokens : ℕ) : Prop :=
  st.budgetUsed + tokens < usizeBound ∧ st.totalDecode + tokens < usizeBound

/-- The request needs another block for its next tokens, and the cache has none left. -/
def LacksBlocks (computed total : ℕ) : Prop :=
  divCeil computed cfg.cache.blockSize < divCeil total cfg.cache.blockSize ∧
    (st.sched.kvCacheManager.allocateSlots cfg.cache id total computed).1 = none

/-- The additions of the decode loop fit for a request, which is passed over at the length limit
and preempted when it lacks blocks. -/
def AdditionsFit (r : SchedulerRequest) : Prop :=
  r.numComputedTokens < cfg.maxModelLen →
    let tokens := 1 + r.request.samplingParams.specTokens
    let total := r.numComputedTokens + tokens
    total < usizeBound ∧ (¬ LacksBlocks cfg st id r.numComputedTokens total → st.CountersFit tokens)

variable {cfg st id}

theorem scheduleDecodeChecked_returns {tokens : ℕ} :
    Returns (st.scheduleDecodeChecked id tokens) ↔ st.CountersFit tokens := by
  rw [scheduleDecodeChecked, returns_add_bind, returns_add_bind, CountersFit]
  exact and_congr_right fun _ => and_iff_left (returns_ok _)

theorem scheduleDecodeChecked_eq {tokens : ℕ} {st' : StepState}
    (h : st.scheduleDecodeChecked id tokens = .ok st') : st.scheduleDecode id tokens = st' := by
  obtain ⟨hbudget, htotal⟩ := scheduleDecodeChecked_returns.mp ⟨st', h⟩
  rw [scheduleDecodeChecked, add, if_pos hbudget, add, if_pos htotal] at h
  exact Except.ok.inj h

theorem runningIterChecked_returns {r : SchedulerRequest}
    (hr : st.sched.requests.lookup id = some r) :
    Returns (st.runningIterChecked cfg id) ↔ AdditionsFit cfg st id r := by
  rw [runningIterChecked, hr]
  dsimp only
  split
  · rename_i hle
    exact iff_of_true (returns_ok _) fun hlt => absurd hlt hle.not_gt
  · rename_i hlt
    rw [AdditionsFit, imp_iff_right (not_le.mp hlt), returns_add_bind, returns_add_bind]
    dsimp only
    generalize 1 + r.request.samplingParams.specTokens = tokens
    rw [← and_assoc, and_iff_right_of_imp (a := tokens < usizeBound)]
    · refine and_congr_right fun _ => ?_
      by_cases hgrow : divCeil r.numComputedTokens cfg.cache.blockSize <
          divCeil (r.numComputedTokens + tokens) cfg.cache.blockSize
      · rw [if_pos hgrow]
        cases halloc : st.sched.kvCacheManager.allocateSlots cfg.cache id
            (r.numComputedTokens + tokens) r.numComputedTokens with
        | mk blocks kv =>
          cases blocks with
          | none =>
            refine iff_of_true (returns_ok _) fun h => absurd ⟨hgrow, ?_⟩ h
            rw [halloc]
          | some blocks =>
            have hroom : ¬ LacksBlocks cfg st id r.numComputedTokens
                (r.numComputedTokens + tokens) := by
              rintro ⟨-, hnone⟩
              rw [halloc] at hnone
              cases hnone
            rw [imp_iff_right hroom]
            exact scheduleDecodeChecked_returns
      · rw [if_neg hgrow, imp_iff_right fun h => hgrow h.1]
        exact scheduleDecodeChecked_returns
    · intro h
      omega

theorem runningIterChecked_eq {st' : StepState} (h : st.runningIterChecked cfg id = .ok st') :
    st.runningIter cfg id = st' := by
  rw [runningIterChecked] at h
  rw [runningIter]
  cases hr : st.sched.requests.lookup id with
  | none =>
    rw [hr] at h
    exact Except.ok.inj h
  | some r =>
    rw [hr] at h
    dsimp only at h ⊢
    by_cases hle : cfg.maxModelLen ≤ r.numComputedTokens
    · rw [if_pos hle] at h ⊢
      exact Except.ok.inj h
    · rw [if_neg hle] at h ⊢
      obtain ⟨tokens, htokens, h⟩ := bind_eq_ok.mp h
      obtain ⟨-, rfl⟩ := add_eq_ok.mp htokens
      obtain ⟨total, htotal, h⟩ := bind_eq_ok.mp h
      obtain ⟨-, rfl⟩ := add_eq_ok.mp htotal
      split at h
      · rename_i hgrow
        rw [if_pos hgrow]
        cases halloc : st.sched.kvCacheManager.allocateSlots cfg.cache id
            (r.numComputedTokens + (1 + r.request.samplingParams.specTokens))
            r.numComputedTokens with
        | mk blocks kv =>
          rw [halloc] at h
          cases blocks with
          | none => exact Except.ok.inj h
          | some blocks => exact scheduleDecodeChecked_eq h
      · rename_i hgrow
        rw [if_neg hgrow]
        exact scheduleDecodeChecked_eq h

end StepState

/-! ## Verifying drafts -/

namespace UniProc

variable (ops : ModelOps) (sample : ops.Logits → ℕ → Token) (drafts : List Token)
  (logits : List ops.Logits)

/-- The loop over the drafts, from the `j`-th on. -/
def acceptChecked : ℕ → ℕ → List Token → Except String (List Token)
  | 0, _, accepted => .ok accepted
  | n + 1, j, accepted =>
    if logits.length ≤ j then .ok accepted
    else do
      let predicted ← Checked.index logits j
      let draft ← Checked.index drafts j
      if ops.argmax predicted = draft then acceptChecked n (j + 1) (accepted ++ [draft])
      else return accepted ++ [sample predicted accepted.length]

/-- The tokens of a sequence of `nTokens` tokens with drafts. -/
def verifyChecked (nTokens : ℕ) : Except String (List Token) := do
  let k := drafts.length
  let accepted ← acceptChecked ops sample drafts logits k 0 []
  let accepted ←
    if accepted.length = k ∧ 0 < k ∧ k < logits.length then do
      let bonus ← Checked.index logits (min k (logits.length - 1))
      pure (accepted ++ [sample bonus accepted.length])
    else pure accepted
  if accepted.isEmpty then do
    let last ← Checked.index logits (min (nTokens - 1) (logits.length - 1))
    return [sample last 0]
  else return accepted

variable {ops sample drafts logits}

theorem acceptChecked_eq (n j : ℕ) (accepted : List Token) (hn : j + n = drafts.length) :
    acceptChecked ops sample drafts logits n j accepted =
      .ok (acceptDrafts ops sample (drafts.drop j) (logits.drop j) accepted) := by
  induction n generalizing j accepted with
  | zero =>
    rw [List.drop_of_length_le (l := drafts) (by omega)]
    rfl
  | succ n ih =>
    have hdraft : j < drafts.length := by omega
    rw [acceptChecked, List.drop_eq_getElem_cons hdraft]
    split
    · rename_i hle
      rw [List.drop_of_length_le hle]
      rfl
    · rename_i hlt
      rw [index_of_lt (not_le.mp hlt), index_of_lt hdraft,
        List.drop_eq_getElem_cons (not_le.mp hlt), acceptDrafts]
      change (if ops.argmax logits[j] = drafts[j] then _ else _) = _
      split
      · exact ih (j + 1) _ (by omega)
      · rfl

theorem verifyChecked_eq {nTokens : ℕ} (hd : drafts ≠ []) (hl : logits ≠ []) :
    verifyChecked ops sample drafts logits nTokens = .ok (verify ops sample drafts logits) := by
  have hne : acceptDrafts ops sample drafts logits [] ≠ [] := acceptDrafts_ne_nil hd hl
  rw [verifyChecked, acceptChecked_eq _ 0 [] (Nat.zero_add _), List.drop_zero, List.drop_zero,
    verify]
  generalize acceptDrafts ops sample drafts logits [] = accepted at hne ⊢
  by_cases hall : accepted.length = drafts.length ∧ 0 < drafts.length
  · by_cases hbonus : drafts.length < logits.length
    · have hmin : min drafts.length (logits.length - 1) = drafts.length := by omega
      simp [ok_bind, hall, hbonus, hmin, index_of_lt hbonus]
    · simp [ok_bind, hbonus, hne]
      rfl
  · have hnot : ¬ (accepted.length = drafts.length ∧ 0 < drafts.length ∧
        drafts.length < logits.length) := fun h => hall ⟨h.1, h.2.1⟩
    cases logits[drafts.length]? with
    | none => simp [ok_bind, hnot, hne]; rfl
    | some _ => simp [ok_bind, hnot, hall, hne]; rfl

end UniProc

/-! ## One request of a step -/

/-- The configuration asks for the n-gram proposer. -/
def SpeculativeDecodingConfig.Proposes (c : SpeculativeDecodingConfig) : Prop :=
  c.enabled ∧ 0 < c.numSpeculativeTokens ∧ c.proposer = "ngram"

/-- What the n-gram proposer needs of its configuration. -/
structure SpeculativeDecodingConfig.ProposerFits (c : SpeculativeDecodingConfig)
    (context : List Token) : Prop where
  min_pos : 0 < c.minNgram
  min_le_max : c.minNgram ≤ c.maxNgram
  repeat_fits : ∀ n start, NGramProposer.LongestRepeat c.minNgram c.maxNgram context n start →
    start + n + c.numSpeculativeTokens < usizeBound

namespace SamplingParams

variable {p : SamplingParams} {context : List Token}

/-- The configuration of a proposer that runs meets its needs. -/
def ProposalFits (p : SamplingParams) (context : List Token) : Prop :=
  ∀ c, p.speculativeDecoding = some c → c.Proposes → c.ProposerFits context

theorem proposeChecked_some {c : SpeculativeDecodingConfig} (hc : p.speculativeDecoding = some c)
    (hp : c.Proposes) : p.proposeChecked context =
      (NGramProposer.checkNew c.minNgram c.maxNgram >>= fun _ =>
        NGramProposer.proposeChecked c.minNgram c.maxNgram context c.numSpeculativeTokens) := by
  obtain ⟨he, hk, hn⟩ := hp
  simp only [proposeChecked, hc, he, hk, hn, decide_true, Bool.and_self, beq_self_eq_true, if_true]

theorem proposeChecked_none
    (h : ∀ c, p.speculativeDecoding = some c → ¬ c.Proposes) :
    p.proposeChecked context = .ok [] := by
  unfold proposeChecked
  split
  · rename_i c hc
    rw [if_neg]
    intro hp
    simp only [Bool.and_eq_true, decide_eq_true_eq, beq_iff_eq] at hp
    exact h c hc ⟨hp.1.1, hp.1.2, hp.2⟩
  · rfl

theorem proposeChecked_returns : Returns (p.proposeChecked context) ↔ p.ProposalFits context := by
  by_cases h : ∃ c, p.speculativeDecoding = some c ∧ c.Proposes
  · obtain ⟨c, hc, hp⟩ := h
    rw [proposeChecked_some hc hp, returns_bind]
    constructor
    · rintro ⟨⟨⟩, hnew, hreturns⟩ c' hc' -
      obtain rfl := Option.some.inj (hc.symm.trans hc')
      obtain ⟨hmin, hmax⟩ := NGramProposer.checkNew_eq_ok.mp hnew
      exact ⟨hmin, hmax, NGramProposer.proposeChecked_returns.mp hreturns hp.2.1⟩
    · intro h
      obtain ⟨hmin, hmax, hrep⟩ := h c hc hp
      exact ⟨(), NGramProposer.checkNew_eq_ok.mpr ⟨hmin, hmax⟩,
        NGramProposer.proposeChecked_returns.mpr fun _ => hrep⟩
  · rw [proposeChecked_none fun c hc hp => h ⟨c, hc, hp⟩]
    exact iff_of_true (returns_ok _) fun c hc hp => absurd ⟨c, hc, hp⟩ h

end SamplingParams

theorem ModelRunner.proposeFor_of_checked {m : ModelRunner} {id : RequestId} {p : SamplingParams}
    {prompt generated drafts : List Token} (hp : m.requestSamplingParams.lookup id = some p)
    (hcontext : m.getContextTokenIds id = (prompt, generated))
    (h : p.proposeChecked (prompt ++ generated) = .ok drafts) : m.proposeFor id = .ok drafts := by
  unfold SamplingParams.proposeChecked at h
  unfold proposeFor
  rw [hp, hcontext, Option.bind_some]
  cases hc : p.speculativeDecoding with
  | none => simpa [hc] using h
  | some c =>
    rw [hc] at h
    dsimp only at h ⊢
    by_cases hon :
        (c.enabled && decide (0 < c.numSpeculativeTokens) && c.proposer == "ngram") = true
    · rw [if_pos hon] at h ⊢
      obtain ⟨⟨⟩, hnew, h⟩ := bind_eq_ok.mp h
      obtain ⟨hmin, hmax⟩ := NGramProposer.checkNew_eq_ok.mp hnew
      rw [if_neg hmin.ne', if_neg hmax.not_gt, NGramProposer.propose_of_checked h]
    · rw [if_neg hon] at h ⊢
      exact h

/-- The speculative parts of a step end without a panic for a request: it is scheduled, its drafts
are proposed, and whatever drafts and logits there are, they are verified. -/
structure SpeculationReturns (cfg : Config) (st : StepState) (id : RequestId) (p : SamplingParams)
    (context : List Token) : Prop where
  schedules : Returns (st.runningIterChecked cfg id)
  proposes : Returns (p.proposeChecked context)
  verifies : ∀ (ops : ModelOps) (sample : ops.Logits → ℕ → Token) (drafts : List Token)
    (logits : List ops.Logits), drafts ≠ [] → Returns (UniProc.verifyChecked ops sample drafts
      (logits ++ List.replicate (1 + drafts.length - logits.length) ops.zeroLogits)
      (1 + drafts.length))

/-- A step panics on a request exactly if an addition of the decode loop does not fit, or the
proposer is given bounds that its constructor rejects or a limit that does not fit. -/
theorem speculation_returns_iff (cfg : Config) (st : StepState) (id : RequestId)
    (r : SchedulerRequest) (hr : st.sched.requests.lookup id = some r) (context : List Token) :
    SpeculationReturns cfg st id r.request.samplingParams context ↔
      st.AdditionsFit cfg id r ∧ r.request.samplingParams.ProposalFits context := by
  constructor
  · rintro ⟨hschedules, hproposes, -⟩
    exact ⟨(StepState.runningIterChecked_returns hr).mp hschedules,
      SamplingParams.proposeChecked_returns.mp hproposes⟩
  · rintro ⟨hdecode, hproposal⟩
    refine ⟨(StepState.runningIterChecked_returns hr).mpr hdecode,
      SamplingParams.proposeChecked_returns.mpr hproposal, ?_⟩
    intro ops sample drafts logits hd
    have hl : logits ++ List.replicate (1 + drafts.length - logits.length) ops.zeroLogits ≠ [] := by
      rw [← List.length_pos_iff, List.length_append, List.length_replicate]
      omega
    rw [UniProc.verifyChecked_eq hd hl]
    exact returns_ok _

/-- A request that has fed its prompt. -/
def decodingRequest (samplingParams : SamplingParams) : SchedulerRequest where
  request := { smallRequest 1 [5, 6, 5] with samplingParams }
  promptTokenIds := [5, 6, 5]
  numComputedTokens := 3
  cachedBlockIds := []
  status := .running

/-- A scheduling step that is about to decode one request. -/
def decodingStep (params : SamplingParams) : StepState where
  sched :=
    { Scheduler.new (smallConfig 4 false) with
      requests := (∅ : AList fun _ : RequestId => SchedulerRequest).insert 1
        (decodingRequest params)
      running := [1] }

theorem speculation_returns_iff_default :
    SpeculationReturns (smallConfig 4 false) (decodingStep { speculativeDecoding := some {} }) 1
        { speculativeDecoding := some {} } [5, 6, 5] ↔
      (decodingStep { speculativeDecoding := some {} }).AdditionsFit (smallConfig 4 false) 1
        (decodingRequest { speculativeDecoding := some {} }) ∧
      SamplingParams.ProposalFits { speculativeDecoding := some {} } [5, 6, 5] :=
  speculation_returns_iff (smallConfig 4 false) (decodingStep { speculativeDecoding := some {} }) 1
    (decodingRequest { speculativeDecoding := some {} }) rfl [5, 6, 5]

/-- A suffix of no tokens passes the validation, and the proposer refuses it. -/
theorem not_speculation_returns : ¬ ∀ (cfg : Config) (st : StepState) (id : RequestId)
    (r : SchedulerRequest), st.sched.requests.lookup id = some r →
    r.request.samplingParams.validate = .ok () →
    ∀ context, SpeculationReturns cfg st id r.request.samplingParams context := by
  intro h
  obtain ⟨drafts, hdrafts⟩ := (h (smallConfig 4 false)
    (decodingStep { speculativeDecoding := some { minNgram := 0 } }) 1
    (decodingRequest { speculativeDecoding := some { minNgram := 0 } }) rfl rfl []).proposes
  cases hdrafts

end Rllm
