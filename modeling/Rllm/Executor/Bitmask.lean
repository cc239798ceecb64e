import Mathlib.Data.List.Induction
import Rllm.Executor.Structured
import Rllm.Sampling.Logits

/-! # Token bitmasks

What a grammar matcher allows next comes as one bit for each token of the
tokenizer's vocabulary, packed in words of 32 bits. The logits of a model may be
longer than that vocabulary: the indices behind it have no bit, and are not
masked.
-/

namespace Rllm

namespace F32

theorem ne_nan_of_lt {x y : F32} (h : y.lt x = true) : x ≠ .nan := by
  rintro rfl
  cases y <;> cases h

theorem not_lt_negInf (y : F32) : y.lt (.inf true) = false := by
  cases y with
  | inf s => exact Bool.and_false s
  | nan => rfl
  | fin q => rfl

theorem negInf_lt_of_lt {x y : F32} (h : y.lt x = true) : (F32.inf true).lt x = true := by
  cases x with
  | nan => cases y <;> cases h
  | inf s =>
    cases s with
    | true =>
      rw [not_lt_negInf] at h
      cases h
    | false => rfl
  | fin q => rfl

theorem lt_of_not_finite {x y : F32} (hx : x.isFinite = false) (hinf : x ≠ .inf true) :
    x.lt y = false := by
  cases x with
  | nan => rfl
  | inf s =>
    cases s with
    | true => exact absurd rfl hinf
    | false => cases y <;> rfl
  | fin q => cases hx

end F32

/-! ## The greedy sample -/

/-- The last of the largest logits behind the last NaN, or that NaN if it ends the logits:
whatever follows is smaller, and what no NaN follows is not larger. -/
structure LastMax (logits : List F32) (g : ℕ) (x : F32) : Prop where
  getElem? : logits[g]? = some x
  after : ∀ (i : ℕ) (y : F32), g < i → logits[i]? = some y → y.lt x = true
  le : ∀ (j : ℕ) (y : F32), logits[j]? = some y → y ≠ .nan →
    (∀ i, j < i → logits[i]? ≠ some .nan) → y.le x = true

theorem getElem?_concat_eq_some {α : Type} {xs : List α} {y z : α} {i : ℕ} :
    (xs ++ [z])[i]? = some y ↔ xs[i]? = some y ∨ i = xs.length ∧ z = y := by
  rcases Nat.lt_trichotomy i xs.length with hi | rfl | hi
  · rw [List.getElem?_append_left hi, or_iff_left fun h => hi.ne h.1]
  · simp
  · rw [List.getElem?_eq_none (by rw [List.length_append, List.length_singleton]; omega),
      List.getElem?_eq_none hi.le, or_iff_left fun h => hi.ne' h.1]

namespace LastMax

variable {xs : List F32} {g : ℕ} {x z : F32}

theorem concat_of_lt (h : LastMax xs g x) (hlt : z.lt x = true) : LastMax (xs ++ [z]) g x where
  getElem? := by
    rw [List.getElem?_append_left (List.getElem?_eq_some_iff.mp h.getElem?).1]
    exact h.getElem?
  after i y hi hy := by
    rcases getElem?_concat_eq_some.mp hy with hy | ⟨-, rfl⟩
    · exact h.after i y hi hy
    · exact hlt
  le j y hy hnan hafter := by
    rcases getElem?_concat_eq_some.mp hy with hy | ⟨-, rfl⟩
    · refine h.le j y hy hnan fun i hi he => hafter i hi ?_
      exact getElem?_concat_eq_some.mpr (.inl he)
    · exact F32.le_of_lt hlt

theorem concat_of_not_lt (h : LastMax xs g x) (hlt : z.lt x = false) :
    LastMax (xs ++ [z]) xs.length z where
  getElem? := List.getElem?_concat_length
  after i y hi hy := by
    have hlen := (List.getElem?_eq_some_iff.mp hy).1
    rw [List.length_append, List.length_singleton] at hlen
    omega
  le j y hy hnan hafter := by
    rcases getElem?_concat_eq_some.mp hy with hy | ⟨-, rfl⟩
    · have hj := (List.getElem?_eq_some_iff.mp hy).1
      have hz : z ≠ .nan := fun he => hafter xs.length hj (by rw [List.getElem?_concat_length, he])
      have hle := h.le j y hy hnan fun i hi he =>
        hafter i hi (getElem?_concat_eq_some.mpr (.inl he))
      have hx : x ≠ .nan := by
        rintro rfl
        cases y <;> cases hle
      exact F32.le_trans hle (F32.le_of_not_lt hz hx hlt)
    · exact F32.le_self hnan

theorem singleton (z : F32) : LastMax [z] 0 z where
  getElem? := rfl
  after i y hi hy := by
    have hlen := (List.getElem?_eq_some_iff.mp hy).1
    rw [List.length_singleton] at hlen
    omega
  le j y hy hnan _ := by
    rw [List.mem_singleton.mp (List.mem_of_getElem? hy)] at hnan ⊢
    exact F32.le_self hnan

end LastMax

theorem exists_maxBy_lastMax {logits : List F32} (hne : logits ≠ []) :
    ∃ g x, maxBy (fun x y : F32 × ℕ => (x.1.partialCmp y.1).getD .eq) logits.zipIdx =
      some (x, g) ∧ LastMax logits g x := by
  induction logits using List.reverseRecOn with
  | nil => exact absurd rfl hne
  | append_singleton xs z ih =>
    rcases List.eq_nil_or_concat xs with rfl | ⟨ys, w, hxs⟩
    · exact ⟨0, z, rfl, .singleton z⟩
    · have hne : xs ≠ [] := by
        rw [hxs]
        simp
      obtain ⟨g, x, hmax, hlast⟩ := ih hne
      obtain ⟨a, rest, hl⟩ : ∃ a rest, xs.zipIdx = a :: rest := by
        rw [← List.ne_nil_iff_exists_cons]
        simpa using hne
      have hconcat : (xs ++ [z]).zipIdx = a :: (rest ++ [(z, xs.length)]) := by
        rw [List.zipIdx_append, hl, Nat.zero_add]
        rfl
      have hmax' := hmax
      rw [hl, maxBy, Option.some_inj] at hmax'
      rw [hconcat, maxBy, List.foldl_concat, hmax']
      dsimp only
      by_cases hlt : z.lt x = true
      · rw [if_pos (F32.partialCmp_gt.mpr hlt)]
        exact ⟨g, x, rfl, hlast.concat_of_lt hlt⟩
      · rw [if_neg (mt F32.partialCmp_gt.mp hlt)]
        exact ⟨xs.length, z, rfl, hlast.concat_of_not_lt (Bool.eq_false_iff.mpr hlt)⟩

theorem greedySample_last {logits : List F32} (hne : logits ≠ []) :
    ∃ g x, greedySample logits = UInt32.ofNat g ∧ LastMax logits g x := by
  obtain ⟨g, x, hmax, hlast⟩ := exists_maxBy_lastMax hne
  exact ⟨g, x, by rw [greedySample, hmax]; rfl, hlast⟩

/-! ## The bitmask -/

/-- The number of 32-bit words for a vocabulary. -/
def bitmaskSize (vocabSize : ℕ) : ℕ := (vocabSize + 31) / 32

/-- The grammar matchers of XGrammar. The size of the tokenizer's vocabulary fits an `i32`. -/
structure MatcherOps where
  Matcher : Type
  compile : StructuredOutputParams → Except String Matcher
  vocabSize : ℕ
  vocabSize_lt : vocabSize < 2 ^ 31
  /-- The words, and whether they rule out anything. -/
  fillNextTokenBitmask :
    Matcher → Except String (Bool × Vector UInt32 (bitmaskSize vocabSize)) × Matcher
  acceptToken : Matcher → Token → Bool × Matcher

namespace MatcherOps

variable (O : MatcherOps)

theorem word_lt {vocabSize t : ℕ} (ht : t < vocabSize) : t / 32 < bitmaskSize vocabSize := by
  rw [bitmaskSize]
  omega

/-- The bit of a token. -/
def bit (words : Vector UInt32 (bitmaskSize O.vocabSize)) (t : ℕ) (ht : t < O.vocabSize) : Bool :=
  have := word_lt ht
  words[t / 32] &&& (1 <<< UInt32.ofNat (t % 32)) != 0

/-- Tokens without a bit are masked, indices without a token are not. -/
def mask (words : Vector UInt32 (bitmaskSize O.vocabSize)) (logits : List F32) : List F32 :=
  logits.zipIdx.map fun (x, t) =>
    if ht : t < O.vocabSize then (if O.bit words t ht then x else .inf true) else x

def maskLogits (matcher : O.Matcher) (logits : List F32) :
    Except String (List F32) × O.Matcher :=
  if logits.length < O.vocabSize then
    (.error (s!"logits vocabulary size {logits.length} is smaller than " ++
      s!"tokenizer vocabulary size {O.vocabSize}"), matcher)
  else
    match O.fillNextTokenBitmask matcher with
    | (.error _, matcher) => (.error "computing XGrammar token bitmask", matcher)
    | (.ok (restricts, words), matcher) =>
      let logits := if restricts then O.mask words logits else logits
      if (logits.take O.vocabSize).all (!·.isFinite) then
        (.error "structured output constraint rejected every token", matcher)
      else (.ok logits, matcher)

/-- XGrammar as the library of the executor. -/
def grammarOps : GrammarOps (List F32) where
  Matcher := O.Matcher
  compile := O.compile
  maskLogits := O.maskLogits
  acceptToken := O.acceptToken

/-- A token of the vocabulary that the matcher accepts next. -/
def Allows (matcher : O.Matcher) (t : ℕ) : Prop :=
  t < O.vocabSize ∧ (O.acceptToken matcher (UInt32.ofNat t)).1 = true

/-- The bits are those of the tokens that the matcher accepts next. Filling the bitmask does not
move the matcher, and nothing outside the vocabulary is accepted. -/
structure Marks : Prop where
  bit_iff : ∀ {m m' : O.Matcher} {words : Vector UInt32 (bitmaskSize O.vocabSize)},
    O.fillNextTokenBitmask m = (.ok (true, words), m') →
      ∀ t ht, O.bit words t ht = true ↔ O.Allows m t
  unrestricted : ∀ {m m' : O.Matcher} {words : Vector UInt32 (bitmaskSize O.vocabSize)},
    O.fillNextTokenBitmask m = (.ok (false, words), m') → ∀ t < O.vocabSize, O.Allows m t
  accept_fill : ∀ m t, (O.acceptToken (O.fillNextTokenBitmask m).2 t).1 = (O.acceptToken m t).1
  outside : ∀ m (t : Token), O.vocabSize ≤ t.toNat → (O.acceptToken m t).1 = false

variable {O} {m m' : O.Matcher} {logits masked : List F32}

theorem Marks.allows_fill (hO : O.Marks) (t : ℕ) :
    O.Allows (O.fillNextTokenBitmask m).2 t ↔ O.Allows m t := by
  rw [Allows, Allows, hO.accept_fill]

/-- What the mask does to the logits: no more than ruling out the other tokens of the vocabulary,
and some token of it is left. -/
structure Masked (m : O.Matcher) (logits masked : List F32) : Prop where
  length_eq : masked.length = logits.length
  kept : ∀ t, O.Allows m t ∨ O.vocabSize ≤ t → masked[t]? = logits[t]?
  ruledOut : ∀ t x, t < O.vocabSize → ¬ O.Allows m t → masked[t]? = some x → x = .inf true
  left : ∃ t x, t < O.vocabSize ∧ masked[t]? = some x ∧ x.isFinite = true

theorem getElem?_mask (words : Vector UInt32 (bitmaskSize O.vocabSize)) (t : ℕ) :
    (O.mask words logits)[t]? = logits[t]?.map fun x =>
      if ht : t < O.vocabSize then (if O.bit words t ht then x else .inf true) else x := by
  rw [mask, List.getElem?_map, List.getElem?_zipIdx, Option.map_map, Nat.zero_add]
  rfl

theorem left_of_all (h : (masked.take O.vocabSize).all (!·.isFinite) = false) :
    ∃ t x, t < O.vocabSize ∧ masked[t]? = some x ∧ x.isFinite = true := by
  obtain ⟨x, hx, hfin⟩ := List.all_eq_false.mp h
  obtain ⟨t, ht⟩ := List.mem_iff_getElem?.mp hx
  have hlt := (List.getElem?_eq_some_iff.mp ht).1
  rw [List.length_take] at hlt
  have hlt : t < O.vocabSize := by omega
  rw [List.getElem?_take_of_lt hlt] at ht
  exact ⟨t, x, hlt, ht, by simpa using hfin⟩

theorem Marks.masks (hO : O.Marks) (h : O.maskLogits m logits = (.ok masked, m')) :
    m' = (O.fillNextTokenBitmask m).2 ∧ Masked m logits masked := by
  unfold maskLogits at h
  split at h
  · cases congrArg Prod.fst h
  · split at h
    · cases congrArg Prod.fst h
    · rename_i restricts words m₁ hfill
      dsimp only at h
      generalize hmask : (if restricts = true then O.mask words logits else logits) = logits' at h
      split at h
      · cases congrArg Prod.fst h
      · rename_i hleft
        have hleft := left_of_all (Bool.eq_false_iff.mpr hleft)
        obtain rfl := Except.ok.inj (congrArg Prod.fst h)
        obtain rfl : m₁ = m' := congrArg Prod.snd h
        refine ⟨by rw [hfill], ?_⟩
        subst hmask
        cases restricts with
        | false =>
          refine ⟨rfl, fun _ _ => rfl, fun t x ht hnot => ?_, hleft⟩
          exact absurd (hO.unrestricted hfill t ht) hnot
        | true =>
          refine ⟨by simp [mask], fun t ht => ?_, fun t x ht hnot hx => ?_, hleft⟩
          · rw [if_pos rfl, getElem?_mask]
            by_cases hlt : t < O.vocabSize
            · have hbit := (hO.bit_iff hfill t hlt).mpr (ht.resolve_right (not_le.mpr hlt))
              simp [hlt, hbit]
            · simp [hlt]
          · have hbit := mt (hO.bit_iff hfill t ht).mp hnot
            rw [if_pos rfl, getElem?_mask, Option.map_eq_some_iff] at hx
            obtain ⟨y, -, rfl⟩ := hx
            rw [dif_pos ht, if_neg hbit]

/-- Where masking leaves no token to the greedy sample that the matcher rejects: nothing is above
`-∞` behind the vocabulary, and some allowed token is, or ends the logits, with no NaN at an
allowed token behind it. -/
structure Clear (m : O.Matcher) (logits : List F32) : Prop where
  outside : ∀ t x, O.vocabSize ≤ t → logits[t]? = some x → x = .inf true
  ahead : ∃ t x, O.Allows m t ∧ logits[t]? = some x ∧
    ((F32.inf true).lt x = true ∨ t + 1 = logits.length) ∧
      ∀ i, t < i → O.Allows m i → logits[i]? ≠ some .nan

/-- Every finite logit is that of an allowed token. -/
def Complete (m : O.Matcher) (masked : List F32) : Prop :=
  ∀ t x, masked[t]? = some x → x.isFinite = true → O.Allows m t

theorem Masked.allows_of_ne (h : Masked m logits masked) (hc : Clear m logits) {t : ℕ} {x : F32}
    (hx : masked[t]? = some x) (hne : x ≠ .inf true) : O.Allows m t := by
  by_contra hnot
  rcases Nat.lt_or_ge t O.vocabSize with ht | ht
  · exact hne (h.ruledOut t x ht hnot hx)
  · rw [h.kept t (.inr ht)] at hx
    exact hne (hc.outside t x ht hx)

theorem Masked.complete (h : Masked m logits masked) (hc : Clear m logits) :
    Complete m masked := by
  intro t x hx hfin
  refine h.allows_of_ne hc hx ?_
  rintro rfl
  cases hfin

variable {g : ℕ} {x : F32}

theorem Masked.allows_last (h : Masked m logits masked) (hc : Clear m logits)
    (hg : LastMax masked g x) : O.Allows m g := by
  obtain ⟨t, y, hallow, hy, habove, hnan⟩ := hc.ahead
  have hy' : masked[t]? = some y := by rw [h.kept t (.inl hallow), hy]
  have hafter : ∀ i, t < i → masked[i]? ≠ some .nan := by
    intro i hi he
    have hi' := h.allows_of_ne hc he (by rintro ⟨⟩)
    rw [h.kept i (.inl hi')] at he
    exact hnan i hi hi' he
  rcases habove with habove | hlast
  · have hle := hg.le t y hy' (F32.ne_nan_of_lt habove) hafter
    refine h.allows_of_ne hc hg.getElem? ?_
    rintro rfl
    have hlt := F32.lt_of_lt_of_le habove hle
    rw [F32.lt_self] at hlt
    cases hlt
  · have hlen := (List.getElem?_eq_some_iff.mp hg.getElem?).1
    rw [h.length_eq] at hlen
    rcases Nat.lt_or_ge g t with hlt | hge
    · refine h.allows_of_ne hc hg.getElem? ?_
      rintro rfl
      have hlt := hg.after t y hlt hy'
      rw [F32.not_lt_negInf] at hlt
      cases hlt
    · obtain rfl : g = t := by omega
      exact hallow

/-- If all finite logits are allowed and the greedy sample is, then `Clear` holds. -/
theorem Masked.clear (h : Masked m logits masked) (hcomplete : Complete m masked)
    (hg : LastMax masked g x) (hallow : O.Allows m g) : Clear m logits := by
  have hx := hg.getElem?
  rw [h.kept g (.inl hallow)] at hx
  constructor
  · intro t y ht hy
    by_contra hinf
    rw [← h.kept t (.inr ht)] at hy
    have hfin : y.isFinite = false := by
      by_contra hfin
      have hlt := (hcomplete t y hy (by simpa using hfin)).1
      omega
    have hlt := hg.after t y (hallow.1.trans_le ht) hy
    rw [F32.lt_of_not_finite hfin hinf] at hlt
    cases hlt
  · refine ⟨g, x, hallow, hx, ?_, fun i hi hi' he => ?_⟩
    · rw [or_iff_not_imp_left]
      intro hbot
      have hlen := (List.getElem?_eq_some_iff.mp hx).1
      by_contra hlast
      have hnext : g + 1 < masked.length := by
        rw [h.length_eq]
        omega
      exact hbot (F32.negInf_lt_of_lt
        (hg.after (g + 1) _ (Nat.lt_succ_self g) (List.getElem?_eq_getElem hnext)))
    · rw [← h.kept i (.inl hi')] at he
      cases hg.after i .nan hi he

theorem Masked.clear_of_comparable (h : Masked m logits masked) (hnan : .nan ∉ logits)
    (hout : ∀ t x, O.vocabSize ≤ t → logits[t]? = some x → x = .inf true) : Clear m logits := by
  obtain ⟨t, x, ht, hx, hfin⟩ := h.left
  have hallow : O.Allows m t := by
    by_contra hnot
    rw [h.ruledOut t x ht hnot hx] at hfin
    cases hfin
  refine ⟨hout, t, x, hallow, by rw [← h.kept t (.inl hallow), hx], .inl ?_, ?_⟩
  · cases x with
    | fin q => rfl
    | nan => cases hfin
    | inf s => cases hfin
  · exact fun i _ _ he => hnan (List.mem_of_getElem? he)

end MatcherOps

namespace StructuredOutputManager

variable {O : MatcherOps} {mgr mgr' : StructuredOutputManager O.grammarOps.Matcher}
  {id : RequestId} {m : O.Matcher} {logits masked : List F32} {token : Token}

theorem acceptToken_iff (hO : O.Marks) (hm : mgr.matchers.lookup id = some m) :
    (mgr.acceptToken O.grammarOps id token).1 = .ok () ↔ O.Allows m token.toNat := by
  have hof : UInt32.ofNat token.toNat = token := UInt32.ofNat_toNat
  have haccept : (O.grammarOps.acceptToken m token).1 = (O.acceptToken m token).1 := rfl
  unfold acceptToken
  rw [hm]
  dsimp only
  rw [MatcherOps.Allows, hof]
  split
  · rename_i hbig
    have hlt := O.vocabSize_lt
    exact iff_of_false (fun h => by cases h) fun h => by omega
  · rw [haccept]
    cases ha : (O.acceptToken m token).1 with
    | false => exact iff_of_false (fun h => by cases h) fun h => by cases h.2
    | true =>
      refine iff_of_true rfl ⟨?_, rfl⟩
      by_contra hout
      rw [hO.outside m token (not_lt.mp hout)] at ha
      cases ha

theorem lookup_maskLogits (hm : mgr.matchers.lookup id = some m)
    (h : mgr.maskLogits O.grammarOps id logits = (.ok masked, mgr')) :
    ∃ m', O.maskLogits m logits = (.ok masked, m') ∧ mgr'.matchers.lookup id = some m' := by
  unfold maskLogits at h
  rw [hm] at h
  obtain rfl := congrArg Prod.snd h
  have hmask : (O.maskLogits m logits).1 = .ok masked := congrArg Prod.fst h
  exact ⟨(O.maskLogits m logits).2, Prod.ext hmask rfl, AList.lookup_insert _⟩

/-- The matcher accepts every token of a finite logit, and the one that is sampled. -/
structure Safe (mgr : StructuredOutputManager O.grammarOps.Matcher) (id : RequestId)
    (masked : List F32) (token : Token) : Prop where
  finite : ∀ t x, masked[t]? = some x → x.isFinite = true →
    ∃ token : Token, token.toNat = t ∧ (mgr.acceptToken O.grammarOps id token).1 = .ok ()
  sampled : (mgr.acceptToken O.grammarOps id token).1 = .ok ()

/-- Requests without a constraint are left alone. Of the others, the masked logits and their greedy
sample are safe if the logits are clear, and only then if each of them is that of a token. -/
theorem maskLogits_safe_iff (hO : O.Marks) (S : SamplerOps)
    (mgr : StructuredOutputManager O.grammarOps.Matcher) (id : RequestId) (logits : List F32) :
    (id ∉ mgr.matchers → mgr.maskLogits O.grammarOps id logits = (.ok logits, mgr) ∧
        ∀ token, mgr.acceptToken O.grammarOps id token = (.ok (), mgr)) ∧
      ∀ m masked mgr' (input : SamplingInput (List F32)), mgr.matchers.lookup id = some m →
        mgr.maskLogits O.grammarOps id logits = (.ok masked, mgr') →
        input.params.Neutral → input.badWordTokenIds = [] → input.logits = masked →
        (O.Clear m logits → mgr'.Safe id masked (S.sample input)) ∧
          (logits.length ≤ 2 ^ 32 → mgr'.Safe id masked (S.sample input) → O.Clear m logits) := by
  constructor
  · intro hid
    have hnone := AList.lookup_eq_none.mpr hid
    exact ⟨by rw [maskLogits, hnone], fun token => by rw [acceptToken, hnone]⟩
  · rintro m masked mgr' input hm h hneutral hbad rfl
    obtain ⟨m', hmask, hm'⟩ := lookup_maskLogits hm h
    obtain ⟨rfl, hmasked⟩ := hO.masks hmask
    have haccept : ∀ token : Token, (mgr'.acceptToken O.grammarOps id token).1 = .ok () ↔
        O.Allows m token.toNat := fun token =>
      (acceptToken_iff hO hm').trans (hO.allows_fill _)
    obtain ⟨t, x, -, hx, -⟩ := hmasked.left
    obtain ⟨g, y, hgreedy, hg⟩ := greedySample_last (List.ne_nil_of_mem (List.mem_of_getElem? hx))
    rw [S.sample_neutral hneutral hbad, hgreedy]
    have hlen := (List.getElem?_eq_some_iff.mp hg.getElem?).1
    rw [hmasked.length_eq] at hlen
    have htoken : ∀ t, O.Allows m t → (UInt32.ofNat t).toNat = t := by
      intro t ht
      have hlt := ht.1.trans O.vocabSize_lt
      exact UInt32.toNat_ofNat_of_lt' (by rw [UInt32.size]; omega)
    constructor
    · intro hc
      constructor
      · intro t x hx hfin
        have hallow := hmasked.complete hc t x hx hfin
        refine ⟨UInt32.ofNat t, htoken t hallow, (haccept _).mpr ?_⟩
        rwa [htoken t hallow]
      · have hallow := hmasked.allows_last hc hg
        rw [haccept, htoken g hallow]
        exact hallow
    · intro hsize hsafe
      refine hmasked.clear ?_ hg ?_
      · intro t x hx hfin
        obtain ⟨token, rfl, hok⟩ := hsafe.finite t x hx hfin
        exact (haccept token).mp hok
      · have hok := (haccept _).mp hsafe.sampled
        rwa [UInt32.toNat_ofNat_of_lt' (by rw [UInt32.size]; omega)] at hok

/-- A vocabulary of two tokens, the first of which is accepted. -/
def firstOnly : MatcherOps where
  Matcher := Unit
  compile _ := .ok ()
  vocabSize := 2
  vocabSize_lt := by decide
  fillNextTokenBitmask _ := (.ok (true, .replicate _ 1), ())
  acceptToken _ t := (t == 0, ())

theorem firstOnly_marks : firstOnly.Marks where
  bit_iff {m m' words} h t ht := by
    obtain rfl : Vector.replicate _ 1 = words :=
      congrArg Prod.snd (Except.ok.inj (congrArg Prod.fst h))
    have hbit : ∀ t : Fin 2, firstOnly.bit (.replicate _ 1) t.1 t.2 =
        decide (UInt32.ofNat t.1 = 0) := by decide
    exact (Bool.eq_iff_iff.mp (hbit ⟨t, ht⟩)).trans (decide_eq_true_iff.trans
      ⟨fun h => ⟨ht, beq_iff_eq.mpr h⟩, fun h => eq_of_beq h.2⟩)
  unrestricted h := by cases congrArg Prod.fst (Except.ok.inj (congrArg Prod.fst h))
  accept_fill _ _ := rfl
  outside m t ht := by
    refine beq_eq_false_iff_ne.mpr ?_
    rintro rfl
    exact absurd ht (by decide)

/-- One request with the matcher. -/
def firstManager : StructuredOutputManager firstOnly.grammarOps.Matcher :=
  ⟨AList.insert 1 () ∅⟩

def greedyParams : SamplingParams := { temperature := .fin 0 }

theorem greedyParams_neutral : greedyParams.Neutral := ⟨rfl, rfl, rfl, rfl, rfl, rfl, rfl⟩

theorem maskLogits_safe_iff_first :
    firstManager.Safe 1 [.fin 0, .inf true, .inf true]
      ((exactFloats.samplerOps (.fin 0)).sample
        ⟨[.fin 0, .inf true, .inf true], greedyParams, [], 0, 0, []⟩) :=
  (((maskLogits_safe_iff firstOnly_marks (exactFloats.samplerOps (.fin 0)) firstManager 1
    [.fin 0, .fin 0, .inf true]).2 () [.fin 0, .inf true, .inf true] firstManager
      ⟨[.fin 0, .inf true, .inf true], greedyParams, [], 0, 0, []⟩ rfl rfl
      greedyParams_neutral rfl rfl).1
    { outside := by
        intro t x ht hx
        have hlen := (List.getElem?_eq_some_iff.mp hx).1
        obtain rfl : t = 2 := le_antisymm (Nat.le_of_lt_succ hlen) ht
        exact (Option.some.inj hx).symm
      ahead := ⟨0, .fin 0, ⟨by decide, by decide⟩, rfl, .inl rfl, fun i _ _ he =>
        absurd (List.mem_of_getElem? he) (by decide)⟩ })

/-- A vector of logits that is longer than the vocabulary of the tokenizer: the mask does not reach
its last index, which the greedy sample takes. -/
theorem not_maskLogits_safe :
    ¬ ∀ (O : MatcherOps) (S : SamplerOps) (mgr mgr' : StructuredOutputManager O.grammarOps.Matcher)
      (id : RequestId) (m : O.Matcher) (logits masked : List F32)
      (input : SamplingInput (List F32)), O.Marks → mgr.matchers.lookup id = some m →
        mgr.maskLogits O.grammarOps id logits = (.ok masked, mgr') →
        input.params.Neutral → input.badWordTokenIds = [] → input.logits = masked →
        mgr'.Safe id masked (S.sample input) := by
  intro h
  have hsafe := h firstOnly (exactFloats.samplerOps (.fin 0)) firstManager firstManager 1 ()
    [.fin 0, .fin 0, .fin 5] [.fin 0, .inf true, .fin 5]
    ⟨[.fin 0, .inf true, .fin 5], greedyParams, [], 0, 0, []⟩ firstOnly_marks rfl rfl
    greedyParams_neutral rfl rfl
  obtain ⟨token, htoken, hok⟩ := hsafe.finite 2 (.fin 5) rfl rfl
  have hallow := ((acceptToken_iff firstOnly_marks (m := ()) rfl).mp hok).1
  rw [htoken] at hallow
  exact absurd hallow (by decide)

end StructuredOutputManager

end Rllm
