import Rllm.Sampling.BeamPruning

/-! # Wide beams

A search whose width is at least the number of all sequences prunes nothing. Each
step finds every extension of every open sequence, so the first of the best beams
is the best of all complete sequences.
-/

namespace Rllm

open Pruning

/-- Parameters whose processors leave the logits alone. -/
structure BeamSamplingParams.Neutral (p : BeamSamplingParams) : Prop where
  temperature : p.temperature = .fin 0 ∨ p.temperature = .fin 1
  logitBias : p.logitBias = []
  repetitionPenalty : p.repetitionPenalty = .fin 1
  frequencyPenalty : p.frequencyPenalty = .fin 0
  presencePenalty : p.presencePenalty = .fin 0
  allowedTokenIds : p.allowedTokenIds = none
  minTokens : p.minTokens = 0
  topK : p.topK ≤ 0
  topP : p.topP = .fin 1
  minP : p.minP = .fin 0

/-- A model, which gives logits for each sequence of generated tokens, and a request to it. -/
structure Decoding (V : Type) where
  model : List Token → List V
  params : BeamSamplingParams
  eosTokenId : Token

open BeamSearch

namespace Decoding

variable {V : Type} (D : Decoding V) (config : BeamSearchConfig)

/-- The call with the logits of the active beams. -/
def call (s : BeamSearch V) : BeamCall V where
  logitsBatch := s.activeBeams.map (D.model ·.tokenIds)
  params := D.params
  eosTokenId := D.eosTokenId

/-- The tokens that end a sequence: the end token, unless it is ignored, and the stop tokens. -/
def Ends (token : Token) : Prop :=
  Terminal config (⟨[], D.params, D.eosTokenId, []⟩ : BeamCall V) token

/-- A sequence that ends in a terminal token or has the maximal length, and has no earlier terminal
token. -/
def Complete (vocab : ℕ) (ts : List Token) : Prop :=
  ∃ init last, ts = init ++ [last] ∧ (∀ t ∈ ts, t.toNat < vocab) ∧
    (∀ t ∈ init, ¬ D.Ends config t) ∧ ts.length ≤ config.maxTokens ∧
      (D.Ends config last ∨ ts.length = config.maxTokens)

/-- A sequence that is to be extended. -/
def Open (vocab : ℕ) (ts : List Token) : Prop :=
  (∀ t ∈ ts, t.toNat < vocab) ∧ (∀ t ∈ ts, ¬ D.Ends config t) ∧ ts.length < config.maxTokens

variable [LinearOrder V] (O : BeamOps V)

/-- Advance the search until it is finished, by at most `n` steps. -/
def decode : ℕ → BeamSearch V → Except BeamSearchError (BeamSearch V)
  | 0, s => .ok s
  | n + 1, s =>
    if s.finished then .ok s
    else match s.advance O (D.call s) with
      | (.error e, _) => .error e
      | (.ok _, s') => decode n s'

/-- The log probability of a token, which is `-∞` if the vocabulary has no such token. -/
def tokenLogprob (logits : List V) (token : Token) : V :=
  logits[token.toNat]?.elim O.negInf (O.sub · (logNormalizer O logits))

/-- Add the log probabilities of some tokens after others to a sum. -/
def addLogprobs : List Token → V → List Token → V
  | _, sum, [] => sum
  | context, sum, t :: ts =>
    addLogprobs (context ++ [t]) (O.add sum (tokenLogprob O (D.model context) t)) ts

/-- The log probability of a sequence. -/
def sequenceLogprob (ts : List Token) : V := D.addLogprobs O [] O.zero ts

/-- The hypothesis that a sequence is. -/
def beam (ts : List Token) : Beam V := ⟨ts, D.sequenceLogprob O ts, none⟩

/-- The best complete sequence: no other has a higher score, or the same score and tokens that come
before. -/
def Best (vocab : ℕ) (ts : List Token) : Prop :=
  D.Complete config vocab ts ∧ ∀ us, D.Complete config vocab us →
    (D.beam O ts).key O config.lengthPenalty ≤ (D.beam O us).key O config.lengthPenalty

variable {D config O} {ts : List Token} {t : Token} {vocab : ℕ}

theorem Best.unique {us : List Token} (h : D.Best config O vocab ts)
    (h' : D.Best config O vocab us) : ts = us := by
  have hkeys := le_antisymm (h.2 us h'.1) (h'.2 ts h.1)
  have htokens : ts.map UInt32.toNat = us.map UInt32.toNat :=
    congrArg (fun key => (ofLex key).2) hkeys
  exact List.map_injective_iff.mpr (fun _ _ he => UInt32.toNat_inj.mp he) htokens

theorem addLogprobs_concat (context : List Token) (sum : V) :
    D.addLogprobs O context sum (ts ++ [t]) =
      O.add (D.addLogprobs O context sum ts) (tokenLogprob O (D.model (context ++ ts)) t) := by
  induction ts generalizing context sum with
  | nil => rw [List.append_nil, List.nil_append, addLogprobs, addLogprobs, addLogprobs]
  | cons u ts ih =>
    rw [List.cons_append, addLogprobs, ih, addLogprobs, List.append_assoc, List.singleton_append]

theorem sequenceLogprob_concat : D.sequenceLogprob O (ts ++ [t]) =
    O.add (D.sequenceLogprob O ts) (tokenLogprob O (D.model ts) t) :=
  addLogprobs_concat [] O.zero

theorem extendBeam_beam (i : ℕ) :
    extendBeam O (D.beam O ts) i (t, tokenLogprob O (D.model ts) t) =
      ⟨D.beam O (ts ++ [t]), i, t⟩ := by
  rw [extendBeam, beam, beam, sequenceLogprob_concat]

omit [LinearOrder V] in
theorem Open.concat_iff : D.Open config vocab (ts ++ [t]) ↔
    D.Open config vocab ts ∧ t.toNat < vocab ∧ ¬ D.Ends config t ∧
      ts.length + 1 < config.maxTokens := by
  simp only [Open, List.forall_mem_append, List.forall_mem_singleton, List.length_append,
    List.length_singleton]
  constructor
  · rintro ⟨⟨hvocab, ht⟩, ⟨hends, hend⟩, hlen⟩
    exact ⟨⟨hvocab, hends, Nat.lt_of_succ_lt hlen⟩, ht, hend, hlen⟩
  · rintro ⟨⟨hvocab, hends, -⟩, ht, hend, hlen⟩
    exact ⟨⟨hvocab, ht⟩, ⟨hends, hend⟩, hlen⟩

omit [LinearOrder V] in
theorem complete_concat_iff : D.Complete config vocab (ts ++ [t]) ↔
    D.Open config vocab ts ∧ t.toNat < vocab ∧
      (D.Ends config t ∨ ts.length + 1 = config.maxTokens) := by
  constructor
  · rintro ⟨init, last, he, hvocab, hends, hlen, hlast⟩
    obtain ⟨rfl, hsingle⟩ := List.append_inj' he rfl
    obtain rfl := List.singleton_inj.mp hsingle
    rw [List.forall_mem_append, List.forall_mem_singleton] at hvocab
    rw [List.length_append, List.length_singleton] at hlen hlast
    exact ⟨⟨hvocab.1, hends, hlen⟩, hvocab.2, hlast⟩
  · rintro ⟨⟨hvocab, hends, hlen⟩, ht, hlast⟩
    refine ⟨ts, t, rfl, ?_, hends, ?_, ?_⟩
    · rw [List.forall_mem_append, List.forall_mem_singleton]
      exact ⟨hvocab, ht⟩
    · rwa [List.length_append, List.length_singleton]
    · rwa [List.length_append, List.length_singleton]

omit [LinearOrder V] in
theorem reason_eq_none_iff {s : BeamSearch V} {c : Candidate V}
    (hbeam : c.beam.tokenIds = ts ++ [t]) (htoken : c.tokenId = t) :
    reason s (D.call s) c = none ↔ ¬ D.Ends s.config t ∧ ts.length + 1 < s.config.maxTokens := by
  have hlen : c.beam.tokenIds.length = ts.length + 1 := by
    rw [hbeam, List.length_append, List.length_singleton]
  rw [reason, finishReason_eq_none_iff, hlen, htoken]
  rfl

omit [LinearOrder V] in
theorem Open.take (h : D.Open config vocab ts) (n : ℕ) : D.Open config vocab (ts.take n) :=
  ⟨fun t ht => h.1 t (List.mem_of_mem_take ht), fun t ht => h.2.1 t (List.mem_of_mem_take ht),
    (List.length_take_le' n ts).trans_lt h.2.2⟩

end Decoding

namespace BeamSearch

section

variable {V : Type} {O : BeamOps V} {s : BeamSearch V} {call : BeamCall V}

theorem mem_extendAll {tokens : Beam V × List V → List (Token × V)}
    {beams : List (Beam V × List V)} {c : Candidate V} : c ∈ extendAll O tokens 0 beams ↔
      ∃ i x y, beams[i]? = some x ∧ y ∈ tokens x ∧ c = extendBeam O x.1 i y := by
  rw [extendAll, List.mem_flatMap]
  constructor
  · rintro ⟨⟨x, i⟩, hx, hc⟩
    obtain ⟨y, hy, rfl⟩ := List.mem_map.mp hc
    exact ⟨i, x, y, List.mk_mem_zipIdx_iff_getElem?.mp hx, hy, rfl⟩
  · rintro ⟨i, x, y, hx, hy, rfl⟩
    exact ⟨(x, i), List.mk_mem_zipIdx_iff_getElem?.mpr hx, List.mem_map_of_mem hy⟩

theorem mem_kept [LinearOrder V] {cs : List (Candidate V)} {c : Candidate V}
    (h : cs.length ≤ s.candidatesPerBeam) : c ∈ s.kept cs ↔ c ∈ cs := by
  have hlen : (ranked Candidate.key cs).length ≤ s.candidatesPerBeam := by rwa [length_ranked]
  rw [kept, List.take_of_length_le hlen, mem_ranked]

theorem mem_survivors [LinearOrder V] {cs : List (Candidate V)} {c : Candidate V}
    (h : cs.length ≤ s.candidatesPerBeam) (hwidth : cs.length ≤ s.config.beamWidth) :
    c ∈ survivors s call (s.kept cs) ↔ c ∈ cs ∧ reason s call c = none := by
  have hperm : (s.kept cs).length ≤ cs.length := by
    rw [kept, List.length_take, length_ranked]
    exact min_le_right _ _
  rw [survivors, List.take_of_length_le ((List.length_filter_le _ _).trans (hperm.trans hwidth)),
    List.mem_filter, mem_kept h, Option.isNone_iff_eq_none]

/-- The beams that a step ranks: those that were completed, and those that it finishes. -/
def finals [LinearOrder V] (s : BeamSearch V) (call : BeamCall V) (cs : List (Candidate V)) :
    List (Beam V) :=
  s.completedBeams ++ ((s.kept cs).filter fun c => (reason s call c).isSome).map (settled s call)

theorem mem_finals [LinearOrder V] {cs : List (Candidate V)} {b : Beam V}
    (h : cs.length ≤ s.candidatesPerBeam) : b ∈ finals s call cs ↔ b ∈ s.completedBeams ∨
      ∃ c ∈ cs, (reason s call c).isSome ∧ settled s call c = b := by
  simp only [finals, List.mem_append, List.mem_map, List.mem_filter, mem_kept h, and_assoc]

theorem length_extendAll_le {tokens : Beam V × List V → List (Token × V)} {n i : ℕ}
    {beams : List (Beam V × List V)} (h : ∀ x ∈ beams, (tokens x).length ≤ n) :
    (extendAll O tokens i beams).length ≤ beams.length * n := by
  have hle : ∀ m ∈ (beams.zipIdx i).map fun x => ((tokens x.1).map (extendBeam O x.1.1 x.2)).length,
      m ≤ n := by
    intro m hm
    obtain ⟨x, hx, rfl⟩ := List.mem_map.mp hm
    rw [List.length_map]
    exact h x.1 (List.fst_mem_of_mem_zipIdx hx)
  have hsum := List.sum_le_card_nsmul _ n hle
  rw [List.length_map, List.length_zipIdx, ← List.length_flatMap] at hsum
  exact hsum

end

section Exact

variable {K : Type} [Field K] [LinearOrder K] [IsStrictOrderedRing K] {X : ExactOps K}
  {powf : WithBot K → F32 → WithBot K} {s : BeamSearch (WithBot K)} {call : BeamCall (WithBot K)}
  {cs : List (Candidate (WithBot K))} {logits : List (WithBot K)}

theorem applyTemperature_one : X.arithmetic.applyTemperature logits (.fin 1) = logits := by
  have hone : X.arithmetic.abs (X.arithmetic.sub X.arithmetic.one X.arithmetic.one) = 0 := by
    rw [Arithmetic.one]
    exact congrArg _ ((congrArg _ (sub_self _)).trans abs_zero)
  have heps : (0 : WithBot K) < X.arithmetic.ofF32 .epsilon := by
    refine WithBot.coe_lt_coe.mpr (Rat.cast_pos.mpr ?_)
    norm_num
  rw [Arithmetic.applyTemperature, if_pos]
  exact Bool.or_eq_true_iff.mpr (.inr (decide_eq_true (hone.trans_lt heps)))

theorem adjustLogits_neutral {input : SamplingInput (List (WithBot K))} {p : BeamSamplingParams}
    (h : p.Neutral) (hp : input.params = p.toSamplingParams) (hb : input.badWordTokenIds = [])
    (c : Bool) : X.arithmetic.adjustLogits input c = input.logits := by
  obtain ⟨ht, hl, hr, hf, hpp, ha, hm, -, -, -⟩ := h
  have h₀ : (F32.fin 0).eq (.fin 0) = true := by decide
  have h₁ : (F32.fin 1).eq (.fin 1) = true := by decide
  have htemperature : Arithmetic.when (c && (F32.fin 0).lt p.temperature)
      (X.arithmetic.applyTemperature · p.temperature) input.logits = input.logits := by
    rw [Arithmetic.when]
    split
    · rename_i hpos
      rcases ht with ht | ht
      · rw [ht, Bool.and_eq_true_iff] at hpos
        exact absurd hpos.2 (by decide)
      · rw [ht, applyTemperature_one]
    · rfl
  simp only [Arithmetic.adjustLogits, hp, hl, hr, hf, hpp, ha, hm, hb, h₀, h₁, Arithmetic.when,
    List.isEmpty_nil, Bool.not_true, Bool.and_false, Bool.false_eq_true, if_false, List.foldl_nil,
    lt_irrefl, decide_false]
  exact htemperature

omit [IsStrictOrderedRing K] in
theorem truncateLogits_neutral {p : BeamSamplingParams} (h : p.Neutral) :
    X.arithmetic.truncateLogits p.toSamplingParams logits = logits := by
  have htopK : decide (0 < p.topK) = false := decide_eq_false (not_lt.mpr h.topK)
  have htopP : p.topP.lt (.fin 1) = false := by
    rw [h.topP]
    decide
  have hminP : (F32.fin 0).lt p.minP = false := by
    rw [h.minP]
    decide
  simp only [Arithmetic.truncateLogits, htopK, htopP, hminP, Arithmetic.when, Bool.false_eq_true,
    if_false]

theorem processedLogits_neutral (h : call.params.Neutral) (hb : call.badWordTokenIds = [])
    (beam : Beam (WithBot K)) : s.processedLogits (X.beamOps powf) call beam logits = logits := by
  have hmin : ¬ beam.tokenIds.length < call.params.minTokens := by
    rw [h.minTokens]
    exact Nat.not_lt_zero _
  rw [processedLogits, if_neg hmin, Arithmetic.prepareLogits, Arithmetic.when, if_pos rfl]
  exact (truncateLogits_neutral h).trans (adjustLogits_neutral h rfl hb _)

theorem foldl_exp_pos {max : WithBot K} (hmax : max ≠ ⊥) (xs : List (WithBot K))
    (hxs : ∀ x ∈ xs, x ≠ ⊥) (a : K) (ha : 0 ≤ a) (hpos : xs ≠ [] ∨ 0 < a) :
    ∃ b : K, 0 < b ∧ (xs.map fun x => (X.beamOps powf).exp ((X.beamOps powf).sub x max)).foldl
      (X.beamOps powf).add (a : WithBot K) = (b : WithBot K) := by
  induction xs generalizing a with
  | nil => exact ⟨a, hpos.resolve_left fun h => h rfl, rfl⟩
  | cons x xs ih =>
    obtain ⟨y, hy⟩ := WithBot.ne_bot_iff_exists.mp
      (map₂_ne_bot (f := fun u v : K => u - v) (hxs x List.mem_cons_self) hmax)
    have hexp : (X.beamOps powf).exp ((X.beamOps powf).sub x max) =
        ((X.exp y : K) : WithBot K) := by
      change ((X.weight (WithBot.map₂ (fun u v => u - v) x max) : K) : WithBot K) = _
      rw [← hy]
      rfl
    have hadd : 0 < a + X.exp y := add_pos_of_nonneg_of_pos ha (X.exp_pos y)
    rw [List.map_cons, List.foldl_cons, hexp]
    exact ih (fun z hz => hxs z (List.mem_cons_of_mem _ hz)) _ hadd.le (.inr hadd)

theorem topLogprobs_ok (h : ∃ x ∈ logits, x ≠ ⊥) (limit i : ℕ) :
    topLogprobs (X.beamOps powf) logits limit i =
      .ok ((ranked scoreKey (logprobs (X.beamOps powf) logits)).take limit) := by
  suffices hok : ∃ scores, topLogprobs (X.beamOps powf) logits limit i = .ok scores by
    obtain ⟨scores, hscores⟩ := hok
    rw [hscores, topLogprobs_eq hscores]
  obtain ⟨x, hx, hne⟩ := h
  have hmem : x ∈ logits.filter (X.beamOps powf).isFinite :=
    List.mem_filter.mpr ⟨hx, decide_eq_true hne⟩
  rw [topLogprobs]
  cases hmax : maxBy compare (logits.filter (X.beamOps powf).isFinite) with
  | none =>
    cases hxs : logits.filter (X.beamOps powf).isFinite with
    | nil =>
      rw [hxs] at hmem
      cases hmem
    | cons y ys =>
      rw [hxs] at hmax
      cases hmax
  | some max =>
    have hfinite : ∀ y ∈ logits.filter (X.beamOps powf).isFinite, y ≠ ⊥ := fun y hy =>
      of_decide_eq_true (List.mem_filter.mp hy).2
    obtain ⟨b, hb, hsum⟩ : ∃ b : K, 0 < b ∧
        ((logits.filter (X.beamOps powf).isFinite).map fun x =>
          (X.beamOps powf).exp ((X.beamOps powf).sub x max)).foldl (X.beamOps powf).add
            ((0 : K) : WithBot K) = (b : WithBot K) :=
      foldl_exp_pos (hfinite max (maxBy_mem hmax)) _ hfinite 0 le_rfl
        (.inl (List.ne_nil_of_mem hmem))
    have hzero : (X.beamOps powf).zero = ((0 : K) : WithBot K) := congrArg _ Rat.cast_zero
    have hle : (X.beamOps powf).le (b : WithBot K) ((0 : K) : WithBot K) = false :=
      decide_eq_false (not_le.mpr (WithBot.coe_lt_coe.mpr hb))
    have hne : (b : WithBot K) ≠ ⊥ := WithBot.coe_ne_bot
    have hfin : (X.beamOps powf).isFinite (b : WithBot K) = true := decide_eq_true hne
    rw [hzero]
    dsimp only
    rw [hsum, hle, hfin, if_neg (by decide)]
    exact ⟨_, rfl⟩

omit [IsStrictOrderedRing K] in
theorem mem_logprobs (hlen : logits.length ≤ 2 ^ 32) {x : Token × WithBot K} :
    x ∈ logprobs (X.beamOps powf) logits ↔ x.1.toNat < logits.length ∧
      x.2 = Decoding.tokenLogprob (X.beamOps powf) logits x.1 ∧ x.2 ≠ ⊥ := by
  constructor
  · intro hx
    have hne := logprobs_ne_bot hx
    obtain ⟨⟨y, i⟩, hy, rfl⟩ := List.mem_map.mp hx
    have hget := List.mk_mem_zipIdx_iff_getElem?.mp (List.mem_of_mem_filter hy)
    have hi := (List.getElem?_eq_some_iff.mp hget).1
    have htoNat : (UInt32.ofNat i).toNat = i := UInt32.toNat_ofNat_of_lt' (hi.trans_le hlen)
    refine ⟨htoNat.trans_lt hi, ?_, hne⟩
    rw [Decoding.tokenLogprob, htoNat, hget]
    rfl
  · rintro ⟨hlt, he, hne⟩
    have hget := List.getElem?_eq_getElem hlt
    have hlogprob : x.2 = (X.beamOps powf).sub logits[x.1.toNat]
        (logNormalizer (X.beamOps powf) logits) := by
      rw [he, Decoding.tokenLogprob, hget]
      rfl
    have hfinite : logits[x.1.toNat] ≠ ⊥ := by
      intro hbot
      rw [hlogprob, hbot] at hne
      exact hne rfl
    refine List.mem_map.mpr ⟨(logits[x.1.toNat], x.1.toNat), List.mem_filter.mpr ⟨?_, ?_⟩, ?_⟩
    · exact List.mk_mem_zipIdx_iff_getElem?.mpr hget
    · exact decide_eq_true hfinite
    · refine Prod.ext ?_ hlogprob.symm
      exact UInt32.ofNat_toNat

theorem candidatesFrom_ok {beams : List (Beam (WithBot K) × List (WithBot K))}
    (hn : call.params.Neutral) (hb : call.badWordTokenIds = [])
    (h : ∀ x ∈ beams, x.2.length < 2 ^ 32 ∧ x.2.length ≤ s.candidatesPerBeam ∧ ∃ y ∈ x.2, y ≠ ⊥)
    (i : ℕ) : s.candidatesFrom (X.beamOps powf) call i beams = .ok (extendAll (X.beamOps powf)
      (fun x => ranked scoreKey (logprobs (X.beamOps powf) x.2)) i beams) := by
  induction beams generalizing i with
  | nil => rfl
  | cons x beams ih =>
    obtain ⟨⟨hlen, hall, y, hy, hne⟩, h⟩ := List.forall_mem_cons.mp h
    have hnil : x.2.isEmpty ≠ true := by
      rw [ne_eq, List.isEmpty_iff]
      exact List.ne_nil_of_mem hy
    have hscores : (ranked scoreKey (logprobs (X.beamOps powf) x.2)).length ≤
        s.candidatesPerBeam := by
      rw [length_ranked, logprobs, List.length_map]
      refine (List.length_filter_le _ _).trans ?_
      rwa [List.length_zipIdx]
    rw [candidatesFrom, ih h, candidatesOf, if_neg hnil, if_neg (not_le.mpr hlen),
      processedLogits_neutral hn hb, topLogprobs_ok ⟨y, hy, hne⟩, List.take_of_length_le hscores]
    rfl

end Exact

end BeamSearch

/-! ## Exhaustive search -/

namespace Decoding

section Exact

variable {K : Type} [Field K] [LinearOrder K] {X : ExactOps K}
  {powf : WithBot K → F32 → WithBot K} {s : BeamSearch (WithBot K)} {D : Decoding (WithBot K)}
  {vocab : ℕ} {cs : List (Candidate (WithBot K))} {c : Candidate (WithBot K)}

/-- A request that the search accepts, with neutral processors, and a model over a vocabulary in
which each sequence has a continuation. -/
structure Valid (D : Decoding (WithBot K)) (vocab : ℕ) : Prop where
  params_valid : D.params.validate = .ok ()
  params_supported : validateSupportedSamplingParams D.params = .ok ()
  params_neutral : D.params.Neutral
  vocab_lt : vocab < 2 ^ 32
  length_model : ∀ ts, (D.model ts).length = vocab
  finite_model : ∀ ts, ∃ x ∈ D.model ts, x ≠ ⊥

omit [Field K] [LinearOrder K] in
theorem Valid.vocab_pos (hv : D.Valid vocab) : 0 < vocab := by
  obtain ⟨x, hx, -⟩ := hv.finite_model []
  rw [← hv.length_model []]
  exact List.length_pos_of_mem hx

variable [IsStrictOrderedRing K]

theorem Valid.candidates_eq (hv : D.Valid vocab) (hs : s.finished = false)
    (hwide : vocab ≤ s.candidatesPerBeam) : s.candidates (X.beamOps powf) (D.call s) =
      .ok (extendAll (X.beamOps powf) (fun x => ranked scoreKey (logprobs (X.beamOps powf) x.2)) 0
        (s.activeBeams.map fun b => (b, D.model b.tokenIds))) := by
  rw [candidates_eq_ok_iff]
  refine ⟨hs, hv.params_valid, hv.params_supported, List.length_map _, ?_⟩
  rw [call, ← List.map_prod_left_eq_zip]
  refine candidatesFrom_ok hv.params_neutral rfl (fun x hx => ?_) 0
  obtain ⟨b, -, rfl⟩ := List.mem_map.mp hx
  rw [hv.length_model]
  exact ⟨hv.vocab_lt, hwide, hv.finite_model b.tokenIds⟩

theorem Valid.mem_candidates (hv : D.Valid vocab)
    (h : s.candidates (X.beamOps powf) (D.call s) = .ok cs) (hs : s.finished = false)
    (hwide : vocab ≤ s.candidatesPerBeam) :
    c ∈ cs ↔ ∃ i beam t, s.activeBeams[i]? = some beam ∧ t.toNat < vocab ∧
      tokenLogprob (X.beamOps powf) (D.model beam.tokenIds) t ≠ ⊥ ∧
      c = extendBeam (X.beamOps powf) beam i
        (t, tokenLogprob (X.beamOps powf) (D.model beam.tokenIds) t) := by
  rw [hv.candidates_eq hs hwide] at h
  obtain rfl := Except.ok.inj h
  have hmem : ∀ {ts x}, x ∈ ranked scoreKey (logprobs (X.beamOps powf) (D.model ts)) ↔
      x.1.toNat < vocab ∧ x.2 = tokenLogprob (X.beamOps powf) (D.model ts) x.1 ∧ x.2 ≠ ⊥ := by
    intro ts x
    rw [mem_ranked, mem_logprobs ((hv.length_model ts).trans_le hv.vocab_lt.le), hv.length_model]
  rw [mem_extendAll]
  constructor
  · rintro ⟨i, x, y, hx, hy, rfl⟩
    rw [List.getElem?_map] at hx
    obtain ⟨beam, hbeam, rfl⟩ := Option.map_eq_some_iff.mp hx
    obtain ⟨hlt, he, hne⟩ := hmem.mp hy
    refine ⟨i, beam, y.1, hbeam, hlt, ?_, ?_⟩
    · rwa [← he]
    · rw [← he]
  · rintro ⟨i, beam, t, hbeam, hlt, hne, rfl⟩
    refine ⟨i, (beam, D.model beam.tokenIds), _, ?_, hmem.mpr ⟨hlt, rfl, hne⟩, rfl⟩
    rw [List.getElem?_map, hbeam]
    rfl

theorem Valid.length_candidates_le (hv : D.Valid vocab)
    (h : s.candidates (X.beamOps powf) (D.call s) = .ok cs) (hs : s.finished = false)
    (hwide : vocab ≤ s.candidatesPerBeam) : cs.length ≤ s.activeBeams.length * vocab := by
  rw [hv.candidates_eq hs hwide] at h
  obtain rfl := Except.ok.inj h
  have hlen : ∀ x ∈ s.activeBeams.map fun b => (b, D.model b.tokenIds),
      (ranked scoreKey (logprobs (X.beamOps powf) x.2)).length ≤ vocab := by
    intro x hx
    obtain ⟨b, -, rfl⟩ := List.mem_map.mp hx
    rw [length_ranked, logprobs, List.length_map, ← hv.length_model b.tokenIds]
    refine (List.length_filter_le _ _).trans ?_
    rw [List.length_zipIdx]
  have hle := length_extendAll_le (O := X.beamOps powf) (i := 0) hlen
  rwa [List.length_map] at hle

/-- What holds after `k` steps of a wide search: the active beams are all open sequences of `k`
tokens that the model gives a probability, and some completed beam is as good as any complete
sequence so far. -/
structure Exhaustive (O : BeamOps (WithBot K)) (D : Decoding (WithBot K))
    (config : BeamSearchConfig) (vocab k : ℕ) (s : BeamSearch (WithBot K)) : Prop where
  config_eq : s.config = config
  mem_active : ∀ b, b ∈ s.activeBeams ↔ ∃ ts, b = D.beam O ts ∧ ts.length = k ∧
    D.Open config vocab ts ∧ D.sequenceLogprob O ts ≠ ⊥
  active_le : s.activeBeams.length ≤ vocab ^ k
  completed : ∀ b ∈ s.completedBeams, D.Complete config vocab b.tokenIds ∧
    b.cumulativeLogprob = D.sequenceLogprob O b.tokenIds ∧ b.cumulativeLogprob ≠ ⊥
  dominated : ∀ ts, D.Complete config vocab ts → ts.length ≤ k → D.sequenceLogprob O ts ≠ ⊥ →
    ∃ b ∈ s.completedBeams, b.key O config.lengthPenalty ≤ (D.beam O ts).key O config.lengthPenalty
  finished_eq : s.finished = s.activeBeams.isEmpty
  nonempty : s.activeBeams ≠ [] ∨ s.completedBeams ≠ []

variable {config : BeamSearchConfig} {k : ℕ} {ts : List Token} {t : Token}

omit [IsStrictOrderedRing K] in
theorem sequenceLogprob_concat_ne_bot : D.sequenceLogprob (X.beamOps powf) (ts ++ [t]) ≠ ⊥ ↔
    D.sequenceLogprob (X.beamOps powf) ts ≠ ⊥ ∧
      tokenLogprob (X.beamOps powf) (D.model ts) t ≠ ⊥ := by
  rw [sequenceLogprob_concat]
  constructor
  · intro h
    constructor
    · intro hbot
      rw [hbot] at h
      exact h rfl
    · intro hbot
      rw [hbot] at h
      exact h (WithBot.map₂_bot_right _ _)
  · rintro ⟨h, h'⟩
    exact map₂_ne_bot h h'

namespace Exhaustive

variable (h : Exhaustive (X.beamOps powf) D config vocab k s) (hv : D.Valid vocab)

include h hv

theorem mem_candidates (hcs : s.candidates (X.beamOps powf) (D.call s) = .ok cs)
    (hs : s.finished = false) (hwide : vocab ≤ s.candidatesPerBeam) :
    c ∈ cs ↔ ∃ i ts t, s.activeBeams[i]? = some (D.beam (X.beamOps powf) ts) ∧ ts.length = k ∧
      D.Open config vocab ts ∧ t.toNat < vocab ∧
      D.sequenceLogprob (X.beamOps powf) (ts ++ [t]) ≠ ⊥ ∧
      c = ⟨D.beam (X.beamOps powf) (ts ++ [t]), i, t⟩ := by
  rw [hv.mem_candidates hcs hs hwide]
  constructor
  · rintro ⟨i, beam, t, hbeam, hlt, hne, rfl⟩
    obtain ⟨ts, rfl, hlen, hopen, hts⟩ := (h.mem_active beam).mp (List.mem_of_getElem? hbeam)
    exact ⟨i, ts, t, hbeam, hlen, hopen, hlt, sequenceLogprob_concat_ne_bot.mpr ⟨hts, hne⟩,
      extendBeam_beam i⟩
  · rintro ⟨i, ts, t, hbeam, -, -, hlt, hne, rfl⟩
    exact ⟨i, _, t, hbeam, hlt, (sequenceLogprob_concat_ne_bot.mp hne).2, (extendBeam_beam i).symm⟩

theorem exists_candidate (hcs : s.candidates (X.beamOps powf) (D.call s) = .ok cs)
    (hs : s.finished = false) (hwide : vocab ≤ s.candidatesPerBeam) (hlen : ts.length = k)
    (hopen : D.Open config vocab ts) (ht : t.toNat < vocab)
    (hne : D.sequenceLogprob (X.beamOps powf) (ts ++ [t]) ≠ ⊥) :
    ∃ c ∈ cs, c.beam = D.beam (X.beamOps powf) (ts ++ [t]) ∧ c.tokenId = t := by
  have hactive : D.beam (X.beamOps powf) ts ∈ s.activeBeams :=
    (h.mem_active _).mpr ⟨ts, rfl, hlen, hopen, (sequenceLogprob_concat_ne_bot.mp hne).1⟩
  obtain ⟨i, hi⟩ := List.mem_iff_getElem?.mp hactive
  exact ⟨_, (h.mem_candidates hv hcs hs hwide).mpr ⟨i, ts, t, hi, hlen, hopen, ht, hne, rfl⟩, rfl,
    rfl⟩

theorem exists_mem_candidates (hcs : s.candidates (X.beamOps powf) (D.call s) = .ok cs)
    (hs : s.finished = false) (hwide : vocab ≤ s.candidatesPerBeam) : ∃ c, c ∈ cs := by
  have hne : s.activeBeams ≠ [] := by
    have hempty := h.finished_eq
    rw [hs] at hempty
    exact List.isEmpty_eq_false_iff.mp hempty.symm
  obtain ⟨b, hb⟩ := List.exists_mem_of_ne_nil _ hne
  obtain ⟨ts, rfl, hlen, hopen, hts⟩ := (h.mem_active b).mp hb
  obtain ⟨x, hx, hfinite⟩ := hv.finite_model ts
  obtain ⟨j, hj⟩ := List.mem_iff_getElem?.mp hx
  have hlt : j < vocab := by
    rw [← hv.length_model ts]
    exact (List.getElem?_eq_some_iff.mp hj).1
  have htoNat : (UInt32.ofNat j).toNat = j := UInt32.toNat_ofNat_of_lt' (hlt.trans hv.vocab_lt)
  have htoken : tokenLogprob (X.beamOps powf) (D.model ts) (UInt32.ofNat j) ≠ ⊥ := by
    rw [tokenLogprob, htoNat, hj]
    exact map₂_ne_bot hfinite logNormalizer_ne_bot
  obtain ⟨c, hc, -⟩ := h.exists_candidate hv hcs hs hwide hlen hopen (htoNat.trans_lt hlt)
    (sequenceLogprob_concat_ne_bot.mpr ⟨hts, htoken⟩)
  exact ⟨c, hc⟩

theorem reason_spec (hcs : s.candidates (X.beamOps powf) (D.call s) = .ok cs)
    (hs : s.finished = false) (hwide : vocab ≤ s.candidatesPerBeam) (hc : c ∈ cs) :
    ∃ ts, c.beam = D.beam (X.beamOps powf) ts ∧ ts.length = k + 1 ∧
      D.sequenceLogprob (X.beamOps powf) ts ≠ ⊥ ∧
      (reason s (D.call s) c = none → D.Open config vocab ts) ∧
      ((reason s (D.call s) c).isSome → D.Complete config vocab ts) := by
  obtain rfl := h.config_eq
  obtain ⟨i, ts, t, -, hlen, hopen, ht, hne, rfl⟩ := (h.mem_candidates hv hcs hs hwide).mp hc
  refine ⟨ts ++ [t], rfl, ?_, hne, fun hr => ?_, fun hr => ?_⟩
  · rw [List.length_append, List.length_singleton, hlen]
  · exact Open.concat_iff.mpr ⟨hopen, ht, (reason_eq_none_iff rfl rfl).mp hr⟩
  · refine complete_concat_iff.mpr ⟨hopen, ht, ?_⟩
    by_contra hnot
    obtain ⟨hends, hlast⟩ := not_or.mp hnot
    have hnone : reason s (D.call s) ⟨D.beam (X.beamOps powf) (ts ++ [t]), i, t⟩ = none :=
      (reason_eq_none_iff rfl rfl).mpr ⟨hends, lt_of_le_of_ne hopen.2.2 hlast⟩
    rw [hnone] at hr
    cases hr

theorem length_candidates_le (hcs : s.candidates (X.beamOps powf) (D.call s) = .ok cs)
    (hs : s.finished = false) (hwide : vocab ≤ s.candidatesPerBeam) :
    cs.length ≤ vocab ^ (k + 1) :=
  (hv.length_candidates_le hcs hs hwide).trans (Nat.mul_le_mul_right vocab h.active_le)

/-- A complete sequence of a step is no better than some beam that the step ranks. -/
theorem exists_final (hcs : s.candidates (X.beamOps powf) (D.call s) = .ok cs)
    (hs : s.finished = false) (hwide : vocab ≤ s.candidatesPerBeam)
    (hall : cs.length ≤ s.candidatesPerBeam) (hts : D.Complete config vocab ts)
    (hle : ts.length ≤ k + 1) (hne : D.sequenceLogprob (X.beamOps powf) ts ≠ ⊥) :
    ∃ b ∈ finals s (D.call s) cs, b.key (X.beamOps powf) config.lengthPenalty ≤
      (D.beam (X.beamOps powf) ts).key (X.beamOps powf) config.lengthPenalty := by
  obtain rfl := h.config_eq
  rcases Nat.le_or_eq_of_le_succ hle with hle | hlen
  · obtain ⟨b, hb, hkey⟩ := h.dominated ts hts hle hne
    exact ⟨b, (mem_finals hall).mpr (.inl hb), hkey⟩
  · obtain ⟨init, last, rfl⟩ : ∃ init last, ts = init ++ [last] := hts.imp fun _ => Exists.imp
      fun _ => And.left
    obtain ⟨hopen, hlt, hlast⟩ := complete_concat_iff.mp hts
    rw [List.length_append, List.length_singleton, Nat.succ_inj] at hlen
    obtain ⟨c, hc, hbeam, htoken⟩ := h.exists_candidate hv hcs hs hwide hlen hopen hlt hne
    have hsome : (reason s (D.call s) c).isSome := by
      rw [Option.isSome_iff_ne_none, ne_eq,
        reason_eq_none_iff (congrArg Beam.tokenIds hbeam) htoken]
      rintro ⟨hends, hshort⟩
      exact hlast.elim hends hshort.ne
    refine ⟨_, (mem_finals hall).mpr (.inr ⟨c, hc, hsome, rfl⟩), le_of_eq ?_⟩
    rw [← hbeam]
    rfl

omit [IsStrictOrderedRing K] in
theorem vocab_le (hk : k < config.maxTokens)
    (hwide : vocab ^ config.maxTokens ≤ config.beamWidth)
    (hsize : config.beamWidth * 2 < Checked.usizeBound) :
    vocab ^ (k + 1) ≤ config.beamWidth ∧ config.beamWidth ≤ s.candidatesPerBeam ∧
      vocab ≤ s.candidatesPerBeam := by
  obtain rfl := h.config_eq
  have hpow : vocab ^ (k + 1) ≤ s.config.beamWidth :=
    (Nat.pow_le_pow_right hv.vocab_pos hk).trans hwide
  have hvocab : vocab ≤ vocab ^ (k + 1) := Nat.le_self_pow (Nat.succ_ne_zero k) vocab
  rw [candidatesPerBeam]
  omega

theorem next (hcs : s.candidates (X.beamOps powf) (D.call s) = .ok cs) (hs : s.finished = false)
    (hk : k < config.maxTokens) (hwide : vocab ^ config.maxTokens ≤ config.beamWidth)
    (hsize : config.beamWidth * 2 < Checked.usizeBound) (hearly : config.earlyStopping = false) :
    Exhaustive (X.beamOps powf) D config vocab (k + 1) (next (X.beamOps powf) s (D.call s) cs) := by
  obtain rfl := h.config_eq
  obtain ⟨hpow, hbeam, hall⟩ := h.vocab_le hv hk hwide hsize
  have hlen := h.length_candidates_le hv hcs hs hall
  have hroom : cs.length ≤ s.candidatesPerBeam := hlen.trans (hpow.trans hbeam)
  have hwidth : 0 < s.config.beamWidth := (Nat.pow_pos hv.vocab_pos).trans_le hpow
  have hsurvivors : ∀ {c}, c ∈ survivors s (D.call s) (s.kept cs) ↔
      c ∈ cs ∧ reason s (D.call s) c = none := mem_survivors hroom (hlen.trans hpow)
  have hbeams := next_activeBeams hcs
  have hfirst : ∀ b ∈ finals s (D.call s) cs,
      ∃ b' ∈ (BeamSearch.next (X.beamOps powf) s (D.call s) cs).completedBeams,
        b'.key (X.beamOps powf) s.config.lengthPenalty ≤
          b.key (X.beamOps powf) s.config.lengthPenalty := by
    intro b hb
    obtain ⟨b', -, hhead, hmin⟩ : ∃ b' ∈ finals s (D.call s) cs, (BeamSearch.next (X.beamOps powf) s
        (D.call s) cs).completedBeams.head? = some b' ∧ ∀ b ∈ finals s (D.call s) cs,
          b'.key (X.beamOps powf) s.config.lengthPenalty ≤
            b.key (X.beamOps powf) s.config.lengthPenalty :=
      exists_head?_take_ranked (List.ne_nil_of_mem hb) hwidth
    exact ⟨b', List.mem_of_head? hhead, hmin b hb⟩
  constructor
  · rfl
  · intro b
    rw [hbeams, List.mem_map]
    constructor
    · rintro ⟨c, hc, rfl⟩
      obtain ⟨hc, hr⟩ := hsurvivors.mp hc
      obtain ⟨ts, hbeam, hts, hne, hopen, -⟩ := h.reason_spec hv hcs hs hall hc
      exact ⟨ts, hbeam, hts, hopen hr, hne⟩
    · rintro ⟨ts, rfl, hts, hopen, hne⟩
      obtain rfl | ⟨init, last, rfl⟩ := List.eq_nil_or_concat' ts
      · cases hts
      · obtain ⟨hinit, hlt, hreason⟩ := Open.concat_iff.mp hopen
        rw [List.length_append, List.length_singleton, Nat.succ_inj] at hts
        obtain ⟨c, hc, hbeam, htoken⟩ := h.exists_candidate hv hcs hs hall hts hinit hlt hne
        refine ⟨c, hsurvivors.mpr ⟨hc, ?_⟩, hbeam⟩
        exact (reason_eq_none_iff (congrArg Beam.tokenIds hbeam) htoken).mpr hreason
  · rw [hbeams, List.length_map]
    refine (List.length_take_le' _ _).trans ((List.length_filter_le _ _).trans ?_)
    refine (List.length_take_le' _ _).trans ?_
    rwa [length_ranked]
  · intro b hb
    have hb : b ∈ sortFinalBeams (X.beamOps powf) s.config.lengthPenalty
      (finals s (D.call s) cs) := List.mem_of_mem_take hb
    rcases (mem_finals hroom).mp (mem_ranked.mp hb) with hb | ⟨c, hc, hr, rfl⟩
    · exact h.completed b hb
    · obtain ⟨ts, hbeam, -, hne, -, hcomplete⟩ := h.reason_spec hv hcs hs hall hc
      rw [settled, hbeam]
      exact ⟨hcomplete hr, rfl, hne⟩
  · intro ts hts hle hne
    obtain ⟨b, hb, hkey⟩ := h.exists_final hv hcs hs hall hroom hts hle hne
    obtain ⟨b', hb', hkey'⟩ := hfirst b hb
    exact ⟨b', hb', hkey'.trans hkey⟩
  · rw [BeamSearch.next, hearly, Bool.false_and, Bool.or_false]
  · obtain ⟨c, hc⟩ := h.exists_mem_candidates hv hcs hs hall
    cases hr : reason s (D.call s) c with
    | none =>
      rw [hbeams]
      exact .inl (List.ne_nil_of_mem (List.mem_map_of_mem (hsurvivors.mpr ⟨hc, hr⟩)))
    | some r =>
      have hfinal : settled s (D.call s) c ∈ finals s (D.call s) cs :=
        (mem_finals hroom).mpr (.inr ⟨c, hc, by rw [hr]; rfl, rfl⟩)
      obtain ⟨b, hb, -⟩ := hfirst _ hfinal
      exact .inr (List.ne_nil_of_mem hb)

end Exhaustive

omit [IsStrictOrderedRing K] in
theorem exhaustive_new {prompt : List Token}
    (h : new (X.beamOps powf) config prompt = .ok s) :
    Exhaustive (X.beamOps powf) D config vocab 0 s := by
  obtain ⟨hvalid, rfl⟩ := new_eq_ok h
  have htokens := (validate_eq_ok hvalid).2.1
  have hzero : D.sequenceLogprob (X.beamOps powf) [] ≠ ⊥ := WithBot.coe_ne_bot
  constructor
  · rfl
  · intro b
    rw [List.mem_singleton]
    constructor
    · rintro rfl
      exact ⟨[], rfl, rfl, ⟨List.forall_mem_nil _, List.forall_mem_nil _, htokens⟩, hzero⟩
    · rintro ⟨ts, rfl, hlen, -, -⟩
      rw [List.length_eq_zero_iff.mp hlen]
      rfl
  · exact le_rfl
  · exact List.forall_mem_nil _
  · rintro ts ⟨init, last, rfl, -⟩ hle
    rw [List.length_append, List.length_singleton] at hle
    exact absurd hle (Nat.not_succ_le_zero _)
  · rfl
  · exact .inl (List.cons_ne_nil _ _)

/-- A wide search finishes. -/
theorem decode_spec {n : ℕ} (h : Exhaustive (X.beamOps powf) D config vocab k s)
    (hv : D.Valid vocab) (hn : k + n = config.maxTokens)
    (hwide : vocab ^ config.maxTokens ≤ config.beamWidth)
    (hsize : config.beamWidth * 2 < Checked.usizeBound) (hearly : config.earlyStopping = false) :
    ∃ s' k', D.decode (X.beamOps powf) n s = .ok s' ∧ s'.finished = true ∧
      Exhaustive (X.beamOps powf) D config vocab k' s' := by
  induction n generalizing k s with
  | zero =>
    refine ⟨s, k, rfl, ?_, h⟩
    rw [h.finished_eq, List.isEmpty_iff, List.eq_nil_iff_forall_not_mem]
    intro b hb
    obtain ⟨ts, -, hlen, hopen, -⟩ := (h.mem_active b).mp hb
    have hlt := hopen.2.2
    omega
  | succ n ih =>
    rw [decode]
    cases hs : s.finished with
    | true => exact ⟨s, k, by rw [if_pos rfl], hs, h⟩
    | false =>
      obtain ⟨-, -, hall⟩ := h.vocab_le hv (by omega) hwide hsize
      have hcs : s.candidates (X.beamOps powf) (D.call s) = .ok _ := hv.candidates_eq hs hall
      have hnext := h.next hv hcs hs (by omega) hwide hsize hearly
      rw [if_neg Bool.false_ne_true, advance_of_ok hcs]
      exact ih hnext (by omega)

omit [IsStrictOrderedRing K] in
theorem sequenceLogprob_append_ne_bot {us : List Token}
    (h : D.sequenceLogprob (X.beamOps powf) (ts ++ us) ≠ ⊥) :
    D.sequenceLogprob (X.beamOps powf) ts ≠ ⊥ := by
  induction us using List.reverseRecOn with
  | nil => rwa [List.append_nil] at h
  | append_singleton us t ih =>
    rw [← List.append_assoc] at h
    exact ih (sequenceLogprob_concat_ne_bot.mp h).1

namespace Exhaustive

variable (h : Exhaustive (X.beamOps powf) D config vocab k s) (hs : s.finished = true)

include h hs

omit [IsStrictOrderedRing K] in
theorem length_le (hts : D.Complete config vocab ts)
    (hne : D.sequenceLogprob (X.beamOps powf) ts ≠ ⊥) : ts.length ≤ k := by
  by_contra hlt
  obtain ⟨init, last, rfl⟩ : ∃ init last, ts = init ++ [last] := hts.imp fun _ => Exists.imp
    fun _ => And.left
  obtain ⟨hopen, -, -⟩ := complete_concat_iff.mp hts
  rw [List.length_append, List.length_singleton] at hlt
  have hlen : (init.take k).length = k := List.length_take_of_le (by omega)
  have hsplit : init ++ [last] = init.take k ++ (init.drop k ++ [last]) := by
    rw [← List.append_assoc, List.take_append_drop]
  rw [hsplit] at hne
  have hactive := (h.mem_active _).mpr
    ⟨init.take k, rfl, hlen, hopen.take k, sequenceLogprob_append_ne_bot hne⟩
  have hempty := h.finished_eq
  rw [hs] at hempty
  rw [List.isEmpty_iff.mp hempty.symm] at hactive
  cases hactive

omit [IsStrictOrderedRing K] in
/-- The first of the best beams is no worse than any complete sequence. -/
theorem head?_bestBeams (hwidth : 0 < config.beamWidth)
    (hpowf : ∀ n : ℕ, powf ((n : K) : WithBot K) config.lengthPenalty ≠ ⊥) :
    ∃ b, (s.bestBeams (X.beamOps powf)).head? = some b ∧
      b.cumulativeLogprob = D.sequenceLogprob (X.beamOps powf) b.tokenIds ∧
      D.Best config (X.beamOps powf) vocab b.tokenIds := by
  obtain rfl := h.config_eq
  have hactive : s.activeBeams = [] := by
    have hempty := h.finished_eq
    rw [hs] at hempty
    exact List.isEmpty_iff.mp hempty.symm
  have hbest : s.bestBeams (X.beamOps powf) =
      (sortFinalBeams (X.beamOps powf) s.config.lengthPenalty s.completedBeams).take
        s.config.beamWidth := by
    rw [bestBeams, hactive, List.append_nil, ite_self]
  have hne : s.completedBeams ≠ [] := h.nonempty.resolve_left fun hne => hne hactive
  obtain ⟨b, hb, hhead, hmin⟩ : ∃ b ∈ s.completedBeams,
      (s.bestBeams (X.beamOps powf)).head? = some b ∧ ∀ b' ∈ s.completedBeams,
        b.key (X.beamOps powf) s.config.lengthPenalty ≤
          b'.key (X.beamOps powf) s.config.lengthPenalty := by
    rw [hbest]
    exact exists_head?_take_ranked hne hwidth
  obtain ⟨hcomplete, hlogprob, hfinite⟩ := h.completed b hb
  have hkey : (D.beam (X.beamOps powf) b.tokenIds).key (X.beamOps powf) s.config.lengthPenalty =
      b.key (X.beamOps powf) s.config.lengthPenalty := by
    rw [Beam.key, Beam.key, Beam.score, Beam.score, hlogprob]
    rfl
  refine ⟨b, hhead, hlogprob, hcomplete, fun us hus => ?_⟩
  rw [hkey]
  by_cases hne : D.sequenceLogprob (X.beamOps powf) us = ⊥
  · have hbot : (D.beam (X.beamOps powf) us).score (X.beamOps powf) s.config.lengthPenalty = ⊥ := by
      rw [Beam.score, beam, hne]
      rfl
    have hscore : b.score (X.beamOps powf) s.config.lengthPenalty ≠ ⊥ :=
      map₂_ne_bot hfinite (hpowf _)
    rw [Beam.key, Beam.key, hbot, Prod.Lex.toLex_le_toLex]
    exact .inl (OrderDual.toDual_lt_toDual.mpr (bot_lt_iff_ne_bot.mpr hscore))
  · obtain ⟨b', hb', hle⟩ := h.dominated us hus (h.length_le hs hus hne) hne
    exact (hmin b' hb').trans hle

end Exhaustive

variable {pow : K → F32 → K} {prompt : List Token} {s₀ : BeamSearch (WithBot K)}

/-- Wide beam search is exhaustive search: it finishes, and the first of the best beams is the best
of all complete sequences. -/
theorem decode_bestBeams
    (h₀ : new (X.beamOps fun x p => x.map (pow · p)) config prompt = .ok s₀) (hv : D.Valid vocab)
    (hwide : vocab ^ config.maxTokens ≤ config.beamWidth) (hearly : config.earlyStopping = false) :
    ∃ s b, D.decode (X.beamOps fun x p => x.map (pow · p)) config.maxTokens s₀ = .ok s ∧
      s.finished = true ∧
      (s.bestBeams (X.beamOps fun x p => x.map (pow · p))).head? = some b ∧
      b.cumulativeLogprob =
        D.sequenceLogprob (X.beamOps fun x p => x.map (pow · p)) b.tokenIds ∧
      ∀ ts, D.Best config (X.beamOps fun x p => x.map (pow · p)) vocab ts ↔ ts = b.tokenIds := by
  obtain ⟨hwidth, -, hsize⟩ := validate_eq_ok (new_eq_ok h₀).1
  obtain ⟨s, k, hdecode, hs, h⟩ :=
    decode_spec (exhaustive_new h₀) hv (Nat.zero_add _) hwide hsize hearly
  obtain ⟨b, hhead, hlogprob, hbest⟩ := h.head?_bestBeams hs hwidth fun n => WithBot.coe_ne_bot
  refine ⟨s, b, hdecode, hs, hhead, hlogprob, fun ts => ?_⟩
  constructor
  · exact fun hts => hts.unique hbest
  · rintro rfl
    exact hbest

end Exact

/-- A model of two tokens that prefers the second one, the end token, after the first. -/
def alternating : Decoding (WithBot ℚ) where
  model ts := (bif ts.isEmpty then [1, 0] else [0, 3] : List ℚ).map fun x => (x : WithBot ℚ)
  params := { temperature := .fin 0 }
  eosTokenId := 1

theorem alternating_valid : alternating.Valid 2 where
  params_valid := rfl
  params_supported := rfl
  params_neutral := ⟨.inl rfl, rfl, rfl, rfl, rfl, rfl, rfl, by decide, rfl, rfl⟩
  vocab_lt := by decide
  length_model ts := by
    cases h : ts.isEmpty <;> simp [alternating, h]
  finite_model ts := by
    refine ⟨0, ?_, WithBot.coe_ne_bot⟩
    cases h : ts.isEmpty <;> simp [alternating, h]

/-- Beam search by rational numbers with the exponent one. -/
def linearOps : BeamOps (WithBot ℚ) :=
  ExactOps.rational.beamOps fun x p => x.map ((fun y _ => y : ℚ → F32 → ℚ) · p)

theorem decode_bestBeams_alternating : ∃ s b,
    alternating.decode linearOps 2 ⟨⟨4, 2, .fin 1, false, false⟩, [], [⟨[], 0, none⟩], [], false⟩ =
        .ok s ∧
      s.finished = true ∧ (s.bestBeams linearOps).head? = some b ∧
      b.cumulativeLogprob = alternating.sequenceLogprob linearOps b.tokenIds ∧
      ∀ ts, alternating.Best ⟨4, 2, .fin 1, false, false⟩ linearOps 2 ts ↔ ts = b.tokenIds := by
  have h₀ : new linearOps ⟨4, 2, .fin 1, false, false⟩ [] =
      .ok ⟨⟨4, 2, .fin 1, false, false⟩, [], [⟨[], 0, none⟩], [], false⟩ := rfl
  have hwide : 2 ^ 2 ≤ 4 := by decide
  exact decode_bestBeams h₀ alternating_valid hwide rfl

end Decoding

end Rllm
