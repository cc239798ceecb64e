import Rllm.Sampling.BeamRuns

/-! # What the beam search prunes

Without rounding, the extensions that a step ranks are the best of all
extensions of the active beams, twice as many as the width. Those that end in a
terminal token are set aside after that, so as many others survive as the
terminal ones leave room for.
-/

namespace Rllm

open Pruning

namespace BeamSearch

section

variable {V : Type} [LinearOrder V] (O : BeamOps V) (s : BeamSearch V) (call : BeamCall V)
  {cs : List (Candidate V)}

/-- The one-token extensions of the active beams, by all tokens with a finite logit behind the
processors. -/
def extensions : List (Candidate V) :=
  extendAll O (s.tokensOf O call) 0 (s.activeBeams.zip call.logitsBatch)

instance (config : BeamSearchConfig) (token : Token) : Decidable (Terminal config call token) :=
  inferInstanceAs (Decidable (_ ∧ _ ∧ _ ∨ _))

/-- The extensions that end in no terminal token. -/
def openExtensions : List (Candidate V) :=
  (s.extensions O call).filter fun c => !decide (Terminal s.config call c.tokenId)

variable {O s call}

theorem nodup_extensions (h : s.candidates O call = .ok cs) :
    ((s.extensions O call).map fun c => (c.parentIndex, c.tokenId)).Nodup := by
  obtain ⟨-, -, -, -, h⟩ := candidates_eq_ok_iff.mp h
  exact nodup_extendAll fun x hx => nodup_tokensOf ((candidatesFrom_eq h).1 x hx)

omit [LinearOrder V] in
theorem nodup_keys (h : (cs.map fun c => (c.parentIndex, c.tokenId)).Nodup) :
    (cs.map Candidate.key).Nodup := by
  refine List.Nodup.of_map (fun k => ofLex (ofLex k).2) ?_
  rw [List.map_map]
  refine List.Nodup.of_map (fun p => (p.1, UInt32.ofNat p.2)) ?_
  rw [List.map_map]
  simpa [Function.comp_def, Candidate.key] using h

omit [LinearOrder V] in
theorem nodup_scoreKeys {xs : List (Token × V)} (h : (xs.map Prod.fst).Nodup) :
    (xs.map scoreKey).Nodup := by
  refine List.Nodup.of_map (fun k => UInt32.ofNat (ofLex k).2) ?_
  rw [List.map_map]
  simpa [Function.comp_def, scoreKey] using h

theorem extends_of_extensions (h : s.candidates O call = .ok cs) {c : Candidate V}
    (hc : c ∈ s.extensions O call) : Extends O s c :=
  extends_of_mem (candidates_eq_ok_iff.mp h).2.2.2.1.ge hc

variable {config : BeamSearchConfig} {hist : List (BeamCall V)}

theorem survivors_eq (hinv : Inv O config hist s) (h : s.candidates O call = .ok cs)
    (hmax : hist.length + 1 < config.maxTokens) :
    survivors s call (s.kept cs) = ((s.kept cs).filter
      fun c => !decide (Terminal s.config call c.tokenId)).take s.config.beamWidth := by
  rw [survivors]
  congr 1
  refine List.filter_congr fun c hc => ?_
  have hranked : c ∈ ranked Candidate.key cs := List.mem_of_mem_take hc
  have hlen := ((candidates_spec h).2.2 c (mem_ranked.mp hranked)).length hinv
  rw [Bool.eq_iff_iff, Option.isNone_iff_eq_none, reason, finishReason_eq_none_iff, hlen,
    hinv.config_eq]
  simpa using fun _ => hmax

theorem next_activeBeams (h : s.candidates O call = .ok cs) :
    (next O s call cs).activeBeams = (survivors s call (s.kept cs)).map (·.beam) := by
  refine List.map_congr_left fun c hc => ?_
  obtain ⟨hmem, hr⟩ := mem_of_mem_survivors hc
  obtain ⟨parent, logprob, -, he⟩ := (candidates_spec h).2.2 c hmem
  rw [settled, hr, he]
  rfl

theorem beam_inj (hinv : Inv O config hist s) (h : s.candidates O call = .ok cs)
    {c c' : Candidate V} (hc : c ∈ s.extensions O call) (hc' : c' ∈ s.extensions O call)
    (he : c.beam = c'.beam) : c = c' :=
  List.inj_on_of_nodup_map (nodup_extensions h) hc hc' ((extends_of_extensions h hc).inj
    (extends_of_extensions h hc') hinv.active_nodup (congrArg Beam.tokenIds he))

/-- If no more extensions end in a terminal token than the width, they crowd out none. -/
theorem ahead_lt_of_few
    (h : ((s.extensions O call).filter fun c => decide (Terminal s.config call c.tokenId)).length ≤
      config.beamWidth) {c : Candidate V}
    (hc : ahead Candidate.key (s.openExtensions O call) c < config.beamWidth) :
    ahead Candidate.key (s.extensions O call) c < config.beamWidth * 2 := by
  have hadd : ahead Candidate.key ((s.extensions O call).filter
      fun c => decide (Terminal s.config call c.tokenId)) c +
        ahead Candidate.key (s.openExtensions O call) c =
          ahead Candidate.key (s.extensions O call) c := ahead_filter_add _
  have hle : ahead Candidate.key ((s.extensions O call).filter
      fun c => decide (Terminal s.config call c.tokenId)) c ≤ config.beamWidth :=
    (List.length_filter_le _ _).trans h
  omega

theorem length_terminal_le (h : s.candidates O call = .ok cs)
    (hone : ∀ t t', Terminal s.config call t → Terminal s.config call t' → t = t') :
    ((s.extensions O call).filter fun c => decide (Terminal s.config call c.tokenId)).length ≤
      s.activeBeams.length := by
  have hpairs := (nodup_extensions h).sublist ((List.filter_sublist
    (p := fun c => decide (Terminal s.config call c.tokenId))).map _)
  have hparents : (((s.extensions O call).filter
      fun c => decide (Terminal s.config call c.tokenId)).map (·.parentIndex)).Nodup := by
    refine List.Nodup.map_on (fun c hc c' hc' he => ?_) hpairs.of_map
    refine List.inj_on_of_nodup_map hpairs hc hc' (Prod.ext he ?_)
    exact hone _ _ (of_decide_eq_true (List.mem_filter.mp hc).2)
      (of_decide_eq_true (List.mem_filter.mp hc').2)
  have hrange : ((s.extensions O call).filter
      fun c => decide (Terminal s.config call c.tokenId)).map (·.parentIndex) ⊆
        List.range s.activeBeams.length := by
    intro i hi
    obtain ⟨c, hc, rfl⟩ := List.mem_map.mp hi
    obtain ⟨parent, logprob, hparent, -⟩ := extends_of_extensions h (List.mem_of_mem_filter hc)
    exact List.mem_range.mpr (List.getElem?_eq_some_iff.mp hparent).1
  have hle := (List.subperm_of_subset hparents hrange).length_le
  rwa [List.length_map, List.length_range] at hle

end

/-! ## Without rounding -/

section Exact

variable {K : Type} [Field K] [LinearOrder K] {X : ExactOps K}
  {powf : WithBot K → F32 → WithBot K} {s : BeamSearch (WithBot K)} {call : BeamCall (WithBot K)}
  {cs : List (Candidate (WithBot K))} {logits : List (WithBot K)}

theorem maxBy_mem {α : Type} {compare : α → α → Ordering} {xs : List α} {x : α}
    (h : maxBy compare xs = some x) : x ∈ xs := by
  have hfold : ∀ (xs : List α) (a : α),
      xs.foldl (fun x y => if compare x y = .gt then x else y) a ∈ a :: xs := by
    intro xs
    induction xs with
    | nil => exact fun a => List.mem_singleton_self a
    | cons y ys ih =>
      intro a
      rw [List.foldl_cons]
      split
      · rcases List.mem_cons.mp (ih a) with he | hmem
        · rw [he]
          exact List.mem_cons_self
        · exact List.mem_cons_of_mem _ (List.mem_cons_of_mem _ hmem)
      · exact List.mem_cons_of_mem _ (ih y)
  cases xs with
  | nil => cases h
  | cons y ys =>
    obtain rfl := Option.some.inj h
    exact hfold ys y

omit [Field K] [LinearOrder K] in
theorem map₂_ne_bot {f : K → K → K} {x y : WithBot K} (hx : x ≠ ⊥) (hy : y ≠ ⊥) :
    WithBot.map₂ f x y ≠ ⊥ := by
  obtain ⟨a, rfl⟩ := WithBot.ne_bot_iff_exists.mp hx
  obtain ⟨b, rfl⟩ := WithBot.ne_bot_iff_exists.mp hy
  exact WithBot.coe_ne_bot

theorem logNormalizer_ne_bot : logNormalizer (X.beamOps powf) logits ≠ ⊥ := by
  have hsum : ∀ (xs : List (WithBot K)) (max a : WithBot K), a ≠ ⊥ →
      (xs.map fun x => (X.beamOps powf).exp ((X.beamOps powf).sub x max)).foldl
        (X.beamOps powf).add a ≠ ⊥ := by
    intro xs max
    induction xs with
    | nil => exact fun a ha => ha
    | cons x xs ih => exact fun a ha => ih _ (map₂_ne_bot ha WithBot.coe_ne_bot)
  unfold logNormalizer
  split
  · exact WithBot.coe_ne_bot
  · rename_i max hmax
    have hmax := of_decide_eq_true (List.mem_filter.mp (maxBy_mem hmax)).2
    obtain ⟨a, ha⟩ := WithBot.ne_bot_iff_exists.mp (hsum (logits.filter (X.beamOps powf).isFinite)
      max (X.beamOps powf).zero WithBot.coe_ne_bot)
    rw [← ha]
    exact map₂_ne_bot hmax WithBot.coe_ne_bot

theorem logprobs_ne_bot {x : Token × WithBot K} (hx : x ∈ logprobs (X.beamOps powf) logits) :
    x.2 ≠ ⊥ := by
  obtain ⟨y, hy, rfl⟩ := List.mem_map.mp hx
  exact map₂_ne_bot (of_decide_eq_true (List.mem_filter.mp hy).2) logNormalizer_ne_bot

/-- All active beams have a probability. -/
def Finite (s : BeamSearch (WithBot K)) : Prop := ∀ b ∈ s.activeBeams, b.cumulativeLogprob ≠ ⊥

theorem Finite.next (hs : Finite s) (h : s.candidates (X.beamOps powf) call = .ok cs) :
    Finite (next (X.beamOps powf) s call cs) := by
  obtain ⟨-, -, -, -, h⟩ := candidates_eq_ok_iff.mp h
  obtain ⟨-, rfl⟩ := candidatesFrom_eq h
  intro b hb
  obtain ⟨c, hc, rfl⟩ := List.mem_map.mp hb
  obtain ⟨⟨beam, i⟩, hbeam, hc⟩ := List.mem_flatMap.mp (mem_of_mem_survivors hc).1
  obtain ⟨x, hx, rfl⟩ := List.mem_map.mp hc
  have hx : x ∈ ranked scoreKey _ := List.mem_of_mem_take hx
  refine map₂_ne_bot (hs _ ?_) (logprobs_ne_bot (mem_ranked.mp hx))
  exact (List.of_mem_zip (List.fst_mem_of_mem_zipIdx hbeam)).1

theorem finite_run (hs : Finite s) (calls : List (BeamCall (WithBot K))) :
    Finite (run (X.beamOps powf) s calls) := by
  induction calls generalizing s with
  | nil => exact hs
  | cons call calls ih =>
    rw [run, List.foldl_cons]
    refine ih ?_
    cases h : s.candidates (X.beamOps powf) call with
    | error e =>
      rw [advance_of_error h]
      exact hs
    | ok cs =>
      rw [advance_of_ok h]
      exact hs.next h

variable [IsStrictOrderedRing K]

theorem map₂_add_lt {a x y : WithBot K} (ha : a ≠ ⊥) (hx : x ≠ ⊥) (hy : y ≠ ⊥) :
    WithBot.map₂ (· + ·) a x < WithBot.map₂ (· + ·) a y ↔ x < y := by
  obtain ⟨a, rfl⟩ := WithBot.ne_bot_iff_exists.mp ha
  obtain ⟨x, rfl⟩ := WithBot.ne_bot_iff_exists.mp hx
  obtain ⟨y, rfl⟩ := WithBot.ne_bot_iff_exists.mp hy
  rw [WithBot.map₂_coe_coe, WithBot.map₂_coe_coe, WithBot.coe_lt_coe, WithBot.coe_lt_coe,
    add_lt_add_iff_left]

theorem key_extendBeam_lt {beam : Beam (WithBot K)} {i : ℕ} {x y : Token × WithBot K}
    (hbeam : beam.cumulativeLogprob ≠ ⊥) (hx : x.2 ≠ ⊥) (hy : y.2 ≠ ⊥) :
    Candidate.key (extendBeam (X.beamOps powf) beam i x) <
        Candidate.key (extendBeam (X.beamOps powf) beam i y) ↔ scoreKey x < scoreKey y := by
  have hlt : ∀ {x y : Token × WithBot K}, x.2 ≠ ⊥ → y.2 ≠ ⊥ →
      ((extendBeam (X.beamOps powf) beam i x).beam.cumulativeLogprob <
        (extendBeam (X.beamOps powf) beam i y).beam.cumulativeLogprob ↔ x.2 < y.2) :=
    fun hx hy => map₂_add_lt hbeam hx hy
  have heq : (extendBeam (X.beamOps powf) beam i x).beam.cumulativeLogprob =
      (extendBeam (X.beamOps powf) beam i y).beam.cumulativeLogprob ↔ x.2 = y.2 := by
    rw [le_antisymm_iff, le_antisymm_iff, ← not_lt, ← not_lt, hlt hy hx, hlt hx hy, not_lt, not_lt]
  rw [Candidate.key_lt_iff, scoreKey_lt_iff]
  exact or_congr (hlt hy hx) (and_congr heq ((or_iff_right (lt_irrefl i)).trans
    (and_iff_right rfl)))

theorem kept_eq (hs : Finite s) (h : s.candidates (X.beamOps powf) call = .ok cs) :
    s.kept cs = (ranked Candidate.key (s.extensions (X.beamOps powf) call)).take
      s.candidatesPerBeam := by
  have hnodup := nodup_keys (nodup_extensions h)
  obtain ⟨-, -, -, -, h⟩ := candidates_eq_ok_iff.mp h
  obtain ⟨hlens, rfl⟩ := candidatesFrom_eq h
  rw [kept, extensions, extendAll]
  refine Eq.trans ?_ (take_ranked_flatMap _ _ hnodup)
  congr 2
  refine List.flatMap_congr fun x hx => ?_
  have hbeam := List.fst_mem_of_mem_zipIdx hx
  have hfin := hs _ (List.of_mem_zip hbeam).1
  have hmap : ranked Candidate.key
      ((s.tokensOf (X.beamOps powf) call x.1).map (extendBeam (X.beamOps powf) x.1.1 x.2)) =
      (ranked scoreKey (s.tokensOf (X.beamOps powf) call x.1)).map
        (extendBeam (X.beamOps powf) x.1.1 x.2) := by
    refine ranked_map ?_ fun y hy z hz =>
      key_extendBeam_lt hfin (logprobs_ne_bot hy) (logprobs_ne_bot hz)
    exact nodup_scoreKeys (nodup_tokensOf (hlens _ hbeam))
  rw [List.map_take, hmap]

/-- The new active beams are the best open extensions exactly if each of these has few enough
extensions ahead of it. -/
theorem next_activeBeams_eq_iff {config : BeamSearchConfig} {hist : List (BeamCall (WithBot K))}
    (hs : Finite s) (hinv : Inv (X.beamOps powf) config hist s)
    (hwidth : config.beamWidth * 2 < Checked.usizeBound)
    (h : s.candidates (X.beamOps powf) call = .ok cs) (hmax : hist.length + 1 < config.maxTokens) :
    (next (X.beamOps powf) s call cs).activeBeams = ((ranked Candidate.key
        (s.openExtensions (X.beamOps powf) call)).take config.beamWidth).map (·.beam) ↔
      ∀ c ∈ s.openExtensions (X.beamOps powf) call,
        ahead Candidate.key (s.openExtensions (X.beamOps powf) call) c < config.beamWidth →
          ahead Candidate.key (s.extensions (X.beamOps powf) call) c < config.beamWidth * 2 := by
  obtain rfl := hinv.config_eq
  have hkeys := nodup_keys (nodup_extensions h)
  have hsize : s.candidatesPerBeam = s.config.beamWidth * 2 := by
    rw [candidatesPerBeam]
    omega
  have hleft : ∀ {c n p}, c ∈ (((ranked Candidate.key (s.extensions (X.beamOps powf) call)).take
      n).filter p).take s.config.beamWidth → c ∈ s.extensions (X.beamOps powf) call := by
    intro c n p hc
    have hc : c ∈ ranked Candidate.key (s.extensions (X.beamOps powf) call) :=
      List.mem_of_mem_take (List.mem_of_mem_filter (List.mem_of_mem_take hc))
    exact mem_ranked.mp hc
  have hright : ∀ {c}, c ∈ (ranked Candidate.key (s.openExtensions (X.beamOps powf) call)).take
      s.config.beamWidth → c ∈ s.extensions (X.beamOps powf) call := by
    intro c hc
    have hc : c ∈ ranked Candidate.key (s.openExtensions (X.beamOps powf) call) :=
      List.mem_of_mem_take hc
    exact List.mem_of_mem_filter (mem_ranked.mp hc)
  rw [next_activeBeams h, survivors_eq hinv h hmax, kept_eq hs h, map_inj_of_mem fun c hc c' hc' =>
    beam_inj hinv h (hleft hc) (hright hc'), hsize, openExtensions, take_filter_take_iff _ hkeys]
  simp only [List.mem_filter, and_imp]

variable {config : BeamSearchConfig} {prompt : List Token} {s₀ s' : BeamSearch (WithBot K)}
  {calls : List (BeamCall (WithBot K))} {step : BeamSearchStep (WithBot K)}

/-- In every state that a run reaches, a step before the last one leaves the best open extensions
active exactly if none of these has twice the width of extensions ahead of it. -/
theorem advance_activeBeams_iff (h₀ : new (X.beamOps powf) config prompt = .ok s₀)
    (h : (run (X.beamOps powf) s₀ calls).advance (X.beamOps powf) call = (.ok step, s'))
    (hmax : (accepted (X.beamOps powf) s₀ calls).length + 1 < config.maxTokens) :
    s'.activeBeams = ((ranked Candidate.key ((run (X.beamOps powf) s₀ calls).openExtensions
        (X.beamOps powf) call)).take config.beamWidth).map (·.beam) ↔
      ∀ c ∈ (run (X.beamOps powf) s₀ calls).openExtensions (X.beamOps powf) call,
        ahead Candidate.key ((run (X.beamOps powf) s₀ calls).openExtensions (X.beamOps powf) call)
            c < config.beamWidth →
          ahead Candidate.key ((run (X.beamOps powf) s₀ calls).extensions (X.beamOps powf) call)
            c < config.beamWidth * 2 := by
  obtain ⟨hv, hs₀⟩ := new_eq_ok h₀
  have hfin : Finite s₀ := by
    intro b hb
    rw [hs₀] at hb
    rw [List.mem_singleton.mp hb]
    exact WithBot.coe_ne_bot
  have hinv := (inv_run_of (inv_new h₀) (Nat.zero_le _) calls).1
  rw [List.nil_append] at hinv
  cases hcs : (run (X.beamOps powf) s₀ calls).candidates (X.beamOps powf) call with
  | error e =>
    rw [advance_of_error hcs] at h
    cases congrArg Prod.fst h
  | ok cs =>
    rw [advance_of_ok hcs] at h
    obtain rfl : next (X.beamOps powf) (run (X.beamOps powf) s₀ calls) call cs = s' :=
      congrArg Prod.snd h
    exact next_activeBeams_eq_iff (finite_run hfin calls) hinv (validate_eq_ok hv).2.2 hcs hmax

end Exact

/-! ## A crowded step -/

/-- Two terminal tokens that are more likely than the third token. -/
def crowdedCall : BeamCall (WithBot ℚ) where
  logitsBatch := [[((3 : ℚ) : WithBot ℚ), ((2 : ℚ) : WithBot ℚ), ((1 : ℚ) : WithBot ℚ)]]
  params := { temperature := .fin 0, stopTokenIds := [1] }
  eosTokenId := 0

def narrow : BeamSearch (WithBot ℚ) := ⟨{}, [], [⟨[], 0, none⟩], [], false⟩

def rationalOps : BeamOps (WithBot ℚ) := ExactOps.rational.beamOps fun x _ => x

theorem advance_crowded : narrow.advance rationalOps crowdedCall =
    (.ok ⟨[], [], [⟨[0], ((-5 / 6 : ℚ) : WithBot ℚ), some .eos⟩], true⟩,
      ⟨{}, [], [], [⟨[0], ((-5 / 6 : ℚ) : WithBot ℚ), some .eos⟩], true⟩) := by
  decide +kernel

theorem advance_activeBeams_iff_crowded :
    ([] : List (Beam (WithBot ℚ))) = ((ranked Candidate.key
        ((run rationalOps narrow []).openExtensions rationalOps crowdedCall)).take 1).map
          (·.beam) ↔
      ∀ c ∈ (run rationalOps narrow []).openExtensions rationalOps crowdedCall,
        ahead Candidate.key ((run rationalOps narrow []).openExtensions rationalOps crowdedCall)
            c < 1 →
          ahead Candidate.key ((run rationalOps narrow []).extensions rationalOps crowdedCall)
            c < 1 * 2 := by
  have h₀ : new rationalOps {} [] = .ok narrow := rfl
  have h : (run rationalOps narrow []).advance rationalOps crowdedCall =
      (.ok ⟨[], [], [⟨[0], ((-5 / 6 : ℚ) : WithBot ℚ), some .eos⟩], true⟩,
        ⟨{}, [], [], [⟨[0], ((-5 / 6 : ℚ) : WithBot ℚ), some .eos⟩], true⟩) := advance_crowded
  have hmax : (accepted rationalOps narrow []).length + 1 < 16 := by decide
  exact advance_activeBeams_iff h₀ h hmax

/-- Two terminal tokens crowd out the third, and the search ends with no active beam. -/
theorem not_advance_activeBeams :
    ¬ ∀ (config : BeamSearchConfig) (prompt : List Token) (s₀ s' : BeamSearch (WithBot ℚ))
      (calls : List (BeamCall (WithBot ℚ))) (call : BeamCall (WithBot ℚ))
      (step : BeamSearchStep (WithBot ℚ)), new rationalOps config prompt = .ok s₀ →
      (run rationalOps s₀ calls).advance rationalOps call = (.ok step, s') →
      (accepted rationalOps s₀ calls).length + 1 < config.maxTokens →
      s'.activeBeams = ((ranked Candidate.key ((run rationalOps s₀ calls).openExtensions
        rationalOps call)).take config.beamWidth).map (·.beam) := by
  intro h
  have hempty := h {} [] narrow _ [] crowdedCall _ rfl advance_crowded (by decide)
  have hne : ((ranked Candidate.key (narrow.openExtensions rationalOps crowdedCall)).take 1).map
      (·.beam) ≠ [] := by decide +kernel
  exact hne hempty.symm

end BeamSearch

end Rllm
