import Mathlib.Data.List.Sigma
import Rllm.Sampling.BeamSearch

/-! # Runs of the beam search

An extension is told apart by its parent and its token. With what a step makes
of the extensions, this carries the invariant of the search over whole runs: the
active beams are distinct and have one token for each step, and the completed
ones are ranked.
-/

namespace Rllm

open Pruning

namespace BeamSearch

variable {V : Type} {O : BeamOps V} {s : BeamSearch V} {call : BeamCall V}
  {cs : List (Candidate V)}

/-! ## Extensions -/

theorem length_processedLogits (beam : Beam V) (logits : List V) :
    (s.processedLogits O call beam logits).length = logits.length := by
  have hbad : ∀ xs : List V,
      (O.applyBadTokenIds xs call.params.stopTokenIds).length = xs.length :=
    fun xs => Arithmetic.length_foldl xs (fun _ _ => List.length_modify ..) _
  rw [processedLogits]
  split
  · rw [hbad, Arithmetic.length_prepareLogits]
  · exact Arithmetic.length_prepareLogits ..

/-- What an extension is: an active beam and one more token. -/
def Extends (O : BeamOps V) (s : BeamSearch V) (c : Candidate V) : Prop :=
  ∃ parent logprob, s.activeBeams[c.parentIndex]? = some parent ∧
    c = extendBeam O parent c.parentIndex (c.tokenId, logprob)

variable [LinearOrder V]

variable (O) in
/-- The logarithm of the sum of the exponentials. -/
def logNormalizer (logits : List V) : V :=
  match maxBy compare (logits.filter O.isFinite) with
  | none => O.zero
  | some max =>
    O.add max (O.ln (((logits.filter O.isFinite).map fun x => O.exp (O.sub x max)).foldl O.add
      O.zero))

variable (O) in
/-- The log probabilities of all tokens with a finite logit. -/
def logprobs (logits : List V) : List (Token × V) :=
  (logits.zipIdx.filter fun x => O.isFinite x.1).map fun x =>
    (UInt32.ofNat x.2, O.sub x.1 (logNormalizer O logits))

variable {logits : List V}

theorem topLogprobs_eq {limit i : ℕ} {scores : List (Token × V)}
    (h : topLogprobs O logits limit i = .ok scores) :
    scores = (ranked scoreKey (logprobs O logits)).take limit := by
  rw [logprobs, logNormalizer]
  rw [topLogprobs] at h
  cases hmax : maxBy compare (logits.filter O.isFinite) with
  | none =>
    rw [hmax] at h
    cases h
  | some max =>
    rw [hmax] at h
    dsimp only at h
    split at h
    · cases h
    · exact (Except.ok.inj h).symm

theorem nodup_logprobs (hlen : logits.length ≤ 2 ^ 32) :
    ((logprobs O logits).map Prod.fst).Nodup := by
  have hlt : ∀ i ∈ (logits.zipIdx.filter fun x => O.isFinite x.1).map Prod.snd, i < 2 ^ 32 := by
    intro i hi
    obtain ⟨x, hx, rfl⟩ := List.mem_map.mp hi
    have := List.snd_lt_of_mem_zipIdx (List.mem_of_mem_filter hx)
    omega
  have hindex : (((logits.zipIdx.filter fun x => O.isFinite x.1).map Prod.snd).map
      UInt32.ofNat).Nodup := by
    refine List.Nodup.map_on (fun i hi j hj he => ?_)
      ((List.nodup_zipIdx_map_snd logits).sublist (List.filter_sublist.map _))
    have he := congrArg UInt32.toNat he
    rwa [UInt32.toNat_ofNat_of_lt' (hlt i hi), UInt32.toNat_ofNat_of_lt' (hlt j hj)] at he
  rw [List.map_map] at hindex
  rwa [logprobs, List.map_map]

variable (O s call) in
/-- The log probabilities of a beam's tokens behind the processors. -/
def tokensOf (x : Beam V × List V) : List (Token × V) :=
  logprobs O (s.processedLogits O call x.1 x.2)

theorem nodup_tokensOf {x : Beam V × List V} (hlen : x.2.length ≤ 2 ^ 32) :
    ((s.tokensOf O call x).map Prod.fst).Nodup :=
  nodup_logprobs (by rwa [length_processedLogits])

theorem candidatesOf_eq {i : ℕ} {beam : Beam V} (h : s.candidatesOf O call i beam logits = .ok cs) :
    logits.length ≤ 2 ^ 32 ∧
      cs = ((ranked scoreKey (s.tokensOf O call (beam, logits))).take s.candidatesPerBeam).map
        (extendBeam O beam i) := by
  unfold candidatesOf at h
  split at h
  · cases h
  · split at h
    · cases h
    · rename_i hlen
      cases hscores :
          topLogprobs O (s.processedLogits O call beam logits) s.candidatesPerBeam i with
      | error e =>
        rw [hscores] at h
        cases h
      | ok scores =>
        rw [hscores, topLogprobs_eq hscores] at h
        exact ⟨by omega, (Except.ok.inj h).symm⟩

variable {beams : List (Beam V × List V)}

variable (O) in
/-- The extensions of the beams from an index on by some tokens of each. -/
def extendAll (tokens : Beam V × List V → List (Token × V)) (i : ℕ)
    (beams : List (Beam V × List V)) : List (Candidate V) :=
  (beams.zipIdx i).flatMap fun x => (tokens x.1).map (extendBeam O x.1.1 x.2)

theorem candidatesFrom_eq {i : ℕ} (h : s.candidatesFrom O call i beams = .ok cs) :
    (∀ x ∈ beams, x.2.length ≤ 2 ^ 32) ∧
      cs = extendAll O (fun x => (ranked scoreKey (s.tokensOf O call x)).take s.candidatesPerBeam) i
        beams := by
  induction beams generalizing i cs with
  | nil => exact ⟨nofun, (Except.ok.inj h).symm⟩
  | cons beam beams ih =>
    rw [candidatesFrom] at h
    obtain ⟨cs₁, h₁, h⟩ := bind_eq_ok.mp h
    obtain ⟨cs₂, h₂, h⟩ := bind_eq_ok.mp h
    obtain rfl := Except.ok.inj h
    obtain ⟨hlen, rfl⟩ := candidatesOf_eq h₁
    obtain ⟨hlens, rfl⟩ := ih h₂
    exact ⟨List.forall_mem_cons.mpr ⟨hlen, hlens⟩, rfl⟩

omit [LinearOrder V] in
theorem nodup_extendAll {tokens : Beam V × List V → List (Token × V)} {i : ℕ}
    (h : ∀ x ∈ beams, ((tokens x).map Prod.fst).Nodup) :
    ((extendAll O tokens i beams).map fun c => (c.parentIndex, c.tokenId)).Nodup := by
  rw [extendAll, List.map_flatMap, List.nodup_flatMap]
  constructor
  · intro x hx
    rw [List.map_map]
    refine List.Nodup.of_map Prod.snd ?_
    rw [List.map_map]
    exact h _ (List.fst_mem_of_mem_zipIdx hx)
  · have hindex : (beams.zipIdx i).Pairwise fun x y => x.2 ≠ y.2 := by
      rw [← List.pairwise_map (f := Prod.snd), List.zipIdx_map_snd]
      exact List.nodup_range'
    refine hindex.imp fun hne c hc hc' => ?_
    obtain ⟨c₁, h₁, rfl⟩ := List.mem_map.mp hc
    obtain ⟨x₁, -, rfl⟩ := List.mem_map.mp h₁
    obtain ⟨c₂, h₂, he⟩ := List.mem_map.mp hc'
    obtain ⟨x₂, -, rfl⟩ := List.mem_map.mp h₂
    exact hne (congrArg Prod.fst he).symm

omit [LinearOrder V] in
theorem extends_of_mem {tokens : Beam V × List V → List (Token × V)} {c : Candidate V}
    (hlen : s.activeBeams.length ≤ call.logitsBatch.length)
    (hc : c ∈ extendAll O tokens 0 (s.activeBeams.zip call.logitsBatch)) : Extends O s c := by
  obtain ⟨⟨beam, i⟩, hbeam, hc⟩ := List.mem_flatMap.mp hc
  obtain ⟨x, -, rfl⟩ := List.mem_map.mp hc
  refine ⟨beam.1, x.2, ?_, rfl⟩
  have hi := List.mk_mem_zipIdx_iff_getElem?.mp hbeam
  have hfst : ((s.activeBeams.zip call.logitsBatch).map Prod.fst)[i]? = some beam.1 := by
    rw [List.getElem?_map, hi]
    rfl
  rwa [List.map_fst_zip hlen] at hfst

theorem candidates_eq_ok_iff : s.candidates O call = .ok cs ↔
    s.finished = false ∧ call.params.validate = .ok () ∧
      validateSupportedSamplingParams call.params = .ok () ∧
      call.logitsBatch.length = s.activeBeams.length ∧
      s.candidatesFrom O call 0 (s.activeBeams.zip call.logitsBatch) = .ok cs := by
  unfold candidates
  cases hf : s.finished with
  | true => exact iff_of_false (fun h => by cases h) fun h => by cases h.1
  | false =>
    cases hv : call.params.validate with
    | error e => exact iff_of_false (fun h => by cases h) fun h => by cases h.2.1
    | ok u =>
      cases hs : validateSupportedSamplingParams call.params with
      | error e => exact iff_of_false (fun h => by cases h) fun h => by cases h.2.2.1
      | ok u' =>
        by_cases hlen : call.logitsBatch.length = s.activeBeams.length
        · simp [hlen, bind, Except.bind]
        · refine iff_of_false (fun h => ?_) fun h => hlen h.2.2.2.1
          simp [hlen, bind, Except.bind, throw, throwThe, MonadExceptOf.throw] at h

/-- An accepted call extends an unfinished search: no extension occurs twice. -/
theorem candidates_spec (h : s.candidates O call = .ok cs) :
    s.finished = false ∧ (cs.map fun c => (c.parentIndex, c.tokenId)).Nodup ∧
      ∀ c ∈ cs, Extends O s c := by
  obtain ⟨hf, -, -, hlen, h⟩ := candidates_eq_ok_iff.mp h
  obtain ⟨hlens, rfl⟩ := candidatesFrom_eq h
  refine ⟨hf, nodup_extendAll fun x hx => ?_, fun c hc => extends_of_mem hlen.ge hc⟩
  have hperm : (ranked scoreKey (s.tokensOf O call x)).Perm (s.tokensOf O call x) := ranked_perm _
  exact ((hperm.map _).nodup_iff.mpr (nodup_tokensOf (hlens x hx))).sublist
    ((List.take_sublist _ _).map _)

/-! ## A step -/

/-- Why an extension is finished in a step, if it is. -/
def reason (s : BeamSearch V) (call : BeamCall V) (c : Candidate V) : Option BeamFinishReason :=
  s.config.finishReason call c.tokenId c.beam.tokenIds.length

/-- The beam of an extension, with its reason. -/
def settled (s : BeamSearch V) (call : BeamCall V) (c : Candidate V) : Beam V :=
  { c.beam with finishReason := reason s call c }

/-- The extensions that stay active. -/
def survivors (s : BeamSearch V) (call : BeamCall V) (kept : List (Candidate V)) :
    List (Candidate V) :=
  (kept.filter fun c => (reason s call c).isNone).take s.config.beamWidth

omit [LinearOrder V] in
theorem foldl_settle (cs : List (Candidate V)) (done : List (Beam V)) (act : List (Candidate V))
    (hact : act.length ≤ s.config.beamWidth) :
    cs.foldl (s.settle call) (done, act) =
      (done ++ (cs.filter fun c => (reason s call c).isSome).map (settled s call),
        act ++ ((cs.filter fun c => (reason s call c).isNone).take
          (s.config.beamWidth - act.length)).map fun c => { c with beam := settled s call c }) := by
  induction cs generalizing done act with
  | nil => simp
  | cons c cs ih =>
    have hsettle : s.settle call (done, act) c =
        if (reason s call c).isSome then (done ++ [settled s call c], act)
        else if act.length < s.config.beamWidth then
          (done, act ++ [{ c with beam := settled s call c }])
        else (done, act) := rfl
    rw [List.foldl_cons, hsettle]
    cases hr : reason s call c with
    | some r =>
      rw [Option.isSome_some, if_pos rfl, ih _ _ hact]
      simp [hr]
    | none =>
      rw [Option.isSome_none, if_neg Bool.false_ne_true]
      by_cases hlt : act.length < s.config.beamWidth
      · rw [if_pos hlt, ih _ _ (by simpa using Nat.succ_le_of_lt hlt)]
        obtain ⟨n, hn⟩ := Nat.exists_eq_add_of_lt hlt
        have hroom : s.config.beamWidth - act.length = n + 1 := by omega
        have hroom' : s.config.beamWidth - (act.length + 1) = n := by omega
        simp [hr, hroom, hroom']
      · rw [if_neg hlt, ih _ _ hact]
        have hroom : s.config.beamWidth - act.length = 0 := by omega
        simp [hr, hroom]

/-- The extensions that a step looks at. -/
def kept (s : BeamSearch V) (cs : List (Candidate V)) : List (Candidate V) :=
  (ranked Candidate.key cs).take s.candidatesPerBeam

/-- The search after a step. -/
def next (O : BeamOps V) (s : BeamSearch V) (call : BeamCall V) (cs : List (Candidate V)) :
    BeamSearch V :=
  let completedBeams := (sortFinalBeams O s.config.lengthPenalty (s.completedBeams ++
    ((s.kept cs).filter fun c => (reason s call c).isSome).map (settled s call))).take
      s.config.beamWidth
  let activeBeams := (survivors s call (s.kept cs)).map (settled s call)
  { s with
    activeBeams, completedBeams
    finished := activeBeams.isEmpty ||
      (s.config.earlyStopping && s.config.beamWidth ≤ completedBeams.length) }

theorem advance_of_ok (h : s.candidates O call = .ok cs) :
    s.advance O call =
      (.ok { activeBeams := (next O s call cs).activeBeams,
             activeParentIndices := (survivors s call (s.kept cs)).map (·.parentIndex),
             completedBeams := (next O s call cs).completedBeams,
             finished := (next O s call cs).finished },
        next O s call cs) := by
  rw [advance, h]
  dsimp only
  rw [foldl_settle _ _ _ (Nat.zero_le _), List.nil_append, List.map_map, List.map_map]
  rfl

theorem advance_of_error {e : BeamSearchError} (h : s.candidates O call = .error e) :
    s.advance O call = (.error e, s) := by
  rw [advance, h]

theorem mem_of_mem_survivors {c : Candidate V} (h : c ∈ survivors s call (s.kept cs)) :
    c ∈ cs ∧ reason s call c = none := by
  obtain ⟨hc, hr⟩ := List.mem_filter.mp (List.mem_of_mem_take h)
  have hranked : c ∈ ranked Candidate.key cs := List.mem_of_mem_take hc
  exact ⟨mem_ranked.mp hranked, Option.isNone_iff_eq_none.mp hr⟩

theorem nodup_survivors (h : (cs.map fun c => (c.parentIndex, c.tokenId)).Nodup) :
    ((survivors s call (s.kept cs)).map fun c => (c.parentIndex, c.tokenId)).Nodup := by
  have hperm : (ranked Candidate.key cs).Perm cs := ranked_perm cs
  refine List.Nodup.sublist (List.Sublist.map _ ?_) ((hperm.map _).nodup_iff.mpr h)
  exact ((List.take_sublist _ _).trans List.filter_sublist).trans (List.take_sublist _ _)

/-! ## The invariant -/

/-- A completed beam: the step in which it got its last token gave it its reason. -/
def FinishedBy (config : BeamSearchConfig) (hist : List (BeamCall V)) (b : Beam V) : Prop :=
  ∃ call tokens token, hist[tokens.length]? = some call ∧ b.tokenIds = tokens ++ [token] ∧
    b.finishReason = config.finishReason call token b.tokenIds.length ∧ b.isFinished = true

/-- What holds after the accepted calls `hist`. -/
structure Inv (O : BeamOps V) (config : BeamSearchConfig) (hist : List (BeamCall V))
    (s : BeamSearch V) : Prop where
  config_eq : s.config = config
  active_le : s.activeBeams.length ≤ config.beamWidth
  active_nodup : (s.activeBeams.map Beam.tokenIds).Nodup
  active_length : ∀ b ∈ s.activeBeams, b.tokenIds.length = hist.length
  active_unfinished : ∀ b ∈ s.activeBeams, b.isFinished = false
  completed_le : s.completedBeams.length ≤ config.beamWidth
  completed_sorted : s.completedBeams.Pairwise fun a b =>
    a.key O config.lengthPenalty ≤ b.key O config.lengthPenalty
  completed_reason : ∀ b ∈ s.completedBeams, FinishedBy config hist b
  finished_of_length : config.maxTokens ≤ hist.length → s.finished = true

variable {config : BeamSearchConfig} {hist : List (BeamCall V)}

omit [LinearOrder V] in
theorem FinishedBy.concat {b : Beam V} (h : FinishedBy config hist b) (call : BeamCall V) :
    FinishedBy config (hist ++ [call]) b := by
  obtain ⟨call', tokens, token, hcall, hb⟩ := h
  refine ⟨call', tokens, token, ?_, hb⟩
  rwa [List.getElem?_append_left (List.getElem?_eq_some_iff.mp hcall).1]

theorem Extends.length {c : Candidate V} (h : Extends O s c) (hinv : Inv O config hist s) :
    c.beam.tokenIds.length = hist.length + 1 := by
  obtain ⟨parent, logprob, hparent, he⟩ := h
  rw [he, extendBeam, List.length_append, List.length_singleton,
    hinv.active_length parent (List.mem_of_getElem? hparent)]

omit [LinearOrder V] in
theorem Extends.inj {c c' : Candidate V} (h : Extends O s c) (h' : Extends O s c')
    (hnodup : (s.activeBeams.map Beam.tokenIds).Nodup)
    (he : c.beam.tokenIds = c'.beam.tokenIds) :
    (c.parentIndex, c.tokenId) = (c'.parentIndex, c'.tokenId) := by
  obtain ⟨parent, logprob, hparent, hc⟩ := h
  obtain ⟨parent', logprob', hparent', hc'⟩ := h'
  have hbeam : c.beam.tokenIds = parent.tokenIds ++ [c.tokenId] := by
    conv_lhs => rw [hc]
    rfl
  have hbeam' : c'.beam.tokenIds = parent'.tokenIds ++ [c'.tokenId] := by
    conv_lhs => rw [hc']
    rfl
  rw [hbeam, hbeam'] at he
  obtain ⟨htokens, htoken⟩ := List.append_inj' he rfl
  refine Prod.ext ?_ (List.singleton_inj.mp htoken)
  have hlen := (List.getElem?_eq_some_iff.mp hparent).1
  refine (List.getElem?_inj (l := s.activeBeams.map Beam.tokenIds) (by simpa using hlen)
    hnodup).mp ?_
  rw [List.getElem?_map, List.getElem?_map, hparent, hparent', Option.map_some, Option.map_some,
    htokens]

/-- The terminal tokens of a call: the end token, unless it is ignored, and the stop tokens. -/
def Terminal (config : BeamSearchConfig) (call : BeamCall V) (token : Token) : Prop :=
  (token = call.eosTokenId ∧ config.ignoreEos = false ∧ call.params.ignoreEos = false) ∨
    token ∈ call.params.stopTokenIds

omit [LinearOrder V] in
theorem finishReason_eq_none_iff {token : Token} {n : ℕ} :
    config.finishReason call token n = none ↔
      ¬ Terminal config call token ∧ n < config.maxTokens := by
  have heos : (token == call.eosTokenId && !config.ignoreEos && !call.params.ignoreEos) = true ↔
      token = call.eosTokenId ∧ config.ignoreEos = false ∧ call.params.ignoreEos = false := by
    simp [and_assoc]
  rw [BeamSearchConfig.finishReason, Terminal]
  simp only [heos]
  split_ifs with h h' h'' <;> simp_all

theorem Inv.next (hinv : Inv O config hist s) (h : s.candidates O call = .ok cs) :
    Inv O config (hist ++ [call]) (next O s call cs) := by
  obtain ⟨hf, hnodup, hext⟩ := candidates_spec h
  have hlength : ∀ c ∈ cs, c.beam.tokenIds.length = hist.length + 1 := fun c hc =>
    (hext c hc).length hinv
  have hconfig := hinv.config_eq
  constructor
  · exact hconfig
  · rw [BeamSearch.next, List.length_map, survivors, ← hconfig]
    exact List.length_take_le _ _
  · rw [BeamSearch.next, List.map_map]
    have hpairs : ((survivors s call (s.kept cs)).map fun c =>
        (c.parentIndex, c.tokenId)).Nodup := nodup_survivors hnodup
    refine List.Nodup.map_on (fun c hc c' hc' he => ?_) hpairs.of_map
    have he : c.beam.tokenIds = c'.beam.tokenIds := he
    exact List.inj_on_of_nodup_map hpairs hc hc' ((hext c (mem_of_mem_survivors hc).1).inj
      (hext c' (mem_of_mem_survivors hc').1) hinv.active_nodup he)
  · intro b hb
    obtain ⟨c, hc, rfl⟩ := List.mem_map.mp hb
    rw [List.length_append, List.length_singleton]
    exact hlength c (mem_of_mem_survivors hc).1
  · intro b hb
    obtain ⟨c, hc, rfl⟩ := List.mem_map.mp hb
    exact Option.isSome_eq_false_iff.mpr (Option.isNone_iff_eq_none.mpr (mem_of_mem_survivors hc).2)
  · rw [← hconfig]
    exact List.length_take_le _ _
  · rw [← hconfig]
    exact (pairwise_ranked _).sublist (List.take_sublist _ _)
  · intro b hb
    have hb : b ∈ sortFinalBeams O s.config.lengthPenalty (s.completedBeams ++
        ((s.kept cs).filter fun c => (reason s call c).isSome).map (settled s call)) :=
      List.mem_of_mem_take hb
    rcases List.mem_append.mp (mem_ranked.mp hb) with hb | hb
    · exact (hinv.completed_reason b hb).concat call
    · obtain ⟨c, hc, rfl⟩ := List.mem_map.mp hb
      obtain ⟨hc, hr⟩ := List.mem_filter.mp hc
      have hranked : c ∈ ranked Candidate.key cs := List.mem_of_mem_take hc
      have hmem := mem_ranked.mp hranked
      obtain ⟨parent, logprob, hparent, he⟩ := hext c hmem
      have hbeam : c.beam.tokenIds = parent.tokenIds ++ [c.tokenId] := by
        conv_lhs => rw [he]
        rfl
      refine ⟨call, parent.tokenIds, c.tokenId, ?_, hbeam, by rw [← hconfig]; rfl, hr⟩
      rw [hinv.active_length parent (List.mem_of_getElem? hparent), List.getElem?_concat_length]
  · intro hmax
    rw [List.length_append, List.length_singleton] at hmax
    have hnone : survivors s call (s.kept cs) = [] := by
      rw [List.eq_nil_iff_forall_not_mem]
      intro c hc
      obtain ⟨hmem, hr⟩ := mem_of_mem_survivors hc
      have hlt := (finishReason_eq_none_iff.mp hr).2
      rw [hconfig, hlength c hmem] at hlt
      omega
    rw [BeamSearch.next, hnone]
    rfl

/-! ## Runs -/

/-- The search after some calls, accepted or not. -/
def run (O : BeamOps V) (s : BeamSearch V) (calls : List (BeamCall V)) : BeamSearch V :=
  calls.foldl (fun s call => (s.advance O call).2) s

/-- The accepted calls. -/
def accepted (O : BeamOps V) : BeamSearch V → List (BeamCall V) → List (BeamCall V)
  | _, [] => []
  | s, call :: calls =>
    if (s.advance O call).1.isOk then call :: accepted O (s.advance O call).2 calls
    else accepted O (s.advance O call).2 calls

omit [LinearOrder V] in
theorem new_eq_ok {prompt : List Token} (h : new O config prompt = .ok s) :
    config.validate = .ok () ∧ s = ⟨config, prompt, [⟨[], O.zero, none⟩], [], false⟩ := by
  obtain ⟨u, hu, h⟩ := bind_eq_ok.mp h
  exact ⟨hu, (Except.ok.inj h).symm⟩

theorem validate_eq_ok (h : config.validate = .ok ()) :
    0 < config.beamWidth ∧ 0 < config.maxTokens ∧ config.beamWidth * 2 < Checked.usizeBound := by
  have hwidth : config.beamWidth ≠ 0 := by
    intro he
    simp only [BeamSearchConfig.validate, he, if_true] at h
    cases h
  have htokens : config.maxTokens ≠ 0 := by
    intro he
    simp only [BeamSearchConfig.validate, hwidth, he, if_true, if_false] at h
    cases h
  have hbound : ¬ Checked.usizeBound ≤ config.beamWidth * 2 := by
    intro he
    cases hfinite : config.lengthPenalty.isFinite <;>
      simp only [BeamSearchConfig.validate, hwidth, htokens, hfinite, he, if_true, if_false]
        at h <;>
      cases h
  exact ⟨Nat.pos_of_ne_zero hwidth, Nat.pos_of_ne_zero htokens, not_le.mp hbound⟩

theorem inv_new {prompt : List Token} (h : new O config prompt = .ok s) : Inv O config [] s := by
  obtain ⟨hv, rfl⟩ := new_eq_ok h
  obtain ⟨hwidth, htokens, -⟩ := validate_eq_ok hv
  constructor
  · rfl
  · exact hwidth
  · exact List.nodup_singleton _
  · intro b hb
    rw [List.mem_singleton.mp hb]
    rfl
  · intro b hb
    rw [List.mem_singleton.mp hb]
    rfl
  · exact Nat.zero_le _
  · exact List.Pairwise.nil
  · exact nofun
  · intro hmax
    exact absurd htokens (not_lt.mpr hmax)

theorem inv_run_of (hinv : Inv O config hist s) (hlen : hist.length ≤ config.maxTokens)
    (calls : List (BeamCall V)) :
    Inv O config (hist ++ accepted O s calls) (run O s calls) ∧
      (hist ++ accepted O s calls).length ≤ config.maxTokens := by
  induction calls generalizing hist s with
  | nil =>
    rw [accepted, List.append_nil]
    exact ⟨hinv, hlen⟩
  | cons call calls ih =>
    rw [accepted, run, List.foldl_cons]
    cases h : s.candidates O call with
    | error e =>
      rw [advance_of_error h]
      exact ih hinv hlen
    | ok cs =>
      rw [advance_of_ok h]
      have hlt : hist.length < config.maxTokens := by
        by_contra hge
        have hf := hinv.finished_of_length (not_lt.mp hge)
        rw [(candidates_spec h).1] at hf
        cases hf
      have hstep := ih (hinv.next h) (by rwa [List.length_append, List.length_singleton])
      rw [List.append_assoc, List.singleton_append] at hstep
      exact hstep

/-- An accepted call: each active beam is a beam that was active, with one more token, and the
parent indices name these. -/
structure Advanced (O : BeamOps V) (s s' : BeamSearch V) (step : BeamSearchStep V) : Prop where
  active_eq : step.activeBeams = s'.activeBeams
  completed_eq : step.completedBeams = s'.completedBeams
  finished_eq : step.finished = s'.finished
  parents : List.Forall₂ (fun b i => ∃ parent token logprob, s.activeBeams[i]? = some parent ∧
    b = (⟨parent.tokenIds ++ [token], O.add parent.cumulativeLogprob logprob, none⟩ : Beam V))
    s'.activeBeams step.activeParentIndices

theorem advanced_of_ok {s' : BeamSearch V} {step : BeamSearchStep V}
    (h : s.advance O call = (.ok step, s')) : Advanced O s s' step := by
  cases hcs : s.candidates O call with
  | error e =>
    rw [advance_of_error hcs] at h
    cases congrArg Prod.fst h
  | ok cs =>
    rw [advance_of_ok hcs] at h
    obtain rfl := Except.ok.inj (congrArg Prod.fst h)
    obtain rfl : next O s call cs = s' := congrArg Prod.snd h
    refine ⟨rfl, rfl, rfl, ?_⟩
    rw [next, List.forall₂_map_left_iff, List.forall₂_map_right_iff, List.forall₂_same]
    intro c hc
    obtain ⟨hmem, hr⟩ := mem_of_mem_survivors hc
    obtain ⟨parent, logprob, hparent, he⟩ := (candidates_spec hcs).2.2 c hmem
    refine ⟨parent, c.tokenId, logprob, hparent, ?_⟩
    rw [settled, hr, he]
    rfl

/-- In a run from a valid configuration the invariant holds after every call. At most `max_tokens`
calls are accepted, and a call that is not changes nothing. -/
theorem run_invariant {prompt : List Token} {s₀ : BeamSearch V}
    (h : new O config prompt = .ok s₀) (calls : List (BeamCall V)) :
    Inv O config (accepted O s₀ calls) (run O s₀ calls) ∧
      (accepted O s₀ calls).length ≤ config.maxTokens ∧
      ∀ call result s', (run O s₀ calls).advance O call = (result, s') →
        (∀ e, result = .error e → s' = run O s₀ calls) ∧
          ∀ step, result = .ok step → Advanced O (run O s₀ calls) s' step := by
  obtain ⟨hinv, hlen⟩ := inv_run_of (inv_new h) (Nat.zero_le _) calls
  refine ⟨hinv, hlen, fun call result s' hadvance => ⟨?_, ?_⟩⟩
  · rintro e rfl
    cases hcs : (run O s₀ calls).candidates O call with
    | error e' =>
      rw [advance_of_error hcs] at hadvance
      exact (congrArg Prod.snd hadvance).symm
    | ok cs =>
      rw [advance_of_ok hcs] at hadvance
      cases congrArg Prod.fst hadvance
  · rintro step rfl
    exact advanced_of_ok hadvance

/-- A search with two beams. -/
def twoBeams : BeamSearch (WithBot ℚ) :=
  ⟨{ beamWidth := 2, maxTokens := 3 }, [5], [⟨[], 0, none⟩], [], false⟩

/-- Four calls on it. The second one brings logits for one beam, though two are active. -/
def twoBeamCalls : List (BeamCall (WithBot ℚ)) :=
  let falling : List (WithBot ℚ) := [(3 : ℚ), (2 : ℚ), (1 : ℚ)]
  let rising : List (WithBot ℚ) := [(1 : ℚ), (2 : ℚ), (3 : ℚ)]
  [⟨[falling], { temperature := .fin 0 }, 2, []⟩, ⟨[falling], { temperature := .fin 0 }, 2, []⟩,
    ⟨[rising, falling], { temperature := .fin 0 }, 2, []⟩,
    ⟨[rising, falling], { temperature := .fin 0 }, 2, []⟩]

theorem run_invariant_twoBeams :
    Inv (ExactOps.rational.beamOps fun x _ => x) twoBeams.config
        (accepted (ExactOps.rational.beamOps fun x _ => x) twoBeams twoBeamCalls)
        (run (ExactOps.rational.beamOps fun x _ => x) twoBeams twoBeamCalls) ∧
      (accepted (ExactOps.rational.beamOps fun x _ => x) twoBeams twoBeamCalls).length = 3 ∧
      (run (ExactOps.rational.beamOps fun x _ => x) twoBeams twoBeamCalls).completedBeams.map
        (·.tokenIds) = [[0, 2], [0, 1, 2]] := by
  have hnew : new (ExactOps.rational.beamOps fun x _ => x) twoBeams.config [5] = .ok twoBeams := rfl
  exact ⟨(run_invariant hnew twoBeamCalls).1, by decide +kernel, by decide +kernel⟩

end BeamSearch

end Rllm
