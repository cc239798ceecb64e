import Rllm.Scheduler.Coverage

/-! # Prefix lookups are sound

A block returned by a prefix lookup was last registered at the same place of a
prompt that starts with the same tokens, and was not handed out since. The
history of the blocks is the ghost log of the cache manager.
-/

namespace Rllm

/-! ## Chains of block hashes -/

section Chain

variable (H : HashFns) (c : CacheConfig)

/-- What is hashed for the `i`-th block of the tokens, on top of a parent. -/
def chainInput : BlockHash → List Token → ℕ → BlockHashInput
  | parentHash, tokens, 0 => ⟨parentHash, tokens.take c.blockSize, none, []⟩
  | parentHash, tokens, i + 1 =>
    chainInput (blockHash H c.prefixHashAlgorithm ⟨parentHash, tokens.take c.blockSize, none, []⟩)
      (tokens.drop c.blockSize) i

/-- What is hashed for the `i`-th block of a prompt. -/
def blockInput (prompt : List Token) (i : ℕ) : BlockHashInput := chainInput H c 0 prompt i

/-- The block hash is collision-free on the inputs that the prompts give rise to. -/
def CollisionFree (prompts : List (List Token)) : Prop :=
  ∀ p ∈ prompts, ∀ q ∈ prompts, ∀ i < p.length / c.blockSize, ∀ j < q.length / c.blockSize,
    blockHash H c.prefixHashAlgorithm (blockInput H c p i) =
      blockHash H c.prefixHashAlgorithm (blockInput H c q j) →
    blockInput H c p i = blockInput H c q j

/-- No block of the prompts hashes to `0`, the parent of a first block. -/
def RootFree (prompts : List (List Token)) : Prop :=
  ∀ p ∈ prompts, ∀ i < p.length / c.blockSize,
    blockHash H c.prefixHashAlgorithm (blockInput H c p i) ≠ 0

variable {H c}

theorem getElem?_hashBlocks (n : ℕ) (parent : BlockHash) (tokens : List Token) (i : ℕ) :
    (hashBlocks H c.prefixHashAlgorithm c.blockSize none n parent tokens)[i]? =
      if i < n then some (blockHash H c.prefixHashAlgorithm (chainInput H c parent tokens i))
      else none := by
  induction n generalizing parent tokens i with
  | zero => simp [hashBlocks]
  | succ n ih =>
    cases i with
    | zero => simp [hashBlocks, chainInput]
    | succ i => simp [hashBlocks, chainInput, ih]

theorem getElem?_computeBlockHashes (prompt : List Token) (i : ℕ) :
    (computeBlockHashes H c.prefixHashAlgorithm prompt c.blockSize none)[i]? =
      if i < prompt.length / c.blockSize then
        some (blockHash H c.prefixHashAlgorithm (blockInput H c prompt i)) else none :=
  getElem?_hashBlocks _ _ _ _

theorem chainInput_tokenIds (parent : BlockHash) (tokens : List Token) (i : ℕ) :
    (chainInput H c parent tokens i).tokenIds =
      (tokens.drop (i * c.blockSize)).take c.blockSize := by
  induction i generalizing parent tokens with
  | zero => simp [chainInput]
  | succ i ih => rw [chainInput, ih, List.drop_drop, Nat.add_mul, Nat.one_mul, Nat.add_comm]

theorem chainInput_parentHash (parent : BlockHash) (tokens : List Token) (i : ℕ) :
    (chainInput H c parent tokens (i + 1)).parentHash =
      blockHash H c.prefixHashAlgorithm (chainInput H c parent tokens i) := by
  induction i generalizing parent tokens with
  | zero => rfl
  | succ i ih => rw [chainInput, ih, chainInput]

/-- Without collisions, and with no block taken for the root, a hash determines its chain. -/
theorem CollisionFree.blockInput_inj {prompts : List (List Token)} (h : CollisionFree H c prompts)
    (hz : RootFree H c prompts) {p q : List Token} (hp : p ∈ prompts) (hq : q ∈ prompts) {i j : ℕ}
    (hi : i < p.length / c.blockSize) (hj : j < q.length / c.blockSize)
    (he : blockHash H c.prefixHashAlgorithm (blockInput H c p i) =
      blockHash H c.prefixHashAlgorithm (blockInput H c q j)) :
    i = j ∧ p.take ((i + 1) * c.blockSize) = q.take ((i + 1) * c.blockSize) := by
  induction i generalizing j with
  | zero =>
    have hin := h p hp q hq 0 hi j hj he
    cases j with
    | zero =>
      refine ⟨rfl, ?_⟩
      simpa [blockInput, chainInput] using congrArg BlockHashInput.tokenIds hin
    | succ j =>
      have hpar := congrArg BlockHashInput.parentHash hin
      rw [blockInput, blockInput, chainInput_parentHash] at hpar
      exact absurd hpar.symm (hz q hq j (by omega))
  | succ i ih =>
    have hin := h p hp q hq (i + 1) hi j hj he
    have hpar := congrArg BlockHashInput.parentHash hin
    cases j with
    | zero =>
      rw [blockInput, blockInput, chainInput_parentHash] at hpar
      exact absurd hpar (hz p hp i (by omega))
    | succ j =>
      rw [blockInput, blockInput, chainInput_parentHash, chainInput_parentHash] at hpar
      obtain ⟨rfl, htake⟩ := ih (by omega) (by omega) hpar
      have htok := congrArg BlockHashInput.tokenIds hin
      rw [blockInput, blockInput, chainInput_tokenIds, chainInput_tokenIds] at htok
      refine ⟨rfl, ?_⟩
      rw [Nat.add_mul (i + 1) 1, Nat.one_mul, List.take_add, List.take_add, htake, htok]

theorem CollisionFree.chainInjective {prompts : List (List Token)} (h : CollisionFree H c prompts)
    (hz : RootFree H c prompts) : ChainInjective H c prompts := by
  intro p hp q hq i j g hi hj
  rw [getElem?_computeBlockHashes] at hi hj
  obtain ⟨hil, hi⟩ := Option.ite_none_right_eq_some.mp hi
  obtain ⟨hjl, hj⟩ := Option.ite_none_right_eq_some.mp hj
  exact h.blockInput_inj hz hp hq hil hjl (Option.some.inj (hi.trans hj.symm))

end Chain

/-! ## The history of a block -/

/-- The event hands the block out or registers it. -/
def CacheEvent.Concerns (b : BlockId) : CacheEvent → Prop
  | .handedOut b' => b' = b
  | .registered b' _ _ => b' = b
  | .lookedUp .. => False

instance (b : BlockId) (e : CacheEvent) : Decidable (e.Concerns b) := by
  cases e <;> unfold CacheEvent.Concerns <;> infer_instance

/-- The last time the block was handed out or registered. -/
def lastEvent (log : List CacheEvent) (b : BlockId) : Option CacheEvent :=
  log.reverse.find? fun e => decide (e.Concerns b)

theorem lastEvent_append_of_not {log es : List CacheEvent} {b : BlockId}
    (h : ∀ e ∈ es, ¬ e.Concerns b) : lastEvent (log ++ es) b = lastEvent log b := by
  have hn : es.reverse.find? (fun e => decide (e.Concerns b)) = none := by
    rw [List.find?_eq_none]
    intro e he
    simpa using h e (List.mem_reverse.mp he)
  rw [lastEvent, List.reverse_append, List.find?_append, hn]
  rfl

theorem lastEvent_append_of_mem (log : List CacheEvent) {es : List CacheEvent} {e : CacheEvent}
    {b : BlockId} (he : e ∈ es) (hc : e.Concerns b) :
    ∃ e' ∈ es, e'.Concerns b ∧ lastEvent (log ++ es) b = some e' := by
  have hs : (es.reverse.find? fun e => decide (e.Concerns b)).isSome := by
    rw [List.find?_isSome]
    exact ⟨e, List.mem_reverse.mpr he, by simpa using hc⟩
  obtain ⟨e', he'⟩ := Option.isSome_iff_exists.mp hs
  refine ⟨e', List.mem_reverse.mp (List.mem_of_find?_eq_some he'), ?_, ?_⟩
  · simpa using List.find?_some he'
  · rw [lastEvent, List.reverse_append, List.find?_append, he']
    rfl

/-- The history ends with the registration of the block as the `i`-th of an added request whose
prompt starts with the same `i + 1` blocks. -/
def Traces (blockSize : ℕ) (added : List InferenceRequest) (log : List CacheEvent)
    (prompt : List Token) (i : ℕ) (b : BlockId) : Prop :=
  (i + 1) * blockSize ≤ prompt.length ∧ ∃ q ∈ added,
    lastEvent log b = some (.registered b q.requestId i) ∧
    q.promptTokens.take ((i + 1) * blockSize) = prompt.take ((i + 1) * blockSize)

/-- Every block that a lookup of the history returned traces back from that lookup. -/
def LookupsSound (blockSize : ℕ) (added : List InferenceRequest) (log : List CacheEvent) : Prop :=
  ∀ k rid prompt blocks, log[k]? = some (.lookedUp rid prompt blocks) →
    ∀ i b, blocks[i]? = some b → Traces blockSize added (log.take k) prompt i b

variable {H : HashFns} {c : CacheConfig} {blockSize : ℕ} {added added' : List InferenceRequest}
  {log es : List CacheEvent}

theorem Traces.mono {prompt : List Token} {i : ℕ} {b : BlockId}
    (h : Traces blockSize added log prompt i b) (hsub : ∀ q ∈ added, q ∈ added') :
    Traces blockSize added' log prompt i b := by
  obtain ⟨hlen, q, hq, hlast, htake⟩ := h
  exact ⟨hlen, q, hsub q hq, hlast, htake⟩

theorem LookupsSound.mono (h : LookupsSound blockSize added log) (hsub : ∀ q ∈ added, q ∈ added') :
    LookupsSound blockSize added' log :=
  fun k rid prompt blocks hk i b hb => (h k rid prompt blocks hk i b hb).mono hsub

theorem LookupsSound.append (h : LookupsSound blockSize added log)
    (hes : ∀ k rid prompt blocks, es[k]? = some (.lookedUp rid prompt blocks) →
      ∀ i b, blocks[i]? = some b → Traces blockSize added (log ++ es.take k) prompt i b) :
    LookupsSound blockSize added (log ++ es) := by
  intro k rid prompt blocks hk i b hb
  rcases Nat.lt_or_ge k log.length with hlt | hge
  · rw [List.getElem?_append_left hlt] at hk
    rw [List.take_append_of_le_length hlt.le]
    exact h k rid prompt blocks hk i b hb
  · rw [List.getElem?_append_right hge] at hk
    rw [List.take_append, List.take_of_length_le hge]
    exact hes _ rid prompt blocks hk i b hb

namespace KVCacheManager

variable {m m' : KVCacheManager} {rid : RequestId} {n : ℕ}

/-- Every listed block traces back to its registration under the hash it is listed for, and the
lookups so far were sound. -/
structure Traced (H : HashFns) (c : CacheConfig) (added : List InferenceRequest)
    (m : KVCacheManager) : Prop where
  listed : ∀ h, ∀ b ∈ m.blockPool.listed h, ∃ q ∈ added, ∃ i,
    lastEvent m.log b = some (.registered b q.requestId i) ∧
    (computeBlockHashes H c.prefixHashAlgorithm q.promptTokens c.blockSize none)[i]? = some h
  sound : LookupsSound c.blockSize added m.log

theorem Traced.mono (h : Traced H c added m) (hsub : ∀ q ∈ added, q ∈ added') :
    Traced H c added' m where
  listed g b hb := by
    obtain ⟨q, hq, i, hi⟩ := h.listed g b hb
    exact ⟨q, hsub q hq, i, hi⟩
  sound := h.sound.mono hsub

theorem Traced.sublist (h : Traced H c added m)
    (hl : ∀ g, ∀ b ∈ m'.blockPool.listed g, b ∈ m.blockPool.listed g) (hlog : m'.log = m.log) :
    Traced H c added m' where
  listed g b hb := hlog ▸ h.listed g b (hl g b hb)
  sound := hlog ▸ h.sound

theorem Traced.handOut (h : Traced H c added m) {bs : List BlockId}
    (hl : ∀ g, m'.blockPool.listed g = (m.blockPool.listed g).filter (· ∉ bs))
    (hlog : m'.log = m.log ++ bs.map .handedOut) : Traced H c added m' where
  listed g b hb := by
    rw [hl, List.mem_filter, decide_eq_true_eq] at hb
    obtain ⟨hb, hbs⟩ := hb
    obtain ⟨q, hq, i, hlast, hi⟩ := h.listed g b hb
    refine ⟨q, hq, i, ?_, hi⟩
    rw [hlog, lastEvent_append_of_not, hlast]
    intro e he
    obtain ⟨b', hb', rfl⟩ := List.mem_map.mp he
    rintro rfl
    exact hbs hb'
  sound := by
    rw [hlog]
    refine h.sound.append fun k rid prompt blocks hk => ?_
    obtain ⟨b, -, hb⟩ := List.mem_map.mp (List.mem_of_getElem? hk)
    cases hb

theorem Traced.lookup (h : Traced H c added m) {prompt : List Token} {blocks : List BlockId}
    (hinj : ChainInjective H c (added.map (·.promptTokens)))
    (hp : prompt ∈ added.map (·.promptTokens))
    (hf : Found m.blockPool (computeBlockHashes H c.prefixHashAlgorithm prompt c.blockSize none)
      blocks)
    (hl : m'.blockPool.listed = m.blockPool.listed)
    (hlog : m'.log = m.log ++ [.lookedUp rid prompt blocks]) : Traced H c added m' where
  listed g b hb := by
    obtain ⟨q, hq, i, hlast, hi⟩ := h.listed g b (hl ▸ hb)
    refine ⟨q, hq, i, ?_, hi⟩
    rw [hlog, lastEvent_append_of_not, hlast]
    intro e he hc
    rw [List.mem_singleton.mp he] at hc
    exact hc
  sound := by
    rw [hlog]
    refine h.sound.append fun k rid' prompt' blocks' hk i b hb => ?_
    cases k with
    | succ k => simp at hk
    | zero =>
      obtain ⟨-, rfl, rfl⟩ := CacheEvent.lookedUp.inj (Option.some.inj hk)
      rw [List.take_zero, List.append_nil]
      obtain ⟨g, hg, hhead⟩ := hf.head_eq i b hb
      obtain ⟨q, hq, j, hlast, hj⟩ := h.listed g b (List.mem_of_mem_head? hhead)
      obtain ⟨rfl, htake⟩ := hinj prompt hp q.promptTokens (List.mem_map_of_mem hq) i j g hg hj
      refine ⟨?_, q, hq, hlast, htake.symm⟩
      have hlt := (List.getElem?_eq_some_iff.mp hg).1
      rw [length_computeBlockHashes] at hlt
      exact (Nat.mul_le_mul_right _ (Nat.succ_le_of_lt hlt)).trans (Nat.div_mul_le_self _ _)

theorem Traced.register (h : Traced H c added m) {rs : List (ℕ × BlockId × BlockHash)}
    (hr : Registered m rid rs m') {q : InferenceRequest} (hq : q ∈ added) (hid : q.requestId = rid)
    (hone : ∀ i j b g g', (i, b, g) ∈ rs → (j, b, g') ∈ rs → i = j)
    (hfresh : ∀ i b g, (i, b, g) ∈ rs → ∀ g', b ∉ m.blockPool.listed g')
    (hhash : ∀ i b g, (i, b, g) ∈ rs →
      (computeBlockHashes H c.prefixHashAlgorithm q.promptTokens c.blockSize none)[i]? = some g) :
    Traced H c added m' where
  listed g b hb := by
    rcases (hr.mem_listed g b).mp hb with hb | ⟨i, hi⟩
    · obtain ⟨q, hq, i, hlast, hi⟩ := h.listed g b hb
      refine ⟨q, hq, i, ?_, hi⟩
      rw [hr.log_eq, lastEvent_append_of_not, hlast]
      intro e he
      obtain ⟨⟨j, b', g'⟩, hmem, rfl⟩ := List.mem_map.mp he
      rintro rfl
      exact hfresh j _ g' hmem g hb
    · refine ⟨q, hq, i, ?_, hhash i b g hi⟩
      obtain ⟨e, he, hc, hlast⟩ := lastEvent_append_of_mem m.log (b := b)
        (List.mem_map_of_mem (f := fun x : ℕ × BlockId × BlockHash =>
          CacheEvent.registered x.2.1 rid x.1) hi) rfl
      obtain ⟨⟨j, b', g'⟩, hmem, rfl⟩ := List.mem_map.mp he
      obtain rfl : b' = b := hc
      rw [hr.log_eq, hlast, hid, hone i j b' g g' hi hmem]
  sound := by
    rw [hr.log_eq]
    refine h.sound.append fun k rid prompt blocks hk => ?_
    obtain ⟨b, -, hb⟩ := List.mem_map.mp (List.mem_of_getElem? hk)
    cases hb

end KVCacheManager

/-! ## Runs -/

section Runs

variable {cfg : Config} {n : ℕ} {K : Guards}
  {st st' : StepState}

theorem KVCacheManager.Traced.free {m : KVCacheManager} (hok : m.Ok n) (h : m.Traced H c added)
    (rid : RequestId) : (m.free rid).Traced H c added := by
  obtain ⟨-, -, -, hl, hlog⟩ := hok.free rid
  exact h.sublist (fun g b hb => hl ▸ hb) hlog

theorem KVCacheManager.Traced.admission {s : Scheduler} (hinv : s.Inv H cfg n)
    (hknown : s.Known added)
    (h : s.kvCacheManager.Traced H cfg.cache added) {id : RequestId} (hid : id ∈ s.waiting.ids)
    {r : SchedulerRequest} (hr : s.requests.lookup id = some r) {tokens : ℕ} {bs : List BlockId}
    {kv : KVCacheManager} (ha : s.kvCacheManager.allocateSlots cfg.cache id
      (r.numComputedTokens + tokens) r.numComputedTokens = (some bs, kv)) (total : ℕ) :
    (kv.cacheBlocks cfg.cache id total).Traced H cfg.cache added := by
  obtain ⟨hok, hg⟩ := hinv.kv.allocateSlots_some ha
  obtain ⟨-, -, hreg⟩ := hinv.register hid hr ha total
  obtain ⟨hadd, hrid, hprompt⟩ := hknown id r hr
  refine (h.handOut hg.handedOut.listed_eq hg.log_eq).register hreg hadd hrid ?_ ?_ ?_
  · intro i j b g g' hi hj
    obtain ⟨hi, hbi, -⟩ := hinv.mem_newRegs hid hr ha hi
    obtain ⟨hj, hbj, -⟩ := hinv.mem_newRegs hid hr ha hj
    have hlt := (List.getElem?_eq_some_iff.mp hbi).1
    have := (List.getElem?_inj hlt hg.handedOut.nodup).mp (hbi.trans hbj.symm)
    omega
  · intro i b g hm g' hb
    rw [hg.handedOut.listed_eq, List.mem_filter, decide_eq_true_eq] at hb
    obtain ⟨-, hbi, -⟩ := hinv.mem_newRegs hid hr ha hm
    exact hb.2 (List.mem_of_getElem? hbi)
  · intro i b g hm
    obtain ⟨-, -, hs, -, rfl, hh⟩ := hinv.mem_newRegs hid hr ha hm
    rw [← hprompt]
    exact hh

theorem Move.traced (hm : Move H cfg K st st') (hinv : st.sched.Inv H cfg n)
    (hknown : st.sched.Known added)
    (hinj : ChainInjective H cfg.cache (added.map (·.promptTokens)))
    (h : st.sched.kvCacheManager.Traced H cfg.cache added) :
    st'.sched.kvCacheManager.Traced H cfg.cache added := by
  cases hm with
  | finish => exact h.free hinv.kv _
  | markLength => simpa using h
  | decode => simpa [StepState.scheduleDecode_sched] using h
  | decodeGrow _ _ _ _ _ _ ha =>
    have hg := (hinv.kv.allocateSlots_some ha).2
    simpa [StepState.scheduleDecode_sched, StepState.setKV] using
      h.handOut hg.handedOut.listed_eq hg.log_eq
  | starve _ _ _ _ _ ha =>
    obtain ⟨-, -, bs, hr⟩ := hinv.kv.allocateSlots_none ha
    exact h.handOut hr.listed_eq hr.log_eq
  | preempt =>
    simp only [StepState.preemptOne, Scheduler.preemptRequest]
    split <;> exact h.free hinv.kv _
  | note => exact h
  | @probe _ id r _ _ hid hr hc =>
    have hw := (hinv.each id).waiting hid r hr
    obtain ⟨hadd, -, hprompt⟩ := hknown id r hr
    simp only [Scheduler.probe_kvCacheManager]
    cases hg : st.sched.kvCacheManager.getComputedBlocks H cfg.cache id r.promptTokenIds
        r.request.samplingParams.skipReadingPrefixCache with
    | mk res kv =>
      obtain ⟨-, -, -, hl, ⟨hlog, -⟩ | ⟨hlog, hf⟩⟩ :=
        hinv.kv.getComputedBlocks (hw.table_eq.trans hc) hg
      · exact h.sublist (fun g b hb => hl ▸ hb) hlog
      · exact h.lookup hinj (hprompt ▸ List.mem_map_of_mem hadd) hf hl hlog
  | admitCached => simpa using h
  | admitNew _ _ hid hr _ _ _ _ _ ha =>
    rw [StepState.admitNew_kvCacheManager]
    exact .admission hinv hknown h hid hr ha _
  | admitFail _ _ _ _ _ _ ha =>
    obtain ⟨-, -, bs, hr⟩ := hinv.kv.allocateSlots_none ha
    exact h.handOut hr.listed_eq hr.log_eq

theorem Moves.traced (hm : Moves H cfg K st st') (hinv : st.sched.Inv H cfg n)
    (hknown : st.sched.Known added)
    (hinj : ChainInjective H cfg.cache (added.map (·.promptTokens)))
    (h : st.sched.kvCacheManager.Traced H cfg.cache added) :
    st'.sched.kvCacheManager.Traced H cfg.cache added := by
  induction hm with
  | refl => exact h
  | tail hms hm ih => exact hm.traced (Moves.inv hms hinv) (Moves.known hms hknown) hinj ih

theorem SchedRun.traced {s : Scheduler} (h : SchedRun H cfg added s)
    (hle : cfg.numCacheBlocks ≤ 2 ^ 32)
    (hinj : ChainInjective H cfg.cache (added.map (·.promptTokens))) :
    s.kvCacheManager.Traced H cfg.cache added := by
  induction h with
  | new =>
    refine ⟨fun g b hb => ?_, fun k _ _ _ hk => by cases hk⟩
    rw [show (Scheduler.new cfg).kvCacheManager.blockPool = BlockPool.new cfg.numCacheBlocks from
      rfl, BlockPool.listed_new] at hb
    cases hb
  | addRequest r _ _ ih =>
    exact (ih (hinj.mono fun p hp => by simp at hp ⊢; exact Or.inl hp)).mono fun q hq =>
      List.mem_append_left _ hq
  | abortRequest id hrun ih => exact (ih hinj).free (hrun.inv hle).1.kv id
  | @step _ s ord hrun ih =>
    cases hp : s.paused with
    | true =>
      rw [Scheduler.step, if_pos hp]
      exact ih hinj
    | false =>
      obtain ⟨hinv, hknown⟩ := hrun.inv hle
      rw [Scheduler.step_eq hp]
      exact (stepState_moves hinv.partition hp ord
        (Scheduler.stepAll_any ord s)).traced hinv hknown hinj (ih hinj)
  | pause _ ih => exact ih hinj
  | resume _ ih => exact ih hinj
  | resetPrefixCache _ hr ih =>
    rw [Scheduler.resetPrefixCache_ok hr]
    refine (ih hinj).sublist (fun g b hb => ?_) rfl
    rw [BlockPool.listed_clearHashes] at hb
    cases hb

/-- Every lookup of a run returns blocks that trace back to the start of its own prompt. -/
theorem SchedRun.lookupsSound (H : HashFns) (cfg : Config) (hle : cfg.numCacheBlocks ≤ 2 ^ 32)
    (added : List InferenceRequest) (s : Scheduler) (h : SchedRun H cfg added s)
    (hcoll : CollisionFree H cfg.cache (added.map (·.promptTokens)))
    (hroot : RootFree H cfg.cache (added.map (·.promptTokens))) :
    LookupsSound cfg.cache.blockSize added s.kvCacheManager.log :=
  (h.traced hle (hcoll.chainInjective hroot)).sound

/-- A scheduler on a given cache, with a request of two tokens and one of the first of them
waiting. -/
def twoWaiting (cfg : Config) (kv : KVCacheManager) : Scheduler :=
  (oneWaiting cfg kv).addRequest cfg (smallRequest 2 [5])

theorem schedRun_twoWaiting (cfg : Config) :
    SchedRun H cfg [smallRequest 1 [5, 6], smallRequest 2 [5]]
      (twoWaiting cfg (.new cfg.numCacheBlocks)) :=
  .addRequest _ (.addRequest _ .new (by simp)) (by simp [smallRequest])

theorem collisionFree_small (k : ℕ) : CollisionFree smallHash (smallConfig k true).cache
    ([smallRequest 1 [5, 6], smallRequest 2 [5]].map (·.promptTokens)) := by
  change CollisionFree smallHash (smallConfig 0 true).cache _
  unfold CollisionFree
  decide +kernel

theorem rootFree_small (k : ℕ) : RootFree smallHash (smallConfig k true).cache
    ([smallRequest 1 [5, 6], smallRequest 2 [5]].map (·.promptTokens)) := by
  change RootFree smallHash (smallConfig 0 true).cache _
  unfold RootFree
  decide +kernel

theorem SchedRun.lookupsSound_small :
    LookupsSound 1 [smallRequest 1 [5, 6], smallRequest 2 [5]] ((twoWaiting (smallConfig 8 true)
      (.new 8)).step smallHash (smallConfig 8 true) .id).2.kvCacheManager.log ∧
    .lookedUp 2 [5] [1] ∈ ((twoWaiting (smallConfig 8 true) (.new 8)).step smallHash
      (smallConfig 8 true) .id).2.kvCacheManager.log :=
  ⟨SchedRun.lookupsSound smallHash (smallConfig 8 true) (by decide)
    [smallRequest 1 [5, 6], smallRequest 2 [5]] _ (.step .id (schedRun_twoWaiting _))
    (collisionFree_small 8) (rootFree_small 8), by decide +kernel⟩

/-- A digest that takes the first block of `[5, 6]` to the root. -/
def rootHash : HashFns where
  sha256 bytes := bytes
  xxh3 bytes := smallHash.xxh3 bytes - 45

/-- A request waits for the second token of another one. -/
def rootRun : Scheduler :=
  ((oneWaiting (smallConfig 8 true) (.new 8)).addRequest (smallConfig 8 true)
    (smallRequest 2 [6])).step rootHash (smallConfig 8 true) .id |>.2

theorem rootRun_log : rootRun.kvCacheManager.log =
    [.lookedUp 1 [5, 6] [], .lookedUp 2 [6] [], .lookedUp 1 [5, 6] [], .handedOut 1, .handedOut 2,
      .registered 1 1 0, .registered 2 1 1, .lookedUp 2 [6] [2]] := by
  decide +kernel

/-- In a step over a pool that hands out block `1` twice, the second request is given a block that
was registered last for the second block of the first one. -/
theorem wrapped_log {k : ℕ} {p p₁ p₂ : BlockPool} {h₀ h₁ : BlockHash} (hp : p.hashMap = ∅)
    (ha₁ : p.allocate = some (1, p₁)) (ha₂ : p₁.allocate = some (1, p₂))
    (hh₁ : computeBlockHashes H .xxHash [5, 6] 1 none = [h₀, h₁])
    (hh₂ : computeBlockHashes H .xxHash [5] 1 none = [h₀])
    (hl : ((p₂.cacheBlock 1 h₀).cacheBlock 1 h₁).hashMap.lookup h₀ = some [1]) :
    ((twoWaiting (smallConfig k true) ⟨p, ∅, ∅, ∅, []⟩).stepState H (smallConfig k true)
      .id).sched.kvCacheManager.log =
      [.lookedUp 1 [5, 6] [], .lookedUp 2 [5] [], .lookedUp 1 [5, 6] [], .handedOut 1, .handedOut 1,
        .registered 1 1 0, .registered 1 1 1, .lookedUp 2 [5] [1]] := by
  have hstart : (twoWaiting (smallConfig k true) ⟨p, ∅, ∅, ∅, []⟩).stepState H (smallConfig k true)
      .id = StepState.waitingLoop H (smallConfig k true) 3 { sched :=
        { Scheduler.new (smallConfig k true) with
          requests := (AList.singleton 1 (SchedulerRequest.mk (smallRequest 1 [5, 6]) [5, 6] 0 []
            .waiting)).insert 2 (.mk (smallRequest 2 [5]) [5] 0 [] .waiting)
          waiting := ⟨[(1, ⟨0, 0⟩), (2, ⟨0, 0⟩)], by decide⟩
          kvCacheManager := ⟨p, ∅, ∅, ∅, []⟩ } } := rfl
  have hone : ∀ {β : Type} (i : ℕ) (x : β),
      AList.lookup i (AList.singleton (β := fun _ => β) i x) = some x := fun i x => by
    rw [← AList.insert_empty]
    exact AList.lookup_insert _
  have hmiss : ∀ h, p.getCachedBlock h = none := fun h => by simp [BlockPool.getCachedBlock, hp]
  obtain ⟨p₃, hp₃⟩ : ∃ p₃, p₃ = (p₂.cacheBlock 1 h₀).cacheBlock 1 h₁ := ⟨_, rfl⟩
  obtain ⟨p₄, hget⟩ : ∃ p₄, p₃.getCachedBlock h₀ = some (1, p₄) := by
    simp [BlockPool.getCachedBlock, hp₃, hl]
  rw [hstart]
  simp [hone, hmiss, ha₁, ha₂, hh₁, hh₂, ← hp₃, hget, smallConfig, smallRequest, Scheduler.new,
    StepState.waitingLoop, StepState.canAdmit, StepState.waitingIter, RequestQueue.isEmpty,
    Scheduler.selectWaitingRequest, RequestQueue.peek, Scheduler.selectLoop, RequestQueue.ids,
    Scheduler.probe, Scheduler.modifyRequest, KVCacheManager.getComputedBlocks, lookupBlocks,
    StepState.admitSelected, StepState.cachedOf, StepState.prefillTokens,
    KVCacheManager.allocateSlots, allocMany, divCeil, StepState.admitNew, StepState.setKV,
    StepState.copyBlockTable,
    KVCacheManager.getBlockIds, KVCacheManager.cacheBlocks, KVCacheManager.registerBlock,
    List.range', RequestQueue.remove, StepState.admitCached]

/-- Neither assumption can be dropped: a block that hashes to the root makes a second block look
like a first one, and a pool with more blocks than `u32` can number registers a block twice. -/
theorem SchedRun.not_lookupsSound :
    (¬ ∀ (H : HashFns) (cfg : Config), cfg.numCacheBlocks ≤ 2 ^ 32 →
      ∀ (added : List InferenceRequest) (s : Scheduler), SchedRun H cfg added s →
      CollisionFree H cfg.cache (added.map (·.promptTokens)) →
      LookupsSound cfg.cache.blockSize added s.kvCacheManager.log) ∧
    ¬ ∀ (H : HashFns) (cfg : Config) (added : List InferenceRequest) (s : Scheduler),
      SchedRun H cfg added s → CollisionFree H cfg.cache (added.map (·.promptTokens)) →
      RootFree H cfg.cache (added.map (·.promptTokens)) →
      LookupsSound cfg.cache.blockSize added s.kvCacheManager.log := by
  refine ⟨fun h => ?_, fun h => ?_⟩
  · have hsound := h rootHash (smallConfig 8 true) (by decide)
      [smallRequest 1 [5, 6], smallRequest 2 [6]] rootRun
      (.step .id (.addRequest _ (schedRun_oneWaiting _) (by decide)))
      (by unfold CollisionFree; decide +kernel)
    rw [rootRun_log] at hsound
    obtain ⟨-, q, -, hlast, -⟩ := hsound 7 2 [6] [2] rfl 0 2 rfl
    simp [lastEvent, CacheEvent.Concerns] at hlast
  · obtain ⟨k, hk⟩ : ∃ k, k = 2 ^ 32 + 2 := ⟨_, rfl⟩
    obtain ⟨p₁, p₂, ha₁, ha₂, hm, hlt, hr, hn, -⟩ := BlockPool.wrapped_allocate_twice hk
    obtain ⟨h₀, h₁, hh₁, hh₂, hne⟩ : ∃ h₀ h₁,
        computeBlockHashes smallHash .xxHash [5, 6] 1 none = [h₀, h₁] ∧
        computeBlockHashes smallHash .xxHash [5] 1 none = [h₀] ∧ h₀ ≠ h₁ :=
      ⟨_, _, rfl, rfl, by decide +kernel⟩
    have hl : ((p₂.cacheBlock 1 h₀).cacheBlock 1 h₁).hashMap.lookup h₀ = some [1] := by
      obtain ⟨hm₃, hb₃, hlen₃⟩ := BlockPool.cacheBlock_active h₀ hlt (by omega) hn
      obtain ⟨hm₄, -⟩ := BlockPool.cacheBlock_active h₁ (hlen₃ ▸ hlt) (by simp [hb₃, hr])
        (by rw [hb₃]; exact hn)
      rw [hm₄, AList.lookup_insert_ne hne, hm₃, AList.lookup_insert, hm]
      rfl
    have hsound := h smallHash (smallConfig k true) [smallRequest 1 [5, 6], smallRequest 2 [5]] _
      (.step .id (schedRun_twoWaiting (smallConfig k true))) (collisionFree_small k)
      (rootFree_small k)
    rw [Scheduler.step_eq rfl] at hsound
    have hlog := wrapped_log (H := smallHash) (k := k) (p := .new k) rfl ha₁ ha₂ hh₁ hh₂ hl
    rw [show (KVCacheManager.new (smallConfig k true).numCacheBlocks) = ⟨.new k, ∅, ∅, ∅, []⟩
        from rfl,
      hlog] at hsound
    obtain ⟨-, q, -, hlast, -⟩ := hsound 7 2 [5] [1] rfl 0 1 rfl
    simp [lastEvent, CacheEvent.Concerns] at hlast

end Runs

end Rllm
