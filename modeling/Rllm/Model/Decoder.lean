import Rllm.Core.Request
import Rllm.Model.Layers

/-! # Decoders

A decoder looks tokens up in its embedding, runs them through its layers and makes
logits of what comes out. Every layer has a cache of its own. Tokens may be fed in
chunks, each at the position where the one before it ended.
-/

namespace Rllm

/-! ## Forward passes -/

section Forward

variable {X M ε : Type}

/-- Run rows through layers, each of which updates a cache. -/
def forwardLayers (context : ℕ → ε → ForwardError) :
    ℕ → List (List X → Option (List M) → Except ε (List X) × Option (List M)) →
      List (Option (List M)) → List X → Except ForwardError (List X) × List (Option (List M))
  | _, [], caches, rows => (.ok rows, caches)
  | _, _ :: _, [], _ => (.error .panicked, [])
  | i, layer :: layers, cache :: caches, rows =>
    match layer rows cache with
    | (.error e, cache) => (.error (context i e), cache :: caches)
    | (.ok rows, cache) =>
      let (result, caches) := forwardLayers context (i + 1) layers caches rows
      (result, cache :: caches)

/-- Layers that succeed on such rows and caches run as a stack. -/
theorem forwardLayers_eq_runStack {ι : Type} {context : ℕ → ε → ForwardError} {i start n : ℕ}
    {layers : List ι} {causal : ι → CausalLayer X M}
    {step : ι → List X → Option (List M) → Except ε (List X) × Option (List M)}
    (hstep : ∀ l ∈ layers, ∀ rows cache, rows.length = n → (cache.getD []).length = start →
      step l rows cache = (.ok ((causal l).run (cache.getD []) rows).1,
        some ((causal l).run (cache.getD []) rows).2))
    {caches : List (Option (List M))} (hlen : caches.length = layers.length)
    (hcaches : ∀ cache ∈ caches, (cache.getD []).length = start) {rows : List X}
    (hrows : rows.length = n) :
    forwardLayers context i (layers.map step) caches rows =
      let (rows, mems) :=
        CausalLayer.runStack (layers.map causal) (caches.map (·.getD [])) rows
      (.ok rows, mems.map some) := by
  induction layers generalizing i caches rows with
  | nil =>
    obtain rfl := List.length_eq_zero_iff.mp hlen
    rfl
  | cons layer layers ih =>
    obtain _ | ⟨cache, caches⟩ := caches
    · cases hlen
    have hcache := hcaches cache List.mem_cons_self
    simp only [List.map_cons, forwardLayers, hstep layer List.mem_cons_self rows cache hrows hcache]
    rw [ih (fun l hl => hstep l (List.mem_cons_of_mem _ hl)) (Nat.succ.inj hlen)
      (fun c hc => hcaches c (List.mem_cons_of_mem _ hc))
      (CausalLayer.length_run.trans hrows)]
    rfl

theorem forwardLayers_error {context : ℕ → ε → ForwardError} {i : ℕ}
    {layer : List X → Option (List M) → Except ε (List X) × Option (List M)}
    {layers : List (List X → Option (List M) → Except ε (List X) × Option (List M))}
    {cache : Option (List M)} {caches : List (Option (List M))} {rows : List X} {e : ε}
    (h : (layer rows cache).1 = .error e) :
    (forwardLayers context i (layer :: layers) (cache :: caches) rows).1 =
      .error (context i e) := by
  rcases hlayer : layer rows cache with ⟨_ | rows', cache'⟩
  · rw [hlayer] at h
    cases h
    simp only [forwardLayers, hlayer]
  · rw [hlayer] at h
    cases h

/-! ## Chunks -/

variable {Y : Type}
  (forward : List Token → List ℕ → List (Option (List M)) →
    Except ForwardError (List Y) × List (Option (List M)))

/-- Feed chunks of tokens, each at the position where the one before it ended. -/
def feed : List (Option (List M)) → ℕ → List (List Token) →
    Except ForwardError (List Y) × List (Option (List M))
  | caches, _, [] => (.ok [], caches)
  | caches, start, chunk :: chunks =>
    match forward chunk (List.range' start chunk.length) caches with
    | (.error e, caches) => (.error e, caches)
    | (.ok logits, caches) =>
      match feed caches (start + chunk.length) chunks with
      | (.error e, caches) => (.error e, caches)
      | (.ok rest, caches) => (.ok (logits ++ rest), caches)

/-- Feed tokens at once, with no caches. -/
def oneShot (numLayers : ℕ) (ids : List Token) :
    Except ForwardError (List Y) × List (Option (List M)) :=
  forward ids (List.range' 0 ids.length) (List.replicate numLayers none)

/-- A forward pass that runs a stack of layers, at the positions and for the tokens where
it runs at all, up to `limit` of them at once. -/
structure RunsStack (layers : List (CausalLayer X M)) (embed : Token → X) (head : X → Y)
    (ok : ℕ → List Token → Prop) (limit : ℕ∞) : Prop where
  forward_eq_ok_iff : ∀ {caches start ids}, (ids.length : ℕ∞) ≤ limit →
    caches.length = layers.length →
    (∀ cache ∈ caches, (cache.getD []).length = start) → ∀ logits caches',
    (forward ids (List.range' start ids.length) caches = (.ok logits, caches') ↔
      ok start ids ∧
        let (rows, mems) :=
          CausalLayer.runStack layers (caches.map (·.getD [])) (ids.map embed)
        logits = rows.map head ∧ caches' = mems.map some)

/-- Every chunk is fine at its position. -/
def FeedOk (ok : ℕ → List Token → Prop) : ℕ → List (List Token) → Prop
  | _, [] => True
  | start, chunk :: chunks => ok start chunk ∧ FeedOk ok (start + chunk.length) chunks

namespace RunsStack

variable {forward} {layers : List (CausalLayer X M)} {embed : Token → X} {head : X → Y}
  {ok : ℕ → List Token → Prop} {limit : ℕ∞} {logits : List Y}
  {caches' : List (Option (List M))}

theorem feed_cons_iff_step (h : RunsStack forward layers embed head ok limit)
    {caches : List (Option (List M))} {start : ℕ} (hlen : caches.length = layers.length)
    (hcaches : ∀ cache ∈ caches, (cache.getD []).length = start) {chunk : List Token}
    {chunks : List (List Token)} (hle : (chunk.length : ℕ∞) ≤ limit) :
    feed forward caches start (chunk :: chunks) = (.ok logits, caches') ↔
      ok start chunk ∧
        let (rows, mems) :=
          CausalLayer.runStack layers (caches.map (·.getD [])) (chunk.map embed)
        ∃ rest, feed forward (mems.map some) (start + chunk.length) chunks = (.ok rest, caches') ∧
          logits = rows.map head ++ rest := by
  have hiff : ∀ logits caches', forward chunk (List.range' start chunk.length) caches =
      (.ok logits, caches') ↔ _ := h.forward_eq_ok_iff hle hlen hcaches
  rw [feed]
  rcases hforward : forward chunk (List.range' start chunk.length) caches with ⟨e | first, c⟩
  · simp only [Prod.mk.injEq, reduceCtorEq, false_and, false_iff, not_and]
    intro hok
    have := hforward.symm.trans ((hiff _ _).mpr ⟨hok, rfl, rfl⟩)
    cases this
  · obtain ⟨hok, rfl, rfl⟩ := (hiff _ _).mp hforward
    dsimp only
    rcases feed forward _ (start + chunk.length) chunks with ⟨e | rest, c⟩
    · simp
    · simp only [Prod.mk.injEq, Except.ok.injEq, hok, true_and]
      constructor
      · rintro ⟨rfl, rfl⟩
        exact ⟨rest, ⟨rfl, rfl⟩, rfl⟩
      · rintro ⟨rest', ⟨rfl, rfl⟩, rfl⟩
        exact ⟨rfl, rfl⟩

theorem feed_iff_runPieces (h : RunsStack forward layers embed head ok limit)
    {pasts : List (List M)} {start : ℕ} (hlen : pasts.length = layers.length)
    (hpasts : ∀ past ∈ pasts, past.length = start) {chunks : List (List Token)}
    (hle : ∀ chunk ∈ chunks, (chunk.length : ℕ∞) ≤ limit) :
    feed forward (pasts.map some) start chunks = (.ok logits, caches') ↔
      FeedOk ok start chunks ∧
        let (rows, mems) := CausalLayer.runPieces layers pasts (chunks.map (·.map embed))
        logits = rows.map head ∧ caches' = mems.map some := by
  induction chunks generalizing pasts start logits caches' with
  | nil =>
    simp only [feed, FeedOk, CausalLayer.runPieces, List.map_nil, true_and, Prod.mk.injEq,
      Except.ok.injEq]
    exact and_congr eq_comm eq_comm
  | cons chunk chunks ih =>
    have hmap : (pasts.map some).map (·.getD []) = pasts := by simp
    obtain ⟨hchunk, hle⟩ := List.forall_mem_cons.mp hle
    rw [h.feed_cons_iff_step (by rwa [List.length_map]) (by simpa using hpasts) hchunk, hmap]
    have hmems : ∀ mem ∈ (CausalLayer.runStack layers pasts (chunk.map embed)).2,
        mem.length = start + chunk.length := fun mem hmem => by
      rw [CausalLayer.length_of_mem_runStack hlen hpasts hmem, List.length_map]
    simp only [ih CausalLayer.length_memories_runStack hmems hle, FeedOk, CausalLayer.runPieces,
      List.map_cons, List.map_append]
    constructor
    · rintro ⟨hok, rest, ⟨hrest, rfl, rfl⟩, rfl⟩
      exact ⟨⟨hok, hrest⟩, rfl, rfl⟩
    · rintro ⟨⟨hok, hrest⟩, rfl, rfl⟩
      exact ⟨hok, _, ⟨hrest, rfl, rfl⟩, rfl⟩

theorem oneShot_iff (h : RunsStack forward layers embed head ok limit) {ids : List Token}
    (hle : (ids.length : ℕ∞) ≤ limit) :
    oneShot forward layers.length ids = (.ok logits, caches') ↔
      ok 0 ids ∧
        let (rows, mems) := CausalLayer.runStack layers (List.replicate layers.length [])
          (ids.map embed)
        logits = rows.map head ∧ caches' = mems.map some := by
  refine (h.forward_eq_ok_iff hle List.length_replicate (fun cache hcache => ?_) _ _).trans ?_
  · rw [List.eq_of_mem_replicate hcache]
    rfl
  · rw [List.map_replicate]
    rfl

theorem feed_cons_iff (h : RunsStack forward layers embed head ok limit) {chunk : List Token}
    {chunks : List (List Token)} (hle : ((chunk ++ chunks.flatten).length : ℕ∞) ≤ limit) :
    feed forward (List.replicate layers.length none) 0 (chunk :: chunks) = (.ok logits, caches') ↔
      FeedOk ok 0 (chunk :: chunks) ∧
        let (rows, mems) := CausalLayer.runStack layers (List.replicate layers.length [])
          ((chunk ++ chunks.flatten).map embed)
        logits = rows.map head ∧ caches' = mems.map some := by
  have hall : ∀ c ∈ chunk :: chunks, (c.length : ℕ∞) ≤ limit := by
    intro c hc
    refine le_trans (Nat.cast_le.mpr ?_) hle
    exact (List.sublist_flatten_of_mem hc).length_le
  obtain ⟨hchunk, hle⟩ := List.forall_mem_cons.mp hall
  rw [h.feed_cons_iff_step List.length_replicate (by simp) hchunk, List.map_replicate]
  have hmems : ∀ mem ∈ (CausalLayer.runStack layers (List.replicate layers.length [])
      (chunk.map embed)).2, mem.length = 0 + chunk.length := fun mem hmem => by
    rw [CausalLayer.length_of_mem_runStack_nil hmem, List.length_map, Nat.zero_add]
  have hpieces := CausalLayer.runPieces_cons layers (List.replicate layers.length [])
    (chunk.map embed) (chunks.map (·.map embed))
  rw [← List.map_flatten, ← List.map_append] at hpieces
  rw [← hpieces]
  simp only [Option.getD_none, h.feed_iff_runPieces CausalLayer.length_memories_runStack hmems hle,
    FeedOk, CausalLayer.runPieces, List.map_append]
  constructor
  · rintro ⟨hok, rest, ⟨hrest, rfl, rfl⟩, rfl⟩
    exact ⟨⟨hok, hrest⟩, rfl, rfl⟩
  · rintro ⟨⟨hok, hrest⟩, rfl, rfl⟩
    exact ⟨hok, _, ⟨hrest, rfl, rfl⟩, rfl⟩

end RunsStack

/-! ## Generation -/

variable (pick : Y → Token)

/-- Generate by recomputing the whole text for every token. -/
def regenerate (numLayers : ℕ) : ℕ → List Token → Except ForwardError (List Token)
  | 0, ids => .ok ids
  | n + 1, ids =>
    match (oneShot forward numLayers ids).1 with
    | .error e => .error e
    | .ok logits =>
      match logits.getLast? with
      | none => .error .panicked
      | some last => regenerate numLayers n (ids ++ [pick last])

/-- The decode loop of a Llama model, after the token that follows the prompt. -/
def decodeSteps : ℕ → List Token → Token → List (Option (List M)) →
    Except ForwardError (List Token)
  | 0, tokens, _, _ => .ok tokens
  | steps + 1, tokens, nextToken, caches =>
    let pos := tokens.length - 1
    match forward [nextToken] [pos] caches with
    | (.error e, _) => .error e
    | (.ok logits, caches) =>
      match logits.head? with
      | none => .error .panicked
      | some row => decodeSteps steps (tokens ++ [pick row]) (pick row) caches

/-- The loop of a Qwen or a DeepSeek model, with the number of tokens that are left. -/
def generateLoop : ℕ → List Token → List Y → List (Option (List M)) →
    Except ForwardError (List Token)
  | 0, tokens, _, _ => .ok tokens
  | left + 1, tokens, logits, caches =>
    match logits.getLast? with
    | none => .error .panicked
    | some last =>
      let next := pick last
      let tokens := tokens ++ [next]
      if left = 0 then .ok tokens
      else
        let pos := tokens.length - 1
        match forward [next] [pos] caches with
        | (.error e, _) => .error e
        | (.ok logits, caches) => generateLoop left tokens logits caches

namespace RunsStack

variable {forward pick} {layers : List (CausalLayer X M)} {embed : Token → X} {head : X → Y}
  {ok : ℕ → List Token → Prop} {limit : ℕ∞} {logits : List Y} {caches : List (Option (List M))}
  {ids tokens : List Token} {n : ℕ}

theorem oneShot_snoc_iff (h : RunsStack forward layers embed head ok limit)
    (hok : ∀ ids next, ok 0 ids → (ok 0 (ids ++ [next]) ↔ ok ids.length [next]))
    (hids : oneShot forward layers.length ids = (.ok logits, caches)) {next : Token}
    (hle : ((ids ++ [next]).length : ℕ∞) ≤ limit) {all : List Y}
    {caches' : List (Option (List M))} :
    oneShot forward layers.length (ids ++ [next]) = (.ok all, caches') ↔
      ∃ row, forward [next] [ids.length] caches = (.ok row, caches') ∧ all = logits ++ row := by
  have hids_le : (ids.length : ℕ∞) ≤ limit := (Nat.cast_le.mpr (by simp)).trans hle
  have hfirst : ok 0 ids := ((h.oneShot_iff hids_le).mp hids).1
  have hstep : ok 0 (ids ++ [next]) ↔ ok 0 ids ∧ ok ids.length [next] :=
    (hok ids next hfirst).trans (and_iff_right hfirst).symm
  have hchunks : ((ids ++ [[next]].flatten).length : ℕ∞) ≤ limit := hle
  have hfeed : feed forward (List.replicate layers.length none) 0 [ids, [next]] =
      (.ok all, caches') ↔ _ := h.feed_cons_iff hchunks
  rw [h.oneShot_iff hle, hstep]
  simp only [FeedOk, Nat.zero_add, and_true, List.flatten_cons, List.flatten_nil,
    List.append_nil] at hfeed
  rw [← hfeed, feed, show forward ids (List.range' 0 ids.length) (List.replicate layers.length none)
    = (.ok logits, caches) from hids]
  simp only [feed, Nat.zero_add, List.length_singleton, List.range'_one, List.append_nil]
  rcases forward [next] [ids.length] caches with ⟨e | row, c⟩
  · simp
  · simp only [Prod.mk.injEq, Except.ok.injEq]
    constructor
    · rintro ⟨rfl, rfl⟩
      exact ⟨row, ⟨rfl, rfl⟩, rfl⟩
    · rintro ⟨_, ⟨rfl, rfl⟩, rfl⟩
      exact ⟨rfl, rfl⟩

theorem exists_last (h : RunsStack forward layers embed head ok limit)
    (hids : oneShot forward layers.length ids = (.ok logits, caches)) {next : Token}
    (hle : ((ids ++ [next]).length : ℕ∞) ≤ limit) {row : List Y}
    {caches' : List (Option (List M))}
    (hrow : forward [next] [ids.length] caches = (.ok row, caches')) : ∃ last, row = [last] := by
  have hids_le : (ids.length : ℕ∞) ≤ limit :=
    (Nat.cast_le.mpr (by simp)).trans hle
  have hnext : ([next].length : ℕ∞) ≤ limit := (Nat.cast_le.mpr (by simp)).trans hle
  have hlen : caches.length = layers.length ∧ ∀ cache ∈ caches, (cache.getD []).length =
      ids.length := by
    obtain ⟨-, -, rfl⟩ := (h.oneShot_iff hids_le).mp hids
    refine ⟨by rw [List.length_map, CausalLayer.length_memories_runStack], ?_⟩
    simp only [List.forall_mem_map, Option.getD_some]
    intro mem hmem
    rw [CausalLayer.length_of_mem_runStack_nil hmem, List.length_map]
  change forward [next] (List.range' ids.length [next].length) caches = _ at hrow
  obtain ⟨-, rfl, -⟩ := (h.forward_eq_ok_iff hnext hlen.1 hlen.2 row caches').mp hrow
  exact List.length_eq_one_iff.mp (by simp)

theorem length_of_oneShot (h : RunsStack forward layers embed head ok limit)
    (hle : (ids.length : ℕ∞) ≤ limit)
    (hids : oneShot forward layers.length ids = (.ok logits, caches)) :
    logits.length = ids.length := by
  obtain ⟨-, rfl, -⟩ := (h.oneShot_iff hle).mp hids
  simp

theorem regenerate_snoc_iff (h : RunsStack forward layers embed head ok limit)
    (hok : ∀ ids next, ok 0 ids → (ok 0 (ids ++ [next]) ↔ ok ids.length [next]))
    (hids : oneShot forward layers.length ids = (.ok logits, caches)) {next : Token}
    (hle : ((ids ++ [next]).length : ℕ∞) ≤ limit) :
    regenerate forward pick layers.length (n + 1) (ids ++ [next]) = .ok tokens ↔
      ∃ last caches', forward [next] [ids.length] caches = (.ok [last], caches') ∧
        oneShot forward layers.length (ids ++ [next]) = (.ok (logits ++ [last]), caches') ∧
        regenerate forward pick layers.length n (ids ++ [next] ++ [pick last]) = .ok tokens := by
  rw [regenerate]
  rcases hone : oneShot forward layers.length (ids ++ [next]) with ⟨e | all, caches'⟩
  · simp
  · obtain ⟨row, hrow, rfl⟩ := (h.oneShot_snoc_iff hok hids hle).mp hone
    obtain ⟨last, rfl⟩ := h.exists_last hids hle hrow
    simp only [List.getLast?_concat, hrow, Prod.mk.injEq, Except.ok.injEq, List.cons.injEq,
      and_true]
    constructor
    · intro hgen
      exact ⟨last, caches', ⟨rfl, rfl⟩, ⟨rfl, rfl⟩, hgen⟩
    · rintro ⟨_, _, ⟨rfl, rfl⟩, -, hgen⟩
      exact hgen

theorem generateLoop_iff (h : RunsStack forward layers embed head ok limit)
    (hok : ∀ ids next, ok 0 ids → (ok 0 (ids ++ [next]) ↔ ok ids.length [next]))
    {recent : List Y} (hids : oneShot forward layers.length ids = (.ok logits, caches))
    (hlast : recent.getLast? = logits.getLast?) (hle : ((ids.length + n : ℕ) : ℕ∞) ≤ limit) :
    generateLoop forward pick n ids recent caches = .ok tokens ↔
      regenerate forward pick layers.length n ids = .ok tokens := by
  induction n generalizing ids logits caches recent with
  | zero => rfl
  | succ n ih =>
    rw [generateLoop, regenerate, hids, hlast]
    dsimp only
    rcases logits.getLast? with _ | last
    · rfl
    · dsimp only
      obtain _ | n := n
      · rfl
      · have hnext : ((ids ++ [pick last]).length : ℕ∞) ≤ limit := by
          refine (Nat.cast_le.mpr ?_).trans hle
          rw [List.length_append, List.length_singleton]
          omega
        rw [if_neg (Nat.succ_ne_zero n), List.length_append, List.length_singleton,
          Nat.add_sub_cancel]
        rcases hrow : forward [pick last] [ids.length] caches with ⟨e | row, caches'⟩
        · rw [h.regenerate_snoc_iff hok hids hnext, hrow]
          simp
        · obtain ⟨last', rfl⟩ := h.exists_last hids hnext hrow
          refine ih ((h.oneShot_snoc_iff hok hids hnext).mpr ⟨_, hrow, rfl⟩) (by simp) ?_
          rwa [List.length_append, List.length_singleton, Nat.add_right_comm, Nat.add_assoc]

theorem decodeSteps_iff (h : RunsStack forward layers embed head ok limit)
    (hok : ∀ ids next, ok 0 ids → (ok 0 (ids ++ [next]) ↔ ok ids.length [next]))
    (hids : oneShot forward layers.length ids = (.ok logits, caches)) {next : Token}
    (hle : ((ids.length + n : ℕ) : ℕ∞) ≤ limit) :
    decodeSteps forward pick n (ids ++ [next]) next caches = .ok tokens ↔
      regenerate forward pick layers.length n (ids ++ [next]) = .ok tokens := by
  induction n generalizing ids logits caches next with
  | zero => rfl
  | succ n ih =>
    have hnext : ((ids ++ [next]).length : ℕ∞) ≤ limit := by
      refine (Nat.cast_le.mpr ?_).trans hle
      rw [List.length_append, List.length_singleton]
      omega
    have hrest : (((ids ++ [next]).length + n : ℕ) : ℕ∞) ≤ limit := by
      rwa [List.length_append, List.length_singleton, Nat.add_right_comm, Nat.add_assoc]
    rw [decodeSteps, List.length_append, List.length_singleton, Nat.add_sub_cancel,
      h.regenerate_snoc_iff hok hids hnext]
    rcases hrow : forward [next] [ids.length] caches with ⟨e | row, caches'⟩
    · simp
    · obtain ⟨last, rfl⟩ := h.exists_last hids hnext hrow
      have hone := (h.oneShot_snoc_iff hok hids hnext).mpr ⟨_, hrow, rfl⟩
      simp only [List.head?_cons, ih hone hrest, Prod.mk.injEq, Except.ok.injEq, List.cons.injEq,
        and_true]
      constructor
      · intro hgen
        exact ⟨last, caches', ⟨rfl, rfl⟩, hone, hgen⟩
      · rintro ⟨_, _, ⟨rfl, rfl⟩, -, hgen⟩
        exact hgen

theorem generate_iff (h : RunsStack forward layers embed head ok limit)
    (hok : ∀ ids next, ok 0 ids → (ok 0 (ids ++ [next]) ↔ ok ids.length [next])) {maxTokens : ℕ}
    (hle : (maxTokens : ℕ∞) ≤ limit)
    (hids : oneShot forward layers.length ids = (.ok logits, caches)) {last : Y}
    (hlast : logits.getLast? = some last) :
    (if maxTokens ≤ ids.length then .ok ids
      else decodeSteps forward pick (maxTokens - (ids ++ [pick last]).length) (ids ++ [pick last])
        (pick last) caches) = .ok tokens ↔
      regenerate forward pick layers.length (maxTokens - ids.length) ids = .ok tokens := by
  split
  · rw [Nat.sub_eq_zero_of_le ‹_›]
    rfl
  · have hsub : maxTokens - ids.length = maxTokens - (ids ++ [pick last]).length + 1 := by
      rw [List.length_append, List.length_singleton]
      omega
    have hsteps : ((ids.length + (maxTokens - (ids ++ [pick last]).length) : ℕ) : ℕ∞) ≤ limit := by
      refine (Nat.cast_le.mpr ?_).trans hle
      rw [List.length_append, List.length_singleton]
      omega
    rw [h.decodeSteps_iff hok hids hsteps, hsub, regenerate.eq_2, hids]
    dsimp only
    rw [hlast]

end RunsStack

end Forward

/-! ## Layers of a decoder -/

/-- The table has rows for the tokens, and the layers, if there are any, can run so many
rows from a position on. -/
def Fits (vocab : ℕ) (layered : Prop) (ok : ℕ → ℕ → Prop) (start : ℕ) (ids : List Token) : Prop :=
  (∀ id ∈ ids, id.toNat < vocab) ∧ (layered → ok start ids.length)

/-- The positions are known to the rotations. -/
def Known {K : Type} {half : ℕ} (rope : RotaryEmbedding K half) (start n : ℕ) : Prop :=
  ∀ p ∈ List.range' start n, rope.Knows p

section Known

variable {K : Type} {vocab half start : ℕ} {rope : RotaryEmbedding K half} {layered : Prop}
  {ids ids' : List Token}

theorem fits_known_append :
    Fits vocab layered (Known rope) start (ids ++ ids') ↔
      Fits vocab layered (Known rope) start ids ∧
        Fits vocab layered (Known rope) (start + ids.length) ids' := by
  simp only [Fits, Known, List.length_append, ← List.range'_append_1, List.forall_mem_append]
  tauto

theorem fits_known_nil : Fits vocab layered (Known rope) start [] := by simp [Fits, Known]

theorem feedOk_known_iff {chunks : List (List Token)} :
    FeedOk (Fits vocab layered (Known rope)) start chunks ↔
      Fits vocab layered (Known rope) start chunks.flatten := by
  induction chunks generalizing start with
  | nil => simp [FeedOk, fits_known_nil]
  | cons chunk chunks ih => rw [FeedOk, ih, List.flatten_cons, fits_known_append]

end Known

section Layers

variable {K M Y ε : Type} [Zero K] {vocab hidden : ℕ} (table : Fin vocab → Fin hidden → K)

/-- The row of a table at an id, if there is one. -/
def embedRow (id : Token) : Fin hidden → K :=
  if h : id.toNat < vocab then table ⟨id.toNat, h⟩ else 0

def embeddingLookup (ids : List Token) : Except CandleError (List (Fin hidden → K)) :=
  if ids.all (·.toNat < vocab) then .ok (ids.map (embedRow table)) else .error .indexSelect

variable {table} in
theorem embeddingLookup_eq (ids : List Token) [Decidable (∀ id ∈ ids, id.toNat < vocab)] :
    embeddingLookup table ids =
      if ∀ id ∈ ids, id.toNat < vocab then .ok (ids.map (embedRow table))
      else .error .indexSelect := by
  have hall : ids.all (·.toNat < vocab) = true ↔ ∀ id ∈ ids, id.toNat < vocab := by
    rw [List.all_eq_true]
    exact forall₂_congr fun _ _ => decide_eq_true_iff
  exact if_congr hall rfl rfl

/-- A forward pass: the embedding, the layers and what follows them. -/
def forwardTokens (context : ℕ → ε → ForwardError)
    (layers : List (List (Fin hidden → K) → Option (List M) →
      Except ε (List (Fin hidden → K)) × Option (List M)))
    (head : (Fin hidden → K) → Y) (ids : List Token) (caches : List (Option (List M))) :
    Except ForwardError (List Y) × List (Option (List M)) :=
  match embeddingLookup table ids with
  | .error e => (.error (.candle e), caches)
  | .ok rows =>
    match forwardLayers context 0 layers caches rows with
    | (.error e, caches) => (.error e, caches)
    | (.ok rows, caches) => (.ok (rows.map head), caches)

variable {table} {ι : Type} {layers : List ι} {causal : ι → CausalLayer (Fin hidden → K) M}
  {step : ι → List ℕ → List (Fin hidden → K) → Option (List M) →
    Except ε (List (Fin hidden → K)) × Option (List M)} {ok : ℕ → ℕ → Prop} {limit : ℕ∞}

omit [Zero K] in
theorem nil_of_not_pos {past : List M} {rows : List Y} (h : ¬ 0 < past.length + rows.length) :
    past = [] ∧ rows = [] := by
  constructor
  · exact List.length_eq_zero_iff.mp (by omega)
  · exact List.length_eq_zero_iff.mp (by omega)

/-- It is enough to look at one layer. -/
theorem RunsStack.of_layers (context : ℕ → ε → ForwardError) (head : (Fin hidden → K) → Y)
    (hok : ∀ l ∈ layers, ∀ rows cache, (rows.length : ℕ∞) ≤ limit →
      ok (cache.getD []).length rows.length →
      step l (List.range' (cache.getD []).length rows.length) rows cache =
        (.ok ((causal l).run (cache.getD []) rows).1,
          some ((causal l).run (cache.getD []) rows).2))
    (hbad : ∀ l ∈ layers, ∀ rows cache, (rows.length : ℕ∞) ≤ limit →
      ¬ ok (cache.getD []).length rows.length →
      ∃ e, (step l (List.range' (cache.getD []).length rows.length) rows cache).1 = .error e) :
    RunsStack (fun ids positions => forwardTokens table context (layers.map (step · positions))
      head ids) (layers.map causal) (embedRow table) head (Fits vocab (layers ≠ []) ok) limit where
  forward_eq_ok_iff {caches start ids} hle hlen hcaches logits caches' := by
    rw [List.length_map] at hlen
    unfold forwardTokens
    classical
    rw [embeddingLookup_eq]
    by_cases hids : ∀ id ∈ ids, id.toNat < vocab
    swap
    · rw [if_neg hids]
      exact iff_of_false (fun h => by cases congrArg Prod.fst h) fun h => hids h.1.1
    rw [if_pos hids]
    dsimp only
    by_cases hfits : layers ≠ [] → ok start ids.length
    · have hfit : Fits vocab (layers ≠ []) ok start ids := ⟨hids, hfits⟩
      have hrun : forwardLayers context 0 (layers.map (step · (List.range' start ids.length)))
          caches (ids.map (embedRow table)) = _ :=
        forwardLayers_eq_runStack (fun l hl rows cache hrows hcache => by
          have hrow := hok l hl rows cache
          rw [hrows, hcache] at hrow
          exact hrow hle (hfits (List.ne_nil_of_mem hl))) hlen hcaches (List.length_map ..)
      rw [hrun]
      simp only [hfit, true_and, Prod.mk.injEq, Except.ok.injEq]
      exact and_congr eq_comm eq_comm
    · have hfit : ¬ Fits vocab (layers ≠ []) ok start ids := fun h => hfits h.2
      obtain ⟨-, hnot⟩ := Classical.not_imp.mp hfits
      obtain _ | ⟨layer, layers⟩ := layers
      · exact absurd (fun h => absurd rfl h) hfits
      obtain _ | ⟨cache, caches⟩ := caches
      · cases hlen
      have hlayer := hbad layer List.mem_cons_self (ids.map (embedRow table)) cache
      rw [List.length_map, hcaches cache List.mem_cons_self] at hlayer
      obtain ⟨e, he⟩ := hlayer hle hnot
      rw [List.map_cons]
      have herror : (forwardLayers context 0 (step layer (List.range' start ids.length) ::
          layers.map (step · (List.range' start ids.length))) (cache :: caches)
          (ids.map (embedRow table))).1 = .error (context 0 e) := forwardLayers_error he
      rcases hrun : forwardLayers context 0 (step layer (List.range' start ids.length) ::
          layers.map (step · (List.range' start ids.length))) (cache :: caches)
          (ids.map (embedRow table)) with ⟨_ | _, _⟩
      · exact iff_of_false (by simp) fun h => hfit h.1
      · rw [hrun] at herror
        cases herror

end Layers

/-- The last index of the greatest number, as a `u32`. -/
def argmax {K : Type} [LinearOrder K] {vocab : ℕ} (logits : Fin vocab → K) : Token :=
  match (List.ofFn logits).zipIdx with
  | [] => 0
  | first :: rest =>
    UInt32.ofNat (rest.foldl (fun best next => if next.1 < best.1 then best else next) first).2

end Rllm
