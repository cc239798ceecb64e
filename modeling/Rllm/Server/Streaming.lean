import Rllm.Library.LossyUtf8
import Rllm.Server.OpenAI

/-! # Streamed and collected text

A stream decodes every chunk of tokens on its own, a collected answer all of
them at once. The texts agree exactly if no chunk ends inside a character.
-/

namespace Rllm

/-- The outputs that are looked at: up to the final one. -/
def delivered : List RequestOutput → List RequestOutput
  | [] => []
  | output :: outputs => output :: if output.finished then [] else delivered outputs

/-- The tokens of the completions, chunk by chunk. -/
def tokenChunks (outputs : List RequestOutput) : List (List Token) :=
  (delivered outputs).flatMap fun output => output.outputs.map (·.tokenIds)

theorem tokenChunks_cons (output : RequestOutput) (outputs : List RequestOutput) :
    tokenChunks (output :: outputs) =
      output.outputs.map (·.tokenIds) ++ if output.finished then [] else tokenChunks outputs := by
  rw [tokenChunks, delivered, List.flatMap_cons]
  split <;> rfl

/-! ## Collected tokens -/

theorem foldlM_collect {completions : List CompletionOutput} {acc acc' : List Token × String}
    (h : completions.foldlM collectCompletion acc = .ok acc') :
    acc'.1 = acc.1 ++ completions.flatMap (·.tokenIds) := by
  induction completions generalizing acc with
  | nil =>
    obtain rfl := Except.ok.inj h
    exact (List.append_nil _).symm
  | cons c cs ih =>
    rw [List.foldlM_cons] at h
    cases hc : collectCompletion acc c with
    | error e =>
      rw [hc] at h
      cases h
    | ok acc₁ =>
      rw [hc] at h
      have h₁ : acc₁.1 = acc.1 ++ c.tokenIds := by
        unfold collectCompletion at hc
        dsimp only at hc
        split at hc
        · cases hc
        · rw [← Except.ok.inj hc]
        · rw [← Except.ok.inj hc]
      rw [ih h, h₁, List.flatMap_cons, List.append_assoc]

theorem collect_tokens {outputs : List RequestOutput} {acc acc' : List Token × String}
    (h : collect acc outputs = .ok acc') : acc'.1 = acc.1 ++ (tokenChunks outputs).flatten := by
  induction outputs generalizing acc with
  | nil => cases h
  | cons output outputs ih =>
    unfold collect at h
    cases hf : output.outputs.foldlM collectCompletion acc with
    | error e =>
      rw [hf] at h
      cases h
    | ok acc₁ =>
      rw [hf] at h
      have h₁ := foldlM_collect hf
      rw [List.flatMap_def] at h₁
      change (if output.finished then .ok acc₁ else collect acc₁ outputs) = _ at h
      split at h
      · rename_i hfin
        obtain rfl := Except.ok.inj h
        simp [tokenChunks_cons, hfin, h₁]
      · rename_i hfin
        rw [ih h, h₁]
        simp [tokenChunks_cons, hfin]

theorem submitAndCollect_text {decode : List Token → String} {tokenIds : List Token}
    {outputs : List RequestOutput} {c : EngineCompletion}
    (h : submitAndCollect (fun ts => .ok (decode ts)) tokenIds outputs = .ok c) :
    c.text = decode (tokenChunks outputs).flatten := by
  unfold submitAndCollect at h
  cases hc : collect ([], "length") outputs with
  | error e =>
    rw [hc] at h
    cases h
  | ok acc =>
    rw [hc] at h
    rw [← Except.ok.inj h]
    exact congrArg decode (collect_tokens hc)

/-! ## Streamed text -/

variable {decode : List Token → String}

/-- The characters of the chunks, each decoded on its own. -/
def chunkwise (decode : List Token → String) (chunks : List (List Token)) : List Char :=
  chunks.flatMap fun chunk => (decode chunk).toList

theorem chunkwise_append (chunks chunks' : List (List Token)) :
    chunkwise decode (chunks ++ chunks') = chunkwise decode chunks ++ chunkwise decode chunks' :=
  List.flatMap_append

theorem foldl_chunkText (hnil : decode [] = "") (completions : List CompletionOutput)
    (text : String) :
    (completions.foldl (fun text completion =>
      if completion.tokenIds.isEmpty then text
      else
        match (.ok (decode completion.tokenIds) : Except String String) with
        | .ok t => text ++ t
        | .error _ => text) text).toList =
      text.toList ++ chunkwise decode (completions.map (·.tokenIds)) := by
  induction completions generalizing text with
  | nil => simp [chunkwise]
  | cons c cs ih =>
    rw [List.foldl_cons, ih, List.map_cons, chunkwise, chunkwise, List.flatMap_cons,
      ← List.append_assoc]
    congr 1
    cases hids : c.tokenIds with
    | nil => simp [hnil]
    | cons t ts => simp

theorem chatStream_chunkText (hnil : decode [] = "") (completions : List CompletionOutput) :
    (ChatStream.chunkText (fun ts => .ok (decode ts)) completions).toList =
      chunkwise decode (completions.map (·.tokenIds)) :=
  foldl_chunkText hnil completions ""

theorem grpcStream_chunkText (completions : List CompletionOutput) :
    GrpcStream.chunkText (fun ts => .ok (decode ts)) completions =
      .ok (ChatStream.chunkText (fun ts => .ok (decode ts)) completions) := by
  unfold GrpcStream.chunkText ChatStream.chunkText
  generalize "" = text
  induction completions generalizing text with
  | nil => rfl
  | cons c cs ih =>
    rw [List.foldlM_cons, List.foldl_cons]
    split
    · exact ih text
    · exact ih _

theorem chatStream_text (hnil : decode [] = "") (outputs : List RequestOutput) :
    contentText (ChatStream.stream (fun ts => .ok (decode ts)) none outputs) =
      .ofList (chunkwise decode (tokenChunks outputs)) := by
  have hevents : ∀ (outputs : List RequestOutput) (buffered : List Token),
      (ChatStream.events (fun ts => .ok (decode ts)) none buffered outputs).flatMap
        (fun chunk => (chunk.delta.content.getD "").toList) =
        chunkwise decode (tokenChunks outputs) := by
    intro outputs
    induction outputs with
    | nil => exact fun _ => rfl
    | cons output outputs ih =>
      intro buffered
      have htext := chatStream_chunkText hnil output.outputs
      have hchunks : ∀ text : String, (if !text.isEmpty || (engineFinishReason output).isSome then
          [contentChunk text output] else []).flatMap
          (fun chunk => (chunk.delta.content.getD "").toList) = text.toList := by
        intro text
        split
        · simp [contentChunk]
        · rename_i hempty
          have htext : text = "" := by
            simp only [Bool.or_eq_true, Bool.not_eq_true', not_or, Bool.not_eq_false] at hempty
            exact String.isEmpty_iff.mp hempty.1
          simp [htext]
      rw [ChatStream.events, List.flatMap_append, hchunks, htext, tokenChunks_cons,
        chunkwise_append]
      split
      · rfl
      · rw [ih]
  rw [contentText, ChatStream.stream, List.flatMap_cons, hevents]
  rfl

theorem grpcStream_eq (outputs : List RequestOutput) :
    GrpcStream.stream (fun ts => .ok (decode ts)) none outputs =
      (ChatStream.stream (fun ts => .ok (decode ts)) none outputs, none) := by
  have hevents : ∀ (outputs : List RequestOutput) (buffered : List Token),
      GrpcStream.events (fun ts => .ok (decode ts)) none buffered outputs =
        (ChatStream.events (fun ts => .ok (decode ts)) none buffered outputs, none) := by
    intro outputs
    induction outputs with
    | nil => exact fun _ => rfl
    | cons output outputs ih =>
      intro buffered
      rw [GrpcStream.events, ChatStream.events, GrpcStream.chunks, grpcStream_chunkText]
      dsimp only
      rw [← apply_ite Except.ok]
      dsimp only
      cases output.finished with
      | true => simp only [if_true, List.append_nil]
      | false => simp only [Bool.false_eq_true, if_false, ih]
  rw [GrpcStream.stream, hevents]
  rfl

/-! ## Split characters -/

/-- The text of some tokens, by way of their bytes. -/
def lossyText (bytes : Token → List UInt8) (tokens : List Token) : String :=
  .ofList (LossyUtf8.decode (tokens.flatMap bytes))

theorem lossyText_chunks (bytes : Token → List UInt8) (chunks : List (List Token)) :
    String.ofList (chunkwise (lossyText bytes) chunks) = lossyText bytes chunks.flatten ↔
      LossyUtf8.Aligned (chunks.map fun chunk => chunk.flatMap bytes) := by
  have hchunks : chunkwise (lossyText bytes) chunks =
      (chunks.map fun chunk => chunk.flatMap bytes).flatMap LossyUtf8.decode := by
    rw [List.flatMap_map]
    exact List.flatMap_congr fun chunk _ => String.toList_ofList
  have hwhole : chunks.flatten.flatMap bytes =
      (chunks.map fun chunk => chunk.flatMap bytes).flatten := by
    simp only [List.flatMap_def, List.map_flatten, List.flatten_flatten, List.map_map]
    rfl
  rw [lossyText, String.ofList_inj, hchunks, hwhole, LossyUtf8.decode_chunks_iff]

/-- Both streams have the text of the collected answer exactly if no chunk of tokens ends inside a
character. -/
theorem streamed_eq_collected_iff (bytes : Token → List UInt8) (tokenIds : List Token)
    (outputs : List RequestOutput) (c : EngineCompletion)
    (h : submitAndCollect (fun ts => .ok (lossyText bytes ts)) tokenIds outputs = .ok c) :
    (contentText (ChatStream.stream (fun ts => .ok (lossyText bytes ts)) none outputs) = c.text ↔
      LossyUtf8.Aligned ((tokenChunks outputs).map fun chunk => chunk.flatMap bytes)) ∧
    (contentText (GrpcStream.stream (fun ts => .ok (lossyText bytes ts)) none outputs).1 = c.text ↔
      LossyUtf8.Aligned ((tokenChunks outputs).map fun chunk => chunk.flatMap bytes)) := by
  have hnil : lossyText bytes [] = "" := rfl
  rw [grpcStream_eq, chatStream_text hnil, submitAndCollect_text h, lossyText_chunks, and_self]

/-- Two outputs of one token each; the second ends the request. -/
def twoOutputs (first second : Token) : List RequestOutput :=
  [{ requestId := 1, outputs := [{ tokenIds := [first], finishReason := none }]
     finished := false, usage := ⟨1, 1, 2⟩ },
   { requestId := 1, outputs := [{ tokenIds := [second], finishReason := some .length }]
     finished := true, usage := ⟨1, 2, 3⟩ }]

/-- The bytes of the character `é`, one token for each. -/
def accentBytes (t : Token) : List UInt8 :=
  if t = 1 then [0xC3] else if t = 2 then [0xA9] else [0x61]

theorem streamed_eq_collected_small :
    (contentText (ChatStream.stream (fun ts => .ok (lossyText accentBytes ts)) none
      (twoOutputs 3 3)) = "aa" ↔
      LossyUtf8.Aligned ((tokenChunks (twoOutputs 3 3)).map fun chunk =>
        chunk.flatMap accentBytes)) ∧
    (contentText (GrpcStream.stream (fun ts => .ok (lossyText accentBytes ts)) none
      (twoOutputs 3 3)).1 = "aa" ↔
      LossyUtf8.Aligned ((tokenChunks (twoOutputs 3 3)).map fun chunk =>
        chunk.flatMap accentBytes)) :=
  streamed_eq_collected_iff accentBytes [5] (twoOutputs 3 3) ⟨"aa", ⟨1, 2, 3⟩, "length"⟩
    (by decide +kernel)

/-- The character is streamed as two replacement characters. -/
theorem streamed_ne_collected : ¬ ∀ (bytes : Token → List UInt8) (tokenIds : List Token)
    (outputs : List RequestOutput) (c : EngineCompletion),
    submitAndCollect (fun ts => .ok (lossyText bytes ts)) tokenIds outputs = .ok c →
    contentText (ChatStream.stream (fun ts => .ok (lossyText bytes ts)) none outputs) = c.text := by
  intro h
  have he := h accentBytes [5] (twoOutputs 1 2) ⟨"é", ⟨1, 2, 3⟩, "length"⟩ (by decide +kernel)
  revert he
  decide +kernel

end Rllm
