import Rllm.Tokenizer.Detokenizer

/-! # Decoding bytes in chunks

The bytes of a text come in chunks that are cut anywhere, also inside a
character, and what is held back goes with the next chunk. The cut is never
inside of something that the next byte could go on with, so the texts of the
chunks and the text of what is left at the end make the text of all the bytes.
-/

namespace Rllm

open LossyUtf8

/-- What each call returns and holds back. -/
def decodeChunks (partialBytes : List UInt8) :
    List (List UInt8) → Except String (List (List Char × List UInt8))
  | [] => .ok []
  | newBytes :: chunks => do
    let (text, partialBytes) ← decodeUtf8Partial partialBytes newBytes
    let calls ← decodeChunks partialBytes chunks
    return (text, partialBytes) :: calls

/-- What is held back after the last call. -/
def heldAfter (partialBytes : List UInt8) (calls : List (List Char × List UInt8)) : List UInt8 :=
  calls.foldl (fun _ call => call.2) partialBytes

/-- Some bytes that are decoded and some that are held back. -/
structure Cut (safe held : List UInt8) : Prop where
  closed : ∀ more, ¬ Continues (openAfter none safe) (held ++ more)
  incomplete : ∀ c, ¬ String.utf8EncodeChar c <:+: held

variable {safe held before tail : List UInt8} {b : UInt8}

namespace Cut

theorem of_closed (hsafe : openAfter none safe = none)
    (hheld : ∀ c ∈ held, ContinuationRange.all.Contains c) : Cut safe held where
  closed more := by
    rw [hsafe]
    rintro ⟨p, ⟨⟩, -⟩
  incomplete := not_encodeChar_infix_of_contains hheld

theorem of_first (hb : ¬ ContinuationRange.all.Contains b)
    (hnext : ∀ next, continuation b = some next → tail.length < next.length)
    (htail : ∀ c ∈ tail, ContinuationRange.all.Contains c) : Cut safe (b :: tail) where
  closed more := by
    rintro ⟨p, -, c, hc, hcontains⟩
    obtain rfl := Option.some.inj hc
    exact hb hcontains.all
  incomplete := not_encodeChar_infix_cons hnext htail

theorem decode (h : Cut safe held) (more : List UInt8) :
    decode (safe ++ (held ++ more)) = LossyUtf8.decode safe ++ LossyUtf8.decode (held ++ more) :=
  decode_append_of_not_continues (h.closed more)

end Cut

theorem not_contains_of_ascii (hb : b < 0x80) : ¬ ContinuationRange.all.Contains b :=
  fun h => absurd hb (UInt8.not_lt.mpr h.1)

theorem not_contains_of_lead (hb : 0xC0 ≤ b) : ¬ ContinuationRange.all.Contains b :=
  fun h => absurd hb (UInt8.not_le.mpr (UInt8.lt_of_le_of_lt h.2 (by decide)))

theorem contains_of_not (hascii : ¬ b < 0x80) (hlead : ¬ 0xC0 ≤ b) :
    ContinuationRange.all.Contains b := by
  rw [contains_iff]
  rw [UInt8.lt_iff_toNat_lt] at hascii
  rw [UInt8.le_iff_toNat_le] at hlead
  simp only [ContinuationRange.all, UInt8.reduceToNat] at hascii hlead ⊢
  omega

theorem openAfter_concat (before : List UInt8) (hb : ¬ ContinuationRange.all.Contains b)
    (hnext : ∀ next, continuation b = some next → next = []) :
    openAfter none (before ++ [b]) = none := by
  rw [openAfter_append]
  refine openAfter_first _ hb (fun next hcont => ?_) fun c hc => absurd hc List.not_mem_nil
  rw [hnext next hcont]
  exact le_rfl

theorem openAfter_concat_of_ascii (before : List UInt8) (hb : b < 0x80) :
    openAfter none (before ++ [b]) = none := by
  refine openAfter_concat before (not_contains_of_ascii hb) fun next hcont => ?_
  rw [continuation, if_pos hb] at hcont
  exact (Option.some.inj hcont).symm

theorem findSafeUtf8BoundaryFrom_cut (before tail : List UInt8)
    (htail : ∀ c ∈ tail, ContinuationRange.all.Contains c) :
    ∃ safe held, safe ++ held = before ++ tail ∧ Cut safe held ∧
      findSafeUtf8BoundaryFrom (before ++ tail) before.length = .ok safe.length := by
  induction before using List.reverseRecOn generalizing tail with
  | nil => exact ⟨[], tail, rfl, .of_closed rfl htail, rfl⟩
  | append_singleton before b ih =>
    have hbytes : before ++ [b] ++ tail = before ++ b :: tail := List.append_assoc ..
    have hget : (before ++ b :: tail)[before.length]? = some b := by simp
    have hlen : (before ++ b :: tail).length - before.length = tail.length + 1 := by simp
    rw [hbytes, List.length_append, List.length_singleton, findSafeUtf8BoundaryFrom,
      Checked.index, hget]
    simp only [ok_bind, hlen]
    split_ifs with hascii hlead hneeded
    · have hopen := openAfter_concat_of_ascii before hascii
      refine ⟨before ++ [b], tail, hbytes, .of_closed hopen htail, ?_⟩
      rw [List.length_append]
      rfl
    · -- the sequence of the first byte is complete, or cannot be
      have hopen : openAfter none (before ++ b :: tail) = none := by
        rw [openAfter_append]
        refine openAfter_first _ (not_contains_of_lead hlead) (fun next hcont => ?_) htail
        have hlength := utf8SequenceLength_eq hcont
        omega
      refine ⟨before ++ b :: tail, [], List.append_nil _, .of_closed hopen ?_, rfl⟩
      exact fun c hc => absurd hc List.not_mem_nil
    · refine ⟨before, b :: tail, rfl, .of_first (not_contains_of_lead hlead) ?_ htail, rfl⟩
      intro next hcont
      have hlength := utf8SequenceLength_eq hcont
      omega
    · refine ih (b :: tail) fun c hc => ?_
      rcases List.mem_cons.mp hc with rfl | hc
      · exact contains_of_not hascii hlead
      · exact htail c hc

theorem findSafeUtf8Boundary_cut (bytes : List UInt8) :
    ∃ safe held, safe ++ held = bytes ∧ Cut safe held ∧
      findSafeUtf8Boundary bytes = .ok safe.length := by
  have h := findSafeUtf8BoundaryFrom_cut bytes [] fun c hc => absurd hc List.not_mem_nil
  rwa [List.append_nil] at h

theorem openAfter_of_clean {bytes : List UInt8} (h : isCleanUtf8Boundary bytes = true) :
    openAfter none bytes = none := by
  rcases List.eq_nil_or_concat' bytes with rfl | ⟨before, b, rfl⟩
  · rfl
  rw [isCleanUtf8Boundary, List.getLast?_concat] at h
  simp only [Bool.and_eq_true, Bool.not_eq_true', decide_eq_false_iff_not] at h
  obtain ⟨hnot, hlead⟩ := h
  refine openAfter_concat before hnot fun next hcont => ?_
  cases next with
  | nil => rfl
  | cons r rest =>
    have hge : 0xC0 ≤ b := (lead_of_continuation hcont).2
    have hlarge : 0xF7 < b := UInt8.not_le.mp fun hle => hlead ⟨hge, hle⟩
    rw [continuation_of_large hlarge] at hcont
    cases hcont

/-- One call decodes the bytes up to a cut. -/
theorem decodeUtf8Partial_cut (partialBytes newBytes : List UInt8) :
    ∃ safe held, safe ++ held = partialBytes ++ newBytes ∧ Cut safe held ∧
      decodeUtf8Partial partialBytes newBytes = .ok (decode safe, held) := by
  rw [decodeUtf8Partial]
  split_ifs with hclean
  · rw [Bool.and_eq_true, List.isEmpty_iff] at hclean
    obtain ⟨rfl, hclean⟩ := hclean
    refine ⟨newBytes, [], List.append_nil _, .of_closed (openAfter_of_clean hclean) ?_, rfl⟩
    exact fun c hc => absurd hc List.not_mem_nil
  · obtain ⟨safe, held, hbytes, hcut, hfind⟩ :=
      findSafeUtf8Boundary_cut (partialBytes ++ newBytes)
    have hle : safe.length ≤ (safe ++ held).length := by simp
    refine ⟨safe, held, hbytes, hcut, ?_⟩
    rw [← hbytes] at hfind ⊢
    simp only [hfind, ok_bind, Checked.slice_of_le (Nat.zero_le _) hle, List.drop_zero,
      Nat.sub_zero, List.take_left, List.drop_left]
    rfl

/-- The texts of the chunks and of what is left, after some bytes that were held back. -/
theorem decodeChunks_from (chunks : List (List UInt8)) (partialBytes : List UInt8) :
    ∃ calls, decodeChunks partialBytes chunks = .ok calls ∧
      calls.flatMap Prod.fst ++ decode (heldAfter partialBytes calls) =
        decode (partialBytes ++ chunks.flatten) ∧
      ∀ call ∈ calls, ∀ c, ¬ String.utf8EncodeChar c <:+: call.2 := by
  induction chunks generalizing partialBytes with
  | nil =>
    refine ⟨[], rfl, ?_, fun call hcall => absurd hcall List.not_mem_nil⟩
    rw [List.flatten_nil, List.append_nil]
    rfl
  | cons newBytes chunks ih =>
    obtain ⟨safe, held, hbytes, hcut, hcall⟩ := decodeUtf8Partial_cut partialBytes newBytes
    obtain ⟨calls, hcalls, htext, hheld⟩ := ih held
    refine ⟨(decode safe, held) :: calls, ?_, ?_, ?_⟩
    · rw [decodeChunks, hcall]
      simp only [ok_bind, hcalls]
      rfl
    · rw [List.flatten_cons, ← List.append_assoc, ← hbytes, List.append_assoc, hcut.decode,
        ← htext, List.flatMap_cons, List.append_assoc]
      rfl
    · intro call hmem
      rcases List.mem_cons.mp hmem with rfl | hmem
      · exact hcut.incomplete
      · exact hheld call hmem

/-- However bytes are cut into chunks, the texts of the chunks and the text of the bytes that
are left make the text of all the bytes, and no call leaves the bytes of a character. -/
theorem decodeChunks_text (chunks : List (List UInt8)) :
    ∃ calls, decodeChunks [] chunks = .ok calls ∧
      calls.flatMap Prod.fst ++ decode (heldAfter [] calls) = decode chunks.flatten ∧
      ∀ call ∈ calls, ∀ c, ¬ String.utf8EncodeChar c <:+: call.2 :=
  decodeChunks_from chunks []

example : decodeChunks [] [[0xE6, 0x97], [0xA5, 0xE6, 0x9C]] =
    .ok [([], [0xE6, 0x97]), (['日'], [0xE6, 0x9C])] := by
  decide

end Rllm
