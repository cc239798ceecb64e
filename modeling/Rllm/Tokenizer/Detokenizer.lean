import Rllm.Library.Checked
import Rllm.Library.LossyUtf8
import Rllm.Library.Search

/-! # The streaming detokenizer

The texts of the tokens come one at a time. Text is held back as long as a stop
string may begin in it, by the number of bytes of the longest stop string, and
a stop string is cut off with what follows in the same token. A text is the
list of its characters, its length and its offsets count bytes, and a slice
inside of a character panics.
-/

namespace Rllm

inductive OutputMode
  | delta
  | cumulative
  | finalOnly
  deriving DecidableEq, Repr

structure StreamingDetokenizer where
  partialBytes : List UInt8
  stopBuffer : List Char
  stopStrings : List (List Char)
  outputMode : OutputMode
  cumulativeText : List Char
  deriving DecidableEq

/-! ## Bytes -/

def isCleanUtf8Boundary (bytes : List UInt8) : Bool :=
  match bytes.getLast? with
  | none => true
  | some last => ! decide (0x80 ≤ last ∧ last ≤ 0xBF) && ! decide (0xC0 ≤ last ∧ last ≤ 0xF7)

def utf8SequenceLength (firstByte : UInt8) : ℕ :=
  if firstByte < 0x80 then 1
  else if firstByte < 0xE0 then 2
  else if firstByte < 0xF0 then 3
  else 4

/-- The loop of `findSafeUtf8Boundary`, which looks at the byte before index `i`. -/
def findSafeUtf8BoundaryFrom (bytes : List UInt8) : ℕ → Except String ℕ
  | 0 => .ok 0
  | i + 1 => do
    let b ← Checked.index bytes i
    if b < 0x80 then return i + 1
    if 0xC0 ≤ b then
      let needed := utf8SequenceLength b
      if needed ≤ bytes.length - i then return bytes.length
      return i
    findSafeUtf8BoundaryFrom bytes i

/-- The end of the last sequence that is complete. -/
def findSafeUtf8Boundary (bytes : List UInt8) : Except String ℕ :=
  findSafeUtf8BoundaryFrom bytes bytes.length

/-- The text of some bytes after those held back before, and the bytes held back now. -/
def decodeUtf8Partial (partialBytes newBytes : List UInt8) :
    Except String (List Char × List UInt8) := do
  if partialBytes.isEmpty && isCleanUtf8Boundary newBytes then
    return (LossyUtf8.decode newBytes, partialBytes)
  let partialBytes := partialBytes ++ newBytes
  let safeEnd ← findSafeUtf8Boundary partialBytes
  let safe ← Checked.slice partialBytes 0 safeEnd
  return (LossyUtf8.decode safe, partialBytes.drop safeEnd)

/-! ## Valid bytes -/

section

open LossyUtf8

variable {b : UInt8} {next : List ContinuationRange}

theorem utf8SequenceLength_eq (h : continuation b = some next) :
    utf8SequenceLength b = next.length + 1 := by
  rw [continuation_eq] at h
  simp only [utf8SequenceLength, UInt8.lt_iff_toNat_lt, UInt8.reduceToNat]
  split_ifs at h <;> obtain rfl := Option.some.inj h <;> split_ifs <;> first | rfl | omega

theorem ascii_of_continuation (h : continuation b = some []) : b < 0x80 := by
  have hlen := utf8SequenceLength_eq h
  rw [utf8SequenceLength] at hlen
  by_contra hlt
  rw [if_neg hlt] at hlen
  split_ifs at hlen <;> cases hlen

theorem lead_of_continuation {r : ContinuationRange} (h : continuation b = some (r :: next)) :
    ¬ b < 0x80 ∧ 0xC0 ≤ b := by
  constructor
  · intro hlt
    rw [continuation, if_pos hlt] at h
    cases h
  · refine UInt8.not_lt.mp fun hlt => ?_
    have hinvalid : b < 0xC2 := UInt8.lt_trans hlt (by decide)
    rw [continuation, if_pos hinvalid] at h
    split at h <;> cases h

theorem follow_of_fits {follow : List UInt8}
    (hfits : List.Forall₂ ContinuationRange.Contains next follow) (hb : b ∈ follow) :
    ¬ b < 0x80 ∧ ¬ 0xC0 ≤ b ∧ 0x80 ≤ b ∧ b ≤ 0xBF := by
  induction hfits with
  | nil => cases hb
  | @cons r c next follow hr _ ih =>
    rcases List.mem_cons.mp hb with rfl | hb
    · have hlow : 0x80 ≤ b := UInt8.le_trans r.low_ge hr.1
      have hhigh : b ≤ 0xBF := UInt8.le_trans hr.2 r.high_le
      refine ⟨UInt8.not_lt.mpr hlow, UInt8.not_le.mpr ?_, hlow, hhigh⟩
      exact UInt8.lt_of_le_of_lt hhigh (by decide)
    · exact ih hb

/-- The loop goes back over the bytes that follow a first byte, and finds the sequence
complete. -/
theorem findSafeUtf8BoundaryFrom_follow {first : UInt8} {follow : List UInt8}
    (hfirst : continuation first = some next) (hne : next ≠ [])
    (hfits : List.Forall₂ ContinuationRange.Contains next follow) (before : List UInt8) {j : ℕ}
    (hj : j ≤ follow.length) :
    findSafeUtf8BoundaryFrom (before ++ first :: follow) (before.length + j + 1) =
      .ok (before ++ first :: follow).length := by
  induction j with
  | zero =>
    obtain ⟨r, rest, rfl⟩ := List.exists_cons_of_ne_nil hne
    have hget : (before ++ first :: follow)[before.length]? = some first := by simp
    obtain ⟨hascii, hlead⟩ := lead_of_continuation hfirst
    have hlen : utf8SequenceLength first ≤
        (before ++ first :: follow).length - before.length := by
      rw [utf8SequenceLength_eq hfirst, hfits.length_eq, List.length_append, List.length_cons]
      omega
    rw [Nat.add_zero, findSafeUtf8BoundaryFrom, Checked.index, hget]
    simp only [ok_bind, if_neg hascii, if_pos hlead, if_pos hlen]
    rfl
  | succ j ih =>
    have hlt : j < follow.length := hj
    have hget : (before ++ first :: follow)[before.length + (j + 1)]? = some follow[j] := by
      simp [List.getElem?_append_right]
    obtain ⟨hascii, hlead, -⟩ := follow_of_fits hfits (List.getElem_mem hlt)
    rw [findSafeUtf8BoundaryFrom, Checked.index, hget]
    simp only [ok_bind, if_neg hascii, if_neg hlead]
    exact ih hlt.le

theorem decodeUtf8Partial_encode (text : List Char) :
    decodeUtf8Partial [] (encode text) = .ok (text, []) := by
  rcases List.eq_nil_or_concat' text with rfl | ⟨text, c, rfl⟩
  · rfl
  obtain ⟨first, next, follow, hbytes, hfirst, hfits, -⟩ := sequence_encodeChar c
  have henc : encode (text ++ [c]) = encode text ++ first :: follow := by
    rw [encode, List.flatMap_append, List.flatMap_singleton, hbytes]
    rfl
  cases next with
  | nil =>
    cases hfits
    have hclean : isCleanUtf8Boundary (encode (text ++ [c])) = true := by
      have hascii := ascii_of_continuation hfirst
      rw [henc, isCleanUtf8Boundary, List.getLast?_concat]
      simp only [Bool.and_eq_true, Bool.not_eq_true', decide_eq_false_iff_not, not_and]
      exact ⟨fun h => absurd hascii (UInt8.not_lt.mpr h),
        fun h => absurd hascii (UInt8.not_lt.mpr (UInt8.le_trans (by decide) h))⟩
    rw [decodeUtf8Partial, hclean, decode_encode]
    rfl
  | cons r rest =>
    have hclean : isCleanUtf8Boundary (encode (text ++ [c])) = false := by
      have hne : follow ≠ [] := by
        rintro rfl
        cases hfits
      obtain ⟨-, -, hlow, hhigh⟩ := follow_of_fits hfits (List.getLast_mem hne)
      rw [henc, isCleanUtf8Boundary, List.getLast?_append_of_ne_nil _ (List.cons_ne_nil _ _),
        List.getLast?_cons_of_ne_nil hne, List.getLast?_eq_some_getLast hne]
      simp only [hlow, hhigh, and_self, decide_true, Bool.not_true, Bool.false_and]
    have hsafe : findSafeUtf8Boundary (encode (text ++ [c])) =
        .ok (encode (text ++ [c])).length := by
      have h := findSafeUtf8BoundaryFrom_follow hfirst (List.cons_ne_nil _ _) hfits (encode text)
        le_rfl
      rw [findSafeUtf8Boundary, henc, ← h, List.length_append, List.length_cons]
      rfl
    rw [decodeUtf8Partial, hclean, List.nil_append]
    simp only [hsafe, ok_bind, Checked.slice_of_le (Nat.zero_le _) le_rfl, List.drop_zero,
      Nat.sub_zero, List.take_length, List.drop_length, decode_encode]
    rfl

end

/-! ## Texts -/

/-- The length of a text in bytes. -/
abbrev byteLen (text : List Char) : ℕ := Search.weight Char.utf8Size text

/-- The two sides of a byte offset. -/
def splitBytes (text : List Char) (offset : ℕ) : Except String (List Char × List Char) :=
  match Search.split Char.utf8Size text offset with
  | some sides => .ok sides
  | none => .error "byte index is not a char boundary"

def maxStopLen (stopStrings : List (List Char)) : ℕ := (stopStrings.map byteLen).max?.getD 0

/-- The first stop string of the list that a text contains. -/
def firstStop (stopStrings : List (List Char)) (text : List Char) : Option (List Char) :=
  stopStrings.find? (Search.contains · text)

namespace StreamingDetokenizer

def new (stopStrings : List (List Char)) : StreamingDetokenizer where
  partialBytes := []
  stopBuffer := []
  stopStrings := stopStrings
  outputMode := .delta
  cumulativeText := []

def withOutputMode (d : StreamingDetokenizer) (mode : OutputMode) : StreamingDetokenizer :=
  { d with outputMode := mode }

/-- What is returned with some more text. -/
def output (d : StreamingDetokenizer) (delta : List Char) : Option (List Char) :=
  match d.outputMode with
  | .delta => some delta
  | .cumulative => some d.cumulativeText
  | .finalOnly => none

/-- What is returned with a stop string. -/
def outputBefore (d : StreamingDetokenizer) (stop before : List Char) :
    Except String (Option (List Char)) :=
  match d.outputMode with
  | .delta => .ok (some before)
  | .cumulative =>
    match Search.rfind Char.utf8Size stop d.cumulativeText with
    | some pos => do
      let (cumul, _) ← splitBytes d.cumulativeText pos
      return some cumul
    | none => .ok (some d.cumulativeText)
  | .finalOnly => .ok none

def decodeToken (d : StreamingDetokenizer) (tokenText : List Char) :
    Except String (Option (List Char) × StreamingDetokenizer) := do
  let (decoded, partialBytes) ← decodeUtf8Partial d.partialBytes (LossyUtf8.encode tokenText)
  let d := { d with partialBytes, cumulativeText := d.cumulativeText ++ decoded }
  if d.outputMode = .finalOnly then return (none, d)
  if d.stopStrings = [] then return (d.output decoded, d)
  let d := { d with stopBuffer := d.stopBuffer ++ decoded }
  match firstStop d.stopStrings d.stopBuffer with
  | some stop =>
    let some idx := Search.find Char.utf8Size stop d.stopBuffer
      | throw "called unwrap on a None value"
    let (before, _) ← splitBytes d.stopBuffer idx
    let d := { d with stopBuffer := [] }
    return (← d.outputBefore stop before, d)
  | none =>
    if maxStopLen d.stopStrings < byteLen d.stopBuffer then
      let safeLen := byteLen d.stopBuffer - maxStopLen d.stopStrings
      let (delta, held) ← splitBytes d.stopBuffer safeLen
      let d := { d with stopBuffer := held }
      return (d.output delta, d)
    return (none, d)

def flush (d : StreamingDetokenizer) : List Char × StreamingDetokenizer :=
  let remaining := LossyUtf8.decode d.partialBytes
  let d := if d.partialBytes = [] then d else { d with
    partialBytes := []
    stopBuffer := d.stopBuffer ++ remaining
    cumulativeText := d.cumulativeText ++ remaining }
  let result := d.stopBuffer
  let d := { d with stopBuffer := [] }
  match d.outputMode with
  | .delta => (result, d)
  | .cumulative | .finalOnly => (d.cumulativeText, { d with cumulativeText := [] })

/-- What is returned for each token, and at the end. -/
def feed (d : StreamingDetokenizer) :
    List (List Char) → Except String (List (Option (List Char)) × List Char)
  | [] => .ok ([], d.flush.1)
  | tokenText :: tokens => do
    let (piece, d) ← d.decodeToken tokenText
    let (pieces, final) ← d.feed tokens
    return (piece :: pieces, final)

end StreamingDetokenizer

end Rllm
