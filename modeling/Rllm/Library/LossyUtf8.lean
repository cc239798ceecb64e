import Mathlib.Algebra.Group.Nat.Defs
import Mathlib.Data.List.Basic
import Mathlib.Data.List.Forall2
import Mathlib.Data.Nat.Basic
import Mathlib.Order.Basic

/-! # Lossy UTF-8

Decoding bytes with a replacement character for every maximal piece that begins
no sequence, or begins one that does not go on. The decoder is an automaton
over the bytes. Decoding in chunks gives the same text exactly if no chunk ends
inside a sequence that the next byte continues; otherwise it gives more
characters.
-/

namespace Rllm

/-- A range of bytes that may continue a sequence. -/
structure ContinuationRange where
  low : UInt8
  high : UInt8
  low_ge : 0x80 ≤ low := by decide
  high_le : high ≤ 0xBF := by decide

namespace ContinuationRange

def all : ContinuationRange where
  low := 0x80
  high := 0xBF

def Contains (r : ContinuationRange) (b : UInt8) : Prop := r.low ≤ b ∧ b ≤ r.high

instance (r : ContinuationRange) (b : UInt8) : Decidable (r.Contains b) :=
  inferInstanceAs (Decidable (_ ∧ _))

theorem Contains.all {r : ContinuationRange} {b : UInt8} (h : r.Contains b) :
    ContinuationRange.all.Contains b :=
  ⟨UInt8.le_trans r.low_ge h.1, UInt8.le_trans h.2 r.high_le⟩

end ContinuationRange

namespace LossyUtf8

/-- The bytes that must follow a first byte, if it begins a sequence. -/
def continuation (b : UInt8) : Option (List ContinuationRange) :=
  if b < 0x80 then some []
  else if b < 0xC2 then none
  else if b < 0xE0 then some [.all]
  else if b = 0xE0 then some [{ low := 0xA0, high := 0xBF }, .all]
  else if b = 0xED then some [{ low := 0x80, high := 0x9F }, .all]
  else if b < 0xF0 then some [.all, .all]
  else if b = 0xF0 then some [{ low := 0x90, high := 0xBF }, .all, .all]
  else if b < 0xF4 then some [.all, .all, .all]
  else if b = 0xF4 then some [{ low := 0x80, high := 0x8F }, .all, .all]
  else none

/-- A sequence that has begun: its bits so far and the ranges of its next bytes. -/
structure Pending where
  code : ℕ
  next : ContinuationRange
  rest : List ContinuationRange

def replacement : Char := Char.ofNat 0xFFFD

/-- A byte outside of a sequence. -/
def start (b : UInt8) : List Char × Option Pending :=
  match continuation b with
  | none => ([replacement], none)
  | some [] => ([Char.ofNat b.toNat], none)
  | some (next :: rest) => ([], some ⟨b.toNat % 2 ^ (5 - rest.length), next, rest⟩)

/-- The characters that a byte completes, and what it leaves open. -/
def step : Option Pending → UInt8 → List Char × Option Pending
  | none, b => start b
  | some p, b =>
    if p.next.Contains b then
      match p.rest with
      | [] => ([Char.ofNat (p.code * 64 + b.toNat % 64)], none)
      | next :: rest => ([], some ⟨p.code * 64 + b.toNat % 64, next, rest⟩)
    else (replacement :: (start b).1, (start b).2)

/-- A sequence that is open at the end is replaced. -/
def flush : Option Pending → List Char
  | none => []
  | some _ => [replacement]

def decodeFrom : Option Pending → List UInt8 → List Char
  | s, [] => flush s
  | s, b :: bs => (step s b).1 ++ decodeFrom (step s b).2 bs

def decode (bs : List UInt8) : List Char := decodeFrom none bs

/-- The characters that some bytes complete. -/
def emitted : Option Pending → List UInt8 → List Char
  | _, [] => []
  | s, b :: bs => (step s b).1 ++ emitted (step s b).2 bs

/-- What some bytes leave open. -/
def openAfter (s : Option Pending) (bs : List UInt8) : Option Pending :=
  bs.foldl (fun s b => (step s b).2) s

/-- The first of the bytes goes on with the open sequence. -/
def Continues (s : Option Pending) (bs : List UInt8) : Prop :=
  ∃ p ∈ s, ∃ b ∈ bs.head?, p.next.Contains b

instance (s : Option Pending) (bs : List UInt8) : Decidable (Continues s bs) :=
  match s, bs with
  | none, _ => isFalse fun ⟨_, hp, _⟩ => nomatch hp
  | some _, [] => isFalse fun ⟨_, _, _, hb, _⟩ => nomatch hb
  | some p, b :: _ =>
    decidable_of_iff (p.next.Contains b)
      ⟨fun h => ⟨p, rfl, b, rfl, h⟩, fun ⟨_, hp, _, hb, h⟩ =>
        Option.some.inj hp ▸ Option.some.inj hb ▸ h⟩

variable {s : Option Pending} {a b : List UInt8} {c : UInt8}

theorem continuation_of_contains {r : ContinuationRange} (h : r.Contains c) :
    continuation c = none := by
  obtain ⟨hlow, hhigh⟩ : 0x80 ≤ c ∧ c ≤ 0xBF := h.all
  unfold continuation
  rw [if_neg (UInt8.not_lt.mpr hlow), if_pos]
  exact UInt8.lt_of_le_of_lt hhigh (by decide)

theorem start_of_contains {r : ContinuationRange} (h : r.Contains c) :
    start c = ([replacement], none) := by
  rw [start, continuation_of_contains h]

theorem decodeFrom_append (s : Option Pending) (a b : List UInt8) :
    decodeFrom s (a ++ b) = emitted s a ++ decodeFrom (openAfter s a) b := by
  induction a generalizing s with
  | nil => rfl
  | cons c a ih =>
    rw [List.cons_append, decodeFrom, emitted, List.append_assoc, ih]
    rfl

theorem decodeFrom_eq (s : Option Pending) (a : List UInt8) :
    decodeFrom s a = emitted s a ++ flush (openAfter s a) := by
  have h := decodeFrom_append s a []
  rwa [List.append_nil] at h

theorem decode_cons_of_contains {r : ContinuationRange} (h : r.Contains c) (bs : List UInt8) :
    decode (c :: bs) = replacement :: decode bs := by
  rw [decode, decodeFrom, step, start_of_contains h]
  rfl

theorem decodeFrom_of_not_continues (h : ¬ Continues s b) :
    decodeFrom s b = flush s ++ decode b := by
  cases s with
  | none => rfl
  | some p =>
    cases b with
    | nil => rfl
    | cons c bs =>
      have hc : ¬ p.next.Contains c := fun hc => h ⟨p, rfl, c, rfl, hc⟩
      rw [decodeFrom, step, if_neg hc]
      rfl

theorem length_decodeFrom_le (p : Pending) (bs : List UInt8) :
    (decodeFrom (some p) bs).length ≤ (decode bs).length + 1 := by
  induction bs generalizing p with
  | nil => exact le_rfl
  | cons c bs ih =>
    by_cases hc : p.next.Contains c
    · rw [decode_cons_of_contains hc, decodeFrom, step, if_pos hc]
      cases p.rest with
      | nil => exact Nat.le_succ _
      | cons next rest => exact (ih _).trans (Nat.le_succ _)
    · have hnot : ¬ Continues (some p) (c :: bs) := by
        rintro ⟨_, ⟨⟩, _, ⟨⟩, h⟩
        exact hc h
      rw [decodeFrom_of_not_continues hnot, List.length_append, Nat.add_comm]
      rfl

theorem length_of_continues (h : Continues s b) :
    (decodeFrom s b).length < (flush s ++ decode b).length := by
  obtain ⟨p, rfl, c, hc, hin⟩ := h
  obtain ⟨bs, rfl⟩ : ∃ bs, b = c :: bs := by
    cases b with
    | nil => cases hc
    | cons c' bs => exact ⟨bs, by rw [Option.some.inj hc]⟩
  have hlen : (flush (some p) ++ decode (c :: bs)).length = (decode bs).length + 2 := by
    rw [decode_cons_of_contains hin, List.length_append, List.length_cons, Nat.add_comm]
    rfl
  rw [hlen, decodeFrom, step, if_pos hin]
  cases p.rest with
  | nil => exact Nat.lt_succ_self _
  | cons next rest => exact Nat.lt_succ_of_le (length_decodeFrom_le _ bs)

/-! ## Chunks -/

theorem decode_append_of_not_continues (h : ¬ Continues (openAfter none a) b) :
    decode (a ++ b) = decode a ++ decode b := by
  rw [decode, decodeFrom_append, decodeFrom_of_not_continues h, ← List.append_assoc,
    ← decodeFrom_eq]
  rfl

theorem length_append_of_continues (h : Continues (openAfter none a) b) :
    (decode (a ++ b)).length < (decode a ++ decode b).length := by
  have hlt := length_of_continues h
  rw [decode, decodeFrom_append, decode, decodeFrom_eq none a, List.append_assoc,
    List.length_append, List.length_append]
  exact Nat.add_lt_add_left hlt _

theorem length_decode_append_le (a b : List UInt8) :
    (decode (a ++ b)).length ≤ (decode a ++ decode b).length := by
  by_cases h : Continues (openAfter none a) b
  · exact (length_append_of_continues h).le
  · rw [decode_append_of_not_continues h]

/-- No chunk ends inside a sequence that the next byte continues. -/
def Aligned : List (List UInt8) → Prop
  | [] => True
  | chunk :: chunks => ¬ Continues (openAfter none chunk) chunks.flatten ∧ Aligned chunks

theorem length_chunks_le (chunks : List (List UInt8)) :
    (decode chunks.flatten).length ≤ (chunks.flatMap decode).length := by
  induction chunks with
  | nil => exact le_rfl
  | cons chunk chunks ih =>
    refine (length_decode_append_le chunk chunks.flatten).trans ?_
    rw [List.flatMap_cons, List.length_append, List.length_append]
    exact Nat.add_le_add_left ih _

/-- The chunks decode to the text of the whole exactly if they are aligned. -/
theorem decode_chunks_iff (chunks : List (List UInt8)) :
    chunks.flatMap decode = decode chunks.flatten ↔ Aligned chunks := by
  induction chunks with
  | nil => exact iff_of_true rfl True.intro
  | cons chunk chunks ih =>
    rw [List.flatMap_cons, List.flatten_cons, Aligned]
    by_cases hc : Continues (openAfter none chunk) chunks.flatten
    · refine iff_of_false (fun he => ?_) fun h => h.1 hc
      have hlt := length_append_of_continues hc
      have hle := length_chunks_le chunks
      rw [← he, List.length_append, List.length_append] at hlt
      omega
    · rw [decode_append_of_not_continues hc, List.append_cancel_left_eq, ih, and_iff_right hc]

example : decode [0xE6, 0x97, 0xA5] = ['日'] ∧
    [[0xE6, 0x97], [0xA5]].flatMap decode = [replacement, replacement] := by
  decide

/-! ## What is left open -/

theorem openAfter_append (s : Option Pending) (a b : List UInt8) :
    openAfter s (a ++ b) = openAfter (openAfter s a) b :=
  List.foldl_append

theorem step_of_not_contains (s : Option Pending) (h : ¬ ContinuationRange.all.Contains c) :
    (step s c).2 = (start c).2 := by
  cases s with
  | none => rfl
  | some p => rw [step, if_neg fun hc => h hc.all]

theorem openAfter_none_of_contains (h : ∀ c ∈ a, ContinuationRange.all.Contains c) :
    openAfter none a = none := by
  induction a with
  | nil => rfl
  | cons c a ih =>
    have hstep : (step none c).2 = none := by
      rw [step, start_of_contains (h c List.mem_cons_self)]
    change openAfter (step none c).2 a = none
    rw [hstep]
    exact ih fun d hd => h d (List.mem_cons_of_mem c hd)

theorem openAfter_some_of_contains (p : Pending)
    (h : ∀ c ∈ a, ContinuationRange.all.Contains c) (hlen : p.rest.length < a.length) :
    openAfter (some p) a = none := by
  induction a generalizing p with
  | nil => cases hlen
  | cons c a ih =>
    have hrest : ∀ d ∈ a, ContinuationRange.all.Contains d :=
      fun d hd => h d (List.mem_cons_of_mem c hd)
    change openAfter (step (some p) c).2 a = none
    by_cases hc : p.next.Contains c
    · rw [step, if_pos hc]
      cases hp : p.rest with
      | nil => exact openAfter_none_of_contains hrest
      | cons next rest =>
        rw [hp] at hlen
        exact ih _ hrest (Nat.lt_of_succ_lt_succ hlen)
    · rw [step, if_neg hc, start_of_contains (h c List.mem_cons_self)]
      exact openAfter_none_of_contains hrest

/-- A first byte with as many bytes after it as it asks for leaves nothing open. -/
theorem openAfter_first (s : Option Pending) (hfirst : ¬ ContinuationRange.all.Contains c)
    (hnext : ∀ next, continuation c = some next → next.length ≤ a.length)
    (h : ∀ d ∈ a, ContinuationRange.all.Contains d) : openAfter s (c :: a) = none := by
  change openAfter (step s c).2 a = none
  rw [step_of_not_contains s hfirst, start]
  cases hcont : continuation c with
  | none => exact openAfter_none_of_contains h
  | some next =>
    cases next with
    | nil => exact openAfter_none_of_contains h
    | cons r rest => exact openAfter_some_of_contains _ h (hnext _ hcont)

/-! ## Valid text -/

/-- The bytes of a text. -/
def encode (cs : List Char) : List UInt8 := cs.flatMap String.utf8EncodeChar

theorem continuation_eq (b : UInt8) : continuation b =
    if b.toNat < 0x80 then some []
    else if b.toNat < 0xC2 then none
    else if b.toNat < 0xE0 then some [.all]
    else if b.toNat = 0xE0 then some [{ low := 0xA0, high := 0xBF }, .all]
    else if b.toNat = 0xED then some [{ low := 0x80, high := 0x9F }, .all]
    else if b.toNat < 0xF0 then some [.all, .all]
    else if b.toNat = 0xF0 then some [{ low := 0x90, high := 0xBF }, .all, .all]
    else if b.toNat < 0xF4 then some [.all, .all, .all]
    else if b.toNat = 0xF4 then some [{ low := 0x80, high := 0x8F }, .all, .all]
    else none := by
  simp only [continuation, UInt8.lt_iff_toNat_lt, ← UInt8.toNat_inj, UInt8.reduceToNat]

theorem continuation_of_large {b : UInt8} (h : 0xF7 < b) : continuation b = none := by
  have hlt : 0xF7 < b.toNat := h
  rw [continuation_eq]
  split_ifs <;> first | rfl | omega

theorem contains_iff {r : ContinuationRange} {b : UInt8} :
    r.Contains b ↔ r.low.toNat ≤ b.toNat ∧ b.toNat ≤ r.high.toNat := by
  rw [ContinuationRange.Contains, UInt8.le_iff_toNat_le, UInt8.le_iff_toNat_le]

theorem contains_all (n : ℕ) : ContinuationRange.all.Contains (UInt8.ofNat (n % 64 + 0x80)) := by
  rw [contains_iff, UInt8.toNat_ofNat']
  simp only [ContinuationRange.all, UInt8.reduceToNat]
  omega

/-- The bits of a first byte. -/
def leading (b : UInt8) : List ContinuationRange → ℕ
  | [] => b.toNat
  | _ :: rest => b.toNat % 2 ^ (5 - rest.length)

/-- The bits of a sequence. -/
def bits (code : ℕ) (bytes : List UInt8) : ℕ :=
  bytes.foldl (fun code b => code * 64 + b.toNat % 64) code

/-- A sequence that is complete and its character. -/
def Sequence (c : Char) (bytes : List UInt8) : Prop :=
  ∃ first next follow, bytes = first :: follow ∧ continuation first = some next ∧
    List.Forall₂ ContinuationRange.Contains next follow ∧
    bits (leading first next) follow = c.toNat

theorem decodeFrom_fits {r : ContinuationRange} {rest : List ContinuationRange}
    {follow : List UInt8} (h : List.Forall₂ ContinuationRange.Contains (r :: rest) follow)
    (code : ℕ) (bs : List UInt8) :
    decodeFrom (some ⟨code, r, rest⟩) (follow ++ bs) =
      Char.ofNat (bits code follow) :: decode bs := by
  induction rest generalizing r code follow with
  | nil =>
    rcases h with _ | ⟨hb, ⟨⟩⟩
    rw [List.cons_append, decodeFrom, step, if_pos hb]
    rfl
  | cons r' rest ih =>
    rcases h with _ | ⟨hb, hrest⟩
    rw [List.cons_append, decodeFrom, step, if_pos hb]
    exact ih hrest _

theorem Sequence.decode {c : Char} {bytes : List UInt8} (s : Sequence c bytes)
    (bs : List UInt8) : decode (bytes ++ bs) = c :: decode bs := by
  obtain ⟨b, next, follow, rfl, hcont, hfits, hvalue⟩ := s
  rw [List.cons_append, LossyUtf8.decode, decodeFrom, step, start, hcont, ← Char.ofNat_toNat c,
    ← hvalue]
  cases next with
  | nil =>
    cases hfits
    rfl
  | cons r rest => exact decodeFrom_fits hfits _ bs

theorem sequence_encodeChar (c : Char) : Sequence c (String.utf8EncodeChar c) := by
  have hvalid : c.val.toNat < 0xD800 ∨ 0xDFFF < c.val.toNat ∧ c.val.toNat < 0x110000 := c.valid
  unfold String.utf8EncodeChar Sequence
  change ∃ first next follow, _ ∧ _ ∧ _ ∧ _ = c.val.toNat
  dsimp only
  generalize c.val.toNat = n at *
  split
  · refine ⟨_, [], _, rfl, ?_, .nil, ?_⟩
    · rw [continuation_eq, UInt8.toNat_ofNat', if_pos (by omega)]
    · rw [leading, UInt8.toNat_ofNat']
      exact Nat.mod_eq_of_lt (by omega)
  split
  · refine ⟨_, [.all], _, rfl, ?_, .cons (contains_all n) .nil, ?_⟩
    · rw [continuation_eq, UInt8.toNat_ofNat', if_neg (by omega), if_neg (by omega),
        if_pos (by omega)]
    · simp only [bits, leading, List.foldl_cons, List.foldl_nil, UInt8.toNat_ofNat',
        List.length_nil]
      omega
  split
  · obtain ⟨r, h, h₁⟩ : ∃ r, continuation (UInt8.ofNat (n / 4096 % 16 + 0xe0)) =
        some [r, .all] ∧ r.Contains (UInt8.ofNat (n / 64 % 64 + 0x80)) := by
      rw [continuation_eq, UInt8.toNat_ofNat', if_neg (by omega), if_neg (by omega),
        if_neg (by omega)]
      split
      · refine ⟨_, rfl, ?_⟩
        rw [contains_iff, UInt8.toNat_ofNat']
        simp only [UInt8.reduceToNat]
        omega
      · split
        · refine ⟨_, rfl, ?_⟩
          rw [contains_iff, UInt8.toNat_ofNat']
          simp only [UInt8.reduceToNat]
          omega
        · rw [if_pos (by omega)]
          exact ⟨_, rfl, contains_all _⟩
    refine ⟨_, [r, .all], _, rfl, h, .cons h₁ (.cons (contains_all n) .nil), ?_⟩
    simp only [bits, leading, List.foldl_cons, List.foldl_nil, UInt8.toNat_ofNat',
      List.length_nil, List.length_cons]
    omega
  · obtain ⟨r, h, h₁⟩ : ∃ r, continuation (UInt8.ofNat (n / 262144 % 8 + 0xf0)) =
        some [r, .all, .all] ∧ r.Contains (UInt8.ofNat (n / 4096 % 64 + 0x80)) := by
      rw [continuation_eq, UInt8.toNat_ofNat', if_neg (by omega), if_neg (by omega),
        if_neg (by omega), if_neg (by omega), if_neg (by omega), if_neg (by omega)]
      split
      · refine ⟨_, rfl, ?_⟩
        rw [contains_iff, UInt8.toNat_ofNat']
        simp only [UInt8.reduceToNat]
        omega
      · split
        · exact ⟨_, rfl, contains_all _⟩
        · rw [if_pos (by omega)]
          refine ⟨_, rfl, ?_⟩
          rw [contains_iff, UInt8.toNat_ofNat']
          simp only [UInt8.reduceToNat]
          omega
    refine ⟨_, [r, .all, .all], _, rfl, h, .cons h₁ (.cons (contains_all _)
      (.cons (contains_all n) .nil)), ?_⟩
    simp only [bits, leading, List.foldl_cons, List.foldl_nil, UInt8.toNat_ofNat',
      List.length_nil, List.length_cons]
    omega

theorem not_encodeChar_infix_of_contains (h : ∀ d ∈ a, ContinuationRange.all.Contains d)
    (char : Char) : ¬ String.utf8EncodeChar char <:+: a := by
  obtain ⟨first, next, follow, hbytes, hfirst, -⟩ := sequence_encodeChar char
  intro hinfix
  have hmem : first ∈ a := hinfix.subset (hbytes ▸ List.mem_cons_self)
  rw [continuation_of_contains (h first hmem)] at hfirst
  cases hfirst

theorem not_encodeChar_infix_cons
    (hnext : ∀ next, continuation c = some next → a.length < next.length)
    (h : ∀ d ∈ a, ContinuationRange.all.Contains d) (char : Char) :
    ¬ String.utf8EncodeChar char <:+: c :: a := by
  intro hinfix
  rcases List.infix_cons_iff.mp hinfix with hprefix | htail
  · obtain ⟨first, next, follow, hbytes, hfirst, hfits, -⟩ := sequence_encodeChar char
    rw [hbytes] at hprefix
    obtain ⟨rfl, hfollow⟩ := List.cons_prefix_cons.mp hprefix
    have hle : next.length ≤ a.length := hfits.length_eq.trans_le hfollow.length_le
    exact absurd (hnext next hfirst) hle.not_gt
  · exact not_encodeChar_infix_of_contains h char htail

theorem decode_encode (cs : List Char) : decode (encode cs) = cs := by
  induction cs with
  | nil => rfl
  | cons c cs ih => rw [encode, List.flatMap_cons, (sequence_encodeChar c).decode, ← encode, ih]

end LossyUtf8

end Rllm
