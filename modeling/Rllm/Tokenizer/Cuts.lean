import Mathlib.Data.List.Find
import Rllm.Tokenizer.Detokenizer

/-! # Where the streaming detokenizer cuts

The text since the last cut is the text already let out and the text held back.
The stop strings are searched in what is held back alone, and are found where
they are in the whole.
-/

namespace Rllm

open Search

theorem utf8Size_pos (c : Char) : 0 < c.utf8Size := Char.utf8Size_pos c

variable {stops : List (List Char)} {text out held more stop : List Char}

theorem byteLen_append (a b : List Char) : byteLen (a ++ b) = byteLen a + byteLen b :=
  weight_append a b

theorem byteLen_le_maxStopLen (h : stop ∈ stops) : byteLen stop ≤ maxStopLen stops := by
  have hmem : byteLen stop ∈ stops.map byteLen := List.mem_map_of_mem h
  cases hmax : (stops.map byteLen).max? with
  | none =>
    rw [List.max?_eq_none_iff.mp hmax] at hmem
    cases hmem
  | some n =>
    rw [maxStopLen, hmax]
    exact (List.max?_eq_some_iff.mp hmax).2 _ hmem

theorem firstStop_eq_none_iff :
    firstStop stops text = none ↔ ∀ stop ∈ stops, ¬ stop <:+: text := by
  simp only [firstStop, List.find?_eq_none, contains_iff]

theorem firstStop_eq_some (h : firstStop stops text = some stop) :
    stop ∈ stops ∧ ∃ a, before stop text = some a := by
  have hfound : stops.find? (contains · text) = some stop := h
  have hcontains := List.find?_some hfound
  exact ⟨List.mem_of_find?_eq_some hfound, exists_before (contains_iff.mp hcontains)⟩

/-- The text since the last cut, in two parts: what is let out, and what is held back to
find the stop strings that begin in it. -/
structure Window (stops : List (List Char)) (text out held : List Char) : Prop where
  append : out ++ held = text
  short : out = [] ∨ byteLen held = maxStopLen stops
  free : out = [] ∨ ∀ stop ∈ stops, ¬ stop <:+: text
  bounded : byteLen held ≤ maxStopLen stops

namespace Window

theorem nil (stops : List (List Char)) : Window stops [] [] [] :=
  ⟨rfl, .inl rfl, .inl rfl, Nat.zero_le _⟩

/-- The stop strings are found where they are in the whole text. -/
theorem before_append (h : Window stops text out held) (hstop : stop ∈ stops) :
    before stop (text ++ more) = (before stop (held ++ more)).map (out ++ ·) := by
  obtain ⟨rfl, hshort, hfree, -⟩ := h
  rcases hshort with rfl | hlen
  · exact (Option.map_id' ..).symm
  rcases hfree with rfl | hfree
  · exact (Option.map_id' ..).symm
  rw [List.append_assoc]
  exact Search.before_append utf8Size_pos (hfree stop hstop)
    ((byteLen_le_maxStopLen hstop).trans hlen.ge)

theorem firstStop_append (h : Window stops text out held) :
    firstStop stops (held ++ more) = firstStop stops (text ++ more) := by
  refine List.find?_congr fun stop hstop => ?_
  rw [contains, contains, h.before_append hstop, Option.isSome_map]

theorem split_append (h : Window stops text out held) :
    (Search.split Char.utf8Size (text ++ more)
      (byteLen (text ++ more) - maxStopLen stops)).isSome =
      (Search.split Char.utf8Size (held ++ more)
        (byteLen (held ++ more) - maxStopLen stops)).isSome := by
  obtain ⟨rfl, hshort, -, hbound⟩ := h
  rcases hshort with rfl | hlen
  · rfl
  have hrest : byteLen (out ++ held ++ more) - maxStopLen stops =
      byteLen out + (byteLen (held ++ more) - maxStopLen stops) := by
    rw [byteLen_append, byteLen_append, byteLen_append]
    omega
  rw [hrest, List.append_assoc, split_isSome_append utf8Size_pos]

end Window

theorem splitBytes_eq_ok {offset : ℕ} {a b : List Char}
    (h : Search.split Char.utf8Size text offset = some (a, b)) :
    splitBytes text offset = .ok (a, b) := by
  rw [splitBytes, h]

theorem splitBytes_append (a b : List Char) : splitBytes (a ++ b) (byteLen a) = .ok (a, b) :=
  splitBytes_eq_ok (Search.split_append utf8Size_pos a b)

namespace StreamingDetokenizer

variable {d : StreamingDetokenizer}

theorem outputBefore_eq_ok (hmode : d.outputMode ≠ .finalOnly) (stop a : List Char) :
    ∃ c, c <+: d.cumulativeText ∧
      d.outputBefore stop a = .ok (some (if d.outputMode = .delta then a else c)) := by
  unfold outputBefore
  cases hm : d.outputMode with
  | delta => exact ⟨[], List.nil_prefix, rfl⟩
  | cumulative =>
    cases hb : beforeLast stop d.cumulativeText with
    | none =>
      refine ⟨d.cumulativeText, List.prefix_rfl, ?_⟩
      simp only [rfind, hb, Option.map_none]
      rfl
    | some c =>
      obtain ⟨rest, hrest⟩ := beforeLast_isPrefix hb
      refine ⟨c, ⟨rest, hrest⟩, ?_⟩
      simp only [rfind, hb, Option.map_some]
      rw [← hrest, splitBytes_append]
      rfl
  | finalOnly => exact absurd hm hmode

theorem decodeToken_cut (hbytes : d.partialBytes = []) (hmode : d.outputMode ≠ .finalOnly)
    (hwin : Window d.stopStrings text out d.stopBuffer)
    (hfirst : firstStop d.stopStrings (text ++ more) = some stop) :
    ∃ a c, before stop (text ++ more) = some (out ++ a) ∧ c <+: d.cumulativeText ++ more ∧
      d.decodeToken more = .ok (some (if d.outputMode = .delta then a else c),
        { d with stopBuffer := [], cumulativeText := d.cumulativeText ++ more }) := by
  have hstops : d.stopStrings ≠ [] := by
    intro hnil
    rw [hnil] at hfirst
    cases hfirst
  obtain ⟨hstop, a', ha'⟩ := firstStop_eq_some hfirst
  rw [hwin.before_append hstop] at ha'
  obtain ⟨a, ha, rfl⟩ := Option.map_eq_some_iff.mp ha'
  obtain ⟨rest, hrest⟩ := before_eq_append ha
  obtain ⟨c, hc, hout⟩ := outputBefore_eq_ok (d := { d with
    stopBuffer := [], cumulativeText := d.cumulativeText ++ more }) hmode stop a
  refine ⟨a, c, by rw [hwin.before_append hstop, ha]; rfl, hc, ?_⟩
  have hsplit : splitBytes (d.stopBuffer ++ more) (byteLen a) = .ok (a, stop ++ rest) := by
    rw [hrest, List.append_assoc, splitBytes_append]
  rw [decodeToken, hbytes, decodeUtf8Partial_encode]
  simp only [ok_bind, if_neg hmode, if_neg hstops, hwin.firstStop_append, hfirst, Search.find, ha,
    Option.map_some, hsplit]
  rw [hbytes] at hout
  rw [hout]
  rfl

theorem output_eq (hmode : d.outputMode ≠ .finalOnly) (a : List Char) :
    d.output a = some (if d.outputMode = .delta then a else d.cumulativeText) := by
  unfold output
  cases hm : d.outputMode with
  | delta => rfl
  | cumulative => rfl
  | finalOnly => exact absurd hm hmode

theorem decodeToken_of_nil (hbytes : d.partialBytes = []) (hmode : d.outputMode ≠ .finalOnly)
    (hstops : d.stopStrings = []) (more : List Char) :
    d.decodeToken more = .ok (some (if d.outputMode = .delta then more else
      d.cumulativeText ++ more), { d with cumulativeText := d.cumulativeText ++ more }) := by
  have hout := output_eq (d := { d with cumulativeText := d.cumulativeText ++ more }) hmode more
  rw [decodeToken, hbytes, decodeUtf8Partial_encode]
  simp only [ok_bind, if_neg hmode, if_pos hstops]
  rw [hbytes] at hout
  rw [hout]
  rfl

theorem decodeToken_of_none (hbytes : d.partialBytes = []) (hmode : d.outputMode ≠ .finalOnly)
    (hstops : d.stopStrings ≠ [])
    (hfirst : firstStop d.stopStrings (d.stopBuffer ++ more) = none) :
    d.decodeToken more = (do
      let d' := { d with
        stopBuffer := d.stopBuffer ++ more, cumulativeText := d.cumulativeText ++ more }
      if maxStopLen d.stopStrings < byteLen (d.stopBuffer ++ more) then
        let (delta, held) ← splitBytes (d.stopBuffer ++ more)
          (byteLen (d.stopBuffer ++ more) - maxStopLen d.stopStrings)
        return (some (if d.outputMode = .delta then delta else d.cumulativeText ++ more),
          { d' with stopBuffer := held })
      return (none, d')) := by
  rw [decodeToken, hbytes, decodeUtf8Partial_encode]
  simp only [ok_bind, if_neg hmode, if_neg hstops, hfirst]
  split
  · refine bind_congr fun sides => ?_
    have hout := output_eq (d := { d with
      stopBuffer := sides.2, cumulativeText := d.cumulativeText ++ more }) hmode sides.1
    rw [hbytes] at hout
    rw [hout]
  · rfl

theorem decodeToken_on (hbytes : d.partialBytes = []) (hmode : d.outputMode ≠ .finalOnly)
    (hwin : Window d.stopStrings text out d.stopBuffer)
    (hfirst : firstStop d.stopStrings (text ++ more) = none)
    (hsplit : (Search.split Char.utf8Size (text ++ more)
      (byteLen (text ++ more) - maxStopLen d.stopStrings)).isSome) :
    ∃ a held piece, d.decodeToken more = .ok (piece,
        { d with stopBuffer := held, cumulativeText := d.cumulativeText ++ more }) ∧
      Window d.stopStrings (text ++ more) (out ++ a) held ∧
      (d.outputMode = .delta → piece.getD [] = a) ∧
      (d.outputMode ≠ .delta → ∀ c ∈ piece, c = d.cumulativeText ++ more) := by
  have hfree := firstStop_eq_none_iff.mp hfirst
  by_cases hstops : d.stopStrings = []
  · have hheld : d.stopBuffer = [] := by
      have hbound := hwin.bounded
      rw [hstops] at hbound
      exact weight_eq_zero utf8Size_pos (Nat.le_zero.mp hbound)
    have happend := hwin.append
    rw [hheld, List.append_nil] at happend
    refine ⟨more, d.stopBuffer, _, decodeToken_of_nil hbytes hmode hstops more,
      ⟨by rw [happend, hheld, List.append_nil], .inr ?_, .inr hfree, hwin.bounded⟩,
      fun hm => by rw [if_pos hm]; rfl, fun hm c hc => ?_⟩
    · rw [hheld, hstops]
      rfl
    · rw [if_neg hm] at hc
      exact (Option.some.inj hc).symm
  · rw [decodeToken_of_none hbytes hmode hstops (hwin.firstStop_append.trans hfirst)]
    rw [hwin.split_append] at hsplit
    by_cases hlong : maxStopLen d.stopStrings < byteLen (d.stopBuffer ++ more)
    · obtain ⟨⟨a, held⟩, hs⟩ := Option.isSome_iff_exists.mp hsplit
      obtain ⟨happend, hlen⟩ := split_eq_some hs
      have hheld : byteLen held = maxStopLen d.stopStrings := by
        change byteLen a = _ at hlen
        rw [← happend, byteLen_append] at hlong hlen
        omega
      refine ⟨a, held, some (if d.outputMode = .delta then a else d.cumulativeText ++ more), ?_,
        ⟨?_, .inr hheld, .inr hfree, hheld.le⟩, fun hm => by rw [if_pos hm]; rfl, fun hm c hc => ?_⟩
      · simp only [if_pos hlong, splitBytes_eq_ok hs, ok_bind]
        rfl
      · rw [List.append_assoc, happend, ← List.append_assoc, hwin.append]
      · rw [if_neg hm] at hc
        exact (Option.some.inj hc).symm
    · refine ⟨[], d.stopBuffer ++ more, none, ?_, ⟨?_, ?_, .inr hfree, not_lt.mp hlong⟩,
        fun _ => rfl, fun _ c hc => nomatch hc⟩
      · simp only [if_neg hlong]
        rfl
      · rw [List.append_nil, ← List.append_assoc, hwin.append]
      · rw [List.append_nil]
        refine hwin.short.imp_right fun hshort => ?_
        rw [byteLen_append] at hlong ⊢
        omega

theorem decodeToken_panics (hbytes : d.partialBytes = []) (hmode : d.outputMode ≠ .finalOnly)
    (hwin : Window d.stopStrings text out d.stopBuffer)
    (hfirst : firstStop d.stopStrings (text ++ more) = none)
    (hsplit : ¬ (Search.split Char.utf8Size (text ++ more)
      (byteLen (text ++ more) - maxStopLen d.stopStrings)).isSome) :
    ¬ Returns (d.decodeToken more) := by
  have hstops : d.stopStrings ≠ [] := by
    intro hnil
    refine hsplit ?_
    have h := Search.split_append utf8Size_pos (text ++ more) []
    rw [List.append_nil] at h
    rw [hnil]
    exact Option.isSome_iff_exists.mpr ⟨_, h⟩
  rw [decodeToken_of_none hbytes hmode hstops (hwin.firstStop_append.trans hfirst)]
  rw [hwin.split_append, Bool.not_eq_true, Option.isSome_eq_false_iff,
    Option.isNone_iff_eq_none] at hsplit
  have hlong : maxStopLen d.stopStrings < byteLen (d.stopBuffer ++ more) := by
    by_contra hle
    rw [Nat.sub_eq_zero_of_le (not_lt.mp hle), split_zero] at hsplit
    cases hsplit
  simp only [if_pos hlong, splitBytes, hsplit]
  exact not_returns_error _

end StreamingDetokenizer

end Rllm
