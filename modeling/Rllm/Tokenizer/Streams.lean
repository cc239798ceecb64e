import Rllm.Tokenizer.Cuts

/-! # What the streaming detokenizer returns

A run of the detokenizer is the run over the text since the last cut. A cut
takes the first stop string of the list rather than the earliest, the text goes
on after it, and only the deltas leave out what was cut. So the text ends
before the stop strings, the modes agree and no slice panics exactly if the
tokens are kind to these.
-/

namespace Rllm

open Search

variable {stops : List (List Char)} {text out more stop : List Char}
  {tokens : List (List Char)}

/-- Every offset at which the buffer is shortened is the end of a character, after the text
since the last cut. -/
def Cuttable (stops : List (List Char)) : List Char → List (List Char) → Prop
  | _, [] => True
  | text, more :: tokens =>
    match firstStop stops (text ++ more) with
    | some _ => Cuttable stops [] tokens
    | none =>
      (Search.split Char.utf8Size (text ++ more)
        (byteLen (text ++ more) - maxStopLen stops)).isSome ∧ Cuttable stops (text ++ more) tokens

/-- The text without what is cut off, after the text since the last cut. -/
def spoken (stops : List (List Char)) : List Char → List (List Char) → List Char
  | text, [] => text
  | text, more :: tokens =>
    match firstStop stops (text ++ more) with
    | some stop => (before stop (text ++ more)).getD [] ++ spoken stops [] tokens
    | none => spoken stops (text ++ more) tokens

theorem cuttable_cut (h : firstStop stops (text ++ more) = some stop) :
    Cuttable stops text (more :: tokens) ↔ Cuttable stops [] tokens := by
  rw [Cuttable, h]

theorem cuttable_on (h : firstStop stops (text ++ more) = none) :
    Cuttable stops text (more :: tokens) ↔
      (Search.split Char.utf8Size (text ++ more)
        (byteLen (text ++ more) - maxStopLen stops)).isSome ∧
        Cuttable stops (text ++ more) tokens := by
  rw [Cuttable, h]

theorem spoken_cut {a : List Char} (h : firstStop stops (text ++ more) = some stop)
    (ha : before stop (text ++ more) = some a) :
    spoken stops text (more :: tokens) = a ++ spoken stops [] tokens := by
  rw [spoken, h]
  simp only [ha]
  rfl

theorem spoken_on (h : firstStop stops (text ++ more) = none) :
    spoken stops text (more :: tokens) = spoken stops (text ++ more) tokens := by
  rw [spoken, h]

/-- The text of some pieces. -/
def joined (pieces : List (Option (List Char))) : List Char := pieces.flatMap (·.getD [])

@[simp] theorem joined_cons (piece : Option (List Char)) (pieces : List (Option (List Char))) :
    joined (piece :: pieces) = piece.getD [] ++ joined pieces := rfl

namespace StreamingDetokenizer

variable {d : StreamingDetokenizer}

theorem feed_cons_of_ok {piece : Option (List Char)} {d' : StreamingDetokenizer}
    (h : d.decodeToken more = .ok (piece, d')) (tokens : List (List Char)) :
    d.feed (more :: tokens) = (do
      let (pieces, final) ← d'.feed tokens
      return (piece :: pieces, final)) := by
  rw [feed, h]
  rfl

theorem flush_eq (hbytes : d.partialBytes = []) :
    d.flush.1 = if d.outputMode = .delta then d.stopBuffer else d.cumulativeText := by
  simp only [flush, if_pos hbytes]
  cases d.outputMode <;> rfl

/-- A run returns if the text can be shortened: the deltas say what is left of the text, and
the other pieces say how much of it there is. -/
theorem feed_of_cuttable (hbytes : d.partialBytes = []) (hmode : d.outputMode ≠ .finalOnly)
    (hwin : Window d.stopStrings text out d.stopBuffer)
    (h : Cuttable d.stopStrings text tokens) :
    ∃ pieces final, d.feed tokens = .ok (pieces, final) ∧
      (d.outputMode = .delta →
        out ++ joined pieces ++ final = spoken d.stopStrings text tokens) ∧
      (d.outputMode ≠ .delta → final = d.cumulativeText ++ tokens.flatten ∧
        ∀ c, some c ∈ pieces → c <+: d.cumulativeText ++ tokens.flatten) := by
  induction tokens generalizing d text out with
  | nil =>
    refine ⟨[], d.flush.1, rfl, fun hm => ?_, fun hm => ⟨?_, fun c hc => nomatch hc⟩⟩
    · rw [flush_eq hbytes, if_pos hm]
      exact (List.append_assoc ..).trans hwin.append
    · rw [flush_eq hbytes, if_neg hm]
      exact (List.append_nil _).symm
  | cons more tokens ih =>
    have hflat : d.cumulativeText ++ (more :: tokens).flatten =
        d.cumulativeText ++ more ++ tokens.flatten := by
      rw [List.flatten_cons, List.append_assoc]
    cases hfirst : firstStop d.stopStrings (text ++ more) with
    | some stop =>
      obtain ⟨a, c, ha, hc, hrun⟩ := decodeToken_cut hbytes hmode hwin hfirst
      obtain ⟨pieces, final, hfeed, hdelta, hcumul⟩ := ih (d := { d with
        stopBuffer := [], cumulativeText := d.cumulativeText ++ more }) hbytes hmode
        (Window.nil _) ((cuttable_cut hfirst).mp h)
      refine ⟨_, final, by rw [feed_cons_of_ok hrun, hfeed]; rfl, fun hm => ?_, fun hm => ?_⟩
      · rw [joined_cons, if_pos hm, spoken_cut hfirst ha, ← hdelta hm]
        simp only [Option.getD_some, List.append_assoc, List.nil_append]
      · rw [hflat, if_neg hm]
        refine ⟨(hcumul hm).1, fun c' hc' => ?_⟩
        rcases List.mem_cons.mp hc' with he | hc'
        · exact Option.some.inj he ▸ hc.trans (List.prefix_append _ _)
        · exact (hcumul hm).2 c' hc'
    | none =>
      obtain ⟨hsplit, hrest⟩ := (cuttable_on hfirst).mp h
      obtain ⟨a, held, piece, hrun, hwin', hpiece, hcumulPiece⟩ :=
        decodeToken_on hbytes hmode hwin hfirst hsplit
      obtain ⟨pieces, final, hfeed, hdelta, hcumul⟩ := ih (d := { d with
        stopBuffer := held, cumulativeText := d.cumulativeText ++ more }) hbytes hmode hwin' hrest
      refine ⟨_, final, by rw [feed_cons_of_ok hrun, hfeed]; rfl, fun hm => ?_, fun hm => ?_⟩
      · rw [joined_cons, hpiece hm, spoken_on hfirst, ← hdelta hm]
        simp only [List.append_assoc]
      · rw [hflat]
        refine ⟨(hcumul hm).1, fun c' hc' => ?_⟩
        rcases List.mem_cons.mp hc' with he | hc'
        · exact hcumulPiece hm c' he.symm ▸ List.prefix_append _ _
        · exact (hcumul hm).2 c' hc'

theorem cuttable_of_returns (hbytes : d.partialBytes = []) (hmode : d.outputMode ≠ .finalOnly)
    (hwin : Window d.stopStrings text out d.stopBuffer) (h : Returns (d.feed tokens)) :
    Cuttable d.stopStrings text tokens := by
  induction tokens generalizing d text out with
  | nil => exact True.intro
  | cons more tokens ih =>
    cases hfirst : firstStop d.stopStrings (text ++ more) with
    | some stop =>
      obtain ⟨a, c, -, -, hrun⟩ := decodeToken_cut hbytes hmode hwin hfirst
      rw [feed_cons_of_ok hrun, returns_bind] at h
      obtain ⟨_, hfeed, -⟩ := h
      exact (cuttable_cut hfirst).mpr (ih (d := { d with
        stopBuffer := [], cumulativeText := d.cumulativeText ++ more }) hbytes hmode
        (Window.nil _) ⟨_, hfeed⟩)
    | none =>
      by_cases hsplit : (Search.split Char.utf8Size (text ++ more)
        (byteLen (text ++ more) - maxStopLen d.stopStrings)).isSome
      · obtain ⟨a, held, piece, hrun, hwin', -, -⟩ :=
          decodeToken_on hbytes hmode hwin hfirst hsplit
        rw [feed_cons_of_ok hrun, returns_bind] at h
        obtain ⟨_, hfeed, -⟩ := h
        exact (cuttable_on hfirst).mpr ⟨hsplit, ih (d := { d with
          stopBuffer := held, cumulativeText := d.cumulativeText ++ more }) hbytes hmode hwin'
          ⟨_, hfeed⟩⟩
      · rw [feed, returns_bind] at h
        obtain ⟨_, hrun, -⟩ := h
        exact absurd ⟨_, hrun⟩ (decodeToken_panics hbytes hmode hwin hfirst hsplit)

theorem feed_finalOnly (hbytes : d.partialBytes = []) (hmode : d.outputMode = .finalOnly)
    (tokens : List (List Char)) :
    ∃ pieces, d.feed tokens = .ok (pieces, d.cumulativeText ++ tokens.flatten) := by
  induction tokens generalizing d with
  | nil =>
    have hne : d.outputMode ≠ .delta := by simp [hmode]
    refine ⟨[], ?_⟩
    rw [feed, flush_eq hbytes, if_neg hne, List.flatten_nil, List.append_nil]
  | cons more tokens ih =>
    have hrun : d.decodeToken more =
        .ok (none, { d with cumulativeText := d.cumulativeText ++ more }) := by
      rw [decodeToken, hbytes, decodeUtf8Partial_encode]
      simp only [ok_bind, if_pos hmode]
      rfl
    obtain ⟨pieces, hfeed⟩ := ih (d := { d with
      cumulativeText := d.cumulativeText ++ more }) hbytes hmode
    refine ⟨none :: pieces, ?_⟩
    rw [feed_cons_of_ok hrun, hfeed, List.flatten_cons, ← List.append_assoc]
    rfl

/-- Nothing panics exactly if all slices are between characters. -/
theorem feed_returns_iff (stops : List (List Char)) (mode : OutputMode)
    (tokens : List (List Char)) :
    Returns (((new stops).withOutputMode mode).feed tokens) ↔
      mode = .finalOnly ∨ Cuttable stops [] tokens := by
  by_cases hmode : mode = .finalOnly
  · obtain ⟨pieces, hfeed⟩ :=
      feed_finalOnly (d := (new stops).withOutputMode mode) rfl hmode tokens
    exact iff_of_true ⟨_, hfeed⟩ (.inl hmode)
  · rw [or_iff_right hmode]
    constructor
    · exact cuttable_of_returns (d := (new stops).withOutputMode mode) rfl hmode (Window.nil stops)
    · intro h
      obtain ⟨pieces, final, hfeed, -⟩ := feed_of_cuttable
        (d := (new stops).withOutputMode mode) rfl hmode (Window.nil stops) h
      exact ⟨_, hfeed⟩

theorem not_returns_feed_inside :
    ¬ Returns (((new [['a', 'b']]).withOutputMode .delta).feed [['日']]) :=
  not_returns_error _

end StreamingDetokenizer

/-! ## The text before the stop strings -/

/-- The tokens say nothing: what they say would stand before a stop string that starts it. -/
def Silent (stops : List (List Char)) : List Char → List (List Char) → Prop
  | text, [] => text = []
  | text, more :: tokens =>
    match firstStop stops (text ++ more) with
    | some stop => stop <+: text ++ more ∧ Silent stops [] tokens
    | none => Silent stops (text ++ more) tokens

/-- The first cut, if there is one, is where no stop string of the whole text starts before, and
the tokens say nothing after it. -/
def CutsFirst (stops : List (List Char)) (whole : List Char) :
    List Char → List (List Char) → Prop
  | _, [] => True
  | text, more :: tokens =>
    match firstStop stops (text ++ more) with
    | some stop =>
      (∀ a ∈ before stop (text ++ more), ∀ other ∈ stops, ∀ u v,
        whole = u ++ other ++ v → a.length ≤ u.length) ∧ Silent stops [] tokens
    | none => CutsFirst stops whole (text ++ more) tokens

theorem silent_iff (text : List Char) (tokens : List (List Char)) :
    Silent stops text tokens ↔ spoken stops text tokens = [] := by
  induction tokens generalizing text with
  | nil => exact Iff.rfl
  | cons more tokens ih =>
    cases hfirst : firstStop stops (text ++ more) with
    | some stop =>
      obtain ⟨hstop, a, ha⟩ := firstStop_eq_some hfirst
      have hstart : stop <+: text ++ more ↔ a = [] := by
        obtain ⟨v, hv⟩ := before_eq_append ha
        constructor
        · rintro ⟨v, hv⟩
          have hle := length_before_le ha (u := []) (v := v) hv.symm
          exact List.eq_nil_of_length_eq_zero (Nat.le_zero.mp hle)
        · rintro rfl
          exact ⟨v, hv.symm⟩
      rw [Silent, hfirst, spoken_cut hfirst ha, List.append_eq_nil_iff, ← ih]
      exact and_congr_left' hstart
    | none =>
      rw [Silent, hfirst, spoken_on hfirst]
      exact ih _

theorem cutsFirst_cut {whole a : List Char} (h : firstStop stops (text ++ more) = some stop)
    (ha : before stop (text ++ more) = some a) :
    CutsFirst stops whole text (more :: tokens) ↔
      (∀ other ∈ stops, ∀ u v, whole = u ++ other ++ v → a.length ≤ u.length) ∧
        Silent stops [] tokens := by
  rw [CutsFirst, h]
  simp only [ha, Option.mem_some_iff, forall_eq']

theorem cutsFirst_iff (hfree : ∀ stop ∈ stops, ¬ stop <:+: text) :
    CutsFirst stops (text ++ tokens.flatten) text tokens ↔
      spoken stops text tokens = beforeAny stops (text ++ tokens.flatten) := by
  induction tokens generalizing text with
  | nil =>
    rw [List.flatten_nil, List.append_nil, beforeAny_of_free hfree]
    exact iff_of_true True.intro rfl
  | cons more tokens ih =>
    rw [List.flatten_cons, ← List.append_assoc]
    cases hfirst : firstStop stops (text ++ more) with
    | some stop =>
      obtain ⟨hstop, a, ha⟩ := firstStop_eq_some hfirst
      obtain ⟨v, hv⟩ := before_eq_append ha
      have hwhole : text ++ more ++ tokens.flatten = a ++ stop ++ (v ++ tokens.flatten) := by
        rw [hv, List.append_assoc]
      rw [cutsFirst_cut hfirst ha, spoken_cut hfirst ha, ← eq_beforeAny_iff hstop hwhole,
        silent_iff]
      constructor
      · rintro ⟨hearliest, hsilent⟩
        rw [hsilent, List.append_nil, hearliest]
      · intro he
        have hle := length_beforeAny_le hstop hwhole
        rw [← he, List.length_append] at hle
        have hsilent : spoken stops [] tokens = [] := by
          apply List.eq_nil_of_length_eq_zero
          omega
        rw [hsilent, List.append_nil] at he
        exact ⟨he, hsilent⟩
    | none =>
      rw [CutsFirst, hfirst, spoken_on hfirst]
      exact ih (firstStop_eq_none_iff.mp hfirst)

/-- What is returned is the text before the stop strings, and at no time did it reach into
one. -/
def StopsAtFirst (stops tokens : List (List Char)) : Prop :=
  ∃ pieces final, (StreamingDetokenizer.new stops).feed tokens = .ok (pieces, final) ∧
    joined pieces ++ final = beforeAny stops tokens.flatten ∧
    ∀ n, ∀ stop ∈ stops, ∀ u v, tokens.flatten = u ++ stop ++ v →
      (joined (pieces.take n)).length ≤ u.length

/-- The deltas end before the stop strings exactly if no slice panics, the first cut is the
earliest stop string, and nothing is said after it. -/
theorem stopsAtFirst_iff (stops tokens : List (List Char)) (hne : ∀ stop ∈ stops, stop ≠ []) :
    StopsAtFirst stops tokens ↔
      Cuttable stops [] tokens ∧ CutsFirst stops tokens.flatten [] tokens := by
  have hfree : ∀ stop ∈ stops, ¬ stop <:+: [] :=
    fun stop hstop h => hne stop hstop (List.infix_nil.mp h)
  have hfirst : CutsFirst stops ([] ++ tokens.flatten) [] tokens ↔
      spoken stops [] tokens = beforeAny stops ([] ++ tokens.flatten) := cutsFirst_iff hfree
  rw [List.nil_append] at hfirst
  rw [hfirst]
  have hdelta : (StreamingDetokenizer.new stops).outputMode ≠ .finalOnly := OutputMode.noConfusion
  constructor
  · rintro ⟨pieces, final, hfeed, hjoined, -⟩
    have hcut := StreamingDetokenizer.cuttable_of_returns rfl hdelta (Window.nil stops)
      ⟨_, hfeed⟩
    obtain ⟨pieces', final', hfeed', hspoken, -⟩ :=
      StreamingDetokenizer.feed_of_cuttable rfl hdelta (Window.nil stops) hcut
    rw [hfeed] at hfeed'
    obtain ⟨rfl, rfl⟩ := Prod.mk.inj (Except.ok.inj hfeed')
    exact ⟨hcut, (hspoken rfl).symm.trans hjoined⟩
  · rintro ⟨hcut, he⟩
    obtain ⟨pieces, final, hfeed, hspoken, -⟩ :=
      StreamingDetokenizer.feed_of_cuttable rfl hdelta (Window.nil stops) hcut
    have hjoined : joined pieces ++ final = beforeAny stops tokens.flatten :=
      (hspoken rfl).trans he
    refine ⟨pieces, final, hfeed, hjoined, fun n stop hstop u v hu => ?_⟩
    refine le_trans ?_ (length_beforeAny_le hstop hu)
    rw [← hjoined, List.length_append]
    have hprefix : joined (pieces.take n) <+: joined pieces := by
      refine ⟨joined (pieces.drop n), ?_⟩
      rw [joined, joined, ← List.flatMap_append, List.take_append_drop]
      rfl
    exact hprefix.length_le.trans (Nat.le_add_right _ _)

theorem stopsAtFirst_stop : StopsAtFirst ["STOP".toList] ["hel".toList, "loSTOP".toList] := by
  refine (stopsAtFirst_iff _ _ (by decide)).mpr ⟨⟨rfl, True.intro⟩, ?_, rfl⟩
  intro a ha other hother u v hu
  obtain rfl := Option.some.inj ha
  exact le_trans (by decide) (length_beforeAny_le hother hu)

theorem not_stopsAtFirst_earlier : ¬ StopsAtFirst [['b'], ['a']] [['a', 'b']] := by
  rintro ⟨pieces, final, hfeed, hjoined, -⟩
  have hrun : (StreamingDetokenizer.new [['b'], ['a']]).feed [['a', 'b']] =
      .ok ([some ['a']], []) := rfl
  rw [hrun] at hfeed
  obtain ⟨rfl, rfl⟩ := Prod.mk.inj (Except.ok.inj hfeed)
  exact absurd hjoined (by decide)

/-! ## The modes -/

theorem length_spoken_le (stops : List (List Char)) (text : List Char)
    (tokens : List (List Char)) :
    (spoken stops text tokens).length ≤ (text ++ tokens.flatten).length := by
  induction tokens generalizing text with
  | nil => exact (List.append_nil text).symm ▸ le_rfl
  | cons more tokens ih =>
    rw [List.flatten_cons, ← List.append_assoc]
    cases hfirst : firstStop stops (text ++ more) with
    | some stop =>
      obtain ⟨-, a, ha⟩ := firstStop_eq_some hfirst
      obtain ⟨v, hv⟩ := before_eq_append ha
      rw [spoken_cut hfirst ha, hv, List.append_assoc, List.append_assoc, List.length_append,
        List.length_append, ← List.append_assoc, List.length_append]
      exact Nat.add_le_add_left ((ih []).trans (Nat.le_add_left _ _)) _
    | none =>
      rw [spoken_on hfirst]
      exact ih _

theorem spoken_eq_iff (hfree : text = [] ∨ ∀ stop ∈ stops, ¬ stop <:+: text) :
    spoken stops text tokens = text ++ tokens.flatten ↔
      text ++ tokens.flatten = [] ∨ ∀ stop ∈ stops, ¬ stop <:+: text ++ tokens.flatten := by
  induction tokens generalizing text with
  | nil =>
    rw [List.flatten_nil, List.append_nil]
    exact iff_of_true rfl hfree
  | cons more tokens ih =>
    rw [List.flatten_cons, ← List.append_assoc]
    cases hfirst : firstStop stops (text ++ more) with
    | some stop =>
      obtain ⟨hstop, a, ha⟩ := firstStop_eq_some hfirst
      obtain ⟨v, hv⟩ := before_eq_append ha
      have hrest := @ih [] (.inl rfl)
      have hcontains : ¬ ∀ stop ∈ stops, ¬ stop <:+: text ++ more ++ tokens.flatten :=
        fun h => h stop hstop ((infix_of_before ha).trans List.infix_append_left)
      rw [spoken_cut hfirst ha, or_iff_left hcontains, hv, List.append_assoc, List.append_assoc,
        List.append_cancel_left_eq]
      constructor
      · intro he
        have hle := length_spoken_le stops [] tokens
        rw [he, List.nil_append, List.length_append, List.length_append] at hle
        obtain rfl : stop = [] := List.eq_nil_of_length_eq_zero (by omega)
        obtain rfl : v = [] := List.eq_nil_of_length_eq_zero (by omega)
        have hstart := length_before_le ha (u := []) (v := text ++ more) rfl
        obtain rfl : a = [] := List.eq_nil_of_length_eq_zero (Nat.le_zero.mp hstart)
        exact (hrest.mp he).resolve_right fun h => h [] hstop List.nil_infix
      · intro hnil
        obtain ⟨-, hnil⟩ := List.append_eq_nil_iff.mp hnil
        obtain ⟨-, hflat⟩ := List.append_eq_nil_iff.mp (List.append_eq_nil_iff.mp hnil).2
        rw [hrest.mpr (.inl hflat), hnil]
        exact hflat
    | none =>
      rw [spoken_on hfirst]
      exact ih (.inr (firstStop_eq_none_iff.mp hfirst))

/-- The deltas, the cumulative text and the final text are one, and the cumulative text grows
towards it. -/
def ModesAgree (stops tokens : List (List Char)) : Prop :=
  ∃ deltas rest cumuls cumul finals final,
    (StreamingDetokenizer.new stops).feed tokens = .ok (deltas, rest) ∧
    ((StreamingDetokenizer.new stops).withOutputMode .cumulative).feed tokens =
      .ok (cumuls, cumul) ∧
    ((StreamingDetokenizer.new stops).withOutputMode .finalOnly).feed tokens =
      .ok (finals, final) ∧
    joined deltas ++ rest = cumul ∧ cumul = final ∧ ∀ c, some c ∈ cumuls → c <+: final

/-- The modes agree exactly if no slice panics and the text has no stop string. -/
theorem modesAgree_iff (stops tokens : List (List Char)) :
    ModesAgree stops tokens ↔ Cuttable stops [] tokens ∧
      (tokens.flatten = [] ∨ ∀ stop ∈ stops, ¬ stop <:+: tokens.flatten) := by
  have hwhole : spoken stops [] tokens = [] ++ tokens.flatten ↔ [] ++ tokens.flatten = [] ∨
      ∀ stop ∈ stops, ¬ stop <:+: [] ++ tokens.flatten := spoken_eq_iff (.inl rfl)
  rw [List.nil_append] at hwhole
  rw [← hwhole]
  have hdelta : (StreamingDetokenizer.new stops).outputMode ≠ .finalOnly := OutputMode.noConfusion
  have hcumulative : ((StreamingDetokenizer.new stops).withOutputMode .cumulative).outputMode ≠
      .finalOnly := OutputMode.noConfusion
  obtain ⟨finals, hfinal⟩ := StreamingDetokenizer.feed_finalOnly
    (d := (StreamingDetokenizer.new stops).withOutputMode .finalOnly) rfl rfl tokens
  constructor
  · rintro ⟨deltas, rest, cumuls, cumul, _, final, hfeed, -, hfeed', hjoined, hsame, -⟩
    rw [hfinal] at hfeed'
    obtain ⟨-, rfl⟩ := Prod.mk.inj (Except.ok.inj hfeed')
    have hcut := StreamingDetokenizer.cuttable_of_returns rfl hdelta (Window.nil stops)
      ⟨_, hfeed⟩
    obtain ⟨_, _, hrun, hspoken, -⟩ :=
      StreamingDetokenizer.feed_of_cuttable rfl hdelta (Window.nil stops) hcut
    rw [hfeed] at hrun
    obtain ⟨rfl, rfl⟩ := Prod.mk.inj (Except.ok.inj hrun)
    exact ⟨hcut, (hspoken rfl).symm.trans (hjoined.trans hsame)⟩
  · rintro ⟨hcut, he⟩
    obtain ⟨deltas, rest, hfeed, hspoken, -⟩ :=
      StreamingDetokenizer.feed_of_cuttable rfl hdelta (Window.nil stops) hcut
    obtain ⟨cumuls, cumul, hfeed', -, hcumul⟩ :=
      StreamingDetokenizer.feed_of_cuttable rfl hcumulative (Window.nil stops) hcut
    obtain ⟨rfl, hprefix⟩ := hcumul OutputMode.noConfusion
    exact ⟨deltas, rest, cumuls, _, finals, _, hfeed, hfeed', hfinal, (hspoken rfl).trans he, rfl,
      hprefix⟩

theorem not_modesAgree_stop : ¬ ModesAgree [['a']] [['a']] := by
  rintro ⟨deltas, rest, cumuls, cumul, -, -, hdeltas, hcumuls, -, hjoined, -⟩
  have hrun : (StreamingDetokenizer.new [['a']]).feed [['a']] = .ok ([some []], []) := rfl
  have hrun' : ((StreamingDetokenizer.new [['a']]).withOutputMode .cumulative).feed [['a']] =
      .ok ([some []], ['a']) := rfl
  rw [hrun] at hdeltas
  rw [hrun'] at hcumuls
  obtain ⟨rfl, rfl⟩ := Prod.mk.inj (Except.ok.inj hdeltas)
  obtain ⟨-, rfl⟩ := Prod.mk.inj (Except.ok.inj hcumuls)
  cases hjoined
end Rllm
