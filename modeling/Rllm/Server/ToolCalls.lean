import Rllm.Library.Json
import Rllm.Server.OpenAI
import Rllm.Tokenizer.Cuts

/-! # Tool calls

Calls are read from what a model wrote: between tags, behind the tag of a model, or
from a text that is all JSON. A text that is not read whole is left as it is. The
JSON library is a parameter.
-/

namespace Rllm

namespace ToolCalls

open Search

/-! ## The code -/

/-- The JSON library: one value, several values, and the text of a value. -/
structure SerdeJson where
  fromStr : List Char → Option Json
  sequence : List Char → Option (List Json)
  toText : Json → Option (List Char)

/-- What is read and what is written is JSON. -/
structure SerdeJson.Correct (S : SerdeJson) : Prop where
  fromStr_sound : ∀ s v, S.fromStr s = some v → Json.Document v s
  sequence_sound : ∀ s vs, S.sequence s = some vs → Json.Sequence vs s
  toText_sound : ∀ v s, S.toText v = some s → Json.IsDocument s

structure FunctionDefinition where
  name : String

structure ChatCompletionTool where
  function : FunctionDefinition

def openTag : List Char := "<tool_call>".toList

def closeTag : List Char := "</tool_call>".toList

def pythonTag : List Char := "<|python_tag|>".toList

def jsonFence : List Char := "```json".toList

def fence : List Char := "```".toList

/-- The white space of Unicode. -/
def isWhitespace (c : Char) : Bool :=
  let n := c.toNat
  (0x09 ≤ n && n ≤ 0x0D) || n == 0x20 || n == 0x85 || n == 0xA0 || n == 0x1680 ||
    (0x2000 ≤ n && n ≤ 0x200A) || n == 0x2028 || n == 0x2029 || n == 0x202F || n == 0x205F ||
    n == 0x3000

def nonemptyContent (text : List Char) : Option (List Char) :=
  let content := trim isWhitespace text
  if content.isEmpty then none else some content

/-- What stands between two byte offsets. -/
def sliceBytes (text : List Char) (a b : ℕ) : Except String (List Char) := do
  let width ← Checked.sub b a
  let (_, rest) ← splitBytes text a
  let (slice, _) ← splitBytes rest width
  return slice

def stripJsonCodeFence (text : List Char) : List Char :=
  match (text.dropPrefix? jsonFence).or (text.dropPrefix? fence) with
  | none => text
  | some rest => trim isWhitespace ((rest.dropSuffix? fence).getD rest)

section

variable (S : SerdeJson)

def parseJsonSequence (text : List Char) : Option (List Json) := do
  let values ← S.sequence text
  if values.isEmpty then none else some values

/-- The loop over the tags, from a byte offset on. -/
def scanRegions (text : List Char) :
    ℕ → ℕ → List Json → List Char → Except String (Option (List Json × Option (List Char)))
  | 0, _, _, _ => .error "out of fuel"
  | fuel + 1, cursor, values, remaining => do
    let (_, tail) ← splitBytes text cursor
    match find Char.utf8Size openTag tail with
    | none => return some (values, nonemptyContent (remaining ++ tail))
    | some relativeStart =>
      let start := cursor + relativeStart
      let between ← sliceBytes text cursor start
      let bodyStart := start + byteLen openTag
      let (_, inside) ← splitBytes text bodyStart
      match find Char.utf8Size closeTag inside with
      | none => return none
      | some relativeEnd =>
        let bodyEnd := bodyStart + relativeEnd
        let body ← sliceBytes text bodyStart bodyEnd
        match parseJsonSequence S body with
        | none => return none
        | some parsed =>
          scanRegions text fuel (bodyEnd + byteLen closeTag) (values ++ parsed)
            (remaining ++ between)

def toolCallJsonValues (fuel : ℕ) (text : List Char) :
    Except String (Option (List Json × Option (List Char))) := do
  if contains openTag text then scanRegions S text fuel 0 [] []
  else
    match find Char.utf8Size pythonTag text with
    | some start =>
      let (before, _) ← splitBytes text start
      let (_, body) ← splitBytes text (start + byteLen pythonTag)
      return (parseJsonSequence S body).map fun values => (values, nonemptyContent before)
    | none =>
      let trimmed := stripJsonCodeFence (trim isWhitespace text)
      return (parseJsonSequence S trimmed).map fun values => (values, none)

/-- The calls that one value holds. -/
def callsOf : Json → Option (List Json)
  | .array items => some items
  | .object object =>
    match object.lookup "tool_calls".toList with
    | some (.array items) => some items
    | _ => some [.object (object.filter fun entry => entry.1 != "tool_calls".toList)]
  | _ => none

def valuesToToolCalls (values : List Json) : Option (List Json) := do
  let calls ← values.foldlM (fun calls value => (callsOf value).map (calls ++ ·)) []
  if calls.isEmpty then none else some calls

def asStr : Json → Option String
  | .string s => some (String.ofList s)
  | _ => none

def asObject : Json → Option (List (List Char × Json))
  | .object object => some object
  | _ => none

/-- The object with the name and the arguments of a call. -/
def calledObject (object : List (List Char × Json)) : List (List Char × Json) :=
  ((object.lookup "function".toList).bind asObject).getD object

def argumentsText : Json → Option String
  | .string encoded => (S.fromStr encoded).map fun _ => String.ofList encoded
  | .object object => (S.toText (.object object)).map String.ofList
  | .array items => (S.toText (.array items)).map String.ofList
  | _ => none

def normalizeToolCall (value : Json) : Option (Option String × String × String) := do
  let object ← asObject value
  let id := (object.lookup "id".toList).bind asStr
  let call := calledObject object
  let name ← (call.lookup "name".toList).bind asStr
  let arguments := ((call.lookup "arguments".toList).or
    (call.lookup "parameters".toList)).getD (.object [])
  let arguments ← argumentsText S arguments
  return (id.filter (· ≠ ""), name, arguments)

variable (generateToolCallId : ℕ → String)

/-- The call at a position of the answer, if its name is allowed. -/
def toToolCall (allowedNames : List String) (raw : Json × ℕ) : Option ToolCall := do
  let (id, name, arguments) ← normalizeToolCall S raw.1
  if name ∈ allowedNames then
    return { id := id.getD (generateToolCallId raw.2), toolType := "function",
             function := { name, arguments } }
  else none

def parseChatOutput (fuel : ℕ) (text : String) (tools : Option (List ChatCompletionTool)) :
    Except String ParsedChatOutput := do
  let untouched : ParsedChatOutput := { content := some text, toolCalls := none }
  match tools.filter fun tools => !tools.isEmpty with
  | none => return untouched
  | some tools =>
    let allowedNames := tools.map (·.function.name)
    match ← toolCallJsonValues S fuel text.toList with
    | none => return untouched
    | some (values, content) =>
      match valuesToToolCalls values with
      | none => return untouched
      | some rawCalls =>
        match rawCalls.zipIdx.mapM (toToolCall S generateToolCallId allowedNames) with
        | none => return untouched
        | some toolCalls =>
          if toolCalls.isEmpty then return untouched
          else return { content := content.map String.ofList, toolCalls := some toolCalls }

end

/-! ## What a text holds -/

/-- The text outside of the regions between tags, and the regions. -/
inductive Regions : List Char → List Char → List (List Char) → Prop
  | free {text : List Char} (h : ¬ openTag <:+: text) : Regions text text []
  | region {text before inside body rest outside : List Char} {bodies : List (List Char)}
    (hopen : FirstAt openTag before text inside) (hclose : FirstAt closeTag body inside rest)
    (h : Regions rest outside bodies) : Regions text (before ++ outside) (body :: bodies)

/-- White space, perhaps around the mark of a code fence. -/
def IsMargin (s : List Char) : Prop :=
  ∃ a mark b, s = a ++ mark ++ b ∧ (∀ c ∈ a, isWhitespace c) ∧ mark ∈ [[], fence, jsonFence] ∧
    ∀ c ∈ b, isWhitespace c

/-- The content of a text, and the parts that are read as calls. -/
inductive Recognised (text : List Char) : Option (List Char) → List (List Char) → Prop
  | tags {outside : List Char} {bodies : List (List Char)} (hopen : openTag <:+: text)
    (h : Regions text outside bodies) : Recognised text (nonemptyContent outside) bodies
  | pythonTag {before body : List Char} (hopen : ¬ openTag <:+: text)
    (h : FirstAt pythonTag before text body) : Recognised text (nonemptyContent before) [body]
  | bare {lead body trail : List Char} (hopen : ¬ openTag <:+: text)
    (hpython : ¬ ToolCalls.pythonTag <:+: text) (htext : text = lead ++ body ++ trail)
    (hlead : IsMargin lead) (htrail : IsMargin trail) : Recognised text none [body]

/-- The text of an object that names the call. -/
def CallText (piece : List Char) (call : ToolCall) : Prop :=
  ∃ object, Json.Text (.object object) piece ∧
    (calledObject object).lookup "name".toList = some (.string call.function.name.toList)

/-- The calls of a text, each with a name of a tool and with arguments that are JSON, and the
content that stands outside of them. -/
structure Extracted (tools : List ChatCompletionTool) (text : List Char)
    (out : ParsedChatOutput) : Prop where
  spec : ∃ calls pieces content bodies,
    out = { content := content.map String.ofList, toolCalls := some calls } ∧ calls ≠ [] ∧
    (∀ call ∈ calls, call.function.name ∈ tools.map (·.function.name) ∧
      Json.IsDocument call.function.arguments.toList) ∧
    List.Forall₂ CallText pieces calls ∧ InOrder pieces text ∧
    Recognised text content bodies ∧ ∀ body ∈ bodies, ∃ vs, vs ≠ [] ∧ Json.Sequence vs body

/-! ## Regions -/

variable {S : SerdeJson} {text tail remaining : List Char} {fuel : ℕ}

theorem sliceBytes_append (a b c : List Char) :
    sliceBytes (a ++ b ++ c) (byteLen a) (byteLen a + byteLen b) = .ok b := by
  rw [sliceBytes, Checked.sub_of_le (Nat.le_add_right _ _), ok_bind, List.append_assoc,
    splitBytes_append, ok_bind, Nat.add_sub_cancel_left]
  dsimp only
  rw [splitBytes_append, ok_bind]
  rfl

theorem Regions.inOrder {outside : List Char} {bodies : List (List Char)}
    (h : Regions text outside bodies) : InOrder bodies text := by
  induction h with
  | free => exact .nil _
  | @region _ before _ body rest _ _ hopen hclose _ ih =>
    rw [hopen.eq_append, hclose.eq_append, List.append_assoc body, ← List.append_assoc _ body]
    exact .cons _ (ih.append_left closeTag)

theorem parseJsonSequence_sound (hS : S.Correct) {body : List Char} {vs : List Json}
    (h : parseJsonSequence S body = some vs) : vs ≠ [] ∧ Json.Sequence vs body := by
  obtain ⟨values, hvalues, h⟩ := Option.bind_eq_some_iff.mp h
  split at h
  · cases h
  · rename_i hne
    obtain rfl := Option.some.inj h
    exact ⟨fun hnil => hne (List.isEmpty_iff.mpr hnil), hS.sequence_sound _ _ hvalues⟩

/-- The scan ends, and what it finds are the regions behind the offset. -/
theorem scanRegions_ok (hS : S.Correct) {before : List Char} {values : List Json}
    (hfuel : tail.length < fuel) :
    ∃ result, scanRegions S (before ++ tail) fuel (byteLen before) values remaining =
      .ok result ∧ ∀ found content, result = some (found, content) →
        ∃ outside bodies parsed, Regions tail outside bodies ∧
          List.Forall₂ (fun vs body => vs ≠ [] ∧ Json.Sequence vs body) parsed bodies ∧
          found = values ++ parsed.flatten ∧
          content = nonemptyContent (remaining ++ outside) := by
  induction fuel generalizing before tail values remaining with
  | zero => exact absurd hfuel (Nat.not_lt_zero _)
  | succ fuel ih =>
    rw [scanRegions, splitBytes_append, ok_bind]
    dsimp only
    cases hopen : Search.before openTag tail with
    | none =>
      rw [find, hopen]
      refine ⟨_, rfl, fun found content hfound => ?_⟩
      obtain ⟨rfl, rfl⟩ := Prod.mk.inj (Option.some.inj hfound)
      exact ⟨tail, [], [], .free (before_eq_none_iff.mp hopen), .nil, by simp, rfl⟩
    | some between =>
      obtain ⟨inside, hfirst⟩ := firstAt_of_before hopen
      have htext : before ++ tail = before ++ between ++ (openTag ++ inside) := by
        rw [hfirst.eq_append]
        simp only [List.append_assoc]
      have htext' : before ++ tail = before ++ between ++ openTag ++ inside := by
        rw [hfirst.eq_append]
        simp only [List.append_assoc]
      have hstart : byteLen before + byteLen between + byteLen openTag =
          byteLen (before ++ between ++ openTag) := by
        simp only [weight_append]
      rw [find, hopen, Option.map_some]
      dsimp only
      rw [htext, sliceBytes_append, ok_bind, ← htext, htext', hstart, splitBytes_append, ok_bind]
      dsimp only
      cases hclose : Search.before closeTag inside with
      | none =>
        rw [find, hclose]
        exact ⟨none, rfl, fun found content hfound => by cases hfound⟩
      | some body =>
        obtain ⟨rest, hlast⟩ := firstAt_of_before hclose
        have hbody : before ++ between ++ openTag ++ inside =
            before ++ between ++ openTag ++ body ++ (closeTag ++ rest) := by
          rw [hlast.eq_append]
          simp only [List.append_assoc]
        have hend : byteLen (before ++ between ++ openTag) + byteLen body + byteLen closeTag =
            byteLen (before ++ between ++ openTag ++ body ++ closeTag) := by
          simp only [weight_append]
        rw [find, hclose, Option.map_some]
        dsimp only
        rw [hbody, sliceBytes_append, ok_bind]
        cases hparse : parseJsonSequence S body with
        | none => exact ⟨none, rfl, fun found content hfound => by cases hfound⟩
        | some parsed =>
          have hshort : rest.length < fuel := by
            have hlen := congrArg List.length hfirst.eq_append
            rw [hlast.eq_append] at hlen
            simp only [List.length_append] at hlen
            have hpos : 0 < openTag.length := by decide
            omega
          obtain ⟨result, hresult, hspec⟩ : ∃ result, scanRegions S
              (before ++ between ++ openTag ++ body ++ closeTag ++ rest) fuel
              (byteLen (before ++ between ++ openTag ++ body ++ closeTag)) (values ++ parsed)
              (remaining ++ between) = .ok result ∧ _ := ih hshort
          refine ⟨result, ?_, fun found content hfound => ?_⟩
          · rw [← hresult, hend, ← List.append_assoc]
          · obtain ⟨outside, bodies, more, hregions, hbodies, rfl, rfl⟩ :=
              hspec found content hfound
            refine ⟨between ++ outside, body :: bodies, parsed :: more,
              .region hfirst hlast hregions, .cons (parseJsonSequence_sound hS hparse) hbodies,
              ?_, ?_⟩
            · rw [List.flatten_cons, List.append_assoc]
            · rw [List.append_assoc]

theorem stripJsonCodeFence_spec (text : List Char) :
    ∃ mark b a mark', text = mark ++ b ++ stripJsonCodeFence text ++ a ++ mark' ∧
      mark ∈ [[], fence, jsonFence] ∧ mark' ∈ [[], fence, jsonFence] ∧
      (∀ c ∈ b, isWhitespace c) ∧ ∀ c ∈ a, isWhitespace c := by
  rw [stripJsonCodeFence]
  cases hstart : (text.dropPrefix? jsonFence).or (text.dropPrefix? fence) with
  | none => exact ⟨[], [], [], [], by simp, by simp, by simp, by simp, by simp⟩
  | some rest =>
    obtain ⟨mark, hmark, rfl⟩ : ∃ mark ∈ [[], fence, jsonFence], text = mark ++ rest := by
      rcases Option.or_eq_some_iff.mp hstart with h | ⟨-, h⟩
      · obtain ⟨mark, hmark, heq⟩ := List.dropPrefix?_eq_some_iff.mp h
        exact ⟨mark, by simp [eq_of_beq heq], hmark⟩
      · obtain ⟨mark, hmark, heq⟩ := List.dropPrefix?_eq_some_iff.mp h
        exact ⟨mark, by simp [eq_of_beq heq], hmark⟩
    obtain ⟨mark', hmark', hrest⟩ : ∃ mark' ∈ [[], fence, jsonFence],
        rest = (rest.dropSuffix? fence).getD rest ++ mark' := by
      cases hend : rest.dropSuffix? fence with
      | none => exact ⟨[], by simp, by simp⟩
      | some r =>
        obtain ⟨mark', heq, hmark'⟩ := List.dropSuffix?_eq_some_iff.mp hend
        exact ⟨mark', by simp [eq_of_beq hmark'], heq⟩
    obtain ⟨b, a, htrim, hb, ha⟩ := trim_spec isWhitespace ((rest.dropSuffix? fence).getD rest)
    refine ⟨mark, b, a, mark', ?_, hmark, hmark', hb, ha⟩
    conv_lhs => rw [hrest, htrim]
    simp only [List.append_assoc]

theorem toolCallJsonValues_ok (hS : S.Correct) (hfuel : text.length < fuel) :
    ∃ result, toolCallJsonValues S fuel text = .ok result ∧
      ∀ found content, result = some (found, content) → ∃ bodies parsed,
        Recognised text content bodies ∧ InOrder bodies text ∧
        List.Forall₂ (fun vs body => vs ≠ [] ∧ Json.Sequence vs body) parsed bodies ∧
        found = parsed.flatten := by
  rw [toolCallJsonValues]
  split
  · rename_i hopen
    have hopen := contains_iff.mp hopen
    obtain ⟨result, hresult, hspec⟩ : ∃ result, scanRegions S ([] ++ text) fuel 0 [] [] =
        .ok result ∧ _ := scanRegions_ok hS hfuel
    refine ⟨result, hresult, fun found content hfound => ?_⟩
    obtain ⟨outside, bodies, parsed, hregions, hbodies, rfl, rfl⟩ := hspec found content hfound
    exact ⟨bodies, parsed, .tags hopen hregions, hregions.inOrder, hbodies, rfl⟩
  · rename_i hopen
    have hopen := mt contains_iff.mpr hopen
    cases hpython : Search.before pythonTag text with
    | some before =>
      obtain ⟨body, hfirst⟩ := firstAt_of_before hpython
      have hlen : byteLen before + byteLen pythonTag = byteLen (before ++ pythonTag) :=
        (byteLen_append _ _).symm
      refine ⟨(parseJsonSequence S body).map fun values => (values, nonemptyContent before), ?_,
        fun found content hfound => ?_⟩
      · rw [find, hpython, Option.map_some]
        dsimp only
        rw [hlen]
        conv_lhs => rw [hfirst.eq_append]
        rw [splitBytes_append, List.append_assoc, splitBytes_append]
        rfl
      · obtain ⟨values, hparse, hfound⟩ := Option.map_eq_some_iff.mp hfound
        obtain ⟨rfl, rfl⟩ := Prod.mk.inj hfound
        refine ⟨[body], [values], .pythonTag hopen hfirst, .singleton ?_,
          .cons (parseJsonSequence_sound hS hparse) .nil, by simp⟩
        rw [hfirst.eq_append]
        exact (List.suffix_append _ _).isInfix
    | none =>
      rw [find, hpython]
      refine ⟨_, rfl, fun found content hfound => ?_⟩
      obtain ⟨values, hparse, hfound⟩ := Option.map_eq_some_iff.mp hfound
      obtain ⟨rfl, rfl⟩ := Prod.mk.inj hfound
      obtain ⟨lead, trail, htrim, hlead, htrail⟩ := trim_spec isWhitespace text
      obtain ⟨mark, b, a, mark', hstrip, hmark, hmark', hb, ha⟩ :=
        stripJsonCodeFence_spec (trim isWhitespace text)
      have htext : text = (lead ++ mark ++ b) ++ stripJsonCodeFence (trim isWhitespace text) ++
          (a ++ mark' ++ trail) := by
        conv_lhs => rw [htrim, hstrip]
        simp only [List.append_assoc]
      exact ⟨_, [values], .bare hopen (before_eq_none_iff.mp hpython) htext
        ⟨lead, mark, b, rfl, hlead, hmark, hb⟩ ⟨a, mark', trail, rfl, ha, hmark', htrail⟩,
        .singleton ⟨_, _, htext.symm⟩, .cons (parseJsonSequence_sound hS hparse) .nil, by simp⟩

/-! ## Calls -/

/-- The text of a value, but for a member with the calls. -/
def RawText (raw : Json) (piece : List Char) : Prop :=
  ∀ object, raw = .object object → ∃ whole, Json.Text (.object whole) piece ∧
    ∀ name, name ≠ "tool_calls".toList → object.lookup name = whole.lookup name

theorem rawText_of_text {raw : Json} {piece : List Char} (h : Json.Text raw piece) :
    RawText raw piece := by
  rintro object rfl
  exact ⟨object, h, fun _ _ => rfl⟩

theorem lookup_filter_ne {entries : List (List Char × Json)} {name other : List Char}
    (h : name ≠ other) :
    (entries.filter fun entry => entry.1 != other).lookup name = entries.lookup name := by
  induction entries with
  | nil => rfl
  | cons entry entries ih =>
    obtain ⟨key, value⟩ := entry
    rw [List.filter_cons]
    by_cases hkey : key = other
    · subst hkey
      rw [if_neg (by simp), ih, List.lookup_cons, beq_eq_false_iff_ne.mpr h]
    · rw [if_pos (by simpa using hkey), List.lookup_cons, List.lookup_cons, ih]

theorem callsOf_inOrder {v : Json} {piece : List Char} {raws : List Json}
    (h : Json.Text v piece) (hcalls : callsOf v = some raws) :
    ∃ ps, List.Forall₂ RawText raws ps ∧ InOrder ps piece := by
  cases v with
  | array items =>
    obtain rfl := Option.some.inj hcalls
    obtain ⟨ps, hps, horder⟩ := h.inOrder_items
    exact ⟨ps, hps.imp fun _ _ => rawText_of_text, horder⟩
  | object object =>
    rw [callsOf] at hcalls
    split at hcalls
    · rename_i items hitems
      obtain rfl := Option.some.inj hcalls
      obtain ⟨t, ht, hinfix⟩ := h.infix_of_lookup hitems
      obtain ⟨ps, hps, horder⟩ := ht.inOrder_items
      exact ⟨ps, hps.imp fun _ _ => rawText_of_text, horder.of_infix hinfix⟩
    · obtain rfl := Option.some.inj hcalls
      refine ⟨[piece], .cons ?_ .nil, .singleton List.infix_rfl⟩
      rintro _ ⟨rfl⟩
      exact ⟨object, h, fun name hname => lookup_filter_ne hname⟩
  | null => cases hcalls
  | bool => cases hcalls
  | number => cases hcalls
  | string => cases hcalls

theorem valuesToToolCalls_eq_some {values calls : List Json}
    (h : valuesToToolCalls values = some calls) :
    ∃ raws : List (List Json), values.map callsOf = raws.map some ∧ calls = raws.flatten := by
  have hfold : ∀ acc : List Json, ∀ calls,
      values.foldlM (fun calls value => (callsOf value).map (calls ++ ·)) acc = some calls →
        ∃ raws : List (List Json), values.map callsOf = raws.map some ∧
          calls = acc ++ raws.flatten := by
    clear h
    induction values with
    | nil =>
      intro acc calls h
      obtain rfl := Option.some.inj h
      exact ⟨[], rfl, by simp⟩
    | cons v values ih =>
      intro acc calls h
      obtain ⟨acc', hacc, h⟩ := Option.bind_eq_some_iff.mp h
      obtain ⟨raws, hraws, rfl⟩ := Option.map_eq_some_iff.mp hacc
      obtain ⟨rest, hrest, rfl⟩ := ih _ _ h
      refine ⟨raws :: rest, ?_, by simp⟩
      rw [List.map_cons, List.map_cons, hraws, hrest]
  obtain ⟨found, hfound, h⟩ := Option.bind_eq_some_iff.mp h
  split at h
  · cases h
  · obtain rfl := Option.some.inj h
    exact hfold [] _ hfound

theorem asStr_eq_some {v : Json} {s : String} (h : asStr v = some s) : v = .string s.toList := by
  cases v with
  | string t =>
    obtain rfl := Option.some.inj h
    rw [String.toList_ofList]
  | _ => cases h

theorem argumentsText_isDocument (hS : S.Correct) {v : Json} {s : String}
    (h : argumentsText S v = some s) : Json.IsDocument s.toList := by
  cases v with
  | string encoded =>
    obtain ⟨value, hvalue, rfl⟩ := Option.map_eq_some_iff.mp h
    rw [String.toList_ofList]
    exact ⟨value, hS.fromStr_sound _ _ hvalue⟩
  | object object =>
    obtain ⟨t, ht, rfl⟩ := Option.map_eq_some_iff.mp h
    rw [String.toList_ofList]
    exact hS.toText_sound _ _ ht
  | array items =>
    obtain ⟨t, ht, rfl⟩ := Option.map_eq_some_iff.mp h
    rw [String.toList_ofList]
    exact hS.toText_sound _ _ ht
  | _ => cases h

variable {generateToolCallId : ℕ → String} {allowedNames : List String}

theorem toToolCall_eq_some (hS : S.Correct) {raw : Json} {i : ℕ} {call : ToolCall}
    (h : toToolCall S generateToolCallId allowedNames (raw, i) = some call) :
    (∃ object, raw = .object object ∧
      (calledObject object).lookup "name".toList = some (.string call.function.name.toList)) ∧
    call.function.name ∈ allowedNames ∧ Json.IsDocument call.function.arguments.toList := by
  obtain ⟨⟨id, name, arguments⟩, hnormal, h⟩ := Option.bind_eq_some_iff.mp h
  dsimp only at h
  split at h
  · rename_i hallowed
    obtain rfl := Option.some.inj h
    obtain ⟨object, hobject, hnormal⟩ := Option.bind_eq_some_iff.mp hnormal
    obtain ⟨name', hname, hnormal⟩ := Option.bind_eq_some_iff.mp hnormal
    obtain ⟨arguments', harguments, hnormal⟩ := Option.bind_eq_some_iff.mp hnormal
    obtain ⟨-, hrest⟩ := Prod.mk.inj (Option.some.inj hnormal)
    obtain ⟨rfl, rfl⟩ := Prod.mk.inj hrest
    obtain ⟨value, hvalue, hstr⟩ := Option.bind_eq_some_iff.mp hname
    obtain rfl := asStr_eq_some hstr
    cases raw with
    | object entries =>
      obtain rfl := Option.some.inj hobject
      exact ⟨⟨entries, rfl, hvalue⟩, hallowed, argumentsText_isDocument hS harguments⟩
    | _ => cases hobject
  · cases h

theorem RawText.callText {object : List (List Char × Json)} {piece : List Char} {call : ToolCall}
    (h : RawText (.object object) piece)
    (hname : (calledObject object).lookup "name".toList =
      some (.string call.function.name.toList)) : CallText piece call := by
  obtain ⟨whole, htext, hlookup⟩ := h object rfl
  refine ⟨whole, htext, ?_⟩
  rw [← hname, calledObject, calledObject, hlookup _ (by decide)]
  cases (whole.lookup "function".toList).bind asObject with
  | none => exact (hlookup _ (by decide)).symm
  | some call => rfl

theorem toolCalls_spec (hS : S.Correct) {raws : List Json} {pieces : List (List Char)}
    {calls : List ToolCall} {k : ℕ} (hraws : List.Forall₂ RawText raws pieces)
    (h : (raws.zipIdx k).mapM (toToolCall S generateToolCallId allowedNames) = some calls) :
    List.Forall₂ CallText pieces calls ∧ ∀ call ∈ calls, call.function.name ∈ allowedNames ∧
      Json.IsDocument call.function.arguments.toList := by
  induction hraws generalizing calls k with
  | nil =>
    obtain rfl := Option.some.inj h
    exact ⟨.nil, by simp⟩
  | cons hraw _ ih =>
    rw [List.zipIdx_cons, List.mapM_cons] at h
    obtain ⟨call, hcall, h⟩ := Option.bind_eq_some_iff.mp h
    obtain ⟨calls, hcalls, h⟩ := Option.bind_eq_some_iff.mp h
    obtain rfl := Option.some.inj h
    obtain ⟨⟨object, rfl, hname⟩, hspec⟩ := toToolCall_eq_some hS hcall
    obtain ⟨htexts, hall⟩ := ih hcalls
    exact ⟨.cons (hraw.callText hname) htexts, List.forall_mem_cons.mpr ⟨hspec, hall⟩⟩

theorem rawCalls_inOrder {text : List Char} {values rawCalls : List Json}
    {pieces : List (List Char)} (htexts : List.Forall₂ Json.Text values pieces)
    (horder : InOrder pieces text) (h : valuesToToolCalls values = some rawCalls) :
    ∃ ps, List.Forall₂ RawText rawCalls ps ∧ InOrder ps text := by
  obtain ⟨raws, hraws, rfl⟩ := valuesToToolCalls_eq_some h
  have hcalls : ∀ v ∈ values, ∃ raw, callsOf v = some raw := by
    intro v hv
    have hmem := List.mem_map_of_mem (f := callsOf) hv
    rw [hraws] at hmem
    obtain ⟨raw, -, hraw⟩ := List.mem_map.mp hmem
    exact ⟨raw, hraw.symm⟩
  obtain ⟨yss, ps, hyss, hps, horder⟩ := horder.refine
    (Q := fun v raw => callsOf v = some raw) ((List.forall₂_and_left _ _).mpr ⟨hcalls, htexts⟩)
    (by
      rintro v piece ⟨⟨raw, hraw⟩, hv⟩
      obtain ⟨ps, hps, horder⟩ := callsOf_inOrder hv hraw
      exact ⟨raw, ps, hraw, hps, horder⟩)
  have heq : raws = yss := by
    have hmap : values.map callsOf = yss.map some := by
      rw [← List.forall₂_eq_eq_eq, List.forall₂_map_left_iff, List.forall₂_map_right_iff]
      exact hyss
    exact List.map_injective_iff.mpr (Option.some_injective _) (hraws.symm.trans hmap)
  exact ⟨ps, heq ▸ hps, horder⟩

theorem values_inOrder {text : List Char} {parsed : List (List Json)} {bodies : List (List Char)}
    (hbodies : InOrder bodies text)
    (hparsed : List.Forall₂ (fun vs body => vs ≠ [] ∧ Json.Sequence vs body) parsed bodies) :
    ∃ pieces, List.Forall₂ Json.Text parsed.flatten pieces ∧ InOrder pieces text := by
  obtain ⟨yss, pieces, hyss, hpieces, horder⟩ := hbodies.refine (Q := fun vs ys => vs = ys) hparsed
    fun vs body h => by
      obtain ⟨ts, hts, hts'⟩ := h.2.inOrder
      exact ⟨vs, ts, rfl, hts, hts'⟩
  rw [List.forall₂_eq_eq_eq] at hyss
  exact ⟨pieces, hyss ▸ hpieces, horder⟩

theorem exists_values_of_mem {parsed : List (List Json)} {bodies : List (List Char)}
    (h : List.Forall₂ (fun vs body => vs ≠ [] ∧ Json.Sequence vs body) parsed bodies) :
    ∀ body ∈ bodies, ∃ vs, vs ≠ [] ∧ Json.Sequence vs body := by
  induction h with
  | nil => simp
  | cons hbody _ ih => exact List.forall_mem_cons.mpr ⟨⟨_, hbody⟩, ih⟩

/-- A text is read whole or left as it is, and the reading ends. -/
theorem parseChatOutput_all_or_nothing (hS : S.Correct) (generateToolCallId : ℕ → String)
    (text : String) (tools : Option (List ChatCompletionTool)) {fuel : ℕ}
    (hfuel : text.toList.length < fuel) :
    ∃ out, parseChatOutput S generateToolCallId fuel text tools = .ok out ∧
      (out = { content := some text, toolCalls := none } ∨
        ∃ supplied, tools = some supplied ∧ Extracted supplied text.toList out) := by
  rw [parseChatOutput]
  cases hsupplied : tools.filter fun tools => !tools.isEmpty with
  | none => exact ⟨_, rfl, .inl rfl⟩
  | some supplied =>
    obtain ⟨result, hresult, hspec⟩ := toolCallJsonValues_ok hS hfuel
    dsimp only
    rw [hresult, ok_bind]
    rcases result with _ | ⟨values, content⟩
    · exact ⟨_, rfl, .inl rfl⟩
    obtain ⟨bodies, parsed, hrecognised, hbodies, hparsed, rfl⟩ := hspec values content rfl
    dsimp only
    cases hraws : valuesToToolCalls parsed.flatten with
    | none => exact ⟨_, rfl, .inl rfl⟩
    | some rawCalls =>
      dsimp only
      cases hcalls : rawCalls.zipIdx.mapM (toToolCall S generateToolCallId
        (supplied.map (·.function.name))) with
      | none => exact ⟨_, rfl, .inl rfl⟩
      | some calls =>
        dsimp only
        split
        · exact ⟨_, rfl, .inl rfl⟩
        · rename_i hne
          obtain ⟨pieces, hpieces, horder⟩ := values_inOrder hbodies hparsed
          obtain ⟨ps, hps, horder'⟩ := rawCalls_inOrder hpieces horder hraws
          obtain ⟨htexts, hspecs⟩ := toolCalls_spec hS hps hcalls
          exact ⟨_, rfl, .inr ⟨supplied, (Option.filter_eq_some_iff.mp hsupplied).1, calls, ps,
            content, bodies, rfl, fun hnil => hne (List.isEmpty_iff.mpr hnil), hspecs, htexts,
            horder', hrecognised, exists_values_of_mem hparsed⟩⟩

/-- A library that knows two texts. -/
def sampleSerde : SerdeJson where
  fromStr s := if s = "\x7b\x7d".toList then some (.object []) else none
  sequence s :=
    if s = "\x7b\"name\":\"get_time\"\x7d".toList then
      some [.object [("name".toList, .string "get_time".toList)]]
    else none
  toText v := if (asObject v).any List.isEmpty then some "\x7b\x7d".toList else none

theorem sampleSerde_correct : sampleSerde.Correct where
  fromStr_sound s v h := by
    obtain ⟨rfl, -⟩ := Option.ite_none_right_eq_some.mp h
    obtain rfl := Option.some.inj h
    exact ⟨[], "\x7b\x7d".toList, [], Json.blank_nil, .emptyObject Json.blank_nil, Json.blank_nil,
      rfl⟩
  sequence_sound s vs h := by
    obtain ⟨rfl, h⟩ := Option.ite_none_right_eq_some.mp h
    obtain rfl := Option.some.inj h
    have hname : Json.Escaped "name".toList "name".toList :=
      Json.escaped_plain (by simp)
    have hvalue : Json.Text (.string "get_time".toList) "\"get_time\"".toList :=
      .string (Json.escaped_plain (by simp))
    have hmembers := Json.Members.one Json.blank_nil hname Json.blank_nil Json.blank_nil hvalue
      Json.blank_nil
    exact .cons Json.blank_nil (.object hmembers fun _ => rfl) (.nil Json.blank_nil)
  toText_sound v s h := by
    obtain ⟨-, h⟩ := Option.ite_none_right_eq_some.mp h
    obtain rfl := Option.some.inj h
    exact ⟨.object [], [], "\x7b\x7d".toList, [], Json.blank_nil, .emptyObject Json.blank_nil,
      Json.blank_nil, rfl⟩

/-- A call between tags. -/
def taggedText : String :=
  "I check.\n<tool_call>\x7b\"name\":\"get_time\"\x7d</tool_call>"

theorem parseChatOutput_reads_tagged :
    parseChatOutput sampleSerde (fun _ => "call_0") 100 taggedText (some [⟨⟨"get_time"⟩⟩]) = .ok
      { content := some "I check.", toolCalls := some [
        { id := "call_0", toolType := "function",
          function := { name := "get_time", arguments := "\x7b\x7d" } }] } ∧
    ∃ out, parseChatOutput sampleSerde (fun _ => "call_0") 100 taggedText
        (some [⟨⟨"get_time"⟩⟩]) = .ok out ∧
      (out = { content := some taggedText, toolCalls := none } ∨
        ∃ supplied, some [⟨⟨"get_time"⟩⟩] = some supplied ∧
          Extracted supplied taggedText.toList out) :=
  ⟨by decide +kernel, parseChatOutput_all_or_nothing sampleSerde_correct (fun _ => "call_0")
    taggedText (some [⟨⟨"get_time"⟩⟩]) (by decide +kernel)⟩

end ToolCalls

end Rllm
