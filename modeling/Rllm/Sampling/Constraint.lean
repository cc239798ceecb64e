import Rllm.Core.Request
import Rllm.Library.Regex

/-! # Constraints

A constraint is handed to the grammar library as a JSON schema, a regular
expression or a grammar. A list of choices becomes a regular expression: a group
of the choices between bars, with a backslash before each metacharacter.
-/

namespace Rllm

def regexEscape (value : String) : String :=
  String.ofList (value.toList.flatMap fun ch =>
    if ch ∈ ['\\', '.', '+', '*', '?', '(', ')', '|', '[', ']', '\x7b', '\x7d', '^', '$'] then
      ['\\', ch]
    else [ch])

def choiceRegex (choices : List String) : String :=
  "(?:" ++ "|".intercalate (choices.map regexEscape) ++ ")"

/-- What the grammar library compiles. -/
inductive GrammarSource where
  | jsonSchema (schema : String)
  | builtinJson
  | regex (pattern : String)
  | ebnf (kind text : String)
  deriving DecidableEq, Repr

/-- The source of a constraint at its registration. -/
def StructuredOutputParams.grammarSource (p : StructuredOutputParams) :
    Except String GrammarSource :=
  match p.validate with
  | .error _ => .error "invalid structured output parameters"
  | .ok _ =>
    if let some schema := p.jsonSchema then .ok (.jsonSchema schema)
    else if p.jsonObject = some true then .ok .builtinJson
    else if let some regex := p.regex then .ok (.regex regex)
    else if let some choices := p.choice then .ok (.regex (choiceRegex choices))
    else if let some xml := p.xml then .ok (.ebnf "XML" xml)
    else if let some grammar := p.grammar then .ok (.ebnf "EBNF" grammar)
    else .error "structured output parameters did not contain a constraint"

open Regex

/-- An escaped text is read as the characters of the text. -/
theorem lex_regexEscape (value : String) (cs : List Char) :
    lex ((regexEscape value).toList ++ cs) = (lex cs).map (value.toList.map .literal ++ ·) := by
  rw [regexEscape, String.toList_ofList]
  induction value.toList with
  | nil => simp
  | cons c value ih =>
    rw [List.flatMap_cons, List.append_assoc]
    split
    · rename_i hc
      rw [List.cons_append, List.singleton_append, lex_escape (isPunctuation_of_mem hc), ih,
        Option.map_map]
      rfl
    · rename_i hc
      rw [List.singleton_append, lex_literal hc, ih, Option.map_map]
      rfl

theorem lex_bar (cs : List Char) : lex ('|' :: cs) = (lex cs).map (.bar :: ·) := by
  rw [lex]
  · rfl
  · exact fun _ _ he _ => absurd he (by decide)
  · exact fun _ he _ => absurd he (by decide)

theorem lex_choices (choice : String) (choices : List String) (cs : List Char) :
    lex (("|".intercalate ((choice :: choices).map regexEscape)).toList ++ cs) =
      (lex cs).map (choice.toList.map .literal ++
        (choices.map String.toList).flatMap (fun v => .bar :: v.map .literal) ++ ·) := by
  induction choices generalizing choice with
  | nil =>
    rw [List.map_singleton, String.intercalate_singleton, lex_regexEscape]
    simp
  | cons next choices ih =>
    rw [List.map_cons, String.intercalate_cons_of_ne_nil (by simp), String.toList_append,
      String.toList_append, List.append_assoc, List.append_assoc,
      lex_regexEscape]
    have hbar : "|".toList = ['|'] := rfl
    rw [hbar, List.singleton_append, lex_bar, ih, Option.map_map, Option.map_map]
    simp [Function.comp_def]

theorem read_choiceRegex (choice : String) (choices : List String) :
    read (choiceRegex (choice :: choices)) = parse [] {} (.openGroup ::
      (choice.toList.map .literal ++ (choices.map String.toList).flatMap
        (fun v => .bar :: v.map .literal) ++ [.closeGroup])) := by
  have hopen : "(?:".toList = ['(', '?', ':'] := rfl
  have hclose : lex ")".toList = some [.closeGroup] := rfl
  rw [Regex.read, choiceRegex, String.toList_append, String.toList_append, hopen, List.append_assoc]
  rw [List.cons_append, List.cons_append, List.cons_append, List.nil_append, lex, lex_choices,
    hclose]
  rfl

/-- The expression of some choices matches these and nothing else. -/
theorem choiceRegex_matches_iff {choices : List String} (hne : choices ≠ []) :
    ∃ r, read (choiceRegex choices) = some r ∧ ∀ text, r.Matches text ↔ text ∈ choices := by
  obtain ⟨choice, choices, rfl⟩ := List.exists_cons_of_ne_nil hne
  obtain ⟨r, hparse, hr⟩ := exists_parse_group choice.toList (choices.map String.toList)
  refine ⟨r, (read_choiceRegex choice choices).trans hparse, fun text => ?_⟩
  rw [Matches, hr, ← List.map_cons (f := String.toList),
    List.mem_map_of_injective fun _ _ => String.toList_inj.mp]

theorem choiceRegex_matches_iff_operators :
    (["a|b", "a"] : List String) ≠ [] ∧
      ∃ r, read (choiceRegex ["a|b", "a"]) = some r ∧
        ∀ text, r.Matches text ↔ text ∈ ["a|b", "a"] :=
  ⟨by decide, choiceRegex_matches_iff (by decide)⟩

theorem StructuredOutputParams.grammarSource_choice {p : StructuredOutputParams}
    {choices : List String} (h : p.validate = .ok ()) (hc : p.choice = some choices) :
    p.grammarSource = .ok (.regex (choiceRegex choices)) ∧ choices ≠ [] ∧ "" ∉ choices := by
  have hok := h
  have hone : [p.jsonSchema.isSome, p.jsonObject.isSome, p.xml.isSome, p.regex.isSome,
      p.grammar.isSome, p.choice.isSome].count true = 1 := by
    by_contra hne
    simp only [validate, ne_eq, hne, not_false_eq_true, if_true] at h
    cases h
  have halone : ∀ a b c d e : Bool, [a, b, c, d, e, true].count true = 1 →
      a = false ∧ b = false ∧ c = false ∧ d = false ∧ e = false := by decide
  rw [hc] at hone
  obtain ⟨hjson, hobject, hxml, hregex, hgrammar⟩ := halone _ _ _ _ _ hone
  rw [Option.isSome_eq_false_iff, Option.isNone_iff_eq_none] at hjson hobject hxml hregex hgrammar
  constructor
  · simp [grammarSource, hok, hjson, hobject, hregex, hc]
  · by_contra hempty
    rw [not_and_or, not_not, not_not] at hempty
    simp [validate, validateText, hjson, hobject, hxml, hregex, hgrammar, hc, hempty] at h
    cases h

end Rllm
