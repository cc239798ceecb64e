import Mathlib.Computability.Language

/-! # Regular expressions

The common syntax of regular expressions: a backslash before a punctuation
character stands for that character, other characters stand for themselves
unless they are operators. Character classes, counted repetition and anchors
have no reading here.
-/

namespace Rllm

inductive Regex where
  | empty
  | char (c : Char)
  | any
  | seq (r s : Regex)
  | alt (r s : Regex)
  | star (r : Regex)
  deriving DecidableEq, Repr

namespace Regex

/-- The texts that an expression matches. A dot does not match a newline. -/
def language : Regex → Language Char
  | empty => 1
  | char c => {[c]}
  | any => {w | ∃ c, c ≠ '\n' ∧ w = [c]}
  | seq r s => r.language * s.language
  | alt r s => r.language + s.language
  | star r => KStar.kstar r.language

def Matches (r : Regex) (text : String) : Prop := text.toList ∈ r.language

def plus (r : Regex) : Regex := seq r (star r)

def opt (r : Regex) : Regex := alt r empty

/-! ## Lexemes -/

inductive Lexeme where
  | literal (c : Char)
  | any
  | star
  | plus
  | opt
  | bar
  | openGroup
  | closeGroup
  deriving DecidableEq, Repr

def metacharacters : List Char :=
  ['\\', '.', '+', '*', '?', '(', ')', '|', '[', ']', '\x7b', '\x7d', '^', '$']

/-- The punctuation of ASCII. -/
def isPunctuation (c : Char) : Bool :=
  33 ≤ c.toNat && c.toNat ≤ 47 || 58 ≤ c.toNat && c.toNat ≤ 64 ||
    91 ≤ c.toNat && c.toNat ≤ 96 || 123 ≤ c.toNat && c.toNat ≤ 126

/-- The lexeme of a character that nothing precedes. -/
def single (c : Char) : Option Lexeme :=
  if c = '.' then some .any
  else if c = '*' then some .star
  else if c = '+' then some .plus
  else if c = '?' then some .opt
  else if c = '|' then some .bar
  else if c = '(' then some .openGroup
  else if c = ')' then some .closeGroup
  else if c ∈ metacharacters then none
  else some (.literal c)

def lex : List Char → Option (List Lexeme)
  | [] => some []
  | '\\' :: c :: cs => if isPunctuation c then (lex cs).map (.literal c :: ·) else none
  | '(' :: '?' :: ':' :: cs => (lex cs).map (.openGroup :: ·)
  | c :: cs => (single c).bind fun t => (lex cs).map (t :: ·)

/-! ## Parsing -/

/-- An open group: the alternatives before the last bar, and what follows it. The last comes
first. -/
structure Frame where
  alternatives : List Regex := []
  items : List Regex := []

def sequence : List Regex → Regex
  | [] => empty
  | r :: rs => seq (sequence rs) r

def alternation (r : Regex) : List Regex → Regex
  | [] => r
  | s :: rs => alt (alternation s rs) r

namespace Frame

variable (f : Frame)

def close : Regex := alternation (sequence f.items) f.alternatives

def push (r : Regex) : Frame := { f with items := r :: f.items }

def alternate : Frame := ⟨sequence f.items :: f.alternatives, []⟩

/-- A quantifier applies to the item before it. -/
def quantify (q : Regex → Regex) : Option Frame :=
  match f.items with
  | [] => none
  | r :: rs => some { f with items := q r :: rs }

end Frame

def parse : List Frame → Frame → List Lexeme → Option Regex
  | stack, f, [] => if stack.isEmpty then some f.close else none
  | stack, f, .literal c :: ts => parse stack (f.push (.char c)) ts
  | stack, f, .any :: ts => parse stack (f.push .any) ts
  | stack, f, .star :: ts => (f.quantify .star).bind fun f => parse stack f ts
  | stack, f, .plus :: ts => (f.quantify .plus).bind fun f => parse stack f ts
  | stack, f, .opt :: ts => (f.quantify .opt).bind fun f => parse stack f ts
  | stack, f, .bar :: ts => parse stack f.alternate ts
  | stack, f, .openGroup :: ts => parse (f :: stack) {} ts
  | [], _, .closeGroup :: _ => none
  | g :: stack, f, .closeGroup :: ts => parse stack (g.push f.close) ts

/-- The expression that a pattern stands for. -/
def read (pattern : String) : Option Regex := (lex pattern.toList).bind (parse [] {})

/-! ## Literals -/

variable {c : Char} {cs : List Char} {w x : List Char} {f : Frame} {stack : List Frame}
  {ts : List Lexeme}

theorem lex_literal (hc : c ∉ metacharacters) :
    lex (c :: cs) = (lex cs).map (.literal c :: ·) := by
  have hsingle : single c = some (.literal c) := by
    simp only [metacharacters, List.mem_cons, not_or] at hc
    simp [single, metacharacters, hc]
  have hback : c ≠ '\\' := fun he => hc (by rw [he]; decide)
  have hopen : c ≠ '(' := fun he => hc (by rw [he]; decide)
  rw [lex, hsingle]
  · rfl
  · exact fun _ _ he _ => hback he
  · exact fun _ he _ => hopen he

theorem lex_escape (hc : isPunctuation c = true) :
    lex ('\\' :: c :: cs) = (lex cs).map (.literal c :: ·) := by
  rw [lex, if_pos hc]

theorem isPunctuation_of_mem (hc : c ∈ metacharacters) : isPunctuation c = true :=
  List.forall_iff_forall_mem.mp (by decide : metacharacters.Forall (isPunctuation · = true)) c hc

/-- Literal characters in sequence add a word to what the group matches so far. -/
theorem parse_literals (w : List Char) (f : Frame) :
    parse stack f (w.map .literal ++ ts) =
      parse stack { f with items := (w.map char).reverse ++ f.items } ts := by
  induction w generalizing f with
  | nil => rfl
  | cons c w ih =>
    rw [List.map_cons, List.cons_append, parse, ih]
    simp [Frame.push]

theorem mem_language_literals (w : List Char) (items : List Regex) :
    x ∈ (sequence ((w.map char).reverse ++ items)).language ↔
      ∃ y ∈ (sequence items).language, y ++ w = x := by
  induction w generalizing items x with
  | nil => simp
  | cons c w ih =>
    rw [List.map_cons, List.reverse_cons, List.append_assoc, List.singleton_append, ih]
    constructor
    · rintro ⟨y, hy, rfl⟩
      obtain ⟨z, hz, v, rfl, rfl⟩ := Language.mem_mul.mp hy
      exact ⟨z, hz, by simp⟩
    · rintro ⟨y, hy, rfl⟩
      exact ⟨y ++ [c], Language.mem_mul.mpr ⟨y, hy, [c], rfl, rfl⟩, by simp⟩

theorem mem_language_alternation (r : Regex) (rs : List Regex) :
    x ∈ (alternation r rs).language ↔ (∃ s ∈ rs, x ∈ s.language) ∨ x ∈ r.language := by
  induction rs generalizing r with
  | nil => simp [alternation]
  | cons s rs ih =>
    rw [alternation, language, Language.mem_add, ih]
    simp only [List.mem_cons, exists_eq_or_imp]
    rw [or_comm (a := x ∈ s.language)]

theorem parse_alternatives (w : List Char) (ws : List (List Char)) (f : Frame) :
    ∃ g : Frame, parse stack f
        (w.map .literal ++ (ws.flatMap fun v => .bar :: v.map .literal) ++ ts) = parse stack g ts ∧
      ∀ x, x ∈ g.close.language ↔ (∃ s ∈ f.alternatives, x ∈ s.language) ∨
        (∃ y ∈ (sequence f.items).language, y ++ w = x) ∨ x ∈ ws := by
  induction ws generalizing w f with
  | nil =>
    refine ⟨_, by rw [List.flatMap_nil, List.append_nil, parse_literals], fun x => ?_⟩
    rw [Frame.close, mem_language_alternation, mem_language_literals]
    simp
  | cons v ws ih =>
    obtain ⟨g, hparse, hg⟩ := ih v { f with items := (w.map char).reverse ++ f.items }.alternate
    refine ⟨g, ?_, fun x => ?_⟩
    · rw [List.flatMap_cons, List.append_assoc, parse_literals, List.cons_append, List.cons_append,
        parse, ← hparse]
    · rw [hg]
      simp only [Frame.alternate, List.mem_cons, exists_eq_or_imp, mem_language_literals, sequence,
        language, Language.mem_one, exists_eq_left, List.nil_append]
      rw [eq_comm (a := v)]
      exact or_assoc.trans or_left_comm

theorem exists_parse_group (w : List Char) (ws : List (List Char)) :
    ∃ r, parse [] {} (.openGroup ::
        (w.map .literal ++ (ws.flatMap fun v => .bar :: v.map .literal) ++ [.closeGroup])) =
          some r ∧
      ∀ x, x ∈ r.language ↔ x ∈ w :: ws := by
  obtain ⟨g, hparse, hg⟩ : ∃ g : Frame, parse [{}] {} (w.map .literal ++
      (ws.flatMap fun v => .bar :: v.map .literal) ++ [.closeGroup]) =
        parse [{}] g [.closeGroup] ∧ _ := parse_alternatives w ws {}
  refine ⟨_, by rw [parse, hparse]; rfl, fun x => ?_⟩
  have hseq : x ∈ (seq empty g.close).language ↔ x ∈ g.close.language := by
    rw [language, language, one_mul]
  refine hseq.trans ((hg x).trans ?_)
  simp [sequence, language, eq_comm (a := w)]

end Regex

end Rllm
