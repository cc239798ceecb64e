import Rllm.Library.Search

/-! # JSON

Values and the grammar of their texts. A number is kept as its text. What stands
inside of a value stands in its text, in the same order.
-/

namespace Rllm

inductive Json where
  | null
  | bool (b : Bool)
  | number (text : List Char)
  | string (s : List Char)
  | array (items : List Json)
  | object (entries : List (List Char × Json))

namespace Json

open Search

/-! ## The grammar -/

/-- What may stand between two tokens. -/
def Blank (s : List Char) : Prop := ∀ c ∈ s, c ∈ [' ', '\t', '\n', '\r']

def Digits (s : List Char) : Prop := s ≠ [] ∧ ∀ c ∈ s, c.isDigit

/-- A sign, digits without leading zeros, and perhaps a fraction and an exponent. -/
structure IsNumber (s : List Char) : Prop where
  parts : ∃ sign int frac exp, s = sign ++ int ++ frac ++ exp ∧ sign ∈ [[], ['-']] ∧
    (int = ['0'] ∨ Digits int ∧ int.head? ≠ some '0') ∧
    (frac = [] ∨ ∃ ds, Digits ds ∧ frac = '.' :: ds) ∧
    (exp = [] ∨ ∃ e ∈ ['e', 'E'], ∃ sign ∈ [[], ['+'], ['-']], ∃ ds, Digits ds ∧
      exp = e :: (sign ++ ds))

/-- The characters that a backslash and one more character stand for. -/
def escapes : List (Char × Char) :=
  [('"', '"'), ('\\', '\\'), ('/', '/'), ('b', '\x08'), ('f', '\x0c'), ('n', '\n'), ('r', '\r'),
    ('t', '\t')]

def hexDigit (c : Char) : Option ℕ :=
  if '0' ≤ c ∧ c ≤ '9' then some (c.toNat - '0'.toNat)
  else if 'a' ≤ c ∧ c ≤ 'f' then some (c.toNat - 'a'.toNat + 10)
  else if 'A' ≤ c ∧ c ≤ 'F' then some (c.toNat - 'A'.toNat + 10)
  else none

/-- The number that four hexadecimal digits stand for. -/
def HexCode (n : ℕ) (s : List Char) : Prop :=
  ∃ a b c d, s.map hexDigit = [some a, some b, some c, some d] ∧
    n = ((a * 16 + b) * 16 + c) * 16 + d

/-- A string and what stands between its quotes. -/
inductive Escaped : List Char → List Char → Prop
  | nil : Escaped [] []
  | plain {c : Char} {v t : List Char} (hc : 0x20 ≤ c.toNat) (hquote : c ≠ '"')
    (hslash : c ≠ '\\') (h : Escaped v t) : Escaped (c :: v) (c :: t)
  | escape {e c : Char} {v t : List Char} (he : (e, c) ∈ escapes) (h : Escaped v t) :
    Escaped (c :: v) ('\\' :: e :: t)
  | unicode {n : ℕ} {hex v t : List Char} (hn : n.isValidChar) (hhex : HexCode n hex)
    (h : Escaped v t) : Escaped (Char.ofNat n :: v) ('\\' :: 'u' :: hex ++ t)
  | surrogates {hi lo : ℕ} {hexHi hexLo v t : List Char} (hhi : 0xD800 ≤ hi ∧ hi < 0xDC00)
    (hlo : 0xDC00 ≤ lo ∧ lo < 0xE000) (hhexHi : HexCode hi hexHi) (hhexLo : HexCode lo hexLo)
    (h : Escaped v t) :
    Escaped (Char.ofNat (0x10000 + (hi - 0xD800) * 0x400 + (lo - 0xDC00)) :: v)
      ('\\' :: 'u' :: hexHi ++ '\\' :: 'u' :: hexLo ++ t)

mutual

/-- A value and its text. The last of several members of one name counts. -/
inductive Text : Json → List Char → Prop
  | null : Text .null "null".toList
  | true : Text (.bool true) "true".toList
  | false : Text (.bool false) "false".toList
  | number {t : List Char} (h : IsNumber t) : Text (.number t) t
  | string {v t : List Char} (h : Escaped v t) : Text (.string v) ('"' :: t ++ ['"'])
  | emptyArray {b : List Char} (h : Blank b) : Text (.array []) ('[' :: b ++ [']'])
  | array {items : List Json} {t : List Char} (h : Items items t) :
    Text (.array items) ('[' :: t ++ [']'])
  | emptyObject {b : List Char} (h : Blank b) : Text (.object []) ('\x7b' :: b ++ ['\x7d'])
  | object {members entries : List (List Char × Json)} {t : List Char} (h : Members members t)
    (hlast : ∀ name, entries.lookup name = members.reverse.lookup name) :
    Text (.object entries) ('\x7b' :: t ++ ['\x7d'])

inductive Items : List Json → List Char → Prop
  | one {v : Json} {a t b : List Char} (ha : Blank a) (h : Text v t) (hb : Blank b) :
    Items [v] (a ++ t ++ b)
  | more {v : Json} {vs : List Json} {a t b r : List Char} (ha : Blank a) (h : Text v t)
    (hb : Blank b) (hs : Items vs r) : Items (v :: vs) (a ++ t ++ b ++ ',' :: r)

inductive Members : List (List Char × Json) → List Char → Prop
  | one {name : List Char} {v : Json} {a n b c t d : List Char} (ha : Blank a)
    (hname : Escaped name n) (hb : Blank b) (hc : Blank c) (h : Text v t) (hd : Blank d) :
    Members [(name, v)] (a ++ '"' :: n ++ '"' :: b ++ ':' :: c ++ t ++ d)
  | more {name : List Char} {v : Json} {members : List (List Char × Json)}
    {a n b c t d r : List Char} (ha : Blank a) (hname : Escaped name n) (hb : Blank b)
    (hc : Blank c) (h : Text v t) (hd : Blank d) (hs : Members members r) :
    Members ((name, v) :: members) (a ++ '"' :: n ++ '"' :: b ++ ':' :: c ++ t ++ d ++ ',' :: r)

end

/-- A text that holds one value. -/
def Document (v : Json) (s : List Char) : Prop :=
  ∃ a t b, Blank a ∧ Text v t ∧ Blank b ∧ s = a ++ t ++ b

def IsDocument (s : List Char) : Prop := ∃ v, Document v s

/-- Values one behind the other. -/
inductive Sequence : List Json → List Char → Prop
  | nil {b : List Char} (h : Blank b) : Sequence [] b
  | cons {v : Json} {vs : List Json} {a t r : List Char} (ha : Blank a) (h : Text v t)
    (hs : Sequence vs r) : Sequence (v :: vs) (a ++ t ++ r)

theorem escaped_plain {s : List Char} (h : ∀ c ∈ s, 0x20 ≤ c.toNat ∧ c ≠ '"' ∧ c ≠ '\\') :
    Escaped s s := by
  induction s with
  | nil => exact .nil
  | cons c s ih =>
    obtain ⟨⟨hc, hquote, hslash⟩, hs⟩ := List.forall_mem_cons.mp h
    exact .plain hc hquote hslash (ih hs)

theorem blank_nil : Blank [] := by
  intro c hc
  cases hc

/-! ## Values within values -/

variable {v : Json} {vs : List Json} {entries members : List (List Char × Json)}
  {s t name : List Char}

theorem mem_of_lookup_eq_some (h : entries.lookup name = some v) : (name, v) ∈ entries := by
  obtain ⟨before, after, rfl, -⟩ := List.lookup_eq_some_iff.mp h
  exact List.mem_append_right _ List.mem_cons_self

theorem Sequence.inOrder (h : Sequence vs s) : ∃ ts, List.Forall₂ Text vs ts ∧ InOrder ts s := by
  induction h with
  | nil => exact ⟨[], .nil, .nil _⟩
  | @cons _ _ a _ _ _ h _ ih =>
    obtain ⟨ts, hts, horder⟩ := ih
    exact ⟨_ :: ts, .cons h hts, .cons a horder⟩

theorem Items.inOrder (h : Items vs s) : ∃ ts, List.Forall₂ Text vs ts ∧ InOrder ts s := by
  induction vs generalizing s with
  | nil => cases h
  | cons v vs ih =>
    cases h with
    | @one _ a t b _ h _ =>
      refine ⟨[t], .cons h .nil, ?_⟩
      exact .cons a (.nil b)
    | @more _ _ a t b r _ h _ hs =>
      obtain ⟨ts, hts, horder⟩ := ih hs
      refine ⟨t :: ts, .cons h hts, ?_⟩
      rw [List.append_assoc _ b]
      exact .cons a ((horder.append_left [',']).append_left b)

theorem Members.infix_of_mem (h : Members members s) (hv : (name, v) ∈ members) :
    ∃ t, Text v t ∧ t <:+: s := by
  induction members generalizing s with
  | nil => cases hv
  | cons m members ih =>
    cases h with
    | @one _ _ a n b c t d _ _ _ _ h _ =>
      obtain ⟨rfl, rfl⟩ := Prod.mk.inj (List.mem_singleton.mp hv)
      exact ⟨t, h, _, d, rfl⟩
    | @more _ _ _ a n b c t d r _ _ _ _ h _ hs =>
      rcases List.mem_cons.mp hv with heq | hv
      · obtain ⟨rfl, rfl⟩ := Prod.mk.inj heq
        exact ⟨t, h, _, d ++ ',' :: r, (List.append_assoc _ d _).symm⟩
      · obtain ⟨t', ht', hinfix⟩ := ih hs hv
        refine ⟨t', ht', hinfix.trans ?_⟩
        exact ((List.suffix_cons ',' r).trans (List.suffix_append _ _)).isInfix

theorem Text.inOrder_items (h : Text (.array vs) s) :
    ∃ ts, List.Forall₂ Text vs ts ∧ InOrder ts s := by
  cases h with
  | emptyArray => exact ⟨[], .nil, .nil _⟩
  | array h =>
    obtain ⟨ts, hts, horder⟩ := h.inOrder
    exact ⟨ts, hts, (horder.append_left ['[']).append_right [']']⟩

theorem Text.infix_of_lookup (h : Text (.object entries) s)
    (hv : entries.lookup name = some v) : ∃ t, Text v t ∧ t <:+: s := by
  cases h with
  | emptyObject => cases hv
  | @object members _ t h hlast =>
    rw [hlast] at hv
    obtain ⟨t', ht', hinfix⟩ :=
      h.infix_of_mem (List.mem_reverse.mp (mem_of_lookup_eq_some hv))
    exact ⟨t', ht', hinfix.trans ⟨['\x7b'], ['\x7d'], rfl⟩⟩

end Json

end Rllm
