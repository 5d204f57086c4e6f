import Leta.Foundation.Bytes

/-! # Regular expressions

The ECMAScript grammar that `std::regex` reads, as far as it is regular: without back
references, word boundaries, look-ahead and counted repetition. Patterns and texts are bytes,
and a pattern matches a text as a whole. -/

namespace Leta

/-- A byte that is read as an operator, or starts one. -/
def isOperator (b : UInt8) : Bool := (ascii "^$\\.*+?()[\x7b|").contains b

/-- A byte that stands for itself. So does a closing bracket or brace that closes nothing. -/
def isPatternCharacter (b : UInt8) : Bool := !isOperator b

/-- ECMAScript's SyntaxCharacter, which stands for itself behind a backslash. -/
def isSyntaxCharacter (b : UInt8) : Bool := isOperator b || b == 0x5d || b == 0x7d

def isLineTerminator (b : UInt8) : Bool := b == 0x0a || b == 0x0d

namespace Regex

inductive Quantifier where
  | star | plus | opt
  deriving DecidableEq

def Quantifier.byte : Quantifier → UInt8
  | .star => 0x2a
  | .plus => 0x2b
  | .opt => 0x3f

/-- `\d`, `\s` and `\w`. -/
inductive CharacterClass where
  | digit | space | word
  deriving DecidableEq

def CharacterClass.letter : CharacterClass → Bool → UInt8
  | .digit, negated => if negated then 0x44 else 0x64
  | .space, negated => if negated then 0x53 else 0x73
  | .word, negated => if negated then 0x57 else 0x77

def CharacterClass.contains (b : UInt8) : CharacterClass → Bool
  | .digit => isDigit b
  | .space => b == 0x20 || (0x09 ≤ b && b ≤ 0x0d)
  | .word => isDigit b || (0x41 ≤ b && b ≤ 0x5a) || (0x61 ≤ b && b ≤ 0x7a) || b == 0x5f

/-- What stands in brackets. -/
inductive SetItem where
  | single (b : UInt8)
  | range (low high : UInt8)
  deriving DecidableEq

def SetItem.render : SetItem → Bytes
  | .single b => [b]
  | .range low high => [low, 0x2d, high]

def SetItem.contains (b : UInt8) : SetItem → Bool
  | .single c => b == c
  | .range low high => low ≤ b && b ≤ high

/-- A byte that means nothing special between brackets. -/
def isSetCharacter (b : UInt8) : Bool := b < 0x80 && !(ascii "\\[]^-").contains b

def SetItem.isPlain : SetItem → Bool
  | .single b => isSetCharacter b
  | .range low high => isSetCharacter low && isSetCharacter high && low ≤ high

end Regex

open Regex

/-- The levels of the grammar. -/
inductive RegexLevel where
  | disjunction | alternative | term | atom

/-- A syntax tree, by the productions of the grammar. -/
inductive Regex : RegexLevel → Type where
  | char (b : UInt8) (h : isPatternCharacter b) : Regex .atom
  | any : Regex .atom
  | escaped (b : UInt8) (h : isSyntaxCharacter b) : Regex .atom
  | characterClass (kind : CharacterClass) (negated : Bool) : Regex .atom
  | set (negated : Bool) (items : List SetItem) (nonempty : items ≠ [])
      (h : items.all SetItem.isPlain) : Regex .atom
  | group (r : Regex .disjunction) : Regex .atom
  | nonCapturing (r : Regex .disjunction) : Regex .atom
  | start : Regex .term
  | finish : Regex .term
  | once (r : Regex .atom) : Regex .term
  | repeated (r : Regex .atom) (quantifier : Quantifier) (lazy : Bool) : Regex .term
  | empty : Regex .alternative
  | cons (r : Regex .term) (rest : Regex .alternative) : Regex .alternative
  | one (r : Regex .alternative) : Regex .disjunction
  | or (r : Regex .alternative) (rest : Regex .disjunction) : Regex .disjunction

namespace Regex

/-- How a syntax tree is written. -/
def render : {level : RegexLevel} → Regex level → Bytes
  | _, .char b _ => [b]
  | _, .any => [0x2e]
  | _, .escaped b _ => [0x5c, b]
  | _, .characterClass kind negated => [0x5c, kind.letter negated]
  | _, .set negated items _ _ =>
      0x5b :: ((if negated then [0x5e] else []) ++ items.flatMap SetItem.render ++ [0x5d])
  | _, .group r => 0x28 :: (r.render ++ [0x29])
  | _, .nonCapturing r => 0x28 :: 0x3f :: 0x3a :: (r.render ++ [0x29])
  | _, .start => [0x5e]
  | _, .finish => [0x24]
  | _, .once r => r.render
  | _, .repeated r quantifier lazy =>
      r.render ++ quantifier.byte :: (if lazy then [0x3f] else [])
  | _, .empty => []
  | _, .cons r rest => r.render ++ rest.render
  | _, .one r => r.render
  | _, .or r rest => r.render ++ 0x7c :: rest.render

/-- The texts that a tree matches. `first` and `last` say whether the text starts and ends the
whole one. A lazy quantifier matches what the greedy one does. -/
inductive Matches : {level : RegexLevel} → Regex level → Prop → Prop → Bytes → Prop where
  | char {b h first last} : Matches (.char b h) first last [b]
  | any {b first last} (h : isLineTerminator b = false) : Matches .any first last [b]
  | escaped {b h first last} : Matches (.escaped b h) first last [b]
  | characterClass {kind negated b first last} (h : kind.contains b ≠ negated) :
      Matches (.characterClass kind negated) first last [b]
  | set {negated items nonempty hitems b first last}
      (h : items.any (SetItem.contains b) ≠ negated) :
      Matches (.set negated items nonempty hitems) first last [b]
  | group {r first last text} (h : Matches r first last text) : Matches (.group r) first last text
  | nonCapturing {r first last text} (h : Matches r first last text) :
      Matches (.nonCapturing r) first last text
  | start {first last} (h : first) : Matches .start first last []
  | finish {first last} (h : last) : Matches .finish first last []
  | once {r first last text} (h : Matches r first last text) : Matches (.once r) first last text
  | omitted {r quantifier lazy first last} (h : quantifier ≠ .plus) :
      Matches (.repeated r quantifier lazy) first last []
  | opt {r lazy first last text} (h : Matches r first last text) :
      Matches (.repeated r .opt lazy) first last text
  | again {r quantifier lazy first last text rest} (h : quantifier ≠ .opt)
      (head : Matches r first (last ∧ rest = []) text)
      (tail : Matches (.repeated r .star lazy) (first ∧ text = []) last rest) :
      Matches (.repeated r quantifier lazy) first last (text ++ rest)
  | empty {first last} : Matches .empty first last []
  | cons {r others first last text rest} (head : Matches r first (last ∧ rest = []) text)
      (tail : Matches others (first ∧ text = []) last rest) :
      Matches (.cons r others) first last (text ++ rest)
  | one {r first last text} (h : Matches r first last text) : Matches (.one r) first last text
  | left {r others first last text} (h : Matches r first last text) :
      Matches (.or r others) first last text
  | right {r others first last text} (h : Matches others first last text) :
      Matches (.or r others) first last text

variable {level : RegexLevel} {text : Bytes} {first last : Prop}

/-- An anchor that holds in a part of the text holds when the part grows to the text's ends. -/
theorem Matches.weaken {r : Regex level} (h : Matches r first last text) :
    ∀ {first' last' : Prop}, (first → first') → (last → last') → Matches r first' last' text := by
  induction h with
  | char => exact fun _ _ => .char
  | any h => exact fun _ _ => .any h
  | escaped => exact fun _ _ => .escaped
  | characterClass h => exact fun _ _ => .characterClass h
  | set h => exact fun _ _ => .set h
  | group _ ih => exact fun hfirst hlast => .group (ih hfirst hlast)
  | nonCapturing _ ih => exact fun hfirst hlast => .nonCapturing (ih hfirst hlast)
  | start h => exact fun hfirst _ => .start (hfirst h)
  | finish h => exact fun _ hlast => .finish (hlast h)
  | once _ ih => exact fun hfirst hlast => .once (ih hfirst hlast)
  | omitted h => exact fun _ _ => .omitted h
  | opt _ ih => exact fun hfirst hlast => .opt (ih hfirst hlast)
  | again h _ _ ihead itail =>
      intro first' last' hfirst hlast
      apply Matches.again h
      · exact ihead hfirst (And.imp_left hlast)
      · exact itail (And.imp_left hfirst) hlast
  | empty => exact fun _ _ => .empty
  | cons _ _ ihead itail =>
      intro first' last' hfirst hlast
      apply Matches.cons
      · exact ihead hfirst (And.imp_left hlast)
      · exact itail (And.imp_left hfirst) hlast
  | one _ ih => exact fun hfirst hlast => .one (ih hfirst hlast)
  | left _ ih => exact fun hfirst hlast => .left (ih hfirst hlast)
  | right _ ih => exact fun hfirst hlast => .right (ih hfirst hlast)

/-! ## Patterns without operators -/

theorem not_plain_repeated (r : Regex .atom) (quantifier : Quantifier) (lazy : Bool) :
    ¬ ∀ b ∈ (repeated r quantifier lazy).render, isPatternCharacter b := by
  intro h
  have hbyte := h quantifier.byte (by simp [render])
  cases quantifier <;> exact absurd hbyte (by decide)

/-- A pattern of characters that stand for themselves matches itself and nothing else. -/
theorem Matches.eq_render {r : Regex level} (h : Matches r first last text)
    (hplain : ∀ b ∈ r.render, isPatternCharacter b) : text = r.render := by
  induction h with
  | char => rfl
  | any => exact absurd (hplain 0x2e (by simp [render])) (by decide)
  | escaped => exact absurd (hplain 0x5c (by simp [render])) (by decide)
  | characterClass => exact absurd (hplain 0x5c (by simp [render])) (by decide)
  | set => exact absurd (hplain 0x5b (by simp [render])) (by decide)
  | group => exact absurd (hplain 0x28 (by simp [render])) (by decide)
  | nonCapturing => exact absurd (hplain 0x28 (by simp [render])) (by decide)
  | start => exact absurd (hplain 0x5e (by simp [render])) (by decide)
  | finish => exact absurd (hplain 0x24 (by simp [render])) (by decide)
  | once _ ih => exact ih hplain
  | omitted | opt | again => exact absurd hplain (not_plain_repeated _ _ _)
  | empty => rfl
  | cons _ _ ihead itail =>
      simp only [render, List.forall_mem_append] at hplain ⊢
      rw [ihead hplain.1, itail hplain.2]
  | one _ ih => exact ih hplain
  | left => exact absurd (hplain 0x7c (by simp [render])) (by decide)
  | right => exact absurd (hplain 0x7c (by simp [render])) (by decide)

/-- The tree of a pattern without operators. -/
theorem exists_regex_of_plain (hplain : ∀ b ∈ text, isPatternCharacter b) :
    ∃ r : Regex .disjunction, r.render = text ∧ Matches r True True text := by
  suffices h : ∃ r : Regex .alternative, r.render = text ∧
      ∀ first last, Matches r first last text by
    obtain ⟨r, hr, hmatches⟩ := h
    exact ⟨.one r, hr, .one (hmatches True True)⟩
  induction text with
  | nil => exact ⟨.empty, rfl, fun _ _ => .empty⟩
  | cons b text ih =>
      rw [List.forall_mem_cons] at hplain
      obtain ⟨r, hr, hmatches⟩ := ih hplain.2
      refine ⟨.cons (.once (.char b hplain.1)) r, by simp [render, hr], fun first last => ?_⟩
      exact .cons (.once .char) (hmatches _ _)

/-! ## Patterns with operators -/

/-- The atoms that match exactly one byte and are not `.`. -/
def literals : {level : RegexLevel} → Regex level → ℕ
  | _, .char _ _ | _, .escaped _ _ | _, .characterClass _ _ | _, .set _ _ _ _ => 1
  | _, .any | _, .start | _, .finish | _, .empty => 0
  | _, .group r | _, .nonCapturing r | _, .once r | _, .repeated r _ _ | _, .one r => r.literals
  | _, .cons r rest => r.literals + rest.literals
  | _, .or r rest => r.literals + rest.literals

/-- Every operator is written, but is not one of the literals. -/
theorem literals_le (r : Regex level) : r.literals ≤ r.render.length ∧
    (r.render.length ≤ r.literals → ∀ b ∈ r.render, isPatternCharacter b) := by
  induction r with
  | char b h => simp [literals, render, h]
  | any => simp [literals, render]
  | escaped b h => simp [literals, render]
  | characterClass kind negated => simp [literals, render]
  | set negated items nonempty h => simp [literals, render]
  | group r ih => simp [literals, render]; omega
  | nonCapturing r ih => simp [literals, render]; omega
  | start => simp [literals, render]
  | finish => simp [literals, render]
  | once r ih => exact ih
  | repeated r quantifier lazy ih => simp [literals, render]; omega
  | empty => simp [literals, render]
  | cons r rest ihead itail =>
      simp only [literals, render, List.length_append, List.forall_mem_append]
      refine ⟨by omega, fun h => ⟨ihead.2 (by omega), itail.2 (by omega)⟩⟩
  | one r ih => exact ih
  | or r rest ihead itail => simp [literals, render]; omega

/-- Another text is matched, too, which is empty if this one is. -/
def Loose (r : Regex level) (first last : Prop) (text : Bytes) : Prop :=
  ∃ other, other ≠ text ∧ (text = [] → other = []) ∧ Matches r first last other

theorem Loose.map {level' : RegexLevel} {r : Regex level} {r' : Regex level'}
    (h : Loose r first last text)
    (hmap : ∀ other, Matches r first last other → Matches r' first last other) :
    Loose r' first last text := by
  obtain ⟨other, hne, hnil, hother⟩ := h
  exact ⟨other, hne, hnil, hmap other hother⟩

/-- What changes in front leaves the anchors behind it in place. -/
theorem Loose.head {r : Regex .term} {others : Regex .alternative} {rest : Bytes}
    (h : Loose r first (last ∧ rest = []) text)
    (tail : Matches others (first ∧ text = []) last rest) :
    Loose (.cons r others) first last (text ++ rest) := by
  obtain ⟨other, hne, hnil, hother⟩ := h
  refine ⟨other ++ rest, by simpa using hne, ?_, ?_⟩
  · intro h
    rw [List.append_eq_nil_iff] at h ⊢
    exact ⟨hnil h.1, h.2⟩
  · exact .cons hother (tail.weaken (And.imp_right hnil) id)

theorem Loose.tail {r : Regex .term} {others : Regex .alternative} {rest : Bytes}
    (head : Matches r first (last ∧ rest = []) text)
    (h : Loose others (first ∧ text = []) last rest) :
    Loose (.cons r others) first last (text ++ rest) := by
  obtain ⟨other, hne, hnil, hother⟩ := h
  refine ⟨text ++ other, by simpa using hne, ?_, ?_⟩
  · intro h
    rw [List.append_eq_nil_iff] at h ⊢
    exact ⟨h.1, hnil h.2⟩
  · exact .cons (head.weaken id (And.imp_right hnil)) hother

/-- A text that is matched can be changed or cut shorter, unless every byte of it faces a
literal of its own. -/
theorem Matches.loose_or_le {r : Regex level} (h : Matches r first last text) :
    Loose r first last text ∨ text.length ≤ r.literals := by
  induction h with
  | char | escaped | characterClass | set => exact .inr le_rfl
  | @any b _ _ h =>
      apply Or.inl
      by_cases hb : b = 0x61
      · exact ⟨[0x62], by simp [hb], by simp, .any rfl⟩
      · exact ⟨[0x61], by simp [Ne.symm hb], by simp, .any rfl⟩
  | start | finish | empty | omitted => exact .inr (Nat.zero_le _)
  | group _ ih => exact ih.imp_left fun h => h.map fun _ => .group
  | nonCapturing _ ih => exact ih.imp_left fun h => h.map fun _ => .nonCapturing
  | once _ ih => exact ih.imp_left fun h => h.map fun _ => .once
  | opt _ ih => exact ih.imp_left fun h => h.map fun _ => .opt
  | one _ ih => exact ih.imp_left fun h => h.map fun _ => .one
  | left _ ih =>
      apply ih.imp
      · exact fun h => h.map fun _ => .left
      · exact fun h => h.trans (Nat.le_add_right _ _)
  | right _ ih =>
      apply ih.imp
      · exact fun h => h.map fun _ => .right
      · exact fun h => h.trans (Nat.le_add_left _ _)
  | @again r quantifier lazy first last text rest h head tail ihead _ =>
      by_cases hrest : rest = []
      · subst hrest
        simp only [List.append_nil]
        apply ihead.imp_left
        rintro ⟨other, hne, hnil, hother⟩
        refine ⟨other, hne, hnil, ?_⟩
        rw [← List.append_nil other]
        exact .again h hother (tail.weaken (And.imp_right hnil) id)
      · -- The iterations behind the first one may be left out.
        refine .inl ⟨text, by simpa using hrest, by simp [hrest], ?_⟩
        rw [← List.append_nil text]
        exact .again h (head.weaken id fun hlast => absurd hlast.2 hrest) (.omitted (by decide))
  | @cons r others first last text rest head tail ihead itail =>
      obtain hloose | hle := ihead
      · exact .inl (hloose.head tail)
      · obtain hloose | hle' := itail
        · exact .inl (hloose.tail head)
        · rw [List.length_append, literals]
          exact .inr (Nat.add_le_add hle hle')

/-- A pattern with an operator that matches itself matches another text, too. -/
theorem exists_other {r : Regex level} (h : Matches r first last r.render)
    (hoperator : ¬ ∀ b ∈ r.render, isPatternCharacter b) :
    ∃ other, other ≠ r.render ∧ Matches r first last other := by
  obtain ⟨other, hne, -, hother⟩ | hle := h.loose_or_le
  · exact ⟨other, hne, hother⟩
  · exact absurd (r.literals_le.2 hle) hoperator

end Regex

/-! ## Texts as patterns -/

/-- The text is a pattern of the grammar. -/
def IsRegex (pattern : Bytes) : Prop := ∃ r : Regex .disjunction, r.render = pattern

/-- `std::regex_match`, for a pattern of the grammar. -/
def RegexMatch (pattern text : Bytes) : Prop :=
  ∃ r : Regex .disjunction, r.render = pattern ∧ Matches r True True text

theorem isRegex_of_plain {pattern : Bytes} (h : ∀ b ∈ pattern, isPatternCharacter b) :
    IsRegex pattern := by
  obtain ⟨r, hr, -⟩ := exists_regex_of_plain h
  exact ⟨r, hr⟩

theorem regexMatch_of_plain {pattern : Bytes} (h : ∀ b ∈ pattern, isPatternCharacter b)
    (text : Bytes) : RegexMatch pattern text ↔ text = pattern := by
  constructor
  · rintro ⟨r, rfl, hmatches⟩
    exact hmatches.eq_render h
  · rintro rfl
    exact exists_regex_of_plain h

/-- The patterns that match themselves alone are those without operators. -/
theorem plain_of_regexMatch {pattern : Bytes}
    (h : ∀ text, RegexMatch pattern text ↔ text = pattern) :
    ∀ b ∈ pattern, isPatternCharacter b := by
  obtain ⟨r, rfl, hmatches⟩ := (h pattern).mpr rfl
  by_contra hoperator
  obtain ⟨other, hne, hother⟩ := exists_other hmatches hoperator
  exact hne ((h other).mp ⟨r, rfl, hother⟩)

end Leta
