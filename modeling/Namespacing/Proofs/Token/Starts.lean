import Namespacing.Proofs.Token.Spreading
set_option autoImplicit false

namespace Namespacing

open Lexeme

def isMark (c : Char) : Bool :=
  !(isSpace c || Text.isWordChar c || ['#', '/', '\'', '"', '\x60', '<', '$', '?'].contains c)

/-- The ways in which code can start. -/
inductive CodeStart : Char → Text → Prop where
  | space {c : Char} {s : Text} (h : isSpace c = true) : CodeStart c s
  | hashBracket (t : Text) : CodeStart '#' ('[' :: t)
  | hash {s : Text} (h : s.head? ≠ some '[') : CodeStart '#' s
  | slashes (t : Text) : CodeStart '/' ('/' :: t)
  | block (t : Text) : CodeStart '/' ('*' :: t)
  | slash {s : Text} (h : s.head? ≠ some '/') (h' : s.head? ≠ some '*') : CodeStart '/' s
  | quote {c : Char} {s : Text} (h : c ∈ ['\'', '"', '\x60']) : CodeStart c s
  | heredoc (t : Text) : CodeStart '<' ('<' :: '<' :: t)
  | less {s : Text} (h : ∀ t, s ≠ '<' :: '<' :: t) : CodeStart '<' s
  | dollarWord {d : Char} {t : Text} (h : Text.isWordStart d = true) : CodeStart '$' (d :: t)
  | dollar {s : Text} (h : s.head?.any Text.isWordStart = false) : CodeStart '$' s
  | number {c : Char} {s : Text} (h : c.isDigit = true) : CodeStart c s
  | word {c : Char} {s : Text} (h : Text.isWordStart c = true) : CodeStart c s
  | closeTag (t : Text) : CodeStart '?' ('>' :: t)
  | question {s : Text} (h : s.head? ≠ some '>') : CodeStart '?' s
  | mark {c : Char} {s : Text} (h : isMark c = true) : CodeStart c s

theorem isDigit_of_isWordChar {c : Char} (h : Text.isWordChar c = true)
    (h' : Text.isWordStart c = false) : c.isDigit = true := by
  simp only [Text.isWordChar, Char.isAlphanum, Text.isWordStart, Bool.or_eq_true,
    Bool.or_eq_false_iff] at h h'
  rcases h with (h | h) | h
  · rw [h'.1] at h
    cases h
  · exact h
  · rw [h'.2] at h
    cases h

theorem codeStart (c : Char) (s : Text) : CodeStart c s := by
  by_cases hmark : isMark c = true
  · exact .mark hmark
  by_cases hspace : isSpace c = true
  · exact .space hspace
  by_cases hword : Text.isWordChar c = true
  · cases hstart : Text.isWordStart c with
    | true => exact .word hstart
    | false => exact .number (isDigit_of_isWordChar hword hstart)
  have hc : c ∈ ['#', '/', '\'', '"', '\x60', '<', '$', '?'] := by
    by_contra hnot
    refine hmark ?_
    simp only [isMark, Bool.not_eq_true', Bool.or_eq_false_iff]
    refine ⟨⟨by simpa using hspace, by simpa using hword⟩, ?_⟩
    rw [← Bool.not_eq_true, List.contains_iff_mem]
    exact hnot
  simp only [List.mem_cons, List.not_mem_nil, or_false] at hc
  rcases hc with rfl | rfl | rfl | rfl | rfl | rfl | rfl | rfl
  · by_cases h : s.head? = some '['
    · obtain ⟨t, rfl⟩ := List.head?_eq_some_iff.1 h
      exact .hashBracket t
    · exact .hash h
  · by_cases h : s.head? = some '/'
    · obtain ⟨t, rfl⟩ := List.head?_eq_some_iff.1 h
      exact .slashes t
    · by_cases h' : s.head? = some '*'
      · obtain ⟨t, rfl⟩ := List.head?_eq_some_iff.1 h'
        exact .block t
      · exact .slash h h'
  · exact .quote (by decide)
  · exact .quote (by decide)
  · exact .quote (by decide)
  · by_cases h : ∃ t, s = '<' :: '<' :: t
    · obtain ⟨t, rfl⟩ := h
      exact .heredoc t
    · exact .less fun t ht => h ⟨t, ht⟩
  · cases s with
    | nil => exact .dollar rfl
    | cons d t =>
      cases h : Text.isWordStart d with
      | true => exact .dollarWord h
      | false => exact .dollar (by simpa using h)
  · by_cases h : s.head? = some '>'
    · obtain ⟨t, rfl⟩ := List.head?_eq_some_iff.1 h
      exact .closeTag t
    · exact .question h

attribute [local simp] codeLexeme

theorem codeLexeme_space {c : Char} (h : isSpace c = true) (s : Text) :
    codeLexeme c s = .ok ⟨.whitespace, (s.takeWhile isSpace).length + 1⟩ := by
  simp [h]

theorem codeLexeme_hashBracket (t : Text) :
    codeLexeme '#' ('[' :: t) = closedLexeme .attribute .attribute (attributeLength? 0 none t) := rfl

theorem codeLexeme_hash {s : Text} (h : s.head? ≠ some '[') :
    codeLexeme '#' s = .ok ⟨.comment, lineCommentLength s + 1⟩ := by
  cases s with
  | nil => rfl
  | cons d s =>
    have hd : d ≠ '[' := by simpa using h
    simp [isSpace, isBlank, hd]

theorem codeLexeme_slashes (t : Text) :
    codeLexeme '/' ('/' :: t) = .ok ⟨.comment, lineCommentLength t + 2⟩ := rfl

theorem codeLexeme_block (t : Text) :
    codeLexeme '/' ('*' :: t) =
      closedLexeme .blockComment (if t.head? = some '*' then .docComment else .comment)
        (blockCommentLength? t) := rfl

theorem codeLexeme_slash {s : Text} (h : s.head? ≠ some '/') (h' : s.head? ≠ some '*') :
    codeLexeme '/' s = .ok ⟨.punct, 1⟩ := by
  cases s with
  | nil => rfl
  | cons d s =>
    have hd : d ≠ '/' := by simpa using h
    have hd' : d ≠ '*' := by simpa using h'
    simp [isSpace, isBlank, hd, hd']

def quoteOpener (c : Char) : Opener :=
  if c = '\'' then .singleQuote else if c = '"' then .doubleQuote else .backtick

theorem length_spelling_quoteOpener (c : Char) : (quoteOpener c).spelling.length = 1 := by
  unfold quoteOpener
  split
  · rfl
  · split <;> rfl

theorem codeLexeme_quote {c : Char} (h : c ∈ ['\'', '"', '\x60']) (s : Text) :
    codeLexeme c s = closedLexeme (quoteOpener c) .string (quotedLength? c s) := by
  simp only [List.mem_cons, List.not_mem_nil, or_false] at h
  rcases h with rfl | rfl | rfl <;> rfl

theorem codeLexeme_heredoc (t : Text) :
    codeLexeme '<' ('<' :: '<' :: t) = closedLexeme .heredoc .heredoc (heredocLength? t) := rfl

theorem codeLexeme_less {s : Text} (h : ∀ t, s ≠ '<' :: '<' :: t) :
    codeLexeme '<' s = .ok ⟨.punct, 1⟩ := by
  have hspace : isSpace '<' = false := rfl
  simp only [codeLexeme, hspace, Bool.false_eq_true, if_false, Char.reduceEq, if_true]

theorem codeLexeme_dollarWord {d : Char} (h : Text.isWordStart d = true) (t : Text) :
    codeLexeme '$' (d :: t) = .ok ⟨.variable, (t.takeWhile Text.isWordChar).length + 2⟩ := by
  simp [isSpace, isBlank, h]

theorem codeLexeme_dollar {s : Text} (h : s.head?.any Text.isWordStart = false) :
    codeLexeme '$' s = .ok ⟨.punct, 1⟩ := by
  cases s with
  | nil => rfl
  | cons d s =>
    have hd : Text.isWordStart d = false := by simpa using h
    simp [isSpace, isBlank, hd]

theorem codeLexeme_closeTag (t : Text) :
    codeLexeme '?' ('>' :: t) = .ok ⟨.closeTag, swallowedNewline t + 2⟩ := rfl

theorem codeLexeme_question {s : Text} (h : s.head? ≠ some '>') :
    codeLexeme '?' s = .ok ⟨.punct, 1⟩ := by
  cases s with
  | nil => rfl
  | cons d s =>
    have hd : d ≠ '>' := by simpa using h
    simp [isSpace, isBlank, Text.isWordStart, hd]

theorem ne_of_isWordChar {c : Char} (h : Text.isWordChar c = true) :
    isSpace c = false ∧ c ≠ '#' ∧ c ≠ '/' ∧ c ≠ '\'' ∧ c ≠ '"' ∧ c ≠ '\x60' ∧ c ≠ '<' ∧ c ≠ '$' := by
  have hne : ∀ d : Char, Text.isWordChar d = false → c ≠ d := by
    rintro d hd rfl
    rw [hd] at h
    cases h
  refine ⟨?_, hne _ rfl, hne _ rfl, hne _ rfl, hne _ rfl, hne _ rfl, hne _ rfl, hne _ rfl⟩
  simp [isSpace, isBlank, hne ' ' rfl, hne '\t' rfl, hne '\r' rfl, hne '\n' rfl]

theorem isWordChar_of_isWordStart {c : Char} (h : Text.isWordStart c = true) :
    Text.isWordChar c = true := by
  simp only [Text.isWordStart, Bool.or_eq_true] at h
  simp only [Text.isWordChar, Char.isAlphanum, Bool.or_eq_true]
  tauto

theorem isWordChar_of_isDigit {c : Char} (h : c.isDigit = true) : Text.isWordChar c = true := by
  simp [Text.isWordChar, Char.isAlphanum, h]

theorem codeLexeme_number {c : Char} (h : c.isDigit = true) (s : Text) :
    codeLexeme c s =
      .ok ⟨.number, (s.takeWhile fun d => Text.isWordChar d || d == '.').length + 1⟩ := by
  obtain ⟨h0, h1, h2, h3, h4, h5, h6, h7⟩ := ne_of_isWordChar (isWordChar_of_isDigit h)
  simp [h0, h1, h2, h3, h4, h5, h6, h7, h]

theorem isDigit_eq_false_of_isWordStart {c : Char} (h : Text.isWordStart c = true) :
    c.isDigit = false := by
  have hA : 'A'.val.toNat = 65 := rfl
  have hZ : 'Z'.val.toNat = 90 := rfl
  have ha : 'a'.val.toNat = 97 := rfl
  have h0 : '0'.val.toNat = 48 := rfl
  have h9 : '9'.val.toNat = 57 := rfl
  simp only [Text.isWordStart, Bool.or_eq_true, beq_iff_eq] at h
  delta Char.isAlpha Char.isUpper Char.isLower at h
  simp only [Bool.or_eq_true, decide_eq_true_eq, Bool.and_eq_true, ge_iff_le,
    UInt32.le_iff_toNat_le] at h
  rcases h with h | rfl
  · simp only [Char.isDigit, Bool.and_eq_false_iff, decide_eq_false_iff_not, ge_iff_le,
      UInt32.le_iff_toNat_le]
    omega
  · rfl

theorem codeLexeme_word {c : Char} (h : Text.isWordStart c = true) (s : Text) :
    codeLexeme c s = .ok (wordLexeme c s) := by
  obtain ⟨h0, h1, h2, h3, h4, h5, h6, h7⟩ := ne_of_isWordChar (isWordChar_of_isWordStart h)
  simp [h0, h1, h2, h3, h4, h5, h6, h7, h, isDigit_eq_false_of_isWordStart h]

theorem codeLexeme_mark {c : Char} (h : isMark c = true) (s : Text) :
    codeLexeme c s = .ok ⟨.punct, 1⟩ := by
  simp only [isMark, Bool.not_eq_true', Bool.or_eq_false_iff, List.contains_eq_mem, List.mem_cons,
    List.not_mem_nil, or_false, not_or, decide_eq_false_iff_not] at h
  obtain ⟨⟨h0, hword⟩, h1, h2, h3, h4, h5, h6, h7, h8⟩ := h
  have hstart : Text.isWordStart c = false := by
    cases hs : Text.isWordStart c with
    | false => rfl
    | true => rw [isWordChar_of_isWordStart hs] at hword; cases hword
  have hdigit : c.isDigit = false := by
    cases hd : c.isDigit with
    | false => rfl
    | true => rw [isWordChar_of_isDigit hd] at hword; cases hword
  simp [h0, h1, h2, h3, h4, h5, h6, h7, h8, hstart, hdigit]

end Namespacing
