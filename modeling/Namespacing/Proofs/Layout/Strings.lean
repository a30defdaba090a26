import Namespacing.Proofs.Layout.Container
set_option autoImplicit false

namespace Namespacing

open Lexeme Text Layout

/-- The texts of the strings among tokens, in order. -/
def stringTexts (shapes : List Shape) : List Text :=
  shapes.flatMap fun x => if x.kind = .string then [x.text] else []

/-- What wrapping makes of a string. -/
def wrappedString (ns : Namespace) (container w : Text) : Text :=
  headed (containerText ns container) (Layout.indent w)

section

variable {A B : List Shape}

theorem stringTexts_append (A B : List Shape) : stringTexts (A ++ B) = stringTexts A ++ stringTexts B :=
  List.flatMap_append

theorem stringTexts_eq_nil (h : ∀ x ∈ A, x.kind ≠ .string) : stringTexts A = [] := by
  rw [stringTexts, List.flatMap_eq_nil_iff]
  intro x hx
  rw [if_neg (h x hx)]

theorem map_stringTexts (f : Text → Text) (A : List Shape) :
    (stringTexts A).map f = A.flatMap fun x => if x.kind = .string then [f x.text] else [] := by
  rw [stringTexts, List.map_flatMap]
  congr 1
  funext x
  split <;> rfl

theorem Shape.ne_string_of_isGap {x : Shape} (h : x.isGap = true) : x.kind ≠ .string := by
  have hkind := Shape.isGap_kind h
  intro hstring
  rw [hstring] at hkind
  cases hkind

theorem Expands.stringTexts_eq {header : List Shape} {f : Text → Text} (hheader : ∀ x ∈ header, x.kind ≠ .string)
    (h : Expands (Respaces header f) A B) : stringTexts B = (stringTexts A).map f := by
  rw [map_stringTexts]
  refine h.flatMap_eq fun x ys hx => ?_
  rw [← stringTexts]
  cases hx with
  | solid hloose =>
    have hstring : x.kind ≠ .string := by
      intro hstring
      rw [hstring] at hloose
      cases hloose
    rw [if_neg hstring]
    exact stringTexts_eq_nil (by simpa using hstring)
  | @loose kind w w' _ _ hstring =>
    by_cases hkind : kind = .string
    · simp [stringTexts, hkind, hstring hkind]
    · simp [stringTexts, hkind]
  | @tag kind w w' gap hkind _ hgap =>
    have hstring : kind ≠ .string := by
      rintro rfl
      cases hkind
    rw [if_neg hstring]
    refine stringTexts_eq_nil fun y hy => ?_
    rcases List.mem_cons.1 hy with rfl | hy
    · exact hstring
    · rcases List.mem_append.1 hy with hy | hy
      · split at hy
        · exact hheader y hy
        · cases hy
      · exact Shape.ne_string_of_isGap (hgap y hy)

theorem wordKind_ne_string (w : Text) : wordKind w ≠ .string := by
  intro h
  have hloose := isLoose_wordKind w
  rw [h] at hloose
  cases hloose

theorem ne_string_of_mem_containerShapes {name container : Text} {x : Shape} (hname : QualifiedName name A)
    (hx : x ∈ containerShapes A container) : x.kind ≠ .string := by
  simp only [containerShapes, namespaceShapes, classShapes, openBrace, List.mem_append, List.mem_cons,
    List.not_mem_nil, or_false] at hx
  rcases hx with (rfl | rfl | rfl | hx | rfl) | (rfl | rfl | rfl | rfl | rfl) | rfl
  case inl.inr.inr.inr.inl =>
    rcases hname.mem_shapes hx with rfl | ⟨w, -, rfl⟩
    · decide
    · exact wordKind_ne_string w
  case inr.inl.inr.inr.inr.inl => exact wordKind_ne_string container
  all_goals decide

theorem length_flatMap_indentChar (w : Text) : (w.flatMap indentChar).length = w.length + 2 * w.count '\n' := by
  induction w with
  | nil => rfl
  | cons c w ih =>
    rw [List.flatMap_cons, List.length_append, ih]
    by_cases hc : c = '\n'
    · subst hc
      rw [List.count_cons_self, List.length_cons]
      have : (indentChar '\n').length = 3 := rfl
      omega
    · rw [indentChar_of_ne hc, List.count_cons_of_ne hc]
      simp only [List.length_cons, List.length_nil]
      omega

theorem length_le_length_headed (text s : Text) : s.length ≤ (headed text s).length := by
  induction s using replaceAll_cases openTag_ne_nil with
  | nil => exact Nat.zero_le _
  | found s ih =>
    rw [headed] at ih ⊢
    rw [replaceAll_append_self _ _ openTag_ne_nil]
    simp only [List.length_append]
    omega
  | kept c s hc ih =>
    rw [headed] at ih ⊢
    rw [replaceAll_cons _ _ _ openTag_ne_nil hc]
    simp only [List.length_cons]
    omega

theorem headed_eq_self_iff {text s : Text} (htext : text ≠ []) :
    headed text s = s ↔ contains Layout.openTag s = false := by
  refine ⟨fun h => ?_, headed_of_not_contains⟩
  induction s using replaceAll_cases openTag_ne_nil with
  | nil => rfl
  | found s ih =>
    have hle := length_le_length_headed text s
    have hpos := List.length_pos_iff.2 htext
    have hlen := congrArg List.length h
    rw [headed, replaceAll_append_self _ _ openTag_ne_nil, ← headed] at hlen
    simp only [List.length_append] at hlen
    omega
  | kept c s hc ih =>
    rw [headed, replaceAll_cons _ _ _ openTag_ne_nil hc, ← headed] at h
    rw [contains, ih (List.cons.inj h).2, Bool.or_false, ← Bool.not_eq_true, startsWith_iff]
    rintro ⟨r, hr⟩
    exact hc ⟨r, hr.symm⟩

theorem wrappedString_eq_self_iff (ns : Namespace) (container w : Text) :
    wrappedString ns container w = w ↔ '\n' ∉ w ∧ contains Layout.openTag w = false := by
  have htext : containerText ns container ≠ [] := by simp [containerText]
  rw [wrappedString, indent_eq_flatMap]
  constructor
  · intro h
    have hle := length_le_length_headed (containerText ns container) (w.flatMap indentChar)
    rw [h, length_flatMap_indentChar] at hle
    have hline : '\n' ∉ w := List.count_eq_zero.1 (by omega)
    rw [flatMap_indentChar hline] at h
    exact ⟨hline, (headed_eq_self_iff htext).1 h⟩
  · rintro ⟨hline, htag⟩
    rw [flatMap_indentChar hline, headed_of_not_contains htag]

/-- A file that is cut into tokens is still cut into tokens when it has become a container class, provided
that the literal open tag stands nowhere but in open tags, strings, attributes and block comments. The
result has a string for every string of the file, in order, and they are the same strings exactly if each
stands on one line and does not hold the literal open tag. -/
theorem functionSource_keeps_strings (ns : Namespace) (hns : ns.Accepted) (container : Text)
    (hcontainer : isIdentifier container = true) (source : Text) (tokens : List Token)
    (htokens : tokenize source = .ok tokens) (hplace : TagsInPlace (tokens.map Token.shape)) :
    ∃ revised, tokenize (Revision.functionSource ⟨ns, RenameTable.empty⟩ container source) = .ok revised ∧
      stringTexts (revised.map Token.shape) =
        (stringTexts (tokens.map Token.shape)).map (wrappedString ns container) ∧
      (stringTexts (revised.map Token.shape) = stringTexts (tokens.map Token.shape) ↔
        ∀ w ∈ stringTexts (tokens.map Token.shape), '\n' ∉ w ∧ contains Layout.openTag w = false) := by
  obtain ⟨name, hname⟩ := exists_qualifiedName_functionsRoot hns
  have hcuts := cuts_of_tokensFrom htokens
  generalize tokens.map Token.shape = A at *
  obtain ⟨B, gap, last, hwrapped, hB, hgap, hlast⟩ :=
    hcuts.exists_wrapped (header_container hname hcontainer) hplace
  obtain ⟨revised, hrevised, hshapes⟩ := hwrapped.exists_tokens 0
  have hsource : Revision.functionSource ⟨ns, RenameTable.empty⟩ container source =
      headed (containerText ns container) (Layout.indent source) ++ closing := wrapInContainer_eq _ _ _
  -- Neither the space before the last brace nor that brace is a string.
  have hend : stringTexts (gap ++ last) = [] := by
    refine stringTexts_eq_nil fun x hx => ?_
    rcases List.mem_append.1 hx with hx | hx
    · exact Shape.ne_string_of_isGap (hgap x hx)
    · split at hlast
      · obtain ⟨w, rfl⟩ := hlast
        simp only [List.mem_cons, List.not_mem_nil, or_false] at hx
        rcases hx with rfl | rfl <;> simp [closeBrace]
      · subst hlast
        cases hx
  have hstrings : stringTexts (revised.map Token.shape) = (stringTexts A).map (wrappedString ns container) := by
    rw [hshapes, stringTexts_append, hend, List.append_nil]
    exact hB.stringTexts_eq fun x hx => ne_string_of_mem_containerShapes hname hx
  refine ⟨revised, by rw [hsource]; exact hrevised, hstrings, ?_⟩
  have hsame := List.map_inj_left (l := stringTexts A) (f := wrappedString ns container) (g := id)
  rw [List.map_id] at hsame
  rw [hstrings, hsame]
  simp only [id_eq, wrappedString_eq_self_iff]

end

/-- A string that stands on one line. -/
theorem functionSource_keeps_strings_of_line :
    let ns : Namespace := ⟨"Facebook\\Libphutil".toList, "Functions".toList⟩
    let source := "<?php\nfunction f() \x7b return 'a'; \x7d\n".toList
    let tokens : List Token := [⟨.openTag, "<?php\n".toList, 0⟩, ⟨.keyword .functionKw, "function".toList, 6⟩,
      ⟨.whitespace, [' '], 14⟩, ⟨.identifier, ['f'], 15⟩, ⟨.punct, ['('], 16⟩, ⟨.punct, [')'], 17⟩,
      ⟨.whitespace, [' '], 18⟩, ⟨.punct, ['\x7b'], 19⟩, ⟨.whitespace, [' '], 20⟩,
      ⟨.identifier, "return".toList, 21⟩, ⟨.whitespace, [' '], 27⟩, ⟨.string, "'a'".toList, 28⟩,
      ⟨.punct, [';'], 31⟩, ⟨.whitespace, [' '], 32⟩, ⟨.punct, ['\x7d'], 33⟩, ⟨.whitespace, ['\n'], 34⟩]
    (ns.Accepted ∧ isIdentifier ['u'] = true ∧ tokenize source = .ok tokens ∧
      TagsInPlace (tokens.map Token.shape)) ∧
    ∃ revised, tokenize (Revision.functionSource ⟨ns, RenameTable.empty⟩ ['u'] source) = .ok revised ∧
      stringTexts (revised.map Token.shape) = ["'a'".toList] := by
  intro ns source tokens
  have hns : ns.Accepted := ⟨by decide, by decide⟩
  have htokens : tokenize source = .ok tokens := by decide +kernel
  have hplace : TagsInPlace (tokens.map Token.shape) := tagsInPlace_of_not_mem (by decide) (by decide)
  obtain ⟨revised, hrevised, -, hsame⟩ := functionSource_keeps_strings ns hns ['u'] (by decide)
    source tokens htokens hplace
  exact ⟨⟨hns, by decide, htokens, hplace⟩, revised, hrevised, hsame.2 (by decide)⟩

/-- A string over two lines gets two blanks behind its newline. -/
theorem functionSource_changes_string :
    let ns : Namespace := ⟨"Facebook\\Libphutil".toList, "Functions".toList⟩
    let source := "<?php\nfunction f() \x7b\x7d\n$x = 'a\nb';\n".toList
    (ns.Accepted ∧ isIdentifier ['u'] = true ∧ Outline.ofSource source = .ok ⟨none, [['f']]⟩) ∧
    ¬ ∀ tokens revised, tokenize source = .ok tokens →
      tokenize (Revision.functionSource ⟨ns, RenameTable.empty⟩ ['u'] source) = .ok revised →
      stringTexts (revised.map Token.shape) = stringTexts (tokens.map Token.shape) := by
  intro ns source
  refine ⟨⟨⟨by decide, by decide⟩, by decide, by decide +kernel⟩, fun hsame => ?_⟩
  have hbefore : (tokenize source).toOption.map (fun tokens => stringTexts (tokens.map Token.shape)) =
      some ["'a\nb'".toList] := by decide +kernel
  have hafter : (tokenize (Revision.functionSource ⟨ns, RenameTable.empty⟩ ['u'] source)).toOption.map
      (fun tokens => stringTexts (tokens.map Token.shape)) = some ["'a\n  b'".toList] := by decide +kernel
  obtain ⟨tokens, htokens, hbefore⟩ := Option.map_eq_some_iff.1 hbefore
  obtain ⟨revised, hrevised, hafter⟩ := Option.map_eq_some_iff.1 hafter
  have heq := hsame tokens revised (eq_ok_of_toOption_eq_some htokens) (eq_ok_of_toOption_eq_some hrevised)
  rw [hbefore, hafter] at heq
  revert heq
  decide

end Namespacing
