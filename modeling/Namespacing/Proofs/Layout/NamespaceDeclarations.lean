import Namespacing.Proofs.Layout.ClassFiles
set_option autoImplicit false

namespace Namespacing

open Lexeme Text Layout

theorem StartsClass.append {A : List Shape} (h : StartsClass A) (B : List Shape) : StartsClass (A ++ B) := by
  match A, h with
  | _ :: _ :: _ :: _, h => exact h

namespace Outline

/-- The tokens before the first class-like declaration, or all tokens if there is none. -/
def beforeClass : List Token → List Token
  | [] => []
  | token :: tokens =>
    if (classLikeAt? (token :: tokens)).isSome then [] else token :: beforeClass tokens

theorem beforeClass_append {before : List Token} {word space name : Token} {behind : List Token}
    (h : Classless ((before ++ [word, space]).map Token.shape)) {declared : ClassLike}
    (hdeclared : classLikeAt? (word :: space :: name :: behind) = some declared) :
    beforeClass (before ++ word :: space :: name :: behind) = before := by
  induction before with
  | nil =>
    rw [List.nil_append, beforeClass, hdeclared]
    rfl
  | cons token before ih =>
    have hat := @classLikeAt?_eq_none _ _ _ _ name behind h
    rw [List.cons_append] at hat ⊢
    rw [beforeClass, hat, ih h.tail]
    rfl

theorem exists_of_firstClassLike? {tokens : List Token} {declared : ClassLike}
    (h : firstClassLike? tokens = some declared) :
    ∃ word space name behind, tokens = beforeClass tokens ++ word :: space :: name :: behind ∧
      Classless ((beforeClass tokens ++ [word, space]).map Token.shape) ∧
      classLikeAt? (word :: space :: name :: behind) = some declared := by
  induction tokens with
  | nil => cases h
  | cons token tokens ih =>
    rw [firstClassLike?] at h
    rw [beforeClass]
    cases hat : classLikeAt? (token :: tokens) with
    | some found =>
      rw [hat] at h
      obtain rfl := Option.some.inj h
      obtain ⟨space, name, behind, rfl⟩ := exists_of_classLikeAt? hat
      exact ⟨token, space, name, behind, rfl, firstClassLike?_eq_none_iff.1 rfl, hat⟩
    | none =>
      rw [hat] at h
      obtain ⟨word, space, name, behind, heq, hfirst, hdeclared⟩ := ih h
      refine ⟨word, space, name, behind, congrArg (token :: ·) heq, ?_, hdeclared⟩
      rintro (_ | ⟨x, A⟩) B hAB hstarts
      · -- A declaration at the front of the tokens up to the name is one at the front of all tokens.
        obtain rfl : _ = B := hAB
        have hall := hstarts.append ((name :: behind).map Token.shape)
        rw [← List.map_append] at hall
        refine classLikeAt?_eq_none_iff.1 hat ?_
        rw [heq]
        simpa using hall
      · exact hfirst A B (List.cons.inj hAB).2 hstarts

theorem map_beforeClass_of_shapes {tokens : List Token} {A B : List Shape} {word space name : Shape}
    (htokens : tokens.map Token.shape = A ++ word :: space :: name :: B) (h : Classless (A ++ [word, space]))
    {kind : ClassKind} (hword : ClassKind.ofToken? word.kind = some kind) (hspace : space.kind = .whitespace)
    (hname : name.kind = .identifier) : (beforeClass tokens).map Token.shape = A := by
  obtain ⟨before, rest₁, rfl, rfl, h₁⟩ := List.map_eq_append_iff.1 htokens
  obtain ⟨word, rest₂, rfl, rfl, h₂⟩ := List.map_eq_cons_iff.1 h₁
  obtain ⟨space, rest₃, rfl, rfl, h₃⟩ := List.map_eq_cons_iff.1 h₂
  obtain ⟨name, behind, rfl, rfl, -⟩ := List.map_eq_cons_iff.1 h₃
  have hdeclared : classLikeAt? (word :: space :: name :: behind) = some ⟨kind, name.text⟩ := by
    simp only [Token.shape] at hword hspace hname
    simp [classLikeAt?, hword, hspace, hname]
  rw [beforeClass_append (by simpa using h) hdeclared]

end Outline

def namespaceWord : Shape :=
  ⟨.identifier, "namespace".toList⟩

/-- Some tokens in a row declare the namespace. -/
def DeclaresNamespace (name : Text) (shapes : List Shape) : Prop :=
  ∃ A D B, shapes = A ++ namespaceWord :: D ++ B ∧
    (namespaceWord :: D).flatMap Shape.text = "namespace ".toList ++ name ++ [';']

theorem QualifiedName.text_eq {v : Text} {A : List Shape} (h : QualifiedName v A) :
    A.flatMap Shape.text = v := by
  induction h with
  | word => simp
  | cons _ _ ih => simp [ih]

theorem Expands.mem_iff {P : Shape → List Shape → Prop} {y : Shape} {Q : Shape → Prop}
    (hP : ∀ x ys, P x ys → (y ∈ ys ↔ Q x)) {A B : List Shape} (h : Expands P A B) : y ∈ B ↔ ∃ x ∈ A, Q x := by
  induction h with
  | nil => simp
  | cons hx _ ih => rw [List.mem_append, hP _ _ hx, ih, List.exists_mem_cons_iff]

section

variable {name : Text} {f : Text → Text} {V A B : List Shape}

theorem Respaces.namespaceWord_mem_iff {x : Shape} {ys : List Shape} (h : Respaces (namespaceShapes V) f x ys) :
    namespaceWord ∈ ys ↔ x.isEntry = true ∨ x = namespaceWord := by
  by_cases hentry : x.isEntry = true
  · obtain ⟨w, gap, rfl, -⟩ := h.exists_of_isEntry hentry
    simp [hentry, namespaceShapes, namespaceWord]
  · cases h with
    | solid => simp [hentry, eq_comm]
    | @loose kind w w' hkind =>
      have hne : ∀ u, (⟨kind, u⟩ : Shape) ≠ namespaceWord := by
        rintro u ⟨⟩
        cases hkind
      simp [hentry, hne w, (hne w').symm]
    | @tag kind w w' gap hkind _ hgap =>
      have hne : ∀ u, (⟨kind, u⟩ : Shape) ≠ namespaceWord := by
        rintro u ⟨⟩
        cases hkind
      have hgap : namespaceWord ∉ gap := fun hmem => by cases Shape.isGap_kind (hgap _ hmem)
      simp [hentry, hgap, hne w, (hne w').symm]

theorem Expands.declaresNamespace (hV : QualifiedName name V) (h : Expands (Respaces (namespaceShapes V) f) A B)
    (hentry : ∃ x ∈ A, x.isEntry = true) : DeclaresNamespace name B := by
  obtain ⟨x, hx, hentry⟩ := hentry
  obtain ⟨A₁, A₂, rfl⟩ := List.append_of_mem hx
  obtain ⟨B₁, ys, B₂, rfl, -, hys, -⟩ := h.exists_of_cons
  obtain ⟨w, gap, rfl, -⟩ := hys.exists_of_isEntry hentry
  refine ⟨B₁ ++ [⟨.openTag, w⟩, ⟨.whitespace, ['\n']⟩], ⟨.whitespace, [' ']⟩ :: (V ++ [⟨.punct, [';']⟩]),
    gap ++ B₂, by simp [namespaceShapes, namespaceWord], ?_⟩
  simp [namespaceWord, hV.text_eq]

end

/-- A file that bears a class declares the same class when the namespace is declared in it, provided that the
literal open tag stands nowhere but in open tags, strings, attributes and block comments. The declaration
stands in code before the class exactly if an open tag before the class starts with the literal, unless the
file has a namespace declaration of its own there. -/
theorem classSource_declares_namespace (ns : Namespace) (hns : ns.Accepted) (source : Text)
    (tokens : List Token) (htokens : tokenize source = .ok tokens)
    (hrole : (Outline.ofTokens tokens).role = .classBearing) (hplace : TagsInPlace (tokens.map Token.shape)) :
    ∃ revised, tokenize (Revision.classSource ⟨ns, RenameTable.empty⟩ source) = .ok revised ∧
      (Outline.ofTokens revised).classLike = (Outline.ofTokens tokens).classLike ∧
      ((∃ x ∈ Outline.beforeClass tokens, x.shape.isEntry = true) →
        DeclaresNamespace ns.root ((Outline.beforeClass revised).map Token.shape)) ∧
      (namespaceWord ∈ (Outline.beforeClass revised).map Token.shape ↔
        ∃ x ∈ Outline.beforeClass tokens, x.shape.isEntry = true ∨ x.shape = namespaceWord) := by
  obtain ⟨declared, hdeclared⟩ : ∃ declared, (Outline.ofTokens tokens).classLike = some declared := by
    rw [← Option.isSome_iff_exists]
    by_contra hnone
    simp only [Outline.role, if_neg hnone] at hrole
    split at hrole <;> cases hrole
  obtain ⟨word, space, name, behind, heq, hfirst, hat⟩ := Outline.exists_of_firstClassLike? hdeclared
  obtain ⟨hword, hspace, hname, hn⟩ := Outline.classLikeAt?_eq_some hat
  obtain ⟨kind, n⟩ := declared
  obtain rfl : n = name.text := hn
  generalize Outline.beforeClass tokens = before at *
  have hshapes : tokens.map Token.shape = before.map Token.shape ++
      word.shape :: ⟨.whitespace, space.text⟩ :: ⟨.identifier, name.text⟩ :: behind.map Token.shape := by
    simp [heq, Token.shape, hspace, hname]
  have hcuts := cuts_of_tokensFrom htokens
  rw [hshapes] at hcuts hplace
  obtain ⟨V, hV⟩ := exists_qualifiedName_root hns.root
  obtain ⟨B, q, R, hB, hAB, hlast⟩ := hcuts.exists_headed_class hV hword
    (by simpa [Token.shape, hspace] using hfirst) hplace
  obtain ⟨revised, hrevised, hR⟩ := hB.exists_tokens 0
  have hsource : Revision.classSource ⟨ns, RenameTable.empty⟩ source =
      headed (namespaceText ns.root) source := declareNamespace_eq _ _
  have hbefore := Outline.map_beforeClass_of_shapes hR hlast hword rfl rfl
  refine ⟨revised, by rw [hsource]; exact hrevised, ?_, fun hentry => ?_, ?_⟩
  · rw [hdeclared]
    exact Outline.firstClassLike?_of_shapes hR hlast hword rfl rfl
  · rw [hbefore]
    exact hAB.declaresNamespace hV (by simpa using hentry)
  · rw [hbefore, hAB.mem_iff fun x ys (hx : Respaces _ _ x ys) => hx.namespaceWord_mem_iff]
    simp

/-- An open tag in upper case, and the literal one behind it. -/
theorem classSource_declares_namespace_second_tag :
    let ns : Namespace := ⟨"Facebook\\Libphutil".toList, "Functions".toList⟩
    let source := "<?PHP ?><?php\nclass A \x7b\x7d\n".toList
    let tokens : List Token := [⟨.openTag, "<?PHP ".toList, 0⟩, ⟨.closeTag, "?>".toList, 6⟩,
      ⟨.openTag, "<?php\n".toList, 8⟩, ⟨.keyword .classKw, "class".toList, 14⟩, ⟨.whitespace, [' '], 19⟩,
      ⟨.identifier, ['A'], 20⟩, ⟨.whitespace, [' '], 21⟩, ⟨.punct, ['\x7b'], 22⟩, ⟨.punct, ['\x7d'], 23⟩,
      ⟨.whitespace, ['\n'], 24⟩]
    (ns.Accepted ∧ tokenize source = .ok tokens ∧ (Outline.ofTokens tokens).role = .classBearing ∧
      TagsInPlace (tokens.map Token.shape)) ∧
    ∃ revised, tokenize (Revision.classSource ⟨ns, RenameTable.empty⟩ source) = .ok revised ∧
      (Outline.ofTokens revised).classLike = some ⟨.plainClass, ['A']⟩ ∧
      DeclaresNamespace ns.root ((Outline.beforeClass revised).map Token.shape) := by
  intro ns source tokens
  have hns : ns.Accepted := ⟨by decide, by decide⟩
  have htokens : tokenize source = .ok tokens := by decide +kernel
  have hrole : (Outline.ofTokens tokens).role = .classBearing := by decide
  have hplace : TagsInPlace (tokens.map Token.shape) := tagsInPlace_of_not_mem (by decide) (by decide)
  obtain ⟨revised, hrevised, hclass, hdeclares, -⟩ :=
    classSource_declares_namespace ns hns source tokens htokens hrole hplace
  exact ⟨⟨hns, htokens, hrole, hplace⟩, revised, hrevised, hclass,
    hdeclares ⟨⟨.openTag, "<?php\n".toList, 8⟩, by decide, by decide⟩⟩

/-- Behind an open tag in upper case alone no namespace is declared. -/
theorem classSource_misses_upper_case_tag :
    let ns : Namespace := ⟨"Facebook\\Libphutil".toList, "Functions".toList⟩
    let source := "<?PHP\nclass A \x7b\x7d\n".toList
    (ns.Accepted ∧ Outline.ofSource source = .ok ⟨some ⟨.plainClass, ['A']⟩, []⟩) ∧
    ¬ ∃ revised, tokenize (Revision.classSource ⟨ns, RenameTable.empty⟩ source) = .ok revised ∧
      namespaceWord ∈ (Outline.beforeClass revised).map Token.shape := by
  intro ns source
  refine ⟨⟨⟨by decide, by decide⟩, by decide +kernel⟩, ?_⟩
  rintro ⟨revised, hrevised, hmem⟩
  have hnot : (tokenize (Revision.classSource ⟨ns, RenameTable.empty⟩ source)).toOption.any
      (fun tokens => (Outline.beforeClass tokens).any fun x => x.shape == namespaceWord) = false := by
    decide +kernel
  rw [hrevised] at hnot
  obtain ⟨x, hx, hshape⟩ := List.mem_map.1 hmem
  simp only [Except.toOption, Option.any_some, List.any_eq_false] at hnot
  exact hnot x hx (by simp [hshape])

end Namespacing
