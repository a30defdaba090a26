import Namespacing.Proofs.Layout.Methods
import Namespacing.Proofs.Outline.Names
import Namespacing.Proofs.RenameTable.PlainDeclarations
import Namespacing.Proofs.Token.QualifiedDeclarations
set_option autoImplicit false

namespace Namespacing

open Lexeme Text Layout

section

variable {ns : Namespace} {A B R : List Shape}

theorem wordKind_ne_function {w : Text} (h : Keyword.ofWord? w ≠ some .functionKw) :
    wordKind w ≠ .keyword .functionKw := by
  intro heq
  rw [wordKind] at heq
  split at heq
  · rename_i k hk
    exact h (hk.trans (congrArg some (TokenKind.keyword.inj heq)))
  · cases heq

theorem QualifiedName.kind_ne_function {v : Text} (h : QualifiedName v A)
    (hv : ∀ w ∈ splitOn '\\' v, Keyword.ofWord? w ≠ some .functionKw) : ∀ x ∈ A, x.kind ≠ .keyword .functionKw := by
  intro x hx
  rcases h.mem_pieces hx with rfl | ⟨w, hw, rfl⟩
  · simp
  · exact wordKind_ne_function (hv w hw)

theorem QualifiedName.declaresQualified_append {v : Text} (h : QualifiedName v A)
    (hv : ∀ w ∈ (splitOn '\\' v).dropLast, Keyword.ofWord? w ≠ some .functionKw) (hR : namesQualified R = false) :
    declaresQualified (A ++ R) = declaresQualified R := by
  induction h with
  | word => rw [List.singleton_append, declaresQualified, hR, Bool.and_false, Bool.false_or]
  | @cons w v A hw _ ih =>
    rw [splitOn_name_cons hw, List.dropLast_cons_of_ne_nil (splitOn_ne_nil _ _)] at hv
    rw [List.cons_append, declaresQualified_cons (wordKind_ne_function (hv w List.mem_cons_self)), List.cons_append,
      declaresQualified_cons (by simp), ih fun u hu => hv u (List.mem_cons_of_mem _ hu)]

variable (hfunction : ∀ w ∈ splitOn '\\' ns.functionsRoot, Keyword.ofWord? w ≠ some .functionKw)

include hfunction

theorem QualifierShapes.declaresQualified_append {σ : Symbols} {Z : List Shape}
    (hcontainer : ∀ container names, σ = .functions container names → isIdentifier container = true)
    (h : QualifierShapes (σ.qualifier ns) Z) : declaresQualified (Z ++ R) = declaresQualified R := by
  rw [Namespace.functionsRoot, splitOn_append] at hfunction
  rcases h.cases_of_qualifier with rfl | ⟨A, hA, rfl⟩ | ⟨container, names, A, hσ, hA, rfl⟩
  · exact declaresQualified_cons (by simp [backslash])
  · have hwords := hA.kind_ne_function fun w hw => hfunction w (List.mem_append_left _ hw)
    rw [List.cons_append, declaresQualified_cons (by simp [backslash]), List.append_assoc,
      Namespacing.declaresQualified_append hwords]
    exact declaresQualified_cons (by simp [backslash])
  · have hpieces : (splitOn '\\' (ns.functionsRoot ++ '\\' :: container)).dropLast = splitOn '\\' ns.functionsRoot := by
      rw [splitOn_append, splitOn_of_not_mem (not_mem_of_isIdentifier (hcontainer container names hσ) rfl),
        List.dropLast_concat]
    have hcolons : namesQualified ([colon, colon] ++ R) = false := by
      rfl
    rw [List.cons_append, declaresQualified_cons (by simp [backslash]), List.append_assoc,
      hA.declaresQualified_append (by rwa [hpieces, Namespace.functionsRoot, splitOn_append]) hcolons]
    exact Namespacing.declaresQualified_append (by simp [colon])

theorem declaresQualified_containerShapes (hA : QualifiedName ns.functionsRoot A) (container : Text) :
    declaresQualified (containerShapes A container ++ R) = declaresQualified R := by
  have hnamespace : ∀ x ∈ namespaceShapes A, x.kind ≠ .keyword .functionKw := by
    intro x hx
    simp only [namespaceShapes, List.mem_cons, List.mem_append, List.not_mem_nil, or_false] at hx
    rcases hx with rfl | rfl | rfl | hx | rfl
    · simp
    · simp
    · simp
    · exact hA.kind_ne_function hfunction x hx
    · simp
  have hbrace : namesQualified (⟨.whitespace, [' ']⟩ :: openBrace :: R) = false := rfl
  rw [containerShapes, List.append_assoc, Namespacing.declaresQualified_append hnamespace, classShapes]
  simp only [List.cons_append, List.nil_append]
  rw [declaresQualified_cons (by simp), declaresQualified_cons (by simp), declaresQualified_cons (by simp),
    declaresQualified, hbrace, Bool.and_false, Bool.false_or, declaresQualified_cons (by simp),
    declaresQualified_cons (by simp [openBrace])]

end

theorem declaredName?_append {gap A : List Shape} (hgap : ∀ x ∈ gap, x.isBetween = true) :
    declaredName? (gap ++ A) = declaredName? A := by
  induction gap with
  | nil => rfl
  | cons x gap ih =>
    rw [List.cons_append, declaredName?, if_pos (hgap x List.mem_cons_self),
      ih fun y hy => hgap y (List.mem_cons_of_mem _ hy)]

namespace Outline

theorem exists_word_of_mem_functions {tokens : List Token} {name : Text} (h : name ∈ (ofTokens tokens).functions) :
    ∃ before word behind, tokens = before ++ word :: behind ∧ word.kind = .keyword .functionKw ∧
      declaredName? (behind.map Token.shape) = some name := by
  change name ∈ functionsFrom (depth []) (decide (Declares [])) tokens at h
  rw [functionsFrom_eq, List.map_map] at h
  obtain ⟨⟨⟨kind, text, offset⟩, place⟩, hentry, rfl⟩ := List.mem_map.1 h
  obtain ⟨hmem, hnames⟩ := List.mem_filter.1 hentry
  obtain ⟨rfl, earlier, word, marks, hbefore, hword, hmarks, -⟩ := of_decide_eq_true hnames
  have hplace : tokens[place]? = some ⟨.identifier, text, offset⟩ := List.mem_zipIdx_iff_getElem?.1 hmem
  obtain ⟨hlt, htoken⟩ := List.getElem?_eq_some_iff.1 hplace
  -- What is left of the tokens between the word and the name are marks.
  obtain ⟨front, rest, hfront, -, hrest⟩ := List.filter_eq_append_iff.1 hbefore
  obtain ⟨skipped, gap, rfl, -, -, rfl⟩ := List.filter_eq_cons_iff.1 hrest
  have hsplit : tokens.take place ++ ⟨.identifier, text, offset⟩ :: tokens.drop (place + 1) = tokens := by
    rw [← htoken, ← List.drop_eq_getElem_cons hlt, List.take_append_drop]
  refine ⟨front ++ skipped, word, gap ++ ⟨.identifier, text, offset⟩ :: tokens.drop (place + 1), ?_, hword, ?_⟩
  · have hfront : tokens.take place = front ++ (skipped ++ word :: gap) := hfront
    conv_lhs => rw [← hsplit, hfront]
    simp
  · rw [List.map_append, declaredName?_append]
    · rfl
    · intro x hx
      obtain ⟨mark, hmark, rfl⟩ := List.mem_map.1 hx
      cases htrivia : mark.kind.isTrivia with
      | true => simp [Shape.isBetween, Token.shape, htrivia]
      | false =>
        obtain ⟨hkind, htext⟩ := hmarks mark (List.mem_filter.2 ⟨hmark, by simp [htrivia]⟩)
        simp [Shape.isBetween, Token.shape, hkind, htext]

end Outline

/-- A static method with a name is declared. -/
def DeclaresStatic (name : Text) (shapes : List Shape) : Prop :=
  ∃ before w w' behind, shapes = before ++ staticModifier :: ⟨.whitespace, w⟩ :: functionShape ::
    ⟨.whitespace, w'⟩ :: ⟨.identifier, name⟩ :: behind

section

variable {ns : Namespace} {symbols : List Symbols} {A B C : List Shape} {f : Text}

theorem Cuts.exists_static (hns : ns.Accepted) (hsymbols : Symbols.Worded symbols)
    (hapart : Symbols.Apart symbols) {source : Text}
    (h : Cuts .html source (A ++ functionShape :: B)) (hstart : (A.flatMap Shape.text).getLast?.any isWordChar = false)
    (hdeclares : DeclaresFunction symbols (B.flatMap Shape.text)) (hname : declaredName? B = some f)
    (hbare : Symbols.Bare ns symbols source)
    (hsteady : ∀ x ∈ A ++ functionShape :: B, ∀ label, x.label? = some label → SteadyLabel symbols label)
    (hC : Cuts .html ((RenameTable.ofSymbols ns symbols).substitute source) C) : DeclaresStatic f C := by
  obtain ⟨hform, hB⟩ := h.form_at
  have hcode : Mode.html.behind A = .code := by
    cases hmode : Mode.html.behind A with
    | code => rfl
    | html =>
      have := hform.html_iff.1 hmode
      simp [functionShape] at this
  rw [hcode] at hB
  obtain ⟨container, names, n, s, r, R, hσ, hn, hs, htext, rfl, hR⟩ := hB.exists_name hsymbols hdeclares
  obtain rfl : n = f := Option.some.inj hname
  have hid := hsymbols.identifier _ hσ n hn
  have hmarks := Frame.behindFunction_marks s hs
  -- The text is changed before the declaration, at it and behind it, one by one.
  have hsource : A.flatMap Shape.text ++ (declaration functionWord [] n s ++ r) = source := by
    rw [← h.text_eq, List.flatMap_append, List.flatMap_cons, htext]
    simp [declaration, functionShape]
  rw [← hsource] at h hbare hC
  obtain ⟨a, v, y, hsubstituted, rfl, hfront, hrest, hy⟩ := RenameTable.exists_substitute_declaration hns hsymbols hσ
    hn hs (fun σ hσ' hn' => hapart σ hσ' _ hσ n hn' hn) hstart hbare
  obtain ⟨U, -, hcuts⟩ := h.renamed_front hns hsymbols rfl (fun x hx => hsteady x (List.mem_append_left _ hx))
    (fun _ _ _ _ hx => hx.behind.exists_functions) hfront hrest
  obtain ⟨V, hV, -⟩ := hR.renamed hns hsymbols (fun x hx => hsteady x (by simp [hx]))
    (fun _ _ _ _ hx => hx.behind.exists_functions) (Inserts.append (Inserts.refl s) hy)
  have hnamed := Cuts.word hid (head_not_word_of_marks hmarks y) hV
  have hblank := Cuts.space (p := [' ']) (by simp) (by decide) (head_not_space_of_isIdentifier hid _) hnamed
  have hmethod := Cuts.declared rfl hblank 1
  rw [wordKind_of_keyword_none (hsymbols.keyword _ hσ n hn)] at hmethod
  rw [hcode] at hcuts
  rw [hsubstituted] at hC
  exact ⟨U, [' '], [' '], V, hC.unique (hcuts _ hmethod)⟩

theorem DeclaresStatic.respaces {header : List Shape} {g : Text → Text} (h : DeclaresStatic f A)
    (hB : Expands (Respaces header g) A B) : DeclaresStatic f B := by
  obtain ⟨before, w, w', behind, rfl⟩ := h
  obtain ⟨before', C, rfl, -, hC⟩ := hB.exists_of_append
  cases hC with
  | cons hstatic hC =>
    cases hC with
    | cons hspace hC =>
      cases hC with
      | cons hword hC =>
        cases hC with
        | cons hblank hC =>
          cases hC with
          | cons hname _ =>
            obtain rfl := hstatic.eq_of_solid rfl rfl
            obtain ⟨v, rfl⟩ := hspace.exists_of_loose rfl
            obtain rfl := hword.eq_of_solid rfl rfl
            obtain ⟨v', rfl⟩ := hblank.exists_of_loose rfl
            obtain rfl := hname.eq_of_solid rfl rfl
            exact ⟨before', v, v', _, rfl⟩

theorem DeclaresStatic.append (h : DeclaresStatic f A) (B : List Shape) : DeclaresStatic f (A ++ B) := by
  obtain ⟨before, w, w', behind, rfl⟩ := h
  exact ⟨before, w, w', behind ++ B, by simp⟩

end

section

variable {globals names : List Text} {container : Text}
  (hglobals : ∀ m ∈ globals, (isIdentifier m = true ∧ Keyword.ofWord? m = none) ∧
    ¬ staticWord <:+ m ∧ ¬ functionWord <:+ m)
  (hcontainer : isIdentifier container = true)
  (hnames : ∀ n ∈ names, isIdentifier n = true ∧ Keyword.ofWord? n = none)

include hglobals hcontainer hnames in
theorem worded_functions : Symbols.Worded [.globals globals, .functions container names] := by
  have hall : ∀ σ ∈ [Symbols.globals globals, .functions container names], ∀ n ∈ σ.names,
      isIdentifier n = true ∧ Keyword.ofWord? n = none := by
    intro σ hσ n hn
    rcases List.mem_cons.1 hσ with rfl | hσ
    · exact (hglobals n hn).1
    · obtain rfl := List.mem_singleton.1 hσ
      exact hnames n hn
  refine ⟨fun σ hσ n hn => (hall σ hσ n hn).1, fun c names' hσ => ?_, fun σ hσ n hn => (hall σ hσ n hn).2,
    fun _ _ _ σ hσ hclasses n hn => ?_⟩
  · obtain ⟨rfl, -⟩ : c = container ∧ names' = names := by simpa using hσ
    exact hcontainer
  · rcases List.mem_cons.1 hσ with rfl | hσ
    · exact (hglobals n hn).2
    · obtain rfl := List.mem_singleton.1 hσ
      cases hclasses

theorem apart_functions (hdisjoint : ∀ n ∈ names, n ∉ globals) :
    Symbols.Apart [.globals globals, .functions container names] := by
  intro σ hσ τ hτ n hn hn'
  rcases List.mem_cons.1 hσ with rfl | hσ <;> rcases List.mem_cons.1 hτ with rfl | hτ
  · rfl
  · obtain rfl := List.mem_singleton.1 hτ
    exact absurd hn (hdisjoint n hn')
  · obtain rfl := List.mem_singleton.1 hσ
    exact absurd hn' (hdisjoint n hn)
  · rw [List.mem_singleton.1 hσ, List.mem_singleton.1 hτ]

end

theorem Outline.spelling_of_mem_functions {source : Text} {tokens : List Token} (htokens : tokenize source = .ok tokens)
    {name : Text} (h : name ∈ (ofTokens tokens).functions) :
    isIdentifier name = true ∧ Keyword.ofWord? name = none := by
  obtain ⟨token, hmem, hkind, rfl⟩ := exists_of_mem_functions h
  obtain ⟨before, behind, rfl⟩ := List.append_of_mem hmem
  have hcuts := cuts_of_tokensFrom htokens
  rw [List.map_append, List.map_cons, show token.shape = ⟨.identifier, token.text⟩ by rw [Token.shape, hkind]] at hcuts
  obtain ⟨-, -, -, hid, hkeyword, -⟩ := hcuts.behind.identifier_inv
  exact ⟨hid, hkeyword⟩

/-- A file of functions that a table of any symbols rewrites: each function that the table knows becomes a static
method, and no function gets a qualified name. -/
theorem functionSource_declares_known (ns : Namespace) (hns : ns.Accepted)
    (hfunction : ∀ w ∈ splitOn '\\' ns.functionsRoot, Keyword.ofWord? w ≠ some .functionKw) (container : Text)
    (hcontainer : isIdentifier container = true) (symbols : List Symbols) (hworded : Symbols.Worded symbols)
    (hapart : Symbols.Apart symbols) (source : Text)
    (tokens : List Token) (htokens : tokenize source = .ok tokens) (hbare : Symbols.Bare ns symbols source)
    (hplain : DeclaresPlainly symbols (tokens.map Token.shape)) (hplace : TagsInPlace (tokens.map Token.shape))
    (hlabels : ∀ x ∈ tokens.map Token.shape, ∀ label, x.label? = some label → SteadyLabel symbols label) :
    ∃ revised, tokenize (Revision.functionSource ⟨ns, RenameTable.ofSymbols ns symbols⟩ container source) =
        .ok revised ∧
      (∀ f ∈ (Outline.ofTokens tokens).functions, (∃ σ ∈ symbols, f ∈ σ.names) →
        DeclaresStatic f (revised.map Token.shape)) ∧
      (declaresQualified (tokens.map Token.shape) = false → declaresQualified (revised.map Token.shape) = false) := by
  have hcuts := cuts_of_tokensFrom htokens
  have hins : Inserts ns symbols [] false source ((RenameTable.ofSymbols ns symbols).substitute source) := by
    rw [RenameTable.substitute_eq_foldl]
    exact (Inserts.refl source).foldl_applyRename hns hworded (fun r hr => RenameTable.exists_rule_of_mem hr) hbare
  obtain ⟨B, hB, hAB⟩ := hcuts.exists_recast hns hworded hlabels hins
  obtain ⟨B', hB', hexpands⟩ := hcuts.renamed hns hworded hlabels
    (fun _ _ _ _ hx => hx.behind.exists_functions) hins
  obtain rfl := hB.unique hB'
  obtain ⟨V, hV⟩ := exists_qualifiedName_functionsRoot hns
  obtain ⟨C, gap, last, hC, hBC, hgap, hlast⟩ :=
    hB.exists_wrapped (header_container hV hcontainer) (hplace.renames hexpands)
  obtain ⟨revised, hrevised, hshapes⟩ := hC.exists_tokens 0
  refine ⟨revised, ?_, fun f hf hσ => ?_, fun hnone => ?_⟩
  · rw [tokenize, Revision.functionSource, wrapInContainer_eq]
    exact hrevised
  · rw [hshapes]
    refine DeclaresStatic.append (DeclaresStatic.respaces ?_ hBC) _
    obtain ⟨before, word, behind, rfl, hkind, hname⟩ := Outline.exists_word_of_mem_functions hf
    have hsplit : (before ++ word :: behind).map Token.shape = before.map Token.shape ++ word.shape ::
        behind.map Token.shape := by simp
    obtain ⟨htext, hdeclares⟩ : word.text = functionWord ∧ _ := hplain _ _ _ hsplit hkind f hname hσ
    have hword : word.shape = functionShape := by
      rw [Token.shape, hkind, htext]
      rfl
    have hstart := starts_word htokens (by rw [htext]; rfl)
    rw [hsplit, hword] at hcuts hlabels
    exact hcuts.exists_static hns hworded hapart (by rwa [flatMap_shape]) hdeclares hname hbare hlabels hB
  · have hqualifier : ∀ σ ∈ symbols, ∀ Z, QualifierShapes (σ.qualifier ns) Z → ∀ n R,
        declaresQualified (Z ++ ⟨.identifier, n⟩ :: R) = declaresQualified R := by
      intro σ hσ Z hZ n R
      rw [hZ.declaresQualified_append hfunction fun c names heq => hworded.container c names (heq ▸ hσ)]
      exact declaresQualified_cons (by simp)
    have hrenamed : declaresQualified B = false := by
      refine hAB.declaresQualified_eq_false hworded hapart hqualifier hplain (fun c names hσ n hn s hs hin => ?_) hnone
      have hnot := not_contains_qualifyFunction hns hworded.identifier hworded.container hσ hn hs source
      rw [Bool.eq_false_iff, ne_eq, contains_iff, ← hB.text_eq] at hnot
      obtain ⟨a, b, hab⟩ := hin
      exact hnot ⟨a, b, hab.symm⟩
    have hend : namesQualified last = false ∧ declaresQualified last = false := by
      split at hlast
      · obtain ⟨w, rfl⟩ := hlast
        exact ⟨rfl, rfl⟩
      · rw [hlast]
        exact ⟨rfl, rfl⟩
    rw [hshapes, declaresQualified_append_right (namesQualified_gap hgap hend.1)
        ((declaresQualified_gap hgap).trans hend.2),
      declaresQualified_respaces (fun R => declaresQualified_containerShapes hfunction hV container) hBC]
    exact hrenamed

/-- When the functions of a file become methods of a container class, the result is cut into tokens and declares
each of them as a static method, and no function with a qualified name if the file declares none. Behind the word
that declares a function every name of the table is declared as the renames spell it, no function is declared
qualified already, no part of the namespace is the word that declares a function, and no function has the name of
a class of the runtime. The literal open tag stands nowhere but in open tags, strings, attributes and block
comments, and no here-document has the label of a name. -/
theorem functionSource_declares_static (ns : Namespace) (hns : ns.Accepted)
    (hfunction : ∀ w ∈ splitOn '\\' ns.functionsRoot, Keyword.ofWord? w ≠ some .functionKw) (container : Text)
    (hcontainer : isIdentifier container = true) (globals : List Text)
    (hglobals : ∀ m ∈ globals, (isIdentifier m = true ∧ Keyword.ofWord? m = none) ∧
      ¬ staticWord <:+ m ∧ ¬ functionWord <:+ m)
    (source : Text) (tokens : List Token) (htokens : tokenize source = .ok tokens) (symbols : List Symbols)
    (hsymbols : symbols = [.globals globals, .functions container (Outline.ofTokens tokens).functions])
    (hdisjoint : ∀ f ∈ (Outline.ofTokens tokens).functions, f ∉ globals) (hbare : Symbols.Bare ns symbols source)
    (hplain : DeclaresPlainly symbols (tokens.map Token.shape)) (hplace : TagsInPlace (tokens.map Token.shape))
    (hlabels : ∀ x ∈ tokens.map Token.shape, ∀ label, x.label? = some label → SteadyLabel symbols label) :
    ∃ revised, tokenize (Revision.functionSource ⟨ns, RenameTable.ofSymbols ns symbols⟩ container source) =
        .ok revised ∧
      (∀ f ∈ (Outline.ofTokens tokens).functions, DeclaresStatic f (revised.map Token.shape)) ∧
      (declaresQualified (tokens.map Token.shape) = false → declaresQualified (revised.map Token.shape) = false) := by
  subst hsymbols
  have hworded := worded_functions hglobals hcontainer fun n => Outline.spelling_of_mem_functions htokens
  obtain ⟨revised, hrevised, hstatic, hunqualified⟩ := functionSource_declares_known ns hns hfunction container
    hcontainer _ hworded (apart_functions hdisjoint) source tokens htokens hbare hplain hplace hlabels
  exact ⟨revised, hrevised, fun f hf => hstatic f hf ⟨_, List.mem_cons_of_mem _ List.mem_cons_self, hf⟩, hunqualified⟩

theorem GlobalClasses.absent_of_mem : ∀ m ∈ GlobalClasses.withExtra [],
    contains m "<?php\nfunction &f() \x7b\x7d\n".toList = false := by
  decide +kernel

/-- A file with one function, and all classes of the runtime. -/
theorem functionSource_declares_static_of_function :
    let ns : Namespace := ⟨"Facebook\\Libphutil".toList, "Functions".toList⟩
    let globals := GlobalClasses.withExtra []
    let symbols : List Symbols := [.globals globals, .functions ['u'] [['f']]]
    let source := "<?php\nfunction f() \x7b\x7d\n".toList
    let tokens : List Token := [⟨.openTag, "<?php\n".toList, 0⟩, ⟨.keyword .functionKw, "function".toList, 6⟩,
      ⟨.whitespace, [' '], 14⟩, ⟨.identifier, ['f'], 15⟩, ⟨.punct, ['('], 16⟩, ⟨.punct, [')'], 17⟩,
      ⟨.whitespace, [' '], 18⟩, ⟨.punct, ['\x7b'], 19⟩, ⟨.punct, ['\x7d'], 20⟩, ⟨.whitespace, ['\n'], 21⟩]
    (ns.Accepted ∧ tokenize source = .ok tokens ∧ (Outline.ofTokens tokens).functions = [['f']] ∧
      Symbols.Bare ns symbols source ∧ DeclaresPlainly symbols (tokens.map Token.shape) ∧
      TagsInPlace (tokens.map Token.shape)) ∧
    ∃ revised, tokenize (Revision.functionSource ⟨ns, RenameTable.ofSymbols ns symbols⟩ ['u'] source) = .ok revised ∧
      DeclaresStatic ['f'] (revised.map Token.shape) ∧ declaresQualified (revised.map Token.shape) = false := by
  intro ns globals symbols source tokens
  have hns : ns.Accepted := ⟨by decide, by decide⟩
  have htokens : tokenize source = .ok tokens := by decide +kernel
  have hfunctions : (Outline.ofTokens tokens).functions = [['f']] := by decide
  have hdisjoint : ∀ f ∈ (Outline.ofTokens tokens).functions, f ∉ globals := by
    intro f hf hmem
    have hnot := GlobalClasses.absent_of_mem f hmem
    rw [hfunctions, List.mem_singleton] at hf
    rw [hf] at hnot
    revert hnot
    decide
  have hbare : Symbols.Bare ns symbols source := by
    constructor
    · intro n hσ
      simp [symbols] at hσ
    · intro c names hσ n hn
      obtain ⟨rfl, rfl⟩ : c = ['u'] ∧ names = [['f']] := by simpa [symbols] using hσ
      rw [List.mem_singleton.1 hn]
      decide +kernel
  have hplain : DeclaresPlainly symbols (tokens.map Token.shape) := by
    have hone : ∀ i < 10, ((tokens.map Token.shape)[i]?.any fun x => x.kind == .keyword .functionKw) = true →
        i = 1 := by decide
    intro before word behind heq hkind n _ _
    have hlength := congrArg List.length heq
    have hplace : before.length = 1 := by
      refine hone _ ?_ (by simp [heq, hkind])
      simp [tokens] at hlength
      omega
    have heq : [⟨.openTag, "<?php\n".toList⟩] ++ (tokens.map Token.shape).tail = before ++ word :: behind := heq
    obtain ⟨rfl, rfl⟩ := List.cons.inj (List.append_inj heq hplace.symm).2
    exact ⟨rfl, ['u'], [['f']], ['f'], ['('], ") \x7b\x7d\n".toList, by simp [symbols], by simp, by decide, rfl⟩
  have hplace : TagsInPlace (tokens.map Token.shape) := tagsInPlace_of_not_mem (by decide) (by decide)
  have hlabels : ∀ x ∈ tokens.map Token.shape, x.label? = none := by decide
  obtain ⟨revised, hrevised, hstatic, hunqualified⟩ := functionSource_declares_static ns hns (by decide +kernel) ['u']
    (by decide) globals GlobalClasses.spelling_of_mem source tokens htokens symbols (by rw [hfunctions]) hdisjoint hbare
    hplain hplace fun x hx label h => by
      rw [hlabels x hx] at h
      cases h
  exact ⟨⟨hns, htokens, hfunctions, hbare, hplain, hplace⟩, revised, hrevised, hstatic ['f'] (by rw [hfunctions]; simp),
    hunqualified (by decide)⟩

/-- A function that returns a reference is declared as no static method. -/
theorem functionSource_leaves_reference :
    let ns : Namespace := ⟨"Facebook\\Libphutil".toList, "Functions".toList⟩
    let symbols : List Symbols := [.globals (GlobalClasses.withExtra []), .functions ['u'] [['f']]]
    let source := "<?php\nfunction &f() \x7b\x7d\n".toList
    (ns.Accepted ∧ isIdentifier ['u'] = true ∧ Outline.ofSource source = .ok ⟨none, [['f']]⟩) ∧
    ¬ ∀ revised, tokenize (Revision.functionSource ⟨ns, RenameTable.ofSymbols ns symbols⟩ ['u'] source) = .ok revised →
      staticModifier ∈ revised.map Token.shape := by
  intro ns symbols source
  refine ⟨⟨⟨by decide, by decide⟩, by decide, by decide +kernel⟩, fun hstatic => ?_⟩
  have hsubstituted : (RenameTable.ofSymbols ns symbols).substitute source = source := by
    have habsent : ∀ m ∈ GlobalClasses.withExtra [], contains m source = false := GlobalClasses.absent_of_mem
    have hnames : ∀ σ ∈ [Symbols.functions ['u'] [['f']]], ∀ n ∈ σ.names,
        isIdentifier n = true ∧ n ∉ GlobalClasses.withExtra [] := by
      have hall : ∀ σ ∈ [Symbols.functions ['u'] [['f']]], ∀ n ∈ σ.names,
          isIdentifier n = true ∧ contains n source = true := by decide
      intro σ hσ n hn
      obtain ⟨hid, hin⟩ := hall σ hσ n hn
      exact ⟨hid, fun hmem => by rw [habsent n hmem] at hin; cases hin⟩
    rw [substitute_globals_of_absent GlobalClasses.isIdentifier_of_mem hnames habsent,
      RenameTable.substitute_eq_foldl, RenameTable.toList_ofSymbols]
    decide +kernel
  have hnone : (tokenize (Revision.functionSource ⟨ns, RenameTable.ofSymbols ns symbols⟩ ['u'] source)).toOption.map
      (fun tokens => tokens.all fun token => token.shape != staticModifier) = some true := by
    rw [Revision.functionSource, hsubstituted]
    decide +kernel
  obtain ⟨revised, hrevised, hall⟩ := Option.map_eq_some_iff.1 hnone
  obtain ⟨token, hmem, htoken⟩ := List.mem_map.1 (hstatic revised (eq_ok_of_toOption_eq_some hrevised))
  have := List.all_eq_true.1 hall token hmem
  rw [htoken, bne_self_eq_false] at this
  cases this

end Namespacing
