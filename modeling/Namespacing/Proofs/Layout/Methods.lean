import Namespacing.Proofs.Layout.ClassFiles
import Namespacing.Proofs.Path.Steps
set_option autoImplicit false

namespace Namespacing

open Lexeme Text Layout

def staticModifier : Shape :=
  ⟨.identifier, staticWord⟩

/-- No part of the names that come in is the word that makes a method static. -/
structure Unstatic (ns : Namespace) (symbols : List Symbols) : Prop where
  root : staticWord ∉ splitOn '\\' ns.root
  segment : ns.functionsSegment ≠ staticWord
  container : ∀ c names, .functions c names ∈ symbols → c ≠ staticWord
  name : ∀ σ ∈ symbols, staticWord ∉ σ.names

namespace Expands

variable {P : Shape → List Shape → Prop} {A B : List Shape} {z : Shape}

theorem count_eq (hP : ∀ x ys, P x ys → ys.count z = [x].count z) (h : Expands P A B) : B.count z = A.count z := by
  induction h with
  | nil => rfl
  | @cons x ys shapes shapes' hx _ ih =>
    rw [List.count_append, hP _ _ hx, ih, ← List.count_append]
    rfl

theorem count_le (hP : ∀ x ys, P x ys → [x].count z ≤ ys.count z) (h : Expands P A B) : A.count z ≤ B.count z := by
  induction h with
  | nil => exact Nat.le_refl _
  | @cons x ys shapes shapes' hx _ ih =>
    have hcons : ([x] ++ shapes).count z = [x].count z + shapes.count z := List.count_append
    rw [List.singleton_append] at hcons
    rw [List.count_append, hcons]
    exact Nat.add_le_add (hP _ _ hx) ih

end Expands

theorem count_staticModifier_eq_zero {x : Shape} (h : x.kind ≠ .identifier ∨ x.text ≠ staticWord) :
    [x].count staticModifier = 0 := by
  rw [List.count_eq_zero, List.mem_singleton]
  rintro rfl
  exact h.elim (fun hkind => hkind rfl) fun htext => htext rfl

theorem count_staticModifier_of_isLoose {kind : TokenKind} {w : Text} (h : kind.isLoose = true) :
    [⟨kind, w⟩].count staticModifier = 0 := by
  refine count_staticModifier_eq_zero (Or.inl ?_)
  rintro rfl
  cases h

section

variable {ns : Namespace} {symbols : List Symbols} {A B : List Shape}

theorem splitOn_name_cons {w : Text} (hw : isIdentifier w = true) (v : Text) :
    splitOn '\\' (w ++ '\\' :: v) = w :: splitOn '\\' v := by
  rw [splitOn_append, splitOn_of_not_mem (not_mem_of_isIdentifier hw rfl)]
  rfl

theorem QualifiedName.mem_pieces {v : Text} (h : QualifiedName v A) {x : Shape} (hx : x ∈ A) :
    x = ⟨.punct, ['\\']⟩ ∨ ∃ w ∈ splitOn '\\' v, x = ⟨wordKind w, w⟩ := by
  induction h with
  | @word w hw =>
    have hpiece := splitOn_of_not_mem (not_mem_of_isIdentifier hw (c := '\\') rfl)
    exact Or.inr ⟨w, by simp [hpiece], List.mem_singleton.1 hx⟩
  | @cons w v shapes hw _ ih =>
    rw [splitOn_name_cons hw]
    rcases List.mem_cons.1 hx with rfl | hx
    · exact Or.inr ⟨w, by simp, rfl⟩
    · rcases List.mem_cons.1 hx with rfl | hx
      · exact Or.inl rfl
      · exact (ih hx).imp_right fun ⟨u, hu, hx⟩ => ⟨u, by simp [hu], hx⟩

theorem QualifierShapes.cases_of_qualifier {σ : Symbols} {Z : List Shape} (h : QualifierShapes (σ.qualifier ns) Z) :
    Z = [backslash] ∨ (∃ A, QualifiedName ns.root A ∧ Z = backslash :: (A ++ [backslash])) ∨
      ∃ container names A, σ = .functions container names ∧ QualifiedName (ns.functionsRoot ++ '\\' :: container) A ∧
        Z = backslash :: (A ++ [colon, colon]) := by
  generalize hz : σ.qualifier ns = z at h
  -- The last character tells a container from a namespace.
  have hlast := congrArg (fun z => z.reverse.head?) hz
  cases σ with
  | globals =>
    cases h with
    | global => exact Or.inl rfl
    | root => simp [Symbols.qualifier] at hz
    | container => simp [Symbols.qualifier] at hz
  | classLike n =>
    cases h with
    | global => simp [Symbols.qualifier] at hz
    | @root v A hA =>
      obtain rfl : ns.root = v := List.append_cancel_right (List.cons.inj hz).2
      exact Or.inr (Or.inl ⟨A, hA, rfl⟩)
    | container => simp [Symbols.qualifier] at hlast
  | functions container names =>
    have hq : Symbols.qualifier ns (.functions container names) =
        '\\' :: ((ns.functionsRoot ++ '\\' :: container) ++ [':', ':']) := by
      simp [Symbols.qualifier, Namespace.qualifyContainer]
    rw [hq] at hz hlast
    cases h with
    | global => simp at hz
    | root => simp at hlast
    | @container v A hA =>
      obtain rfl := List.append_cancel_right (List.cons.inj hz).2
      exact Or.inr (Or.inr ⟨container, names, A, rfl, hA, rfl⟩)

theorem QualifiedName.staticModifier_not_mem {v : Text} (h : QualifiedName v A)
    (hv : staticWord ∉ splitOn '\\' v) : staticModifier ∉ A := by
  intro hmem
  rcases h.mem_pieces hmem with heq | ⟨w, hw, heq⟩
  · cases heq
  · obtain rfl : staticWord = w := congrArg Shape.text heq
    exact hv hw

section

variable (hns : ns.Accepted) (hsymbols : Symbols.Worded symbols) (hstatic : Unstatic ns symbols)

include hns hsymbols hstatic

theorem Unstatic.qualifier {σ : Symbols} (hσ : σ ∈ symbols) {Z : List Shape}
    (hZ : QualifierShapes (σ.qualifier ns) Z) : staticModifier ∉ Z := by
  rcases hZ.cases_of_qualifier with rfl | ⟨A, hA, rfl⟩ | ⟨container, names, A, rfl, hA, rfl⟩
  · decide
  · have hname := hA.staticModifier_not_mem hstatic.root
    simp only [List.mem_cons, List.mem_append, List.not_mem_nil, or_false, hname]
    decide
  · have hpiece : ∀ {w : Text}, isIdentifier w = true → splitOn '\\' w = [w] := fun hw =>
      splitOn_of_not_mem (not_mem_of_isIdentifier hw rfl)
    have hname := hA.staticModifier_not_mem (by
      rw [Namespace.functionsRoot, splitOn_append, splitOn_append, hpiece hns.segment,
        hpiece (hsymbols.container _ _ hσ)]
      simp only [List.mem_append, List.mem_singleton, not_or]
      exact ⟨⟨hstatic.root, hstatic.segment.symm⟩, (hstatic.container _ _ hσ).symm⟩)
    simp only [List.mem_cons, List.mem_append, List.not_mem_nil, or_false, hname]
    decide

/-- A token gets the word that makes a method static only where a function is declared, and none loses it. -/
theorem RenamesIf.count_cases {declares : Prop} {x : Shape} {ys : List Shape}
    (h : RenamesIf declares ns symbols x ys) :
    ys.count staticModifier = [x].count staticModifier ∨
      declares ∧ [x].count staticModifier ≤ ys.count staticModifier := by
  cases h with
  | keep => exact Or.inl rfl
  | @loose kind w w' hkind =>
    exact Or.inl ((count_staticModifier_of_isLoose hkind).trans (count_staticModifier_of_isLoose hkind).symm)
  | @name σ n Z hσ hn hZ =>
    rw [List.count_append, List.count_eq_zero.2 (hstatic.qualifier hns hsymbols hσ hZ), Nat.zero_add]
    exact Or.inl rfl
  | @number σ x n Z hσ hn hZ =>
    have hne : n ≠ staticWord := by
      rintro rfl
      exact hstatic.name σ hσ hn
    have hparts : ⟨.number, x⟩ :: (Z ++ [⟨.identifier, n⟩]) = [⟨.number, x⟩] ++ Z ++ [⟨.identifier, n⟩] := by simp
    rw [hparts, List.count_append, List.count_append, count_staticModifier_eq_zero (Or.inl (by simp)),
      List.count_eq_zero.2 (hstatic.qualifier hns hsymbols hσ hZ), count_staticModifier_eq_zero (Or.inr hne),
      count_staticModifier_eq_zero (Or.inl (by simp))]
    exact Or.inl rfl
  | static hdeclares k =>
    rw [count_staticModifier_eq_zero (Or.inl (by decide))]
    exact Or.inr ⟨hdeclares, Nat.zero_le _⟩
  | @split kind x hdeclares hx hkind k =>
    have hne : x ++ functionWord ≠ staticWord := by
      intro heq
      have := congrArg List.length heq
      simp [functionWord, staticWord] at this
    rw [count_staticModifier_eq_zero (Or.inr hne)]
    exact Or.inr ⟨hdeclares, Nat.zero_le _⟩

end

theorem Respaces.count_eq {header : List Shape} {f : Text → Text} (hheader : staticModifier ∉ header) {x : Shape}
    {ys : List Shape} (h : Respaces header f x ys) : ys.count staticModifier = [x].count staticModifier := by
  cases h with
  | solid => rfl
  | @loose kind w w' hkind =>
    exact (count_staticModifier_of_isLoose hkind).trans (count_staticModifier_of_isLoose hkind).symm
  | @tag kind w w' gap hkind _ hgap =>
    have hne : kind ≠ .identifier := by
      rintro rfl
      cases hkind
    rw [count_staticModifier_eq_zero (Or.inl hne), List.count_eq_zero, List.mem_cons, List.mem_append]
    rintro (heq | hmem | hmem)
    · exact hne (congrArg Shape.kind heq).symm
    · split at hmem
      · exact hheader hmem
      · cases hmem
    · cases Shape.isGap_kind (hgap _ hmem)

theorem staticModifier_not_mem_namespaceShapes {name : Text} (h : QualifiedName name A)
    (hname : staticWord ∉ splitOn '\\' name) : staticModifier ∉ namespaceShapes A := by
  have hwords := h.staticModifier_not_mem hname
  simp only [namespaceShapes, List.mem_cons, List.mem_append, List.not_mem_nil, or_false, hwords]
  decide

/-- When the names in a file are qualified and its namespace is declared, no method loses the word that makes
it static, and none gets it unless a word that ends in the word that declares a function stands one blank
before the name of a function of the library with a mark of a function behind it. Neither the namespace nor
the names have that word as a part, no declaration is qualified already, the literal open tag stands nowhere
but in open tags, strings, attributes and block comments, and no here-document has the label of a name. -/
theorem classSource_keeps_modifiers (ns : Namespace) (hns : ns.Accepted) (symbols : List Symbols)
    (hworded : Symbols.Worded symbols) (hstatic : Unstatic ns symbols) (source : Text) (tokens : List Token)
    (htokens : tokenize source = .ok tokens) (hbare : Symbols.Bare ns symbols source)
    (hplace : TagsInPlace (tokens.map Token.shape))
    (hlabels : ∀ x ∈ tokens.map Token.shape, ∀ label, x.label? = some label → SteadyLabel symbols label) :
    ∃ revised, tokenize (Revision.classSource ⟨ns, RenameTable.ofSymbols ns symbols⟩ source) = .ok revised ∧
      (tokens.map Token.shape).count staticModifier ≤ (revised.map Token.shape).count staticModifier ∧
      ((∀ before x behind, tokens.map Token.shape = before ++ x :: behind →
          ¬ x.Declares symbols (behind.flatMap Shape.text)) →
        (revised.map Token.shape).count staticModifier = (tokens.map Token.shape).count staticModifier) := by
  have hcuts := cuts_of_tokensFrom htokens
  generalize tokens.map Token.shape = A at *
  have hins : Inserts ns symbols [] false source ((RenameTable.ofSymbols ns symbols).substitute source) := by
    rw [RenameTable.substitute_eq_foldl]
    exact (Inserts.refl source).foldl_applyRename hns hworded (fun r hr => RenameTable.exists_rule_of_mem hr) hbare
  obtain ⟨B, hB, hAB⟩ : ∃ B, Cuts .html ((RenameTable.ofSymbols ns symbols).substitute source) B ∧
      Expands (RenamesIf (∃ before x behind, A = before ++ x :: behind ∧
        x.Declares symbols (behind.flatMap Shape.text)) ns symbols) A B :=
    hcuts.renamed hns hworded hlabels (fun before x behind heq hx => ⟨before, x, behind, heq, hx⟩) hins
  obtain ⟨V, hV⟩ := exists_qualifiedName_root hns.root
  obtain ⟨C, hC, hBC⟩ := hB.exists_headed (header_namespace hV) (hplace.renames hAB)
  obtain ⟨revised, hrevised, hshapes⟩ := hC.exists_tokens 0
  have hheader := staticModifier_not_mem_namespaceShapes hV hstatic.root
  have hdeclared : C.count staticModifier = B.count staticModifier := hBC.count_eq fun x ys hx => hx.count_eq hheader
  refine ⟨revised, ?_, ?_, fun hnone => ?_⟩
  · rw [tokenize, Revision.classSource, declareNamespace_eq]
    exact hrevised
  · rw [hshapes, hdeclared]
    exact hAB.count_le fun x ys hx => (hx.count_cases hns hworded hstatic).elim (fun heq => heq.ge) And.right
  · rw [hshapes, hdeclared]
    refine hAB.count_eq fun x ys hx => (hx.count_cases hns hworded hstatic).resolve_right ?_
    rintro ⟨⟨before, x, behind, heq, hx⟩, -⟩
    exact hnone before x behind heq hx

theorem Shape.Declares.infix {before behind : List Shape} {x : Shape} {source : Text}
    (hsource : (before ++ x :: behind).flatMap Shape.text = source)
    (h : x.Declares symbols (behind.flatMap Shape.text)) :
    ∃ container names, .functions container names ∈ symbols ∧ ∃ n ∈ names, ∃ s ∈ Frame.behindFunction,
      functionWord ++ ' ' :: (n ++ s) <:+: source := by
  obtain ⟨u, hu⟩ := h.word
  obtain ⟨container, names, n, s, t, hσ, hn, hs, hr⟩ := h.behind
  refine ⟨container, names, hσ, n, hn, s, hs, before.flatMap Shape.text ++ u, t, ?_⟩
  rw [← hsource, List.flatMap_append, List.flatMap_cons, hr, ← hu]
  simp

end

/-- A class with a static method that calls a function of the library, and all classes of the runtime. -/
theorem classSource_keeps_modifiers_widget :
    let ns : Namespace := ⟨"Facebook\\Libphutil".toList, "Functions".toList⟩
    let symbols : List Symbols := [.globals (GlobalClasses.withExtra []), .functions ['u'] [['f']],
      .classLike "Widget".toList]
    let source := "<?php\nclass Widget \x7b static function g() \x7b f(); \x7d \x7d\n".toList
    let tokens : List Token := [⟨.openTag, "<?php\n".toList, 0⟩, ⟨.keyword .classKw, "class".toList, 6⟩,
      ⟨.whitespace, [' '], 11⟩, ⟨.identifier, "Widget".toList, 12⟩, ⟨.whitespace, [' '], 18⟩,
      ⟨.punct, ['\x7b'], 19⟩, ⟨.whitespace, [' '], 20⟩, ⟨.identifier, "static".toList, 21⟩,
      ⟨.whitespace, [' '], 27⟩, ⟨.keyword .functionKw, "function".toList, 28⟩, ⟨.whitespace, [' '], 36⟩,
      ⟨.identifier, ['g'], 37⟩, ⟨.punct, ['('], 38⟩, ⟨.punct, [')'], 39⟩, ⟨.whitespace, [' '], 40⟩,
      ⟨.punct, ['\x7b'], 41⟩, ⟨.whitespace, [' '], 42⟩, ⟨.identifier, ['f'], 43⟩, ⟨.punct, ['('], 44⟩,
      ⟨.punct, [')'], 45⟩, ⟨.punct, [';'], 46⟩, ⟨.whitespace, [' '], 47⟩, ⟨.punct, ['\x7d'], 48⟩,
      ⟨.whitespace, [' '], 49⟩, ⟨.punct, ['\x7d'], 50⟩, ⟨.whitespace, ['\n'], 51⟩]
    (ns.Accepted ∧ Symbols.Worded symbols ∧ Unstatic ns symbols ∧ tokenize source = .ok tokens ∧
      Symbols.Bare ns symbols source ∧ TagsInPlace (tokens.map Token.shape)) ∧
    ∃ revised, tokenize (Revision.classSource ⟨ns, RenameTable.ofSymbols ns symbols⟩ source) = .ok revised ∧
      (revised.map Token.shape).count staticModifier = 1 := by
  intro ns symbols source tokens
  have hns : ns.Accepted := ⟨by decide, by decide⟩
  have hmem : ∀ σ ∈ symbols, σ = .globals (GlobalClasses.withExtra []) ∨ σ = .functions ['u'] [['f']] ∨
      σ = .classLike "Widget".toList := by
    intro σ hσ
    simpa [symbols] using hσ
  have hfunctions : ∀ c names, .functions c names ∈ symbols → c = ['u'] ∧ names = [['f']] := by
    intro c names hσ
    rcases hmem _ hσ with h | h | h
    · cases h
    · cases h
      exact ⟨rfl, rfl⟩
    · cases h
  have hnames : ∀ σ ∈ symbols, ∀ n ∈ σ.names, (isIdentifier n = true ∧ Keyword.ofWord? n = none) ∧
      ¬ staticWord <:+ n ∧ ¬ functionWord <:+ n := by
    intro σ hσ n hn
    rcases hmem σ hσ with rfl | rfl | rfl
    · exact GlobalClasses.spelling_of_mem n hn
    · rw [List.mem_singleton.1 hn]
      decide
    · rw [List.mem_singleton.1 hn]
      decide
  have hworded : Symbols.Worded symbols :=
    ⟨fun σ hσ n hn => (hnames σ hσ n hn).1.1, fun c names hσ => by rw [(hfunctions c names hσ).1]; decide,
      fun σ hσ n hn => (hnames σ hσ n hn).1.2, fun _ _ _ σ hσ _ n hn => (hnames σ hσ n hn).2⟩
  have hstatic : Unstatic ns symbols :=
    ⟨by decide, by decide, fun c names hσ => by rw [(hfunctions c names hσ).1]; decide,
      fun σ hσ hn => (hnames σ hσ _ hn).2.1 (List.suffix_refl _)⟩
  have htokens : tokenize source = .ok tokens := by decide +kernel
  have hbare : Symbols.Bare ns symbols source := by
    constructor
    · intro n hσ kind
      rcases hmem _ hσ with h | h | h
      · cases h
      · cases h
      · obtain rfl := Symbols.classLike.inj h
        cases kind <;> decide +kernel
    · intro c names hσ n hn
      obtain ⟨rfl, rfl⟩ := hfunctions c names hσ
      rw [List.mem_singleton.1 hn]
      decide +kernel
  have hplace : TagsInPlace (tokens.map Token.shape) := tagsInPlace_of_not_mem (by decide) (by decide)
  have hlabels : ∀ x ∈ tokens.map Token.shape, x.label? = none := by decide
  obtain ⟨revised, hrevised, -, hcount⟩ := classSource_keeps_modifiers ns hns symbols hworded hstatic source tokens
    htokens hbare hplace fun x hx label h => by
      rw [hlabels x hx] at h
      cases h
  refine ⟨⟨hns, hworded, hstatic, htokens, hbare, hplace⟩, revised, hrevised, ?_⟩
  rw [hcount fun before x behind heq hdeclares => ?_]
  · decide
  · obtain ⟨c, names, hσ, n, hn, s, hs, hinfix⟩ := hdeclares.infix (by rw [← heq])
    obtain ⟨rfl, rfl⟩ := hfunctions c names hσ
    rw [List.mem_singleton.1 hn] at hinfix
    revert s
    decide +kernel

/-- A method that is named like a function of the library becomes static. -/
theorem classSource_adds_modifier :
    let ns : Namespace := ⟨"Facebook\\Libphutil".toList, "Functions".toList⟩
    let symbols : List Symbols := [.globals (GlobalClasses.withExtra []), .functions ['u'] [['f']], .classLike ['A']]
    let source := "<?php\nclass A \x7b\n  public function f() \x7b\x7d\n\x7d\n".toList
    (ns.Accepted ∧ Unstatic ns symbols ∧ Outline.ofSource source = .ok ⟨some ⟨.plainClass, ['A']⟩, []⟩) ∧
    ¬ ∀ tokens revised, tokenize source = .ok tokens →
      tokenize (Revision.classSource ⟨ns, RenameTable.ofSymbols ns symbols⟩ source) = .ok revised →
      (revised.map Token.shape).count staticModifier = (tokens.map Token.shape).count staticModifier := by
  intro ns symbols source
  have hstatic : Unstatic ns symbols := by
    refine ⟨by decide, by decide, fun c names hσ => ?_, fun σ hσ hn => ?_⟩
    · obtain ⟨rfl, -⟩ : c = ['u'] ∧ names = [['f']] := by simpa [symbols] using hσ
      decide
    · simp only [symbols, List.mem_cons, List.not_mem_nil, or_false] at hσ
      rcases hσ with rfl | rfl | rfl
      · exact (GlobalClasses.spelling_of_mem _ hn).2.1 (List.suffix_refl _)
      · revert hn
        decide
      · revert hn
        decide
  refine ⟨⟨⟨by decide, by decide⟩, hstatic, by decide +kernel⟩, fun hsame => ?_⟩
  have hsubstituted : (RenameTable.ofSymbols ns symbols).substitute source =
      "<?php\nclass A \x7b\n  public static function f() \x7b\x7d\n\x7d\n".toList := by
    have habsent : ∀ m ∈ GlobalClasses.withExtra [], contains m source = false := by decide +kernel
    have hnames : ∀ σ ∈ [Symbols.functions ['u'] [['f']], .classLike ['A']], ∀ n ∈ σ.names,
        isIdentifier n = true ∧ n ∉ GlobalClasses.withExtra [] := by
      have hall : ∀ σ ∈ [Symbols.functions ['u'] [['f']], .classLike ['A']], ∀ n ∈ σ.names,
          isIdentifier n = true ∧ contains n source = true := by decide
      intro σ hσ n hn
      obtain ⟨hid, hin⟩ := hall σ hσ n hn
      exact ⟨hid, fun hmem => by rw [habsent n hmem] at hin; cases hin⟩
    rw [substitute_globals_of_absent GlobalClasses.isIdentifier_of_mem hnames habsent,
      RenameTable.substitute_eq_foldl, RenameTable.toList_ofSymbols]
    decide +kernel
  have hbefore : (tokenize source).toOption.map (fun tokens => (tokens.map Token.shape).count staticModifier) =
      some 0 := by decide +kernel
  have hafter : (tokenize (Revision.classSource ⟨ns, RenameTable.ofSymbols ns symbols⟩ source)).toOption.map
      (fun tokens => (tokens.map Token.shape).count staticModifier) = some 1 := by
    rw [Revision.classSource, hsubstituted]
    decide +kernel
  obtain ⟨tokens, htokens, hbefore⟩ := Option.map_eq_some_iff.1 hbefore
  obtain ⟨revised, hrevised, hafter⟩ := Option.map_eq_some_iff.1 hafter
  have heq := hsame tokens revised (eq_ok_of_toOption_eq_some htokens) (eq_ok_of_toOption_eq_some hrevised)
  rw [hbefore, hafter] at heq
  cases heq

end Namespacing
