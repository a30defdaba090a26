import Namespacing.Proofs.RenameTable.Bareness
import Namespacing.Proofs.Token.Respelling
set_option autoImplicit false

namespace Namespacing

open Lexeme Text

namespace Shape

def isBetween (x : Shape) : Bool :=
  x.kind.isTrivia || x.kind == .punct && x.text == ['&']

def isWord (x : Shape) : Bool :=
  match x.kind with
  | .identifier | .keyword _ => true
  | _ => false

end Shape

def declaredName? : List Shape → Option Text
  | [] => none
  | x :: A =>
    if x.isBetween then declaredName? A
    else if x.kind = .identifier then some x.text
    else none

def namesQualified : List Shape → Bool
  | [] => false
  | x :: A => if x.isBetween then namesQualified A else x == backslash || x.isWord && A.head? == some backslash

def declaresQualified : List Shape → Bool
  | [] => false
  | x :: A => x.kind == .keyword .functionKw && namesQualified A || declaresQualified A

section

variable {x : Shape} {A B Z : List Shape}

theorem declaresQualified_cons (hx : x.kind ≠ .keyword .functionKw) :
    declaresQualified (x :: A) = declaresQualified A := by
  rw [declaresQualified, beq_false_of_ne hx, Bool.false_and, Bool.false_or]

theorem declaresQualified_append (hZ : ∀ x ∈ Z, x.kind ≠ .keyword .functionKw) :
    declaresQualified (Z ++ A) = declaresQualified A := by
  induction Z with
  | nil => rfl
  | cons x Z ih =>
    rw [List.cons_append, declaresQualified_cons (hZ x List.mem_cons_self),
      ih fun y hy => hZ y (List.mem_cons_of_mem _ hy)]

theorem namesQualified_eq_false (hx : x.isBetween = false) (hne : x ≠ backslash) (hA : A.head? ≠ some backslash) :
    namesQualified (x :: A) = false := by
  rw [namesQualified, hx, if_neg Bool.false_ne_true, beq_false_of_ne hne, beq_false_of_ne hA, Bool.and_false,
    Bool.or_false]

theorem Mode.Form.after_eq_code {mode : Mode} {kind : TokenKind} {w r : Text} (h : mode.Form kind w r)
    (hkind : kind ∉ [.openTag, .closeTag, .inlineHtml]) : mode.after kind = .code := by
  cases mode with
  | html =>
    have h : HtmlForm kind w r := h
    cases h <;> simp at hkind
  | code => cases kind <;> first | rfl | simp at hkind

theorem CodeForm.word_stop {kind : TokenKind} {w r : Text} (h : CodeForm kind w r)
    (hword : Shape.isWord ⟨kind, w⟩ = true) : r.head?.any isWordChar = false := by
  cases h with
  | word _ _ hr => exact hr
  | block hkind =>
    rw [hkind, blockKind] at hword
    split at hword <;> cases hword
  | _ => cases hword

end

theorem staticShapes_kind (k : Nat) : ∀ x ∈ staticShapes k, x.kind ≠ .keyword .functionKw := by
  induction k with
  | zero => simp [staticShapes]
  | succ k ih => simpa [staticShapes] using ih

def Symbols.Apart (symbols : List Symbols) : Prop :=
  ∀ σ ∈ symbols, ∀ τ ∈ symbols, ∀ n, n ∈ σ.names → n ∈ τ.names → σ = τ

/-- Behind the word that declares a function, a name of a table is the name of a function and declared as the
renames spell it: the word in lower case, one blank, and a mark behind the name. -/
def DeclaresPlainly (symbols : List Symbols) (A : List Shape) : Prop :=
  ∀ before word behind, A = before ++ word :: behind → word.kind = .keyword .functionKw →
    ∀ n, declaredName? behind = some n → (∃ σ ∈ symbols, n ∈ σ.names) →
      word.text = functionWord ∧ DeclaresFunction symbols (behind.flatMap Shape.text)

/-- No function is declared with its full name and a mark behind it. -/
def Symbols.NoneDeclared (ns : Namespace) (symbols : List Symbols) (t : Text) : Prop :=
  ∀ container names, .functions container names ∈ symbols → ∀ n ∈ names, ∀ s ∈ Frame.behindFunction,
    ¬ declaration functionWord (ns.qualifyContainer container ++ "::".toList) n s <:+: t

theorem Symbols.NoneDeclared.of_infix {ns : Namespace} {symbols : List Symbols} {s t : Text}
    (h : NoneDeclared ns symbols t) (hs : s <:+: t) : NoneDeclared ns symbols s :=
  fun container names hσ n hn mark hmark hin => h container names hσ n hn mark hmark (hin.trans hs)

/-- The tokens of a text and what a table makes of them, each with the text behind it in view. -/
inductive Recasts (ns : Namespace) (symbols : List Symbols) : Mode → Bool → List Shape → List Shape → Prop where
  | nil (mode : Mode) (framed : Bool) : Recasts ns symbols mode framed [] []
  | cons {mode : Mode} {framed : Bool} {kind : TokenKind} {w : Text} {ys A B : List Shape}
      (hform : mode.Form kind w (A.flatMap Shape.text))
      (hx : RenamesIf (Shape.Declares symbols ⟨kind, w⟩ (A.flatMap Shape.text)) ns symbols ⟨kind, w⟩ ys)
      (hins : Inserts ns symbols [] (framedBehind framed w) (A.flatMap Shape.text) (B.flatMap Shape.text))
      (rest : Recasts ns symbols (mode.after kind) (framedBehind framed w) A B) :
      Recasts ns symbols mode framed (⟨kind, w⟩ :: A) (ys ++ B)

section

variable {ns : Namespace} {symbols : List Symbols} {mode : Mode} {framed : Bool} {A B : List Shape}

theorem Cuts.exists_recast (hns : ns.Accepted) (hsymbols : Symbols.Worded symbols) {s t : Text}
    (h : Cuts mode s A) (hsteady : ∀ x ∈ A, ∀ label, x.label? = some label → SteadyLabel symbols label)
    (ht : Inserts ns symbols [] framed s t) : ∃ B, Cuts mode t B ∧ Recasts ns symbols mode framed A B := by
  induction h generalizing framed t with
  | nil mode =>
    rw [ht.eq_nil]
    exact ⟨[], .nil mode, .nil mode framed⟩
  | @cons mode kind w r A hform rest ih =>
    obtain ⟨w', r', rfl, hw, hr⟩ := ht.exists_of_append
    obtain rfl := rest.text_eq
    obtain ⟨ys, hys, hcuts⟩ := hform.renamed hns hsymbols (hsteady _ List.mem_cons_self) id (by simpa using hw) hr
    obtain ⟨B, hB, hAB⟩ := ih (fun x hx => hsteady x (List.mem_cons_of_mem _ hx)) hr
    exact ⟨ys ++ B, hcuts B hB, .cons hform hys (by rwa [hB.text_eq]) hAB⟩

namespace Recasts

theorem cuts (h : Recasts ns symbols mode framed A B) : Cuts mode (A.flatMap Shape.text) A := by
  induction h with
  | nil mode => exact .nil mode
  | cons hform _ _ _ ih => exact .cons hform ih

theorem head_backslash (h : Recasts ns symbols mode framed A B) (hB : B.head? = some backslash) :
    A.head? = some backslash ∨
      ∃ n, (∃ R, A = ⟨.identifier, n⟩ :: R) ∧ ∃ σ ∈ symbols, n ∈ σ.names := by
  cases h with
  | nil => cases hB
  | @cons _ _ kind w ys A B _ hx _ _ =>
    generalize hC : ys ++ B = C at hB
    cases hx with
    | keep => exact Or.inl (by rw [← hB, ← hC]; rfl)
    | loose hkind =>
      rw [← hC] at hB
      obtain ⟨rfl, -⟩ := Shape.mk.inj (Option.some.inj hB)
      cases hkind
    | name hσ hn => exact Or.inr ⟨_, ⟨A, rfl⟩, _, hσ, hn⟩
    | number =>
      rw [← hC] at hB
      cases hB
    | static _ k =>
      rw [← hC] at hB
      cases hB
    | split _ _ hkind =>
      rw [← hC] at hB
      obtain ⟨rfl, -⟩ := Shape.mk.inj (Option.some.inj hB)
      simp at hkind

theorem exists_between {x : Shape} (hx : x.isBetween = true) (h : Recasts ns symbols .code framed (x :: A) B) :
    ∃ y B' framed', B = y :: B' ∧ y.isBetween = true ∧ Recasts ns symbols .code framed' A B' := by
  cases h with
  | @cons _ _ kind w ys A B hform hys _ rest =>
    have hmode : Mode.code.after kind = .code := by
      cases kind <;> first | rfl | cases hx
    rw [hmode] at rest
    cases hys with
    | keep => exact ⟨_, B, _, rfl, hx, rest⟩
    | @loose _ _ w' hloose =>
      refine ⟨⟨kind, w'⟩, B, _, rfl, ?_, rest⟩
      cases kind <;> first | rfl | contradiction
    | name => cases hx
    | number => cases hx
    | static => cases hx
    | split _ _ hmem =>
      simp only [List.mem_cons, List.not_mem_nil, or_false] at hmem
      rcases hmem with rfl | rfl | rfl <;> cases hx

/-- A name that is qualified behind the word that declares a function was so before, or it is a name of the
table. -/
theorem namesQualified_cases (h : Recasts ns symbols .code framed A B) (hB : namesQualified B = true) :
    namesQualified A = true ∨ ∃ n, declaredName? A = some n ∧ ∃ σ ∈ symbols, n ∈ σ.names := by
  induction A generalizing framed B with
  | nil =>
    cases h
    cases hB
  | cons x A ih =>
    rw [namesQualified, declaredName?]
    cases hx : x.isBetween with
    | true =>
      obtain ⟨y, B, framed, rfl, hy, rest⟩ := h.exists_between hx
      rw [namesQualified, if_pos hy] at hB
      simpa using ih rest hB
    | false =>
      simp only [Bool.false_eq_true, if_false]
      cases h with
      | @cons _ _ kind w ys A B hform hys _ rest =>
        cases hys with
        | keep =>
          rw [List.singleton_append, namesQualified, hx, if_neg Bool.false_ne_true] at hB
          simp only [Bool.or_eq_true, Bool.and_eq_true, beq_iff_eq] at hB ⊢
          rcases hB with hB | ⟨hword, hB⟩
          · exact Or.inl (Or.inl hB)
          rcases rest.head_backslash hB with hA | ⟨n, ⟨R, rfl⟩, -⟩
          · exact Or.inl (Or.inr ⟨hword, hA⟩)
          · obtain ⟨-, r, hr, hn, -⟩ := rest.cuts.identifier_inv
            have hstop := CodeForm.word_stop hform hword
            obtain ⟨d, y, rfl, hd⟩ := exists_cons_of_isIdentifier hn
            rw [hr, List.cons_append, List.head?_cons, Option.any_some, isWordChar_of_isWordStart hd] at hstop
            cases hstop
        | @loose _ _ w' hloose =>
          cases kind <;> contradiction
        | name hσ hn => exact Or.inr ⟨_, rfl, _, hσ, hn⟩
        | number => cases hB
        | static => cases hB
        | split _ _ hmem => 
          simp only [List.mem_cons, List.not_mem_nil, or_false] at hmem
          rcases hmem with rfl | rfl | rfl <;> cases hB

end Recasts

theorem Cuts.exists_name (hsymbols : Symbols.Worded symbols) {t : Text} (h : Cuts .code t A)
    (ht : DeclaresFunction symbols t) :
    ∃ container names n s r R, .functions container names ∈ symbols ∧ n ∈ names ∧ s ∈ Frame.behindFunction ∧
      t = ' ' :: (n ++ (s ++ r)) ∧ A = ⟨.whitespace, [' ']⟩ :: ⟨.identifier, n⟩ :: R ∧ Cuts .code (s ++ r) R := by
  obtain ⟨container, names, n, s, r, hσ, hn, hs, rfl⟩ := ht
  have hid := hsymbols.identifier _ hσ n hn
  have hblank : CodeForm .whitespace [' '] (n ++ (s ++ r)) :=
    .space (by simp) (by decide) (head_not_space_of_isIdentifier hid _)
  obtain ⟨A, rfl, hA⟩ := Cuts.exists_rest (w := [' ']) h hblank
  have hword : CodeForm .identifier n (s ++ r) :=
    .word (wordKind_of_keyword_none (hsymbols.keyword _ hσ n hn)).symm hid
      (head_not_word_of_marks (Frame.behindFunction_marks s hs) r)
  obtain ⟨R, rfl, hR⟩ := hA.exists_rest hword
  exact ⟨container, names, n, s, r, R, hσ, hn, hs, rfl, rfl, hR⟩

theorem RenamesIf.declares_cases {declares : Prop} {x word : Shape} {front : List Shape}
    (h : RenamesIf declares ns symbols x (front ++ [word])) (hword : word.kind = .keyword .functionKw) :
    x = word ∨ declares ∧ word = functionShape ∧ x.kind ∉ [.openTag, .closeTag, .inlineHtml] := by
  generalize hys : front ++ [word] = ys at h
  have hlast := congrArg List.getLast? hys
  rw [List.getLast?_concat] at hlast
  cases h with
  | keep => exact Or.inl (Option.some.inj hlast).symm
  | loose hkind =>
    obtain rfl := Option.some.inj hlast
    obtain rfl := hword
    cases hkind
  | name =>
    rw [List.getLast?_concat] at hlast
    obtain rfl := Option.some.inj hlast
    cases hword
  | number =>
    rw [← List.cons_append, List.getLast?_concat] at hlast
    obtain rfl := Option.some.inj hlast
    cases hword
  | static =>
    rw [List.getLast?_concat] at hlast
    exact Or.inl (Option.some.inj hlast).symm
  | split hdeclares _ hkind =>
    rw [← List.cons_append, ← List.cons_append, List.getLast?_concat] at hlast
    refine Or.inr ⟨hdeclares, Option.some.inj hlast, ?_⟩
    simp only [List.mem_cons, List.not_mem_nil, or_false] at hkind
    rcases hkind with rfl | rfl | rfl <;> simp

/-- Of what comes in, only the word that declares a function can have a qualified name behind it. -/
theorem RenamesIf.declaresQualified_eq_false {declares : Prop} {x : Shape} {ys : List Shape}
    (h : RenamesIf declares ns symbols x ys)
    (hqualifier : ∀ σ ∈ symbols, ∀ Z, QualifierShapes (σ.qualifier ns) Z → ∀ n R,
      declaresQualified (Z ++ ⟨.identifier, n⟩ :: R) = declaresQualified R)
    (hnames : ∀ front word, ys = front ++ [word] → word.kind = .keyword .functionKw → namesQualified B = false)
    (hB : declaresQualified B = false) : declaresQualified (ys ++ B) = false := by
  have hfunction : namesQualified B = false → declaresQualified (functionShape :: B) = false := by
    intro hname
    rw [declaresQualified, hname, hB, Bool.and_false, Bool.or_false]
  cases h with
  | keep =>
    rw [List.singleton_append, declaresQualified, hB, Bool.or_false, Bool.and_eq_false_iff, beq_eq_false_iff_ne]
    by_cases hx : x.kind = .keyword .functionKw
    · exact Or.inr (hnames [] x rfl hx)
    · exact Or.inl hx
  | loose hkind =>
    rw [List.singleton_append, declaresQualified_cons (by rintro rfl; cases hkind)]
    exact hB
  | name hσ hn hZ =>
    rw [List.append_assoc, List.singleton_append, hqualifier _ hσ _ hZ]
    exact hB
  | number hσ hn hZ =>
    rw [List.cons_append, declaresQualified_cons (by simp), List.append_assoc, List.singleton_append,
      hqualifier _ hσ _ hZ]
    exact hB
  | static _ k =>
    rw [List.append_assoc, declaresQualified_append (staticShapes_kind _)]
    exact hfunction (hnames _ functionShape rfl rfl)
  | @split kind x _ _ hkind k =>
    have hne : kind ≠ .keyword .functionKw := by
      rintro rfl
      simp at hkind
    rw [List.cons_append, declaresQualified_cons hne, List.cons_append, declaresQualified_cons (by simp),
      List.append_assoc, declaresQualified_append (staticShapes_kind k)]
    exact hfunction (hnames (⟨kind, x ++ staticWord⟩ :: ⟨.whitespace, [' ']⟩ :: staticShapes k) functionShape rfl rfl)

section

variable (hsymbols : Symbols.Worded symbols) (hapart : Symbols.Apart symbols)

include hsymbols hapart

theorem Recasts.namesQualified_of_declares (h : Recasts ns symbols .code framed A B)
    (hA : DeclaresFunction symbols (A.flatMap Shape.text))
    (hnone : Symbols.NoneDeclared ns symbols (functionWord ++ B.flatMap Shape.text)) : namesQualified B = false := by
  obtain ⟨container, names, n, s, r, R, hσ, hn, hs, -, rfl, hR⟩ := h.cuts.exists_name hsymbols hA
  cases h with
  | cons _ hblank _ h =>
    obtain rfl := hblank.eq_self (Or.inl rfl)
    cases h with
    | @cons _ _ _ _ ys R B _ hname hins _ =>
      rw [hR.text_eq] at hins
      obtain ⟨t, r', hB, hmarks, -⟩ := hins.exists_of_append
      obtain ⟨hne, hrun⟩ := Frame.behindFunction_marks s hs
      obtain rfl := hmarks.eq_self_of_marks hsymbols hrun
      generalize hx : (⟨.identifier, n⟩ : Shape) = x at hname
      cases hname with
      | keep =>
        have hhead : B.head? ≠ some backslash := by
          intro hhead
          obtain ⟨B, rfl⟩ := List.head?_eq_some_iff.1 hhead
          obtain ⟨c, t, rfl⟩ := List.exists_cons_of_ne_nil hne
          obtain rfl : '\\' = c := (List.cons.inj hB).1
          cases hrun _ List.mem_cons_self
        subst hx
        exact namesQualified_eq_false (x := ⟨.identifier, n⟩) rfl (by simp [backslash]) hhead
      | loose hkind =>
        obtain ⟨rfl, -⟩ := Shape.mk.inj hx
        cases hkind
      | @name σ n Z hτ hn' hZ =>
        obtain rfl := (Shape.mk.inj hx).2
        obtain rfl := hapart _ hσ σ hτ n hn hn'
        refine absurd ⟨[], r', ?_⟩ (hnone container names hσ n hn t hs)
        simp [declaration, hB, hZ.text_eq, Symbols.qualifier]
      | number => cases hx
      | static => cases hx
      | @split _ x _ _ _ k =>
        obtain ⟨rfl, -⟩ := Shape.mk.inj hx
        exact namesQualified_eq_false (x := ⟨.identifier, x ++ staticWord⟩) rfl (by simp [backslash])
          (by simp [backslash])

/-- A table whose names are declared with one blank spoils no declaration. -/
theorem Recasts.declaresQualified_eq_false (h : Recasts ns symbols mode framed A B)
    (hqualifier : ∀ σ ∈ symbols, ∀ Z, QualifierShapes (σ.qualifier ns) Z → ∀ n R,
      declaresQualified (Z ++ ⟨.identifier, n⟩ :: R) = declaresQualified R)
    (hplain : DeclaresPlainly symbols A) (hnone : Symbols.NoneDeclared ns symbols (B.flatMap Shape.text))
    (hA : declaresQualified A = false) : declaresQualified B = false := by
  induction h with
  | nil => rfl
  | @cons mode framed kind w ys A B hform hx hins rest ih =>
    simp only [declaresQualified, Bool.or_eq_false_iff, Bool.and_eq_false_iff, beq_eq_false_iff_ne] at hA
    have hrest := ih (fun before word behind heq => hplain (_ :: before) word behind (by rw [heq]; rfl))
      (hnone.of_infix ⟨ys.flatMap Shape.text, [], by simp⟩) hA.2
    refine hx.declaresQualified_eq_false hqualifier (fun front word hys hword => ?_) hrest
    subst hys
    have hwithin : word.text = functionWord → Symbols.NoneDeclared ns symbols (functionWord ++ B.flatMap Shape.text) :=
      fun htext => hnone.of_infix ⟨front.flatMap Shape.text, [], by simp [← htext]⟩
    rcases hx.declares_cases hword with rfl | ⟨hdeclares, rfl, hkind⟩
    · obtain rfl : kind = .keyword .functionKw := hword
      rw [hform.after_eq_code (by decide)] at rest
      rw [Bool.eq_false_iff]
      intro hB
      rcases rest.namesQualified_cases hB with hA' | ⟨n, hn, hσ⟩
      · rw [hA.1.resolve_left (fun h => h rfl)] at hA'
        cases hA'
      · obtain ⟨hw, hdeclares⟩ := hplain [] _ A rfl rfl n hn hσ
        rw [rest.namesQualified_of_declares hsymbols hapart hdeclares (hwithin hw)] at hB
        cases hB
    · rw [hform.after_eq_code hkind] at rest
      exact rest.namesQualified_of_declares hsymbols hapart hdeclares.behind (hwithin rfl)

end

end

section

variable {header gap A B R : List Shape} {f : Text → Text}

theorem namesQualified_append (hR : namesQualified R = false) : namesQualified (A ++ R) = namesQualified A := by
  have hhead : R.head? ≠ some backslash := by
    intro hhead
    obtain ⟨R, rfl⟩ := List.head?_eq_some_iff.1 hhead
    cases hR
  induction A with
  | nil => exact hR
  | cons x A ih =>
    rw [List.cons_append, namesQualified, namesQualified, ih]
    cases A with
    | nil => rw [List.nil_append, List.head?_nil, beq_false_of_ne hhead]; rfl
    | cons => rfl

theorem declaresQualified_append_right (hnames : namesQualified R = false) (hR : declaresQualified R = false) :
    declaresQualified (A ++ R) = declaresQualified A := by
  induction A with
  | nil => exact hR
  | cons x A ih => rw [List.cons_append, declaresQualified, declaresQualified, ih, namesQualified_append hnames]

theorem namesQualified_gap (hgap : ∀ x ∈ gap, x.isGap = true) (hR : namesQualified R = false) :
    namesQualified (gap ++ R) = false := by
  induction gap with
  | nil => exact hR
  | cons x gap ih =>
    obtain ⟨kind, w⟩ := x
    have hkind := Shape.isGap_kind (hgap _ List.mem_cons_self)
    have hrest := ih fun y hy => hgap y (List.mem_cons_of_mem _ hy)
    cases kind <;> first | exact hrest | rfl | cases hkind

theorem declaresQualified_gap (hgap : ∀ x ∈ gap, x.isGap = true) :
    declaresQualified (gap ++ R) = declaresQualified R := by
  refine declaresQualified_append fun x hx h => ?_
  have := Shape.isGap_kind (hgap x hx)
  rw [h] at this
  cases this

theorem head_backslash_respaces (h : Expands (Respaces header f) A B) :
    (B.head? == some backslash) = (A.head? == some backslash) := by
  cases h with
  | nil => rfl
  | cons hx =>
    cases hx with
    | solid => rfl
    | @loose kind _ _ hkind => cases kind <;> first | rfl | cases hkind
    | @tag kind _ _ _ hkind => cases kind <;> first | rfl | cases hkind

theorem namesQualified_respaces (h : Expands (Respaces header f) A B) : namesQualified B = namesQualified A := by
  induction h with
  | nil => rfl
  | @cons x ys A B hx rest ih =>
    cases hx with
    | solid => rw [List.singleton_append, namesQualified, namesQualified, ih, head_backslash_respaces rest]
    | @loose kind w w' hkind =>
      rw [List.singleton_append, namesQualified, namesQualified, ih]
      cases kind <;> first | rfl | cases hkind
    | @tag kind w w' gap hkind => cases kind <;> first | rfl | cases hkind

theorem declaresQualified_respaces (hheader : ∀ R, declaresQualified (header ++ R) = declaresQualified R)
    (h : Expands (Respaces header f) A B) : declaresQualified B = declaresQualified A := by
  induction h with
  | nil => rfl
  | @cons x ys A B hx rest ih =>
    cases hx with
    | solid => rw [List.singleton_append, declaresQualified, declaresQualified, ih, namesQualified_respaces rest]
    | @loose kind w w' hkind =>
      have hne : kind ≠ .keyword .functionKw := by
        rintro rfl
        cases hkind
      rw [List.singleton_append, declaresQualified_cons hne, declaresQualified_cons hne, ih]
    | @tag kind w w' gap hkind _ hgap =>
      have hne : kind ≠ .keyword .functionKw := by
        rintro rfl
        cases hkind
      rw [List.cons_append, declaresQualified_cons hne, declaresQualified_cons hne, List.append_assoc]
      split
      · rw [hheader, declaresQualified_gap hgap, ih]
      · rw [List.nil_append, declaresQualified_gap hgap, ih]

end

end Namespacing
