import Namespacing.Outline
import Namespacing.Proofs.Token.Respelling
set_option autoImplicit false

namespace Namespacing

open Lexeme Text

def StartsClass : List Shape → Prop
  | word :: space :: name :: _ =>
    (ClassKind.ofToken? word.kind).isSome = true ∧ space.kind = .whitespace ∧ name.kind = .identifier
  | _ => False

/-- No class, interface or trait is declared. -/
def Classless (shapes : List Shape) : Prop :=
  ∀ A B, shapes = A ++ B → ¬ StartsClass B

theorem Classless.tail {x : Shape} {A : List Shape} (h : Classless (x :: A)) : Classless A :=
  fun U V hA => h (x :: U) V (by rw [hA]; rfl)

namespace Outline

theorem classLikeAt?_eq_none_iff {tokens : List Token} :
    classLikeAt? tokens = none ↔ ¬ StartsClass (tokens.map Token.shape) := by
  match tokens with
  | [] => simp [classLikeAt?, StartsClass]
  | [_] => simp [classLikeAt?, StartsClass]
  | [_, _] => simp [classLikeAt?, StartsClass]
  | word :: space :: name :: _ =>
    simp only [classLikeAt?, List.map_cons, StartsClass, Token.shape]
    cases hkind : ClassKind.ofToken? word.kind with
    | none => simp
    | some kind =>
      by_cases hrest : space.kind = .whitespace ∧ name.kind = .identifier
      · simp [hrest]
      · simp [hrest]

theorem firstClassLike?_eq_none_iff {tokens : List Token} :
    firstClassLike? tokens = none ↔ Classless (tokens.map Token.shape) := by
  induction tokens with
  | nil =>
    refine ⟨fun _ A B hAB => ?_, fun _ => rfl⟩
    obtain ⟨rfl, rfl⟩ := List.append_eq_nil_iff.1 hAB.symm
    simp [StartsClass]
  | cons token tokens ih =>
    rw [firstClassLike?]
    constructor
    · intro h
      split at h
      · cases h
      · rename_i hat
        intro A B hAB
        cases A with
        | nil =>
          rw [← show List.map Token.shape (token :: tokens) = B from hAB]
          exact classLikeAt?_eq_none_iff.1 hat
        | cons x A => exact ih.1 h A B (List.cons.inj hAB).2
    · intro h
      rw [classLikeAt?_eq_none_iff.2 (h [] _ rfl)]
      exact ih.2 h.tail

theorem classLikeAt?_eq_none {token : Token} {before : List Token} {word space name : Token}
    {behind : List Token} (h : Classless ((token :: before ++ [word, space]).map Token.shape)) :
    classLikeAt? (token :: before ++ word :: space :: name :: behind) = none := by
  refine classLikeAt?_eq_none_iff.2 fun hstarts => h [] _ rfl ?_
  match before, hstarts with
  | [], hstarts => exact hstarts
  | [_], hstarts => exact hstarts
  | _ :: _ :: _, hstarts => exact hstarts

theorem firstClassLike?_append {before : List Token} {word space name : Token} {behind : List Token}
    (h : Classless ((before ++ [word, space]).map Token.shape)) {kind : ClassKind}
    (hword : ClassKind.ofToken? word.kind = some kind) (hspace : space.kind = .whitespace)
    (hname : name.kind = .identifier) :
    firstClassLike? (before ++ word :: space :: name :: behind) = some ⟨kind, name.text⟩ := by
  induction before with
  | nil => simp [firstClassLike?, classLikeAt?, hword, hspace, hname]
  | cons token before ih =>
    have hat := @classLikeAt?_eq_none _ _ _ _ name behind h
    rw [List.cons_append] at hat ⊢
    rw [firstClassLike?, hat]
    exact ih h.tail

theorem firstClassLike?_of_shapes {tokens : List Token} {A B : List Shape} {word space name : Shape}
    (htokens : tokens.map Token.shape = A ++ word :: space :: name :: B) (h : Classless (A ++ [word, space]))
    {kind : ClassKind} (hword : ClassKind.ofToken? word.kind = some kind) (hspace : space.kind = .whitespace)
    (hname : name.kind = .identifier) : firstClassLike? tokens = some ⟨kind, name.text⟩ := by
  obtain ⟨before, rest₁, rfl, rfl, h₁⟩ := List.map_eq_append_iff.1 htokens
  obtain ⟨word, rest₂, rfl, rfl, h₂⟩ := List.map_eq_cons_iff.1 h₁
  obtain ⟨space, rest₃, rfl, rfl, h₃⟩ := List.map_eq_cons_iff.1 h₂
  obtain ⟨name, behind, rfl, rfl, -⟩ := List.map_eq_cons_iff.1 h₃
  exact firstClassLike?_append (by simpa using h) hword hspace hname

end Outline

/-- Behind each keyword of a class stands a token that is no white space. -/
def Unspaced : List Shape → Prop
  | [] => True
  | x :: A =>
    ((ClassKind.ofToken? x.kind).isSome = true → ∃ y ∈ A.head?, y.kind ≠ .whitespace) ∧ Unspaced A

namespace Unspaced

variable {A B : List Shape} {x y : Shape}

theorem behind (h : Unspaced (A ++ x :: B)) (hx : (ClassKind.ofToken? x.kind).isSome = true) :
    ∃ y B', B = y :: B' ∧ y.kind ≠ .whitespace := by
  induction A with
  | nil =>
    obtain ⟨y, hy, hspace⟩ := h.1 hx
    obtain ⟨B', rfl⟩ := List.head?_eq_some_iff.1 hy
    exact ⟨y, B', rfl, hspace⟩
  | cons z A ih => exact ih h.2

theorem cons (hx : ClassKind.ofToken? x.kind = none) (h : Unspaced A) : Unspaced (x :: A) :=
  ⟨fun hsome => by simp [hx] at hsome, h⟩

theorem cons_cons (hy : y.kind ≠ .whitespace) (h : Unspaced (y :: A)) : Unspaced (x :: y :: A) :=
  ⟨fun _ => ⟨y, rfl, hy⟩, h⟩

theorem of_kinds (h : ∀ x ∈ A, ClassKind.ofToken? x.kind = none) : Unspaced A := by
  induction A with
  | nil => exact trivial
  | cons x A ih => exact .cons (h x List.mem_cons_self) (ih fun y hy => h y (List.mem_cons_of_mem _ hy))

theorem of_name {v : Text} (h : QualifiedName v A) (hy : y.kind ≠ .whitespace) (hB : Unspaced (y :: B)) :
    Unspaced (A ++ y :: B) := by
  induction h with
  | word => exact .cons_cons hy hB
  | cons _ _ ih => exact .cons_cons (by decide) (.cons rfl ih)

theorem of_qualifier {z : Text} {Z : List Shape} (h : QualifierShapes z Z) (n : Text) :
    Unspaced (Z ++ [⟨.identifier, n⟩]) := by
  have hlast : Unspaced [⟨.identifier, n⟩] := .cons rfl trivial
  cases h with
  | global => exact .cons rfl hlast
  | root h =>
    have hname : Unspaced (_ ++ backslash :: [⟨.identifier, n⟩]) := .of_name h (by decide) (.cons rfl hlast)
    simpa using hname.cons (x := backslash) rfl
  | container h =>
    have hname : Unspaced (_ ++ colon :: colon :: [⟨.identifier, n⟩]) :=
      .of_name h (by decide) (.cons rfl (.cons rfl hlast))
    simpa using hname.cons (x := backslash) rfl

end Unspaced

/-- A change of tokens that puts no white space behind a keyword of a class. -/
structure Classifies (P : Shape → List Shape → Prop) : Prop where
  ne_nil : ∀ x ys, P x ys → ys ≠ []
  space : ∀ x y ys, P x (y :: ys) → y.kind = .whitespace → x.kind = .whitespace ∧ ys = []
  name : ∀ x y ys, P x (y :: ys) → y.kind = .identifier → x.kind = .identifier
  word : ∀ x ys, P x ys → ys = [x] ∨ Unspaced ys

theorem Expands.exists_head {P : Shape → List Shape → Prop} (hne : ∀ x ys, P x ys → ys ≠ [])
    {A B : List Shape} {y : Shape}
    (h : Expands P A (y :: B)) : ∃ x A' ys B', A = x :: A' ∧ B = ys ++ B' ∧ P x (y :: ys) ∧ Expands P A' B' := by
  generalize hC : y :: B = C at h
  cases h with
  | nil => cases hC
  | @cons x ys shapes shapes' hx rest =>
    obtain ⟨y', ys, rfl⟩ := List.exists_cons_of_ne_nil (hne _ _ hx)
    obtain ⟨rfl, rfl⟩ := List.cons.inj hC
    exact ⟨x, shapes, ys, shapes', rfl, rfl, hx, rest⟩

theorem Classless.expands {P : Shape → List Shape → Prop} (hP : Classifies P) {A B : List Shape}
    (hA : Classless A) (h : Expands P A B) : Classless B := by
  rintro U V rfl hstarts
  match V, hstarts with
  | word :: space :: name :: V, ⟨hword, hspace, hname⟩ =>
    obtain ⟨A₁, x, A₂, U₁, ys, zs, V₁, rfl, rfl, hV, -, hx, h₂⟩ := h.exists_origin
    rcases hP.word _ _ hx with hone | hunspaced
    · obtain ⟨rfl, hone⟩ | ⟨-, hnil⟩ := List.append_eq_singleton_iff.1 hone
      · obtain ⟨rfl, rfl⟩ := List.cons.inj hone
        rw [List.nil_append] at hV
        rw [← hV] at h₂
        obtain ⟨x₂, A₃, ys₂, V₂, rfl, hV₂, hx₂, h₃⟩ := h₂.exists_head hP.ne_nil
        obtain ⟨hspace', rfl⟩ := hP.space _ _ _ hx₂ hspace
        rw [List.nil_append] at hV₂
        rw [← hV₂] at h₃
        obtain ⟨x₃, A₄, ys₃, V₃, rfl, -, hx₃, -⟩ := h₃.exists_head hP.ne_nil
        exact hA A₁ _ rfl ⟨hword, hspace', hP.name _ _ _ hx₃ hname⟩
      · cases hnil
    · obtain ⟨z, zs', rfl, hz⟩ := hunspaced.behind hword
      obtain ⟨rfl, -⟩ := List.cons.inj hV
      exact hz hspace

theorem ClassKind.ofToken?_eq_none_of_isLoose {kind : TokenKind} (h : kind.isLoose = true) :
    ofToken? kind = none := by
  cases kind <;> first | rfl | cases h

theorem ClassKind.ofToken?_eq_none_of_isTag {kind : TokenKind} (h : kind.isTag = true) :
    ofToken? kind = none := by
  cases kind <;> first | rfl | cases h

theorem RenamesIf.ne_nil {declares : Prop} {ns : Namespace} {symbols : List Symbols} {x : Shape} {ys : List Shape}
    (h : RenamesIf declares ns symbols x ys) : ys ≠ [] := by
  cases h <;> simp

theorem classifies_renames (ns : Namespace) {symbols : List Symbols}
    (hclasses : ¬ ∃ c names, .functions c names ∈ symbols) : Classifies (Renames ns symbols) where
  ne_nil x ys h := h.ne_nil
  space x y ys h hy := by
    generalize hC : y :: ys = C at h
    cases h with
    | keep =>
      obtain ⟨rfl, rfl⟩ := List.cons.inj hC
      exact ⟨hy, rfl⟩
    | loose _ hspace =>
      obtain ⟨rfl, rfl⟩ := List.cons.inj hC
      exact absurd hy hspace
    | name _ _ hZ =>
      obtain ⟨Y, rfl⟩ := hZ.exists_cons
      obtain ⟨rfl, -⟩ := List.cons.inj hC
      cases hy
    | number =>
      obtain ⟨rfl, -⟩ := List.cons.inj hC
      cases hy
    | static hfun => exact absurd hfun hclasses
    | split hfun => exact absurd hfun hclasses
  name x y ys h hy := by
    generalize hC : y :: ys = C at h
    cases h with
    | keep =>
      obtain ⟨rfl, -⟩ := List.cons.inj hC
      exact hy
    | loose =>
      obtain ⟨rfl, -⟩ := List.cons.inj hC
      exact hy
    | name _ _ hZ =>
      obtain ⟨Y, rfl⟩ := hZ.exists_cons
      obtain ⟨rfl, -⟩ := List.cons.inj hC
      cases hy
    | number =>
      obtain ⟨rfl, -⟩ := List.cons.inj hC
      cases hy
    | static hfun => exact absurd hfun hclasses
    | split hfun => exact absurd hfun hclasses
  word x ys h := by
    cases h with
    | keep => exact Or.inl rfl
    | loose hkind => exact Or.inr (.cons (ClassKind.ofToken?_eq_none_of_isLoose hkind) trivial)
    | name _ _ hZ => exact Or.inr (.of_qualifier hZ _)
    | number _ _ hZ => exact Or.inr (.cons rfl (.of_qualifier hZ _))
    | static hfun => exact absurd hfun hclasses
    | split hfun => exact absurd hfun hclasses

theorem classifies_respaces {name : Text} {A : List Shape} (hname : QualifiedName name A) (f : Text → Text) :
    Classifies (Respaces (Layout.namespaceShapes A) f) where
  ne_nil x ys h := h.ne_nil
  space x y ys h hy := by
    generalize hC : y :: ys = C at h
    cases h with
    | solid =>
      obtain ⟨rfl, rfl⟩ := List.cons.inj hC
      exact ⟨hy, rfl⟩
    | loose =>
      obtain ⟨rfl, rfl⟩ := List.cons.inj hC
      exact ⟨hy, rfl⟩
    | tag hkind =>
      obtain ⟨rfl, -⟩ := List.cons.inj hC
      cases hy
      cases hkind
  name x y ys h hy := by
    generalize hC : y :: ys = C at h
    cases h with
    | solid =>
      obtain ⟨rfl, -⟩ := List.cons.inj hC
      exact hy
    | loose =>
      obtain ⟨rfl, -⟩ := List.cons.inj hC
      exact hy
    | tag hkind =>
      obtain ⟨rfl, -⟩ := List.cons.inj hC
      cases hy
      cases hkind
  word x ys h := by
    cases h with
    | solid => exact Or.inl rfl
    | loose hkind => exact Or.inr (.cons (ClassKind.ofToken?_eq_none_of_isLoose hkind) trivial)
    | @tag kind w w' gap hkind _ hgap =>
      have hspaces : Unspaced gap := .of_kinds fun y hy =>
        ClassKind.ofToken?_eq_none_of_isLoose (TokenKind.isLoose_of_isGap (Shape.isGap_kind (hgap y hy)))
      refine Or.inr (.cons (ClassKind.ofToken?_eq_none_of_isTag hkind) ?_)
      cases Shape.isEntry ⟨kind, w⟩ with
      | false => exact hspaces
      | true =>
        have hend : Unspaced (A ++ ⟨.punct, [';']⟩ :: gap) := .of_name hname (by decide) (.cons rfl hspaces)
        have hblank : Unspaced (⟨.whitespace, [' ']⟩ :: (A ++ ⟨.punct, [';']⟩ :: gap)) := .cons rfl hend
        have hword := hblank.cons (x := ⟨.identifier, "namespace".toList⟩) rfl
        simpa [Layout.namespaceShapes] using hword.cons (x := ⟨.whitespace, ['\n']⟩) rfl

end Namespacing
