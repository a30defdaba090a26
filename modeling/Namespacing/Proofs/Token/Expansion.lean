import Namespacing.Proofs.Token.Forms
import Namespacing.Layout
set_option autoImplicit false

/-!
# Tokens that become several tokens

What a change of a file's text does to its tokens is said token by token: each token becomes a few
tokens, mostly itself. A change of the space between tokens is one of the changes that are said in this
way. The braces of a file and the places where code starts are read off such a description.
-/

namespace Namespacing

open Lexeme

/-- The lists of tokens that come out when every token becomes a list of tokens. -/
inductive Expands (P : Shape → List Shape → Prop) : List Shape → List Shape → Prop where
  | nil : Expands P [] []
  | cons {x : Shape} {ys shapes shapes' : List Shape} (h : P x ys) (rest : Expands P shapes shapes') :
      Expands P (x :: shapes) (ys ++ shapes')

def Lone (P : Shape → List Shape → Prop) (y : Shape) : Prop :=
  ∀ x ys zs, P x (ys ++ y :: zs) → x = y ∧ ys = [] ∧ zs = []

namespace Expands

variable {P : Shape → List Shape → Prop}

theorem one {x y : Shape} {A B : List Shape} (h : P x [y]) (rest : Expands P A B) :
    Expands P (x :: A) (y :: B) :=
  .cons h rest

theorem append {A A' B B' : List Shape} (hA : Expands P A A') (hB : Expands P B B') :
    Expands P (A ++ B) (A' ++ B') := by
  induction hA with
  | nil => exact hB
  | cons h _ ih =>
    rw [List.append_assoc]
    exact .cons h ih

theorem exists_of_append {A B C : List Shape} (h : Expands P (A ++ B) C) :
    ∃ A' B', C = A' ++ B' ∧ Expands P A A' ∧ Expands P B B' := by
  induction A generalizing C with
  | nil => exact ⟨[], C, rfl, .nil, h⟩
  | cons x A ih =>
    cases h with
    | cons hx rest =>
      obtain ⟨A', B', rfl, hA, hB⟩ := ih rest
      exact ⟨_ ++ A', B', by rw [List.append_assoc], .cons hx hA, hB⟩

theorem exists_of_cons {x : Shape} {A B C : List Shape} (h : Expands P (A ++ x :: B) C) :
    ∃ A' ys B', C = A' ++ (ys ++ B') ∧ Expands P A A' ∧ P x ys ∧ Expands P B B' := by
  obtain ⟨A', R, rfl, hA, hR⟩ := h.exists_of_append
  cases hR with
  | cons hx hB => exact ⟨A', _, _, rfl, hA, hx, hB⟩

/-- Where a token of the result comes from. -/
theorem exists_origin {shapes A' B' : List Shape} {y : Shape}
    (h : Expands P shapes (A' ++ y :: B')) :
    ∃ A x B A₁ ys zs B₁, shapes = A ++ x :: B ∧ A' = A₁ ++ ys ∧ B' = zs ++ B₁ ∧
      Expands P A A₁ ∧ P x (ys ++ y :: zs) ∧ Expands P B B₁ := by
  generalize hC : A' ++ y :: B' = C at h
  induction h generalizing A' with
  | nil => simp at hC
  | @cons x ys shapes shapes' hx rest ih =>
    rcases List.append_eq_append_iff.1 hC with ⟨D, rfl, hD⟩ | ⟨D, rfl, hD⟩
    · cases D with
      | nil =>
        obtain ⟨A, x', B, A₁, us, zs, B₁, rfl, hA', rfl, hA, hx', hB⟩ := @ih [] (by simpa using hD)
        obtain ⟨rfl, rfl⟩ := List.append_eq_nil_iff.1 hA'.symm
        refine ⟨x :: A, x', B, A' ++ [] ++ [], [], zs, B₁, rfl, by simp, rfl, .cons hx hA, hx', hB⟩
      | cons y' D =>
        obtain ⟨rfl, rfl⟩ := List.cons.inj hD
        exact ⟨[], x, shapes, [], A', D, shapes', rfl, rfl, rfl, .nil, hx, rest⟩
    · obtain ⟨A, x', B, A₁, us, zs, B₁, rfl, rfl, rfl, hA, hx', hB⟩ := ih hD.symm
      exact ⟨x :: A, x', B, ys ++ A₁, us, zs, B₁, rfl, by rw [List.append_assoc], rfl, .cons hx hA, hx',
        hB⟩

theorem flatMap_eq {α : Type} {f g : Shape → List α} (h : ∀ x ys, P x ys → ys.flatMap g = f x)
    {A B : List Shape} (hAB : Expands P A B) : B.flatMap g = A.flatMap f := by
  induction hAB with
  | nil => rfl
  | cons hx _ ih => rw [List.flatMap_append, ih, List.flatMap_cons, h _ _ hx]

theorem eq_nil (hne : ∀ x ys, P x ys → ys ≠ []) {A : List Shape} (h : Expands P A []) : A = [] := by
  generalize hC : ([] : List Shape) = C at h
  cases h with
  | nil => rfl
  | cons hx _ => exact absurd (List.append_eq_nil_iff.1 hC.symm).1 (hne _ _ hx)

/-- Tokens in a row that come from themselves were in a row before. -/
theorem exists_lone (hne : ∀ x ys, P x ys → ys ≠ [])
    {y : Shape} {W A B C : List Shape} (hW : ∀ z ∈ y :: W, Lone P z)
    (h : Expands P A (B ++ y :: W ++ C)) :
    ∃ A₁ A₂, A = A₁ ++ y :: W ++ A₂ ∧ Expands P A₁ B ∧ Expands P A₂ C := by
  induction W generalizing y A B with
  | nil =>
    rw [List.append_assoc] at h
    obtain ⟨A₁, x, A₂, B₁, ys, zs, C₁, rfl, rfl, rfl, h₁, hx, h₂⟩ := h.exists_origin
    obtain ⟨rfl, rfl, rfl⟩ := hW y (by simp) _ _ _ hx
    exact ⟨A₁, A₂, by simp, by simpa using h₁, h₂⟩
  | cons z W ih =>
    rw [List.append_assoc] at h
    obtain ⟨A₁, x, A₂, B₁, ys, zs, C₁, rfl, rfl, hC, h₁, hx, h₂⟩ := h.exists_origin
    obtain ⟨rfl, rfl, rfl⟩ := hW y (by simp) _ _ _ hx
    rw [List.nil_append] at hC
    rw [← hC] at h₂
    obtain ⟨D₁, D₂, rfl, hD₁, hD₂⟩ := ih (B := []) (fun w hw => hW w (List.mem_cons_of_mem _ hw)) h₂
    obtain rfl := hD₁.eq_nil hne
    exact ⟨A₁, D₂, by simp, by simpa using h₁, hD₂⟩

end Expands

namespace TokenKind

def isTag : TokenKind → Bool
  | .openTag | .closeTag => true
  | _ => false

def isLoose : TokenKind → Bool
  | .inlineHtml | .whitespace | .comment | .docComment | .attribute | .string | .heredoc => true
  | _ => false

def isGap : TokenKind → Bool
  | .inlineHtml | .whitespace => true
  | _ => false

end TokenKind

theorem isLoose_blockKind (u : Text) : (blockKind u).isLoose = true := by
  unfold blockKind
  split <;> rfl

theorem isTag_blockKind (u : Text) : (blockKind u).isTag = false := by
  unfold blockKind
  split <;> rfl

theorem isLoose_wordKind (w : Text) : (wordKind w).isLoose = false := by
  unfold wordKind
  split <;> rfl

theorem isTag_wordKind (w : Text) : (wordKind w).isTag = false := by
  unfold wordKind
  split <;> rfl

theorem CodeForm.isTag_eq {kind : TokenKind} {w r : Text} (h : CodeForm kind w r)
    (hclose : kind ≠ .closeTag) : kind.isTag = false := by
  cases h with
  | closeTag => exact absurd rfl hclose
  | block hkind => rw [hkind, isTag_blockKind]
  | word hkind => rw [hkind, isTag_wordKind]
  | _ => rfl

theorem Mode.after_of_not_tag {mode : Mode} {kind : TokenKind} (h : kind.isTag = false) :
    mode.after kind = mode := by
  cases kind <;> first | rfl | cases h

theorem Cuts.code_cons {kind : TokenKind} {w r : Text} {shapes : List Shape} (h : CodeForm kind w r)
    (htag : kind.isTag = false) (rest : Cuts .code r shapes) :
    Cuts .code (w ++ r) (⟨kind, w⟩ :: shapes) :=
  .ofCode h (by rwa [Mode.after_of_not_tag htag])

theorem Cuts.mark {c : Char} {r : Text} {shapes : List Shape} (hc : isMark c = true)
    (rest : Cuts .code r shapes) : Cuts .code (c :: r) (⟨.punct, [c]⟩ :: shapes) :=
  Cuts.code_cons (w := [c]) (.single (.mark hc)) rfl rest

theorem CodeForm.space_inv {w r : Text} (h : CodeForm .whitespace w r) :
    w ≠ [] ∧ (∀ c ∈ w, isSpace c = true) ∧ r.head?.any isSpace = false := by
  generalize hkind : TokenKind.whitespace = kind at h
  cases h with
  | space hne hw hr => exact ⟨hne, hw, hr⟩
  | block hblock =>
    rw [hblock, blockKind] at hkind
    split at hkind <;> cases hkind
  | word hword =>
    rw [hword, wordKind] at hkind
    split at hkind <;> cases hkind
  | _ => cases hkind

theorem CodeForm.closeTag_inv {w r : Text} (h : CodeForm .closeTag w r) :
    ∃ u, w = '?' :: '>' :: u ∧ swallowedNewline (u ++ r) = u.length := by
  generalize hkind : TokenKind.closeTag = kind at h
  cases h with
  | closeTag h => exact ⟨_, rfl, h⟩
  | block hblock =>
    rw [hblock, blockKind] at hkind
    split at hkind <;> cases hkind
  | word hword =>
    rw [hword, wordKind] at hkind
    split at hkind <;> cases hkind
  | _ => cases hkind

theorem CodeForm.identifier_inv {w r : Text} (h : CodeForm .identifier w r) :
    Text.isIdentifier w = true ∧ Keyword.ofWord? w = none ∧ r.head?.any Text.isWordChar = false := by
  generalize hkind : TokenKind.identifier = kind at h
  cases h with
  | block hblock =>
    rw [hblock, blockKind] at hkind
    split at hkind <;> cases hkind
  | word hword hw hr =>
    refine ⟨hw, ?_, hr⟩
    rw [hword, wordKind] at hkind
    cases hkeyword : Keyword.ofWord? w with
    | none => rfl
    | some k =>
      rw [hkeyword] at hkind
      cases hkind
  | _ => cases hkind

theorem Cuts.identifier_inv {mode : Mode} {n t : Text} {R : List Shape}
    (h : Cuts mode t (⟨.identifier, n⟩ :: R)) : mode = .code ∧ ∃ r, t = n ++ r ∧ Text.isIdentifier n = true ∧
      Keyword.ofWord? n = none ∧ r.head?.any Text.isWordChar = false ∧ Cuts .code r R := by
  cases h with
  | @cons _ _ _ r _ hform rest =>
    cases mode with
    | html =>
      have hform : HtmlForm .identifier n r := hform
      cases hform
    | code =>
      obtain ⟨hn, hkeyword, hr⟩ := CodeForm.identifier_inv hform
      exact ⟨rfl, r, rfl, hn, hkeyword, hr, rest⟩

namespace Shape

def isEntry (x : Shape) : Bool :=
  x.kind == .openTag && Text.startsWith Layout.openTag x.text

def isLined (x : Shape) : Bool :=
  x.kind == .inlineHtml || x.kind == .heredoc ||
    x.kind == .comment && !Text.startsWith "/*".toList x.text

def isStray (x : Shape) : Bool :=
  x.isLined && Text.contains Layout.openTag x.text

def isGap (x : Shape) : Bool :=
  x.kind.isGap && !x.isStray

def brace? (x : Shape) : Option Bool :=
  if x.kind = .punct then
    if x.text = ['\x7b'] then some true else if x.text = ['\x7d'] then some false else none
  else none

end Shape

/-- Space may change, and space may come in behind a tag. Behind an open tag come declarations. What
becomes of a string is said by `f`. -/
inductive Respaces (header : List Shape) (f : Text → Text) : Shape → List Shape → Prop where
  | solid {x : Shape} (hloose : x.kind.isLoose = false) (htag : x.kind.isTag = false) :
      Respaces header f x [x]
  | loose {kind : TokenKind} {w w' : Text} (hkind : kind.isLoose = true)
      (hstray : Shape.isStray ⟨kind, w'⟩ = true → Shape.isStray ⟨kind, w⟩ = true)
      (hstring : kind = .string → w' = f w) :
      Respaces header f ⟨kind, w⟩ [⟨kind, w'⟩]
  | tag {kind : TokenKind} {w w' : Text} {gap : List Shape} (hkind : kind.isTag = true)
      (hentry : Shape.isEntry ⟨kind, w'⟩ = Shape.isEntry ⟨kind, w⟩) (hgap : ∀ x ∈ gap, x.isGap = true) :
      Respaces header f ⟨kind, w⟩
        (⟨kind, w'⟩ :: ((if Shape.isEntry ⟨kind, w⟩ then header else []) ++ gap))

namespace Respaces

variable {header : List Shape} {f : Text → Text} {x : Shape} {ys : List Shape}

theorem ne_nil (h : Respaces header f x ys) : ys ≠ [] := by
  cases h <;> simp

theorem refl (x : Shape) : Respaces [] id x [x] := by
  cases hloose : x.kind.isLoose with
  | true => exact .loose hloose id fun _ => rfl
  | false =>
    cases htag : x.kind.isTag with
    | false => exact .solid hloose htag
    | true =>
      have := @Respaces.tag [] id x.kind x.text x.text [] htag rfl (by simp)
      simpa using this

/-- The space in front may be changed once more. -/
theorem retext {kind : TokenKind} {w w' : Text} (h : Respaces header f x (⟨kind, w⟩ :: ys))
    (hkind : kind.isGap = true)
    (hstray : Shape.isStray ⟨kind, w'⟩ = true → Shape.isStray ⟨kind, w⟩ = true) :
    Respaces header f x (⟨kind, w'⟩ :: ys) := by
  generalize hC : (⟨kind, w⟩ : Shape) :: ys = C at h
  cases h with
  | solid hloose htag =>
    obtain ⟨rfl, -⟩ := List.cons.inj hC
    cases kind <;> simp_all [TokenKind.isGap, TokenKind.isLoose]
  | loose hkind' hstray' hstring =>
    obtain ⟨heq, rfl⟩ := List.cons.inj hC
    obtain ⟨rfl, rfl⟩ := Shape.mk.inj heq
    refine .loose hkind' (hstray' ∘ hstray) ?_
    rintro rfl
    cases hkind
  | tag hkind' hentry hgap =>
    obtain ⟨heq, -⟩ := List.cons.inj hC
    obtain ⟨rfl, rfl⟩ := Shape.mk.inj heq
    cases kind <;> simp_all [TokenKind.isGap, TokenKind.isTag]

end Respaces

theorem Expands.retext {header : List Shape} {f : Text → Text} {kind : TokenKind} {w w' : Text} {A B : List Shape}
    (h : Expands (Respaces header f) A (⟨kind, w⟩ :: B)) (hkind : kind.isGap = true)
    (hstray : Shape.isStray ⟨kind, w'⟩ = true → Shape.isStray ⟨kind, w⟩ = true) :
    Expands (Respaces header f) A (⟨kind, w'⟩ :: B) := by
  generalize hC : (⟨kind, w⟩ : Shape) :: B = C at h
  cases h with
  | nil => cases hC
  | @cons x ys shapes shapes' hx rest =>
    obtain ⟨y, ys, rfl⟩ := List.exists_cons_of_ne_nil hx.ne_nil
    obtain ⟨rfl, rfl⟩ := List.cons.inj hC
    exact .cons (hx.retext hkind hstray) rest

section

variable {header : List Shape} {f g : Text → Text} {x y : Shape} {ys zs A B C : List Shape}

theorem Shape.isGap_kind (h : x.isGap = true) : x.kind.isGap = true := by
  simp only [Shape.isGap, Bool.and_eq_true] at h
  exact h.1

theorem Shape.isStray_of_isGap (h : x.isGap = true) : x.isStray = false := by
  simp only [Shape.isGap, Bool.and_eq_true, Bool.not_eq_true'] at h
  exact h.2

theorem TokenKind.isLoose_of_isTag {kind : TokenKind} (h : kind.isTag = true) : kind.isLoose = false := by
  cases kind <;> first | rfl | cases h

theorem TokenKind.isLoose_of_isGap {kind : TokenKind} (h : kind.isGap = true) : kind.isLoose = true := by
  cases kind <;> first | rfl | cases h

theorem Respaces.eq_of_solid (h : Respaces header f x ys) (hloose : x.kind.isLoose = false)
    (htag : x.kind.isTag = false) : ys = [x] := by
  cases h with
  | solid => rfl
  | loose hkind =>
    rw [hkind] at hloose
    cases hloose
  | tag hkind =>
    rw [hkind] at htag
    cases htag

theorem Respaces.exists_of_loose (h : Respaces header f x ys) (hloose : x.kind.isLoose = true) :
    ∃ w, ys = [⟨x.kind, w⟩] := by
  cases h with
  | solid hkind =>
    rw [hloose] at hkind
    cases hkind
  | loose => exact ⟨_, rfl⟩
  | tag hkind =>
    rw [TokenKind.isLoose_of_isTag hkind] at hloose
    cases hloose

theorem Shape.kind_of_isEntry (h : x.isEntry = true) : x.kind = .openTag := by
  simp only [Shape.isEntry, Bool.and_eq_true, beq_iff_eq] at h
  exact h.1

theorem Respaces.exists_of_isEntry (h : Respaces header f x ys) (hentry : x.isEntry = true) :
    ∃ w gap, ys = ⟨.openTag, w⟩ :: (header ++ gap) ∧ ∀ y ∈ gap, y.isGap = true := by
  have hkind := Shape.kind_of_isEntry hentry
  cases h with
  | solid _ htag =>
    rw [hkind] at htag
    cases htag
  | loose hloose =>
    obtain rfl := hkind
    cases hloose
  | tag _ _ hgap =>
    obtain rfl := hkind
    rw [if_pos hentry]
    exact ⟨_, _, rfl, hgap⟩

theorem Expands.isGap_of_respaces (h : Expands (Respaces header f) A B) (hA : ∀ x ∈ A, x.isGap = true) :
    ∀ x ∈ B, x.isGap = true := by
  induction h with
  | nil => exact hA
  | @cons x ys shapes shapes' hx rest ih =>
    have hgap := hA x List.mem_cons_self
    have hrest := ih fun y hy => hA y (List.mem_cons_of_mem _ hy)
    have hkind := Shape.isGap_kind hgap
    intro y hy
    rcases List.mem_append.1 hy with hy | hy
    · cases hx with
      | solid hloose _ =>
        rw [TokenKind.isLoose_of_isGap hkind] at hloose
        cases hloose
      | @loose kind w w' _ hstray _ =>
        rw [List.mem_singleton.1 hy, Shape.isGap, hkind]
        have := Shape.isStray_of_isGap hgap
        cases h : Shape.isStray ⟨kind, w'⟩ with
        | false => rfl
        | true =>
          rw [hstray h] at this
          cases this
      | tag htag =>
        have := TokenKind.isLoose_of_isGap hkind
        rw [TokenKind.isLoose_of_isTag htag] at this
        cases this
    · exact hrest y hy

theorem Respaces.trans (h : Respaces [] f x ys) (h' : Expands (Respaces header g) ys zs) :
    Respaces header (g ∘ f) x zs := by
  cases h with
  | solid hloose htag =>
    cases h' with
    | cons hx rest =>
      cases rest
      rw [List.append_nil, hx.eq_of_solid hloose htag]
      exact .solid hloose htag
  | @loose kind w w' hkind hstray hstring =>
    cases h' with
    | cons hx rest =>
      cases rest
      rw [List.append_nil]
      cases hx with
      | solid hloose _ =>
        rw [hkind] at hloose
        cases hloose
      | loose _ hstray' hstring' =>
        refine .loose hkind (hstray ∘ hstray') fun h => ?_
        rw [hstring' h, hstring h, Function.comp_apply]
      | tag htag =>
        rw [TokenKind.isLoose_of_isTag htag] at hkind
        cases hkind
  | @tag kind w w' gap hkind hentry hgap =>
    rw [ite_self, List.nil_append] at h'
    cases h' with
    | cons hx rest =>
      have hrest := rest.isGap_of_respaces hgap
      cases hx with
      | solid _ htag =>
        rw [hkind] at htag
        cases htag
      | loose hloose =>
        rw [TokenKind.isLoose_of_isTag hkind] at hloose
        cases hloose
      | tag _ hentry' hgap' =>
        rw [List.cons_append, List.append_assoc, hentry]
        refine .tag hkind (hentry'.trans hentry) fun y hy => ?_
        exact (List.mem_append.1 hy).elim (hgap' y) (hrest y)

theorem Expands.trans_respaces (h : Expands (Respaces [] f) A B) (h' : Expands (Respaces header g) B C) :
    Expands (Respaces header (g ∘ f)) A C := by
  induction h generalizing C with
  | nil =>
    cases h'
    exact .nil
  | cons hx _ ih =>
    obtain ⟨C₁, C₂, rfl, h₁, h₂⟩ := h'.exists_of_append
    exact .cons (hx.trans h₁) (ih h₂)

theorem Respaces.lone (hloose : y.kind.isLoose = false) (htag : y.kind.isTag = false) :
    Lone (Respaces [] f) y := by
  intro x ys zs h
  generalize hC : ys ++ y :: zs = C at h
  cases h with
  | solid =>
    rcases List.append_eq_singleton_iff.1 hC with ⟨rfl, h⟩ | ⟨-, h⟩
    · obtain ⟨rfl, rfl⟩ := List.cons.inj h
      exact ⟨rfl, rfl, rfl⟩
    · cases h
  | loose hkind =>
    rcases List.append_eq_singleton_iff.1 hC with ⟨rfl, h⟩ | ⟨-, h⟩
    · obtain ⟨rfl, rfl⟩ := List.cons.inj h
      rw [hkind] at hloose
      cases hloose
    · cases h
  | tag hkind _ hgap =>
    have hmem : y ∈ ys ++ y :: zs := by simp
    rw [hC, ite_self, List.nil_append] at hmem
    rcases List.mem_cons.1 hmem with rfl | hmem
    · rw [hkind] at htag
      cases htag
    · rw [TokenKind.isLoose_of_isGap (Shape.isGap_kind (hgap y hmem))] at hloose
      cases hloose

end

section

variable {header : List Shape} {f : Text → Text} {t : Text} {A B : List Shape}

theorem Cuts.spaces (h : Cuts .code t B) {p : Text} (hp : ∀ c ∈ p, isSpace c = true)
    (hA : Expands (Respaces header f) A B) :
    ∃ gap B', Cuts .code (p ++ t) (gap ++ B') ∧ (∀ x ∈ gap, x.isGap = true) ∧
      Expands (Respaces header f) A B' := by
  by_cases hnil : p = []
  · subst hnil
    exact ⟨[], B, h, by simp, hA⟩
  by_cases ht : t.head?.any isSpace = true
  · cases h with
    | nil => cases ht
    | @cons _ kind w r shapes hform rest =>
      obtain ⟨u, v, huv, hu, hall, hv⟩ := takeWhile_split isSpace (w ++ r)
      have hne : u ≠ [] := by
        rintro rfl
        rw [huv, List.nil_append, hv] at ht
        cases ht
      obtain ⟨rfl, rfl, rfl⟩ := Mode.Form.unique hform (CodeForm.space hne hall hv) huv
      refine ⟨[], ⟨.whitespace, p ++ w⟩ :: shapes, ?_, by simp, hA.retext rfl (fun h => h)⟩
      rw [← List.append_assoc]
      refine .cons (.space (by simp [hnil]) (fun c hc => ?_) hv) rest
      exact (List.mem_append.1 hc).elim (hp c) (hall c)
  · refine ⟨[⟨.whitespace, p⟩], B, .cons (.space hnil hp (by simpa using ht)) h, ?_, hA⟩
    exact fun x hx => by rw [List.mem_singleton.1 hx]; rfl

theorem htmlLength_blanks {p : Text} (hp : ∀ c ∈ p, c = ' ') (t : Text) :
    htmlLength (p ++ t) = p.length + htmlLength t := by
  induction p with
  | nil => simp
  | cons c p ih =>
    have hc : c ≠ '<' := by
      rw [hp c List.mem_cons_self]
      decide
    have hnone : openTagLength? (c :: (p ++ t)) = none :=
      openTagLength?_eq_none fun after heq => hc (List.cons.inj heq).1
    rw [List.cons_append, htmlLength, hnone, ih fun d hd => hp d (List.mem_cons_of_mem _ hd)]
    simp only [Option.isSome_none, Bool.false_eq_true, if_false, List.length_cons]
    omega

theorem contains_openTag_blanks {p : Text} (hp : ∀ c ∈ p, c = ' ') (t : Text) :
    Text.contains Layout.openTag (p ++ t) = Text.contains Layout.openTag t := by
  induction p with
  | nil => rfl
  | cons c p ih =>
    have hc : ¬ Text.startsWith Layout.openTag (c :: (p ++ t)) = true := by
      rw [hp c List.mem_cons_self]
      simp [Layout.openTag, Text.startsWith]
    rw [List.cons_append, Text.contains, ih fun d hd => hp d (List.mem_cons_of_mem _ hd)]
    simp [hc]

theorem Cuts.htmlBlanks (h : Cuts .html t B) {p : Text} (hp : ∀ c ∈ p, c = ' ')
    (hA : Expands (Respaces header f) A B) :
    ∃ gap B', Cuts .html (p ++ t) (gap ++ B') ∧ (∀ x ∈ gap, x.isGap = true) ∧
      Expands (Respaces header f) A B' := by
  by_cases hnil : p = []
  · subst hnil
    exact ⟨[], B, h, by simp, hA⟩
  have hlength := htmlLength_blanks hp
  have hgap : ∀ x ∈ [(⟨.inlineHtml, p⟩ : Shape)], x.isGap = true := by
    have hfree := contains_openTag_blanks hp []
    rw [List.append_nil] at hfree
    intro x hx
    rw [List.mem_singleton.1 hx, Shape.isGap, Shape.isStray, hfree]
    rfl
  cases h with
  | nil =>
    refine ⟨[⟨.inlineHtml, p⟩], [], .cons (.text hnil ?_) (.nil _), hgap, hA⟩
    rw [hlength]
    rfl
  | @cons _ kind w r shapes hform rest =>
    cases hform with
    | tag htag =>
      refine ⟨[⟨.inlineHtml, p⟩], _, .cons (.text hnil ?_) (.cons (.tag htag) rest), hgap, hA⟩
      have hsome := openTagLength?_eq_some_iff.2 ⟨w, r, rfl, htag, rfl⟩
      have hzero : htmlLength (w ++ r) = 0 := by
        cases hwr : w ++ r with
        | nil => rfl
        | cons c s =>
          rw [hwr] at hsome
          simp [htmlLength, hsome]
      rw [hlength, hzero, Nat.add_zero]
    | text hne htext =>
      refine ⟨[], ⟨.inlineHtml, p ++ w⟩ :: shapes, ?_, by simp, hA.retext rfl fun hstray => ?_⟩
      · rw [← List.append_assoc]
        refine .cons (.text (by simp [hnil]) ?_) rest
        rw [List.append_assoc, hlength, htext, List.length_append]
      · simpa [Shape.isStray, Shape.isLined, contains_openTag_blanks hp] using hstray

end

end Namespacing
