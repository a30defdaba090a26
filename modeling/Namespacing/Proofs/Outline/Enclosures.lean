import Namespacing.Proofs.Outline.Veils
import Namespacing.Proofs.Token.Enclosures
set_option autoImplicit false

namespace Namespacing

open Lexeme

theorem Enclosure.veils {group : Enclosure} {x y : Shape} (hx : group.holds x = true)
    (hy : group.holds y = true) : Veils x [y] := by
  obtain ⟨kind, w⟩ := x
  obtain ⟨kind', w'⟩ := y
  cases group with
  | string =>
    obtain rfl : kind = .string := by simpa [holds] using hx
    obtain rfl : kind' = .string := by simpa [holds] using hy
    exact .inert rfl (by simp [Shape.isInert])
  | heredoc =>
    obtain rfl : kind = .heredoc := by simpa [holds] using hx
    obtain rfl : kind' = .heredoc := by simpa [holds] using hy
    exact .inert rfl (by simp [Shape.isInert])
  | blockComment =>
    simp only [holds, Bool.and_eq_true, Bool.or_eq_true, beq_iff_eq] at hx hy
    refine .remark ?_ ?_
    · rcases hx.1 with rfl | rfl <;> rfl
    · rcases hy.1 with rfl | rfl <;> rfl

theorem Expands.veils_refl (A : List Shape) : Expands Veils A A := by
  induction A with
  | nil => exact .nil
  | cons x A ih => exact .one (.same x) ih

/-- A text that is one token behind an open tag has the form of that token. -/
theorem codeForm_of_tokenize {t : Text} {tag token : Token}
    (h : tokenize ("<?php ".toList ++ t) = .ok [tag, token]) :
    token.text = t ∧ CodeForm token.kind token.text [] := by
  have hcuts := cuts_of_tokensFrom h
  have htag : Mode.html.Form .openTag "<?php ".toList t := HtmlForm.php t
  obtain ⟨rest, hshapes, hrest⟩ := hcuts.exists_rest htag
  obtain rfl := (List.cons.inj hshapes).2
  generalize t = s at hrest ⊢
  cases hrest with
  | cons hform hnil =>
    obtain rfl := hnil.text_eq
    exact ⟨(List.append_nil _).symm, hform⟩

def around (before : List Token) (text : Text) (behind : List Token) : Text :=
  before.flatMap Token.text ++ text ++ behind.flatMap Token.text

theorem around_eq (before : List Token) (text : Text) (behind : List Token) :
    around before text behind = (before.map Token.shape).flatMap Shape.text ++
      (text ++ (behind.map Token.shape).flatMap Shape.text) := by
  rw [flatMap_shape, flatMap_shape, ← List.append_assoc, around]

/-- The text of an enclosing token has no bearing on the rest of its file: another token of the group in
its place leaves all other tokens and the outline as they are. -/
theorem Outline.ofSource_exchange {group : Enclosure} {source replacement : Text} {before behind : List Token}
    {token tag other : Token} (h : tokenize source = .ok (before ++ token :: behind))
    (htoken : group.holds token.shape = true)
    (hother : tokenize ("<?php ".toList ++ replacement) = .ok [tag, other])
    (hsame : group.holds other.shape = true) :
    source = around before token.text behind ∧
      ∃ tokens, tokenize (around before replacement behind) = .ok tokens ∧
        tokens.map Token.shape =
          before.map Token.shape ++ ⟨other.kind, replacement⟩ :: behind.map Token.shape ∧
        ofSource (around before replacement behind) = ofSource source := by
  have hcuts := cuts_of_tokensFrom h
  obtain ⟨htext, hform⟩ := codeForm_of_tokenize hother
  have hshape : other.shape = ⟨other.kind, replacement⟩ := by rw [← htext]; rfl
  rw [hshape] at hsame
  rw [List.map_append, List.map_cons] at hcuts
  have hnew := hcuts.exchange htoken hsame (htext ▸ hform)
  rw [← around_eq] at hnew
  obtain ⟨tokens, htokens, hshapes⟩ := hnew.exists_tokens 0
  refine ⟨by simp [← flatMap_text_of_tokensFrom h, around], tokens, htokens, hshapes, ?_⟩
  have hveils : Expands Veils ((before ++ token :: behind).map Token.shape) (tokens.map Token.shape) := by
    rw [hshapes, List.map_append, List.map_cons]
    exact (Expands.veils_refl _).append (.one (Enclosure.veils htoken hsame) (Expands.veils_refl _))
  rw [ofSource, ofSource, tokenize, htokens, h]
  exact congrArg Except.ok (ofTokens_eq_of_veils hveils)

/-- A string becomes one in other quotes, which holds a close tag and the keyword of a class. -/
theorem Outline.ofSource_exchange_string :
    let source := "<?php $a = 'x'; class C".toList
    let replacement := "\"' ?> class B\"".toList
    let before : List Token := [⟨.openTag, "<?php ".toList, 0⟩, ⟨.variable, "$a".toList, 6⟩,
      ⟨.whitespace, [' '], 8⟩, ⟨.punct, ['='], 9⟩, ⟨.whitespace, [' '], 10⟩]
    let token : Token := ⟨.string, "'x'".toList, 11⟩
    let behind : List Token := [⟨.punct, [';'], 14⟩, ⟨.whitespace, [' '], 15⟩,
      ⟨.keyword .classKw, "class".toList, 16⟩, ⟨.whitespace, [' '], 21⟩, ⟨.identifier, ['C'], 22⟩]
    let other : Token := ⟨.string, replacement, 6⟩
    tokenize source = .ok (before ++ token :: behind) ∧
      tokenize ("<?php ".toList ++ replacement) = .ok [⟨.openTag, "<?php ".toList, 0⟩, other] ∧
      around before replacement behind = "<?php $a = \"' ?> class B\"; class C".toList ∧
      source = around before token.text behind ∧
      ∃ tokens, tokenize (around before replacement behind) = .ok tokens ∧
        tokens.map Token.shape =
          before.map Token.shape ++ ⟨other.kind, replacement⟩ :: behind.map Token.shape ∧
        ofSource (around before replacement behind) = ofSource source := by
  intro source replacement before token behind other
  have hsource : tokenize source = .ok (before ++ token :: behind) := by decide +kernel
  have hother : tokenize ("<?php ".toList ++ replacement) = .ok [⟨.openTag, "<?php ".toList, 0⟩, other] := by
    decide +kernel
  exact ⟨hsource, hother, rfl, @ofSource_exchange .string _ _ _ _ _ _ _ hsource rfl hother rfl⟩

end Namespacing
