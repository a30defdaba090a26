import Namespacing.Proofs.Token.Modes
set_option autoImplicit false

namespace Namespacing

open Lexeme

theorem CodeForm.alone {kind : TokenKind} {w r : Text} (h : CodeForm kind w r) : CodeForm kind w [] :=
  CodeForm.of_append (r := []) (fun _ => Or.inl rfl) h

/-- The text of a lexeme of code is the only token behind an open tag. -/
theorem CodeForm.tokenize_alone {kind : TokenKind} {w : Text} (h : CodeForm kind w []) :
    tokenize ("<?php ".toList ++ w) = .ok [⟨.openTag, "<?php ".toList, 0⟩, ⟨kind, w, 6⟩] := by
  have htag : Mode.html.Form .openTag "<?php ".toList w := HtmlForm.php w
  have hcode : tokensFrom .code 6 w = .ok [⟨kind, w, 6⟩] := by
    have hform := @tokensFrom_of_form .code 6 kind w [] h
    rw [List.append_nil, tokensFrom] at hform
    exact hform
  rw [tokenize, tokensFrom_of_form htag]
  change (tokensFrom .code 6 w).map _ = _
  rw [hcode]
  rfl

/-- In every file that can be cut, the text of a token that stands inside the code tags is, read on its own
behind an open tag, again one token of the same kind. -/
theorem tokenize_self_delimiting {source : Text} {tokens : List Token} {token : Token}
    (h : tokenize source = .ok tokens) (hmem : token ∈ tokens) (hhtml : token.kind ≠ .inlineHtml)
    (hopen : token.kind ≠ .openTag) :
    tokenize ("<?php ".toList ++ token.text) =
      .ok [⟨.openTag, "<?php ".toList, 0⟩, ⟨token.kind, token.text, 6⟩] := by
  obtain ⟨before, behind, rfl⟩ := List.append_of_mem hmem
  obtain ⟨hform, -⟩ := form_of_tokenize h
  cases hmode : Mode.html.behind (before.map Token.shape) with
  | html =>
    rcases hform.html_iff.1 hmode with hkind | hkind
    · exact absurd hkind hhtml
    · exact absurd hkind hopen
  | code =>
    rw [hmode] at hform
    exact (CodeForm.alone hform).tokenize_alone

/-- A comment that a close tag cuts, a close tag with its newline, and a here-document whose label is also the
start of a word in it. -/
theorem tokenize_self_delimiting_heredoc :
    let comment : Token := ⟨.comment, "//é".toList, 6⟩
    let tag : Token := ⟨.closeTag, "?>\n".toList, 10⟩
    let text : Token := ⟨.heredoc, "<<<A\nAB\n A".toList, 16⟩
    let tokens : List Token := [⟨.openTag, "<?php ".toList, 0⟩, comment, tag, ⟨.openTag, "<?=".toList, 13⟩, text,
      ⟨.punct, [';'], 26⟩]
    tokenize "<?php //é?>\n<?=<<<A\nAB\n A;".toList = .ok tokens ∧
      ∀ token ∈ [comment, tag, text], token ∈ tokens ∧ token.kind ≠ .inlineHtml ∧ token.kind ≠ .openTag ∧
        tokenize ("<?php ".toList ++ token.text) =
          .ok [⟨.openTag, "<?php ".toList, 0⟩, ⟨token.kind, token.text, 6⟩] := by
  intro comment tag text tokens
  have htokens : tokenize "<?php //é?>\n<?=<<<A\nAB\n A;".toList = .ok tokens := by decide +kernel
  refine ⟨htokens, fun token htoken => ?_⟩
  have hmem : token ∈ tokens := by
    revert token
    decide
  have hkind : token.kind ≠ .inlineHtml ∧ token.kind ≠ .openTag := by
    revert token
    decide
  exact ⟨hmem, hkind.1, hkind.2, tokenize_self_delimiting htokens hmem hkind.1 hkind.2⟩

end Namespacing
