import Namespacing.Token.Lexeme
set_option autoImplicit false

namespace Namespacing

inductive Mode where
  | html
  | code
  deriving DecidableEq, Repr

def Mode.after (mode : Mode) : TokenKind → Mode
  | .openTag => .code
  | .closeTag => .html
  | _ => mode

def Mode.lexeme (mode : Mode) (c : Char) (s : Text) : Except Opener Lexeme :=
  match mode with
  | .html => .ok (htmlLexeme c s)
  | .code => codeLexeme c s

/-- The tokens of a text that starts at an octet of the file, in a mode. -/
def tokensFrom (mode : Mode) (offset : Nat) : Text → Except Unterminated (List Token)
  | [] => .ok []
  | c :: s =>
    match mode.lexeme c s with
    | .error opener => .error ⟨offset, opener⟩
    | .ok lexeme =>
      let text := c :: s.take (lexeme.length - 1)
      match tokensFrom (mode.after lexeme.kind) (offset + Text.utf8Size text)
          (s.drop (lexeme.length - 1)) with
      | .error unterminated => .error unterminated
      | .ok tokens => .ok (⟨lexeme.kind, text, offset⟩ :: tokens)
termination_by s => s.length
decreasing_by
  simp only [List.length_drop, List.length_cons]
  omega

def tokenize (source : Text) : Except Unterminated (List Token) :=
  tokensFrom .html 0 source

/-- Nothing of a text is lost when it is cut into tokens. -/
theorem flatMap_text_of_tokensFrom {mode : Mode} {offset : Nat} {s : Text} {tokens : List Token}
    (h : tokensFrom mode offset s = .ok tokens) : tokens.flatMap Token.text = s := by
  induction hn : s.length using Nat.strongRecOn generalizing mode offset s tokens with
  | _ n ih =>
    cases s with
    | nil =>
      rw [tokensFrom] at h
      cases h
      rfl
    | cons c s =>
      rw [tokensFrom] at h
      split at h
      · cases h
      · rename_i lexeme _
        dsimp only at h
        split at h
        · cases h
        · rename_i rest hrest
          cases h
          have hlt : (s.drop (lexeme.length - 1)).length < n := by
            simp only [List.length_drop, List.length_cons] at hn ⊢
            omega
          have hr := ih _ hlt hrest rfl
          simp [hr]

end Namespacing
