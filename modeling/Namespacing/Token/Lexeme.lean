import Namespacing.Token.Basic
set_option autoImplicit false

/-!
# Where a lexeme ends

Each scanner reads the text behind the start of a lexeme and answers how many characters belong to
the lexeme, or that its terminator is missing. `htmlLexeme` and `codeLexeme` put them together: they
name the kind and the length of the lexeme at the front of a text, outside and inside the code tags.
A length counts characters and is never zero.
-/

namespace Namespacing

namespace Lexeme

def isBlank (c : Char) : Bool :=
  c == ' ' || c == '\t'

def isSpace (c : Char) : Bool :=
  isBlank c || c == '\r' || c == '\n'

/-- Behind an opening quote: up to and including the next quote that no backslash takes. A backslash
takes the character after it, whatever it is. -/
def quotedLength? (quote : Char) : Text → Option Nat
  | [] => none
  | '\\' :: [] => none
  | '\\' :: _ :: s => (quotedLength? quote s).map (· + 2)
  | c :: s => if c = quote then some 1 else (quotedLength? quote s).map (· + 1)

/-- Behind `#[`: up to and including the bracket that closes it. `nested` counts the brackets opened
since, and `quote?` is the quote that the scan stands in, where brackets do not count. -/
def attributeLength? (nested : Nat) (quote? : Option Char) : Text → Option Nat
  | [] => none
  | c :: s =>
    match quote? with
    | some quote =>
      if c = '\\' then
        match s with
        | [] => none
        | _ :: s => (attributeLength? nested (some quote) s).map (· + 2)
      else if c = quote then (attributeLength? nested none s).map (· + 1)
      else (attributeLength? nested (some quote) s).map (· + 1)
    | none =>
      if c = '\'' ∨ c = '"' then (attributeLength? nested (some c) s).map (· + 1)
      else if c = '[' then (attributeLength? (nested + 1) none s).map (· + 1)
      else if c = ']' then
        match nested with
        | 0 => some 1
        | nested + 1 => (attributeLength? nested none s).map (· + 1)
      else (attributeLength? nested none s).map (· + 1)

def blockCommentLength? : Text → Option Nat
  | [] => none
  | '*' :: '/' :: _ => some 2
  | _ :: s => (blockCommentLength? s).map (· + 1)

/-- Behind the opener of a line comment: up to the end of the line or a close tag, neither of which
belongs to the comment. -/
def lineCommentLength : Text → Nat
  | [] => 0
  | '\n' :: _ => 0
  | '?' :: '>' :: _ => 0
  | _ :: s => lineCommentLength s + 1

def closingLabelLength? (label line : Text) : Option Nat :=
  match Text.dropPrefix? label (line.dropWhile isBlank) with
  | none => none
  | some rest =>
    if rest.head?.any Text.isWordChar then none
    else some ((line.takeWhile isBlank).length + label.length)

def heredocBodyLength? (label : Text) (lineStart : Bool) : Text → Option Nat
  | [] => none
  | c :: s =>
    match if lineStart then closingLabelLength? label (c :: s) else none with
    | some n => some n
    | none => (heredocBodyLength? label (c == '\n') s).map (· + 1)

def labelQuote : Text → Text
  | '"' :: _ => ['"']
  | '\'' :: _ => ['\'']
  | _ => []

/-- Behind `<<<`: blanks, a label that may stand in quotes, the rest of its line, and the lines up to
and including the closing label. -/
def heredocLength? (s : Text) : Option Nat :=
  let blanks := (s.takeWhile isBlank).length
  let header := s.drop blanks
  let quote := labelQuote header
  let label := (header.drop quote.length).takeWhile Text.isWordChar
  if label.isEmpty then none
  else
    match Text.dropPrefix? quote (header.drop (quote.length + label.length)) with
    | none => none
    | some rest =>
      let line := rest.takeWhile (· != '\n')
      match rest.drop line.length with
      | [] => none
      | _ :: body =>
        (heredocBodyLength? label true body).map
          (blanks + quote.length + label.length + quote.length + line.length + 1 + ·)

/-- The length of the open tag at the front of a text. `<?php` in any case needs a blank or newline
after it, which belongs to the tag, or the end of the file; `<?=` is a tag; and `<?` is one unless
`php` or the literal `xml` follows. -/
def openTagLength? : Text → Option Nat
  | '<' :: '?' :: after =>
    if after.length ≥ 3 ∧ (after.take 3).map Char.toLower = "php".toList then
      match after.drop 3 with
      | [] => some 5
      | '\r' :: '\n' :: _ => some 7
      | c :: _ => if isSpace c then some 6 else none
    else if after.head? = some '=' then some 3
    else if Text.startsWith "xml".toList after then none
    else some 2
  | _ => none

def htmlLength : Text → Nat
  | [] => 0
  | c :: s => if (openTagLength? (c :: s)).isSome then 0 else htmlLength s + 1

def swallowedNewline : Text → Nat
  | '\r' :: '\n' :: _ => 2
  | '\n' :: _ => 1
  | _ => 0

end Lexeme

open Lexeme

structure Lexeme where
  kind : TokenKind
  length : Nat
  deriving DecidableEq, Repr

def htmlLexeme (c : Char) (s : Text) : Lexeme :=
  match openTagLength? (c :: s) with
  | some n => ⟨.openTag, n⟩
  | none => ⟨.inlineHtml, htmlLength s + 1⟩

def closedLexeme (opener : Opener) (kind : TokenKind) : Option Nat → Except Opener Lexeme
  | none => .error opener
  | some n => .ok ⟨kind, opener.spelling.length + n⟩

def wordLexeme (c : Char) (s : Text) : Lexeme :=
  let word := c :: s.takeWhile Text.isWordChar
  match Keyword.ofWord? word with
  | some k => ⟨.keyword k, word.length⟩
  | none => ⟨.identifier, word.length⟩

def codeLexeme (c : Char) (s : Text) : Except Opener Lexeme :=
  if isSpace c then .ok ⟨.whitespace, (s.takeWhile isSpace).length + 1⟩
  else if c = '#' then
    match s with
    | '[' :: t => closedLexeme .attribute .attribute (attributeLength? 0 none t)
    | _ => .ok ⟨.comment, lineCommentLength s + 1⟩
  else if c = '/' then
    match s with
    | '/' :: t => .ok ⟨.comment, lineCommentLength t + 2⟩
    | '*' :: t =>
      closedLexeme .blockComment (if t.head? = some '*' then .docComment else .comment)
        (blockCommentLength? t)
    | _ => .ok ⟨.punct, 1⟩
  else if c = '\'' then closedLexeme .singleQuote .string (quotedLength? c s)
  else if c = '"' then closedLexeme .doubleQuote .string (quotedLength? c s)
  else if c = '\x60' then closedLexeme .backtick .string (quotedLength? c s)
  else if c = '<' then
    match s with
    | '<' :: '<' :: t => closedLexeme .heredoc .heredoc (heredocLength? t)
    | _ => .ok ⟨.punct, 1⟩
  else if c = '$' then
    match s with
    | d :: t =>
      if Text.isWordStart d then .ok ⟨.variable, (t.takeWhile Text.isWordChar).length + 2⟩
      else .ok ⟨.punct, 1⟩
    | [] => .ok ⟨.punct, 1⟩
  else if c.isDigit then
    .ok ⟨.number, (s.takeWhile fun d => Text.isWordChar d || d == '.').length + 1⟩
  else if Text.isWordStart c then .ok (wordLexeme c s)
  else if c = '?' then
    match s with
    | '>' :: t => .ok ⟨.closeTag, swallowedNewline t + 2⟩
    | _ => .ok ⟨.punct, 1⟩
  else .ok ⟨.punct, 1⟩

end Namespacing
