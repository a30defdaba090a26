import Namespacing.Text.Basic
set_option autoImplicit false

namespace Namespacing

inductive Keyword where
  | classKw
  | interfaceKw
  | traitKw
  | functionKw
  | extendsKw
  | implementsKw
  deriving DecidableEq, Repr

namespace Keyword

def all : List Keyword :=
  [.classKw, .interfaceKw, .traitKw, .functionKw, .extendsKw, .implementsKw]

def spelling : Keyword → Text
  | .classKw => "class".toList
  | .interfaceKw => "interface".toList
  | .traitKw => "trait".toList
  | .functionKw => "function".toList
  | .extendsKw => "extends".toList
  | .implementsKw => "implements".toList

def ofWord? (word : Text) : Option Keyword :=
  all.find? fun k => k.spelling == word.map Char.toLower

end Keyword

inductive TokenKind where
  | inlineHtml
  | openTag
  | closeTag
  | whitespace
  | comment
  | docComment
  | attribute
  | string
  | heredoc
  | variable
  | number
  | keyword (word : Keyword)
  | identifier
  | punct
  deriving DecidableEq, Repr

/-- White space, comments and attributes never change the meaning of the code around them. -/
def TokenKind.isTrivia : TokenKind → Bool
  | .whitespace | .comment | .docComment | .attribute => true
  | _ => false

/-- A piece of a file; `offset` counts the UTF-8 octets before it. -/
structure Token where
  kind : TokenKind
  text : Text
  offset : Nat
  deriving DecidableEq, Repr

inductive Opener where
  | singleQuote
  | doubleQuote
  | backtick
  | blockComment
  | heredoc
  | attribute
  deriving DecidableEq, Repr

def Opener.spelling : Opener → Text
  | .singleQuote => "'".toList
  | .doubleQuote => "\"".toList
  | .backtick => "`".toList
  | .blockComment => "/*".toList
  | .heredoc => "<<<".toList
  | .attribute => "#[".toList

structure Unterminated where
  offset : Nat
  opener : Opener
  deriving DecidableEq, Repr

def Unterminated.problem (u : Unterminated) : Text :=
  "unterminated token starting with ".toList ++ Text.quoted u.opener.spelling

end Namespacing
