import Namespacing.Token.Stream
set_option autoImplicit false

namespace Namespacing

inductive ClassKind where
  | plainClass
  | interface
  | trait
  deriving DecidableEq, Repr

namespace ClassKind

def all : List ClassKind := [.plainClass, .interface, .trait]

def keyword : ClassKind → Keyword
  | .plainClass => .classKw
  | .interface => .interfaceKw
  | .trait => .traitKw

def spelling (kind : ClassKind) : Text := kind.keyword.spelling

def ofToken? : TokenKind → Option ClassKind
  | .keyword .classKw => some .plainClass
  | .keyword .interfaceKw => some .interface
  | .keyword .traitKw => some .trait
  | _ => none

end ClassKind

structure ClassLike where
  kind : ClassKind
  name : Text
  deriving DecidableEq, Repr

inductive FileRole where
  | classBearing
  | functionBearing
  | unclassified
  deriving DecidableEq, Repr

def FileRole.label : FileRole → Text
  | .classBearing => "class_bearing".toList
  | .functionBearing => "function_bearing".toList
  | .unclassified => "unclassified".toList

structure Outline where
  classLike : Option ClassLike
  functions : List Text
  deriving DecidableEq, Repr

namespace Outline

def empty : Outline := ⟨none, []⟩

/-- A class-like declaration decides the role, whatever functions stand beside it. -/
def role (outline : Outline) : FileRole :=
  if outline.classLike.isSome then .classBearing
  else if outline.functions.isEmpty then .unclassified
  else .functionBearing

def classLikeAt? : List Token → Option ClassLike
  | word :: space :: name :: _ =>
    match ClassKind.ofToken? word.kind with
    | none => none
    | some kind =>
      if space.kind = .whitespace ∧ name.kind = .identifier then some ⟨kind, name.text⟩ else none
  | _ => none

def firstClassLike? : List Token → Option ClassLike
  | [] => none
  | token :: tokens =>
    match classLikeAt? (token :: tokens) with
    | some found => some found
    | none => firstClassLike? tokens

/-- The brace depth behind a punctuation token; a brace too many does not count. -/
def depthAfter (depth : Nat) (punct : Text) : Nat :=
  if punct = ['\x7b'] then depth + 1
  else if punct = ['\x7d'] then depth - 1
  else depth

/-- The names declared from here on. `declaring` says that a `function` keyword outside all braces
still waits for its name: trivia and the by-reference mark keep it waiting, an identifier is the
name, and anything else ends the declaration without one. -/
def functionsFrom (depth : Nat) (declaring : Bool) : List Token → List Text
  | [] => []
  | token :: tokens =>
    match token.kind with
    | .whitespace | .comment | .docComment | .attribute => functionsFrom depth declaring tokens
    | .keyword .functionKw => functionsFrom depth (depth == 0) tokens
    | .identifier =>
      if declaring then token.text :: functionsFrom depth false tokens
      else functionsFrom depth false tokens
    | .punct =>
      if declaring ∧ token.text = ['&'] then functionsFrom depth true tokens
      else functionsFrom (depthAfter depth token.text) false tokens
    | _ => functionsFrom depth false tokens

def ofTokens (tokens : List Token) : Outline :=
  ⟨firstClassLike? tokens, functionsFrom 0 false tokens⟩

def ofSource (source : Text) : Except Unterminated Outline :=
  (tokenize source).map ofTokens

/-- The outline of a file; a file that cannot be cut into tokens declares nothing. -/
def ofSourceOrEmpty (source : Text) : Outline :=
  match ofSource source with
  | .ok outline => outline
  | .error _ => empty

end Outline

end Namespacing
