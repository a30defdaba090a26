import Namespacing.Text.Encoding
set_option autoImplicit false
set_option linter.unusedVariables false

namespace Namespacing

namespace Glob

def octet (c : Char) : UInt8 := UInt8.ofNat c.toNat

def escaped (b : UInt8) : UInt8 :=
  if b = octet 'b' then 8
  else if b = octet 'n' then 10
  else if b = octet 'r' then 13
  else if b = octet 't' then 9
  else b

def literal? : Bytes → Option (UInt8 × Bytes)
  | [] => none
  | b :: rest =>
    if b = octet '\\' then
      match rest with
      | [] => none
      | e :: rest => some (escaped e, rest)
    else some (b, rest)

theorem length_lt_of_literal? {s rest : Bytes} {b : UInt8} (h : literal? s = some (b, rest)) :
    rest.length < s.length := by
  unfold literal? at h
  split at h
  · cases h
  · split at h
    · split at h
      · cases h
      · cases h
        simp only [List.length_cons]
        omega
    · cases h
      simp

def rangeEnd? (s : Bytes) : Option (Option UInt8 × Bytes) :=
  match s with
  | hyphen :: next :: rest =>
    if hyphen = octet '-' ∧ next ≠ octet ']' then
      (literal? (next :: rest)).map fun (high, rest) => (some high, rest)
    else some (none, s)
  | _ => some (none, s)

theorem length_le_of_rangeEnd? {s rest : Bytes} {high? : Option UInt8}
    (h : rangeEnd? s = some (high?, rest)) : rest.length ≤ s.length := by
  unfold rangeEnd? at h
  split at h
  · split at h
    · obtain ⟨⟨b, r⟩, hl, he⟩ := Option.map_eq_some_iff.1 h
      cases he
      have := length_lt_of_literal? hl
      simp only [List.length_cons] at this ⊢
      omega
    · cases h
      simp
  · cases h
    exact Nat.le_refl _

/-- Is a byte in the class whose items are at the front? Also what follows the class. A bracket that
closes it may be its first item; a class that is never closed is malformed. -/
def classItems? (byte : UInt8) (first found : Bool) (s : Bytes) : Option (Bool × Bytes) :=
  match s with
  | [] => none
  | b :: rest =>
    if !first && b == octet ']' then some (found, rest)
    else
      match h : literal? (b :: rest) with
      | none => none
      | some (low, behind) =>
        match hr : rangeEnd? behind with
        | none => none
        | some (high?, behind') =>
          classItems? byte false (found || (low ≤ byte && byte ≤ high?.getD low)) behind'
termination_by s.length
decreasing_by
  have h₁ := length_lt_of_literal? h
  have h₂ := length_le_of_rangeEnd? hr
  simp only [List.length_cons] at h₁ ⊢
  omega

def class? (byte : UInt8) (s : Bytes) : Option (Bool × Bytes) :=
  match s with
  | [] => classItems? byte true false []
  | b :: rest =>
    if b = octet '^' ∨ b = octet '!' then
      (classItems? byte true false rest).map fun (found, rest) => (!found, rest)
    else classItems? byte true false (b :: rest)

inductive BraceEnd where
  | comma (rest : Bytes)
  | close (rest : Bytes)
  | missing

def skipBraces (toComma : Bool) (depth : Nat) (inClass : Bool) : Bytes → BraceEnd
  | [] => .missing
  | b :: rest =>
    if b = octet '\\' then
      match rest with
      | [] => .missing
      | _ :: rest => skipBraces toComma depth inClass rest
    else if b = octet ']' then skipBraces toComma depth false rest
    else if inClass then skipBraces toComma depth true rest
    else if b = octet '[' then skipBraces toComma depth true rest
    else if b = octet '\x7b' then skipBraces toComma (depth + 1) false rest
    else if b = octet '\x7d' then
      match depth with
      | 0 => .close rest
      | depth + 1 => skipBraces toComma depth false rest
    else if b = octet ',' ∧ toComma ∧ depth = 0 then .comma rest
    else skipBraces toComma depth false rest

structure Cursor where
  pattern : Bytes
  name : Bytes

structure Braces where
  start : Cursor
  star? : Option Cursor

structure State where
  cursor : Cursor
  afterBrace : Bool
  /-- Where to go on with one more byte for the last star; none if there is no star or no byte. -/
  star? : Option Cursor
  braces : List Braces
  /-- The number of bytes up to the furthest end of an alternative; zero stands for none. -/
  furthest : Nat

inductive Step where
  | next (state : State)
  | matched
  | failed
  | malformed

def maxBraces : Nat := 10

section Machine

variable (name : Bytes)

def consumed (rest : Bytes) : Nat := name.length - rest.length

def leaveBraces (state : State) (pattern : Bytes) (furthest : Nat) : State :=
  match state.braces with
  | [] => state
  | braces :: outer =>
    { cursor := ⟨pattern, name.drop furthest⟩
      afterBrace := true
      star? := braces.star?
      braces := outer
      furthest := if outer.isEmpty then 0 else furthest }

def goBack (state : State) : Step :=
  match state.star? with
  | some star => .next { state with cursor := star, afterBrace := false }
  | none =>
    match state.braces with
    | [] => .failed
    | braces :: outer =>
      match skipBraces true 0 false state.cursor.pattern with
      | .missing => .malformed
      | .comma rest =>
        .next { state with cursor := ⟨rest, braces.start.name⟩, afterBrace := false }
      | .close rest =>
        if 0 < state.furthest then .next (leaveBraces name state rest state.furthest)
        else
          match braces.star? with
          | some star =>
            .next { state with
              cursor := star, afterBrace := false, star? := some star, braces := outer }
          | none => .failed

def skipDoubleStars : Bytes → Bytes
  | a :: b :: c :: rest =>
    if a = octet '/' ∧ b = octet '*' ∧ c = octet '*' then skipDoubleStars rest
    else a :: b :: c :: rest
  | s => s

/-- What follows a star, whose first byte has been taken. A double star that is a whole segment at the
front of the name takes the slash behind it along. -/
def afterStar (rest left : Bytes) : Bytes :=
  match rest with
  | b :: rest' =>
    if b = octet '*' then
      match skipDoubleStars rest' with
      | c :: rest'' =>
        if c = octet '/' ∧ left.length = name.length then rest'' else c :: rest''
      | [] => []
    else b :: rest'
  | [] => []

def stepStar (state : State) (rest : Bytes) : Step :=
  let left := state.cursor.name
  let star? := match left with
    | [] => none
    | _ :: more => some ⟨state.cursor.pattern, more⟩
  let behind := afterStar name rest left
  let isEnd := behind.head? == some (octet ',') || behind.head? == some (octet '\x7d')
  if !state.braces.isEmpty && isEnd then
    match skipBraces false 0 false behind with
    | .close rest => .next { state with cursor := ⟨rest, left⟩, afterBrace := true, star? }
    | _ => .malformed
  else .next { state with cursor := ⟨behind, left⟩, afterBrace := false, star? }

/-- A step over a literal byte of the pattern and the next byte of the name. Behind braces that a star
has jumped out of, the byte settles where they end. -/
def stepLiteral (state : State) (afterBrace : Bool) (literal : UInt8) (rest : Bytes) (byte : UInt8)
    (left : Bytes) : Step :=
  if literal = byte then
    let settled :=
      if !state.braces.isEmpty && afterBrace then
        leaveBraces name state rest (consumed name state.cursor.name)
      else state
    .next { settled with cursor := ⟨rest, left⟩, afterBrace := literal == octet '\x7d' }
  else goBack name { state with cursor := ⟨literal :: rest, state.cursor.name⟩ }

def step (state : State) : Step :=
  let inBraces := !state.braces.isEmpty
  match state.cursor.pattern, state.cursor.name with
  | [], [] => .matched
  | [], _ :: _ => goBack name state
  | b :: rest, left =>
    if b = octet '*' then stepStar name state rest
    else if inBraces && b == octet '\x7d' then
      .next (leaveBraces name state rest (max state.furthest (consumed name left)))
    else if inBraces && b == octet ',' then
      match state.braces with
      | [] => .failed
      | braces :: _ =>
        .next { state with
          cursor := ⟨rest, braces.start.name⟩
          afterBrace := false
          star? := none
          furthest := max state.furthest (consumed name left) }
    else
      match left with
      | [] => goBack name state
      | byte :: more =>
        if b = octet '?' then
          .next { state with cursor := ⟨rest, more⟩, afterBrace := false }
        else if b = octet '[' then
          match class? byte rest with
          | none => .malformed
          | some (true, rest) => .next { state with cursor := ⟨rest, more⟩, afterBrace := false }
          | some (false, rest) => goBack name { state with cursor := ⟨rest, left⟩ }
        else if b = octet '\x7b' then
          if state.braces.length ≥ maxBraces then .malformed
          else
            .next { state with
              cursor := ⟨rest, left⟩
              afterBrace := false
              star? := none
              braces := ⟨state.cursor, state.star?⟩ :: state.braces }
        else if b = octet '\\' then
          match rest with
          | [] => .malformed
          | e :: rest => stepLiteral name state false (escaped e) rest byte more
        else stepLiteral name state state.afterBrace b rest byte more

def run? : Nat → State → Option Bool
  | 0, _ => none
  | fuel + 1, state =>
    match step name state with
    | .next state => run? fuel state
    | .matched => some true
    | .failed => some false
    | .malformed => none

end Machine

/-- More steps than a match can take. Each star is tried once at every place of the name, and braces
multiply that by the ways through what they hold. -/
def stepBound (pattern name : Bytes) : Nat :=
  Nat.pow ((pattern.length + 2) * (name.length + 2)) (3 * (pattern.count (octet '\x7b') + 1))

def negations (pattern : Bytes) : Nat × Bytes :=
  let marks := pattern.takeWhile (· == octet '!')
  (marks.length, pattern.drop marks.length)

def isMatch (pattern name : Text) : Bool :=
  let (marks, body) := negations pattern.toUtf8
  let bytes := name.toUtf8
  let start : State := ⟨⟨body, bytes⟩, false, none, [], 0⟩
  match run? bytes (stepBound body bytes) start with
  | some answer => answer == (marks % 2 == 0)
  | none => false

end Glob

end Namespacing
