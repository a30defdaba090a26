import Namespacing.Text.Basic
set_option autoImplicit false
set_option linter.unusedVariables false

/-!
# Reading JSON texts

A JSON text is read one level at a time. `Json.view?` looks at a whole document and gives the text of
a string, or the texts of the items of an array, or the names and texts of the members of an object;
what is inside them is well-formed and can be looked at in the same way, or left alone. A string may
escape half of a surrogate pair: it is well-formed then and stands for no text.
-/

namespace Namespacing

namespace Json

def isBlank (c : Char) : Bool :=
  c == ' ' || c == '\t' || c == '\n' || c == '\r'

def skipBlanks (s : Text) : Text := s.dropWhile isBlank

def hexValue? (c : Char) : Option Nat :=
  if c.isDigit then some (c.toNat - '0'.toNat)
  else if 'a' ≤ c ∧ c ≤ 'f' then some (c.toNat - 'a'.toNat + 10)
  else if 'A' ≤ c ∧ c ≤ 'F' then some (c.toNat - 'A'.toNat + 10)
  else none

def hexUnit? (a b c d : Char) : Option Nat :=
  match hexValue? a, hexValue? b, hexValue? c, hexValue? d with
  | some a, some b, some c, some d => some (((a * 16 + b) * 16 + c) * 16 + d)
  | _, _, _, _ => none

def shortEscape? : Char → Option Nat
  | '"' => some 0x22
  | '\\' => some 0x5c
  | '/' => some 0x2f
  | 'b' => some 0x08
  | 'f' => some 0x0c
  | 'n' => some 0x0a
  | 'r' => some 0x0d
  | 't' => some 0x09
  | _ => none

/-- Behind the opening quote of a string: the numbers that its characters and escapes stand for, and
what follows the closing quote. -/
def stringUnits? : Text → Option (List Nat × Text)
  | [] => none
  | '"' :: s => some ([], s)
  | '\\' :: 'u' :: a :: b :: c :: d :: s =>
    match hexUnit? a b c d with
    | none => none
    | some unit => (stringUnits? s).map fun (units, rest) => (unit :: units, rest)
  | '\\' :: c :: s =>
    match shortEscape? c with
    | none => none
    | some unit => (stringUnits? s).map fun (units, rest) => (unit :: units, rest)
  | c :: s =>
    if c = '\\' ∨ c.toNat < 32 then none
    else (stringUnits? s).map fun (units, rest) => (c.toNat :: units, rest)

/-- The text of a string's numbers: two halves of a surrogate pair make one character, and one half
alone makes no text. -/
def textOfUnits? : List Nat → Option Text
  | [] => some []
  | high :: low :: units =>
    if 0xd800 ≤ high ∧ high < 0xdc00 then
      if 0xdc00 ≤ low ∧ low < 0xe000 then
        (textOfUnits? units).map
          (Char.ofNat (0x10000 + (high - 0xd800) * 0x400 + (low - 0xdc00)) :: ·)
      else none
    else if 0xdc00 ≤ high ∧ high < 0xe000 then none
    else (textOfUnits? (low :: units)).map (Char.ofNat high :: ·)
  | [unit] => if 0xd800 ≤ unit ∧ unit < 0xe000 then none else some [Char.ofNat unit]

theorem length_lt_of_stringUnits? {s rest : Text} {units : List Nat}
    (h : stringUnits? s = some (units, rest)) : rest.length < s.length := by
  fun_induction stringUnits? s generalizing units with
  | case1 => cases h
  | case2 s =>
    cases h
    simp
  | case3 => cases h
  | case4 a b c d s unit _ ih =>
    obtain ⟨⟨us, r⟩, hr, he⟩ := Option.map_eq_some_iff.1 h
    cases he
    have := ih hr
    simp only [List.length_cons]
    omega
  | case5 => cases h
  | case6 c s _ unit _ ih =>
    obtain ⟨⟨us, r⟩, hr, he⟩ := Option.map_eq_some_iff.1 h
    cases he
    have := ih hr
    simp only [List.length_cons]
    omega
  | case7 => cases h
  | case8 c s _ _ _ _ ih =>
    obtain ⟨⟨us, r⟩, hr, he⟩ := Option.map_eq_some_iff.1 h
    cases he
    have := ih hr
    simp only [List.length_cons]
    omega

def skipDigits? : Text → Option Text
  | c :: s => if c.isDigit then some (s.dropWhile Char.isDigit) else none
  | [] => none

def skipWhole? : Text → Option Text
  | '0' :: s => if s.head?.any Char.isDigit then none else some s
  | s => skipDigits? s

def skipFraction? : Text → Option Text
  | '.' :: s => skipDigits? s
  | s => some s

def skipSign : Text → Text
  | '+' :: s => s
  | '-' :: s => s
  | s => s

def skipExponent? : Text → Option Text
  | 'e' :: s => skipDigits? (skipSign s)
  | 'E' :: s => skipDigits? (skipSign s)
  | s => some s

def skipNumber? (s : Text) : Option Text :=
  match s with
  | '-' :: t => ((skipWhole? t).bind skipFraction?).bind skipExponent?
  | _ => ((skipWhole? s).bind skipFraction?).bind skipExponent?

def skipScalar? : Text → Option Text
  | '"' :: s => (stringUnits? s).map Prod.snd
  | 't' :: s => Text.dropPrefix? "rue".toList s
  | 'f' :: s => Text.dropPrefix? "alse".toList s
  | 'n' :: s => Text.dropPrefix? "ull".toList s
  | s => skipNumber? s

theorem length_dropWhile_le (p : Char → Bool) (s : Text) : (s.dropWhile p).length ≤ s.length :=
  (List.dropWhile_sublist p).length_le

theorem length_skipBlanks_le (s : Text) : (skipBlanks s).length ≤ s.length :=
  length_dropWhile_le isBlank s

theorem length_lt_of_skipDigits? {s r : Text} (h : skipDigits? s = some r) :
    r.length < s.length := by
  cases s with
  | nil => cases h
  | cons c s =>
    rw [skipDigits?] at h
    split at h
    · cases h
      exact Nat.lt_succ_of_le (length_dropWhile_le _ s)
    · cases h

theorem length_lt_of_skipWhole? {s r : Text} (h : skipWhole? s = some r) :
    r.length < s.length := by
  unfold skipWhole? at h
  split at h
  · split at h
    · cases h
    · cases h
      simp
  · exact length_lt_of_skipDigits? h

theorem length_le_of_skipFraction? {s r : Text} (h : skipFraction? s = some r) :
    r.length ≤ s.length := by
  unfold skipFraction? at h
  split at h
  · have := length_lt_of_skipDigits? h
    simp only [List.length_cons]
    omega
  · cases h
    exact Nat.le_refl _

theorem length_skipSign_le (s : Text) : (skipSign s).length ≤ s.length := by
  unfold skipSign
  split <;> simp

theorem length_le_of_skipExponent? {s r : Text} (h : skipExponent? s = some r) :
    r.length ≤ s.length := by
  unfold skipExponent? at h
  split at h
  · have hd := length_lt_of_skipDigits? h
    rename_i t
    have := length_skipSign_le t
    simp only [List.length_cons]
    omega
  · have hd := length_lt_of_skipDigits? h
    rename_i t
    have := length_skipSign_le t
    simp only [List.length_cons]
    omega
  · cases h
    exact Nat.le_refl _

theorem length_lt_of_numeral {s r : Text}
    (h : ((skipWhole? s).bind skipFraction?).bind skipExponent? = some r) :
    r.length < s.length := by
  obtain ⟨f, hf, he⟩ := Option.bind_eq_some_iff.1 h
  obtain ⟨w, hw, hfr⟩ := Option.bind_eq_some_iff.1 hf
  have h₁ := length_lt_of_skipWhole? hw
  have h₂ := length_le_of_skipFraction? hfr
  have h₃ := length_le_of_skipExponent? he
  omega

theorem length_lt_of_skipNumber? {s r : Text} (h : skipNumber? s = some r) :
    r.length < s.length := by
  unfold skipNumber? at h
  split at h
  · have := length_lt_of_numeral h
    simp only [List.length_cons]
    omega
  · exact length_lt_of_numeral h

theorem length_le_of_dropPrefix? {p s r : Text} (h : Text.dropPrefix? p s = some r) :
    r.length ≤ s.length := by
  rw [Text.dropPrefix?_eq_some_iff.1 h]
  simp

theorem length_lt_of_skipScalar? {s r : Text} (h : skipScalar? s = some r) :
    r.length < s.length := by
  unfold skipScalar? at h
  split at h
  · obtain ⟨⟨units, rest⟩, hu, rfl⟩ := Option.map_eq_some_iff.1 h
    have := length_lt_of_stringUnits? hu
    simp only [List.length_cons]
    omega
  · exact Nat.lt_succ_of_le (length_le_of_dropPrefix? h)
  · exact Nat.lt_succ_of_le (length_le_of_dropPrefix? h)
  · exact Nat.lt_succ_of_le (length_le_of_dropPrefix? h)
  · exact length_lt_of_skipNumber? h

inductive Holder where
  | array
  | object

inductive Expectation where
  | value
  | itemOrClose
  | nameOrClose
  | name
  | commaOrClose

/-- Where a scan stands: what may come next, and what is open, innermost first. -/
structure Scan where
  expect : Expectation
  opened : List Holder

inductive Step where
  | finished (rest : Text)
  | next (scan : Scan) (rest : Text)

def afterValue (opened : List Holder) (rest : Text) : Step :=
  match opened with
  | [] => .finished rest
  | _ => .next ⟨.commaOrClose, opened⟩ rest

def stepValue? (opened : List Holder) (s : Text) : Option Step :=
  match s with
  | '[' :: rest => some (.next ⟨.itemOrClose, .array :: opened⟩ rest)
  | '\x7b' :: rest => some (.next ⟨.nameOrClose, .object :: opened⟩ rest)
  | _ => (skipScalar? s).map (afterValue opened)

def stepName? (opened : List Holder) (s : Text) : Option Step :=
  match s with
  | '"' :: t =>
    match stringUnits? t with
    | none => none
    | some (_, rest) =>
      match skipBlanks rest with
      | ':' :: u => some (.next ⟨.value, opened⟩ u)
      | _ => none
  | _ => none

def Scan.step? (scan : Scan) (s : Text) : Option Step :=
  match scan.expect with
  | .value => stepValue? scan.opened s
  | .name => stepName? scan.opened s
  | .itemOrClose =>
    match s with
    | ']' :: rest => some (afterValue scan.opened.tail rest)
    | _ => stepValue? scan.opened s
  | .nameOrClose =>
    match s with
    | '\x7d' :: rest => some (afterValue scan.opened.tail rest)
    | _ => stepName? scan.opened s
  | .commaOrClose =>
    match scan.opened, s with
    | .object :: _, ',' :: rest => some (.next ⟨.name, scan.opened⟩ rest)
    | .object :: outer, '\x7d' :: rest => some (afterValue outer rest)
    | .array :: _, ',' :: rest => some (.next ⟨.value, scan.opened⟩ rest)
    | .array :: outer, ']' :: rest => some (afterValue outer rest)
    | _, _ => none

def Step.rest : Step → Text
  | .finished rest => rest
  | .next _ rest => rest

@[simp] theorem rest_next (scan : Scan) (rest : Text) : (Step.next scan rest).rest = rest := rfl

@[simp] theorem rest_afterValue (opened : List Holder) (rest : Text) :
    (afterValue opened rest).rest = rest := by
  cases opened <;> rfl

theorem length_lt_of_stepValue? {opened : List Holder} {s : Text} {step : Step}
    (h : stepValue? opened s = some step) : step.rest.length < s.length := by
  unfold stepValue? at h
  split at h
  · cases h
    simp [Step.rest]
  · cases h
    simp [Step.rest]
  · obtain ⟨rest, hr, rfl⟩ := Option.map_eq_some_iff.1 h
    simpa using length_lt_of_skipScalar? hr

theorem length_lt_of_stepName? {opened : List Holder} {s : Text} {step : Step}
    (h : stepName? opened s = some step) : step.rest.length < s.length := by
  unfold stepName? at h
  split at h
  · split at h
    · cases h
    · rename_i t _ units rest hu
      split at h
      · rename_i u hb
        cases h
        have h₁ := length_lt_of_stringUnits? hu
        have h₂ := length_skipBlanks_le rest
        rw [hb] at h₂
        simp only [Step.rest, List.length_cons] at h₂ ⊢
        omega
      · cases h
  · cases h

theorem Scan.length_lt_of_step? {scan : Scan} {s : Text} {step : Step}
    (h : scan.step? s = some step) : step.rest.length < s.length := by
  unfold Scan.step? at h
  split at h
  · exact length_lt_of_stepValue? h
  · exact length_lt_of_stepName? h
  · split at h
    · cases h
      simp
    · exact length_lt_of_stepValue? h
  · split at h
    · cases h
      simp
    · exact length_lt_of_stepName? h
  · split at h <;> cases h <;> simp

def Scan.skip? (scan : Scan) (s : Text) : Option Text :=
  match h : scan.step? (skipBlanks s) with
  | none => none
  | some (.finished rest) => some rest
  | some (.next scan rest) => scan.skip? rest
termination_by s.length
decreasing_by
  have h₁ := Scan.length_lt_of_step? h
  have h₂ := length_skipBlanks_le s
  simp only [Step.rest] at h₁
  omega

theorem Scan.length_lt_of_skip? {scan : Scan} {s rest : Text} (h : scan.skip? s = some rest) :
    rest.length < s.length := by
  fun_induction Scan.skip? scan s with
  | case1 => cases h
  | case2 scan s r hs =>
    cases h
    have h₁ := Scan.length_lt_of_step? hs
    have h₂ := length_skipBlanks_le s
    simp only [Step.rest] at h₁
    omega
  | case3 scan s next r hs ih =>
    have h₁ := Scan.length_lt_of_step? hs
    have h₂ := length_skipBlanks_le s
    have h₃ := ih h
    simp only [Step.rest] at h₁
    omega

def cutValue? (s : Text) : Option (Text × Text) :=
  (Scan.skip? ⟨.value, []⟩ s).map fun rest => (s.take (s.length - rest.length), rest)

theorem length_lt_of_cutValue? {s value rest : Text} (h : cutValue? s = some (value, rest)) :
    rest.length < s.length := by
  obtain ⟨r, hr, he⟩ := Option.map_eq_some_iff.1 h
  cases he
  exact Scan.length_lt_of_skip? hr

inductive View where
  /-- A string and its text, if it stands for one. -/
  | string (text? : Option Text)
  | array (items : List Text)
  | object (members : List (Option Text × Text))
  | other

def items? (s : Text) : Option (List Text × Text) :=
  match h : cutValue? s with
  | none => none
  | some (item, rest) =>
    match hb : skipBlanks rest with
    | ',' :: t => (items? t).map fun (items, rest) => (item :: items, rest)
    | ']' :: t => some ([item], t)
    | _ => none
termination_by s.length
decreasing_by
  have h₁ := length_lt_of_cutValue? h
  have h₂ := length_skipBlanks_le rest
  rw [hb, List.length_cons] at h₂
  omega

def member? (s : Text) : Option ((Option Text × Text) × Text) :=
  match skipBlanks s with
  | '"' :: t =>
    match stringUnits? t with
    | none => none
    | some (units, rest) =>
      match skipBlanks rest with
      | ':' :: u => (cutValue? u).map fun (value, rest) => ((textOfUnits? units, value), rest)
      | _ => none
  | _ => none

theorem length_lt_of_member? {s rest : Text} {member : Option Text × Text}
    (h : member? s = some (member, rest)) : rest.length < s.length := by
  unfold member? at h
  split at h
  · rename_i t hs
    split at h
    · cases h
    · rename_i units r hu
      split at h
      · rename_i u hb
        obtain ⟨⟨value, r'⟩, hc, he⟩ := Option.map_eq_some_iff.1 h
        cases he
        have h₁ := length_lt_of_cutValue? hc
        have h₂ := length_skipBlanks_le r
        have h₃ := length_lt_of_stringUnits? hu
        have h₄ := length_skipBlanks_le s
        rw [hb, List.length_cons] at h₂
        rw [hs, List.length_cons] at h₄
        omega
      · cases h
  · cases h

def members? (s : Text) : Option (List (Option Text × Text) × Text) :=
  match h : member? s with
  | none => none
  | some (member, rest) =>
    match hb : skipBlanks rest with
    | ',' :: t => (members? t).map fun (members, rest) => (member :: members, rest)
    | '\x7d' :: t => some ([member], t)
    | _ => none
termination_by s.length
decreasing_by
  have h₁ := length_lt_of_member? h
  have h₂ := length_skipBlanks_le rest
  rw [hb, List.length_cons] at h₂
  omega

def viewFront? (s : Text) : Option (View × Text) :=
  match s with
  | '"' :: t => (stringUnits? t).map fun (units, rest) => (.string (textOfUnits? units), rest)
  | '[' :: t =>
    match skipBlanks t with
    | ']' :: rest => some (.array [], rest)
    | u => (items? u).map fun (items, rest) => (.array items, rest)
  | '\x7b' :: t =>
    match skipBlanks t with
    | '\x7d' :: rest => some (.object [], rest)
    | u => (members? u).map fun (members, rest) => (.object members, rest)
  | _ => (skipScalar? s).map fun rest => (.other, rest)

/-- The view of a document: one value with nothing but white space around it. -/
def view? (document : Text) : Option View :=
  match viewFront? (skipBlanks document) with
  | none => none
  | some (view, rest) => if (skipBlanks rest).isEmpty then some view else none

def textOf? (document : Text) : Option Text :=
  match view? document with
  | some (.string text?) => text?
  | _ => none

def textsOf? (document : Text) : Option (List Text) :=
  match view? document with
  | some (.array items) => items.mapM textOf?
  | _ => none

end Json

end Namespacing
