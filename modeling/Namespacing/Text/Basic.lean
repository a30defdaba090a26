set_option autoImplicit false

namespace Namespacing

abbrev Text := List Char

abbrev Bytes := List UInt8

namespace Text

-- Only the characters of the text are looked at, and not every character that there is.
instance decidableForallMem (s : Text) (p : Char → Prop) [DecidablePred p] : Decidable (∀ c ∈ s, p c) :=
  List.decidableBAll p s

instance : Hashable Text where
  hash s := s.foldl (fun h c => mixHash h c.val.toUInt64) 7

def utf8Size : Text → Nat
  | [] => 0
  | c :: s => c.utf8Size + utf8Size s

@[simp] theorem utf8Size_nil : utf8Size [] = 0 := rfl

@[simp] theorem utf8Size_cons (c : Char) (s : Text) : utf8Size (c :: s) = c.utf8Size + utf8Size s :=
  rfl

@[simp] theorem utf8Size_append (s t : Text) : utf8Size (s ++ t) = utf8Size s + utf8Size t := by
  induction s with
  | nil => simp
  | cons c s ih => simp [ih, Nat.add_assoc]

def isWordChar (c : Char) : Bool :=
  c.isAlphanum || c == '_'

def isWordStart (c : Char) : Bool :=
  c.isAlpha || c == '_'

/-- A word: a letter or underscore, then letters, digits and underscores. All of them are ASCII. -/
def isIdentifier : Text → Bool
  | [] => false
  | c :: s => isWordStart c && s.all isWordChar

def startsWith : Text → Text → Bool
  | [], _ => true
  | _ :: _, [] => false
  | p :: ps, c :: cs => p == c && startsWith ps cs

def dropPrefix? : Text → Text → Option Text
  | [], s => some s
  | _ :: _, [] => none
  | p :: ps, c :: cs => if p = c then dropPrefix? ps cs else none

theorem dropPrefix?_eq_some_iff {p s r : Text} : dropPrefix? p s = some r ↔ s = p ++ r := by
  induction p generalizing s with
  | nil => simp [dropPrefix?]
  | cons a p ih =>
    cases s with
    | nil => simp [dropPrefix?]
    | cons c s =>
      by_cases h : a = c
      · simp [dropPrefix?, h, ih]
      · simp [dropPrefix?, h, Ne.symm h]

theorem startsWith_iff {p s : Text} : startsWith p s = true ↔ ∃ r, s = p ++ r := by
  induction p generalizing s with
  | nil => simp [startsWith]
  | cons a p ih =>
    cases s with
    | nil => simp [startsWith]
    | cons c s =>
      simp only [startsWith, Bool.and_eq_true, beq_iff_eq, ih, List.cons_append, List.cons.injEq]
      constructor
      · rintro ⟨rfl, r, rfl⟩
        exact ⟨r, rfl, rfl⟩
      · rintro ⟨r, rfl, rfl⟩
        exact ⟨rfl, r, rfl⟩

/-- The pieces between the separators; there is always one more piece than separators. -/
def splitOn (sep : Char) : Text → List Text
  | [] => [[]]
  | c :: s =>
    if c = sep then [] :: splitOn sep s
    else
      match splitOn sep s with
      | [] => [[c]]
      | piece :: pieces => (c :: piece) :: pieces

def joinWith (sep : Text) (pieces : List Text) : Text :=
  List.intercalate sep pieces

theorem splitOn_ne_nil (sep : Char) (s : Text) : splitOn sep s ≠ [] := by
  cases s with
  | nil => simp [splitOn]
  | cons c s =>
    rw [splitOn]
    split
    · simp
    · split <;> simp

theorem joinWith_splitOn (sep : Char) (s : Text) : joinWith [sep] (splitOn sep s) = s := by
  induction s with
  | nil => rfl
  | cons c s ih =>
    rw [splitOn]
    cases h : splitOn sep s with
    | nil => exact absurd h (splitOn_ne_nil sep s)
    | cons piece pieces =>
      rw [h] at ih
      split
      · rename_i hc
        subst hc
        simpa [joinWith, List.intercalate] using ih
      · cases pieces with
        | nil => simpa [joinWith, List.intercalate] using ih
        | cons next rest => simpa [joinWith, List.intercalate] using ih

def contains (p : Text) : Text → Bool
  | [] => p.isEmpty
  | c :: s => startsWith p (c :: s) || contains p s

def replaceFrom (p r : Text) : Nat → Text → Text
  | _, [] => []
  | skip + 1, _ :: s => replaceFrom p r skip s
  | 0, c :: s =>
    if startsWith p (c :: s) then r ++ replaceFrom p r (p.length - 1) s
    else c :: replaceFrom p r 0 s

/-- Replace every occurrence of `p` by `r`, from left to right and without overlap. An empty `p`
occurs before every character and at the end. -/
def replaceAll (p r s : Text) : Text :=
  if p.isEmpty then r ++ s.flatMap (fun c => c :: r) else replaceFrom p r 0 s

theorem replaceFrom_eq_drop (p r : Text) (skip : Nat) (s : Text) :
    replaceFrom p r skip s = replaceFrom p r 0 (s.drop skip) := by
  induction s generalizing skip with
  | nil => cases skip <;> simp [replaceFrom]
  | cons c s ih =>
    cases skip with
    | zero => rfl
    | succ k => simp [replaceFrom, ih]

/-- Does one text come before another or equal it, by the code points of their characters? -/
def le : Text → Text → Bool
  | [], _ => true
  | _ :: _, [] => false
  | a :: s, b :: t => a < b || (a == b && le s t)

theorem contains_iff {p s : Text} : contains p s = true ↔ ∃ a b, s = a ++ p ++ b := by
  induction s with
  | nil =>
    constructor
    · intro h
      have hp : p = [] := by simpa [contains] using h
      exact ⟨[], [], by simp [hp]⟩
    · rintro ⟨a, b, h⟩
      have hp : p = [] := by
        have := congrArg List.length h
        simp only [List.length_nil, List.length_append] at this
        exact List.eq_nil_of_length_eq_zero (by omega)
      simp [contains, hp]
  | cons c s ih =>
    rw [contains, Bool.or_eq_true, startsWith_iff, ih]
    constructor
    · rintro (⟨r, h⟩ | ⟨a, b, h⟩)
      · exact ⟨[], r, by simpa using h⟩
      · exact ⟨c :: a, b, by simp [h]⟩
    · rintro ⟨a, b, h⟩
      cases a with
      | nil => exact Or.inl ⟨b, by simpa using h⟩
      | cons x a =>
        simp only [List.cons_append, List.cons.injEq] at h
        exact Or.inr ⟨a, b, h.2⟩

theorem replaceFrom_of_not_contains {p r s : Text} (h : contains p s = false) :
    replaceFrom p r 0 s = s := by
  induction s with
  | nil => rfl
  | cons c s ih =>
    rw [contains, Bool.or_eq_false_iff] at h
    simp [replaceFrom, h.1, ih h.2]

theorem replaceAll_of_not_contains {p r s : Text} (h : contains p s = false) :
    replaceAll p r s = s := by
  cases p with
  | nil =>
    have : contains [] s = true := contains_iff.2 ⟨[], s, by simp⟩
    rw [h] at this
    cases this
  | cons a p => simpa [replaceAll] using replaceFrom_of_not_contains h

def quoted (s : Text) : Text :=
  '"' :: s.flatMap (fun c => if c = '"' then ['\\', '"'] else [c]) ++ ['"']

end Text

end Namespacing
