import Mathlib.Data.List.Induction
import Namespacing.Text.Basic
set_option autoImplicit false

namespace Namespacing

namespace Text

def isRunChar (c : Char) : Bool :=
  isWordChar c || c == '\\'

/-- A run, or a character that is in no run. -/
inductive Piece where
  | run (text : Text)
  | mark (char : Char)
  deriving DecidableEq, Repr

def cut : Text → List Piece
  | [] => []
  | c :: s =>
    if isRunChar c then
      match cut s with
      | .run r :: pieces => .run (c :: r) :: pieces
      | pieces => .run [c] :: pieces
    else .mark c :: cut s

def Piece.text : Piece → Text
  | .run r => r
  | .mark c => [c]

def glue (pieces : List Piece) : Text :=
  pieces.flatMap Piece.text

def marks (s : Text) : List Piece :=
  s.map .mark

def IsRun (r : Text) : Prop :=
  r ≠ [] ∧ ∀ c ∈ r, isRunChar c = true

def IsMarks (s : Text) : Prop :=
  ∀ c ∈ s, isRunChar c = false

-- The characters of the text are looked at one by one, never all characters that there are.
instance (r : Text) : Decidable (IsRun r) :=
  decidable_of_iff ((!r.isEmpty && r.all isRunChar) = true) (by simp [IsRun])

instance (s : Text) : Decidable (IsMarks s) :=
  decidable_of_iff (s.all (fun c => !isRunChar c) = true) (by simp [IsMarks])

@[simp] theorem glue_nil : glue [] = [] := rfl

@[simp] theorem glue_run (r : Text) (pieces : List Piece) :
    glue (.run r :: pieces) = r ++ glue pieces := rfl

@[simp] theorem glue_mark (c : Char) (pieces : List Piece) :
    glue (.mark c :: pieces) = c :: glue pieces := rfl

@[simp] theorem glue_append (A B : List Piece) : glue (A ++ B) = glue A ++ glue B := by
  simp [glue]

@[simp] theorem glue_marks (s : Text) : glue (marks s) = s := by
  induction s with
  | nil => rfl
  | cons c s ih => exact congrArg (c :: ·) ih

theorem glue_cut (s : Text) : glue (cut s) = s := by
  induction s with
  | nil => rfl
  | cons c s ih =>
    rw [cut]
    split
    · split
      · rename_i r pieces h
        rw [h, glue_run] at ih
        rw [glue_run, ← ih]
        rfl
      · rw [glue_run, ih]
        rfl
    · rw [glue_mark, ih]

theorem IsRun.append_left {w r : Text} (hw : ∀ c ∈ w, isRunChar c = true) (hr : IsRun r) :
    IsRun (w ++ r) := by
  refine ⟨by simp [hr.1], fun c hc => ?_⟩
  rcases List.mem_append.1 hc with h | h
  · exact hw c h
  · exact hr.2 c h

theorem IsRun.backslash_cons {r : Text} (hr : IsRun r) : IsRun ('\\' :: r) := by
  refine IsRun.append_left (w := ['\\']) (fun c hc => ?_) hr
  rw [List.mem_singleton.1 hc]
  decide

@[simp] theorem marks_nil : marks [] = [] := rfl

@[simp] theorem marks_cons (c : Char) (s : Text) : marks (c :: s) = .mark c :: marks s := rfl

theorem run_not_mem_marks (r s : Text) : Piece.run r ∉ marks s := by
  simp [marks]

theorem cut_mark_cons {m : Char} (h : isRunChar m = false) (s : Text) :
    cut (m :: s) = .mark m :: cut s := by
  simp [cut, h]

theorem cut_append_mark (a : Text) {m : Char} (h : isRunChar m = false) (b : Text) :
    cut (a ++ m :: b) = cut a ++ .mark m :: cut b := by
  induction a with
  | nil => exact cut_mark_cons h b
  | cons c a ih =>
    rw [List.cons_append, cut, cut, ih]
    split
    · cases cut a with
      | nil => rfl
      | cons piece pieces => cases piece <;> rfl
    · rfl

theorem cut_append_marks (a : Text) {s : Text} (hs : IsMarks s) (hne : s ≠ []) (b : Text) :
    cut (a ++ s ++ b) = cut a ++ marks s ++ cut b := by
  induction s generalizing a with
  | nil => exact absurd rfl hne
  | cons m s ih =>
    have hm : isRunChar m = false := hs m List.mem_cons_self
    rw [List.append_assoc, List.cons_append, cut_append_mark a hm]
    cases s with
    | nil => simp
    | cons m' s =>
      have := ih (a ++ [m]) (fun c hc => hs c (List.mem_cons_of_mem _ hc)) (by simp)
      rw [cut_append_mark a hm [], List.append_assoc (a ++ [m]), List.append_assoc,
        List.singleton_append, cut_append_mark a hm] at this
      simpa [cut] using this

theorem cut_run {r : Text} (hr : IsRun r) : cut r = [.run r] := by
  obtain ⟨hne, hall⟩ := hr
  induction r with
  | nil => exact absurd rfl hne
  | cons c r ih =>
    have hc : isRunChar c = true := hall c List.mem_cons_self
    cases r with
    | nil => simp [cut, hc]
    | cons d r =>
      have := ih (by simp) (fun x hx => hall x (List.mem_cons_of_mem _ hx))
      rw [cut, if_pos hc, this]

theorem cut_run_marks {r s : Text} (hr : IsRun r) (hs : IsMarks s) (hne : s ≠ []) (b : Text) :
    cut (r ++ s ++ b) = .run r :: (marks s ++ cut b) := by
  rw [cut_append_marks r hs hne, cut_run hr]
  rfl

/-- A framed run is a piece of its own. -/
theorem cut_framed (a : Text) {m : Char} (hm : isRunChar m = false) {r s : Text} (hr : IsRun r)
    (hs : IsMarks s) (hne : s ≠ []) (b : Text) :
    cut (a ++ m :: (r ++ s ++ b)) = cut a ++ .mark m :: .run r :: (marks s ++ cut b) := by
  rw [cut_append_mark a hm, cut_run_marks hr hs hne]

theorem exists_of_cut_eq_mark {text : Text} {A B : List Piece} {m : Char}
    (h : cut text = A ++ .mark m :: B) :
    ∃ a b, text = a ++ m :: b ∧ cut a = A ∧ cut b = B := by
  induction text generalizing A with
  | nil => simp [cut] at h
  | cons c text ih =>
    rw [cut] at h
    split at h
    · rename_i hc
      split at h
      · rename_i r pieces htext
        cases A with
        | nil => cases h
        | cons x A =>
          obtain ⟨rfl, rfl⟩ := List.cons.inj h
          obtain ⟨a, b, rfl, ha, hb⟩ := ih (A := .run r :: A) htext
          exact ⟨c :: a, b, rfl, by rw [cut, if_pos hc, ha], hb⟩
      · rename_i hnot
        cases A with
        | nil => cases h
        | cons x A =>
          obtain ⟨rfl, htext⟩ := List.cons.inj h
          obtain ⟨a, b, rfl, ha, hb⟩ := ih htext
          refine ⟨c :: a, b, rfl, ?_, hb⟩
          rw [cut, if_pos hc, ha]
          cases A with
          | nil => rfl
          | cons y A =>
            cases y with
            | mark d => rfl
            | run r => exact absurd htext (hnot r _)
    · rename_i hc
      cases A with
      | nil =>
        obtain ⟨hm, hB⟩ := List.cons.inj h
        exact ⟨[], text, by rw [Piece.mark.inj hm]; rfl, rfl, hB⟩
      | cons x A =>
        obtain ⟨rfl, htext⟩ := List.cons.inj h
        obtain ⟨a, b, rfl, ha, hb⟩ := ih htext
        exact ⟨c :: a, b, rfl, by rw [cut, if_neg hc, ha], hb⟩

/-- A run behind a text lengthens the run that the text ends in. -/
theorem exists_cut_append_run (a : Text) :
    ∃ A w, (∀ c ∈ w, isRunChar c = true) ∧ a = glue A ++ w ∧
      ∀ r, IsRun r → cut (a ++ r) = A ++ [.run (w ++ r)] := by
  induction a using List.reverseRecOn with
  | nil => exact ⟨[], [], by simp, rfl, fun r hr => cut_run hr⟩
  | append_singleton a c ih =>
    cases hc : isRunChar c with
    | false =>
      refine ⟨cut a ++ [.mark c], [], by simp, by simp [glue_cut], fun r hr => ?_⟩
      rw [List.append_assoc, List.singleton_append, cut_append_mark a hc, cut_run hr]
      simp
    | true =>
      obtain ⟨A, w, hw, ha, hcut⟩ := ih
      have hall : ∀ d ∈ w ++ [c], isRunChar d = true := by
        intro d hd
        rcases List.mem_append.1 hd with h | h
        · exact hw d h
        · rw [List.mem_singleton.1 h]
          exact hc
      refine ⟨A, w ++ [c], hall, by rw [ha, List.append_assoc], fun r hr => ?_⟩
      have hcr : IsRun (c :: r) := by
        refine ⟨by simp, fun d hd => ?_⟩
        rcases List.mem_cons.1 hd with rfl | h
        · exact hc
        · exact hr.2 d h
      have := hcut (c :: r) hcr
      simpa using this

end Text

end Namespacing
