import Mathlib.Data.List.Lex
import Namespacing.Proofs.Path.Steps
set_option autoImplicit false

namespace Namespacing

namespace Text

def Before (s t : Text) : Prop :=
  List.Lex (fun c d : Char => c < d) s t

section

variable {s t u : Text}

theorem Before.asymm (h : Before s t) : ¬ Before t s :=
  List.lex_asymm Char.lt_asymm h

theorem Before.trans (h : Before s t) (h' : Before t u) : Before s u :=
  List.lex_trans Char.lt_trans h h'

theorem le_iff_before : le s t = true ↔ s = t ∨ Before s t := by
  induction s generalizing t with
  | nil =>
    cases t with
    | nil => exact iff_of_true rfl (Or.inl rfl)
    | cons d t => exact iff_of_true rfl (Or.inr .nil)
  | cons c s ih =>
    cases t with
    | nil => exact iff_of_false (by simp [le]) (by rintro (h | h) <;> cases h)
    | cons d t =>
      rw [le, Bool.or_eq_true, Bool.and_eq_true, decide_eq_true_iff, beq_iff_eq, ih]
      constructor
      · rintro (hlt | ⟨rfl, rfl | hbefore⟩)
        · exact Or.inr (.rel hlt)
        · exact Or.inl rfl
        · exact Or.inr (.cons hbefore)
      · rintro (heq | hbefore)
        · cases heq
          exact Or.inr ⟨rfl, Or.inl rfl⟩
        · cases hbefore with
          | rel hlt => exact Or.inl hlt
          | cons hbefore => exact Or.inr ⟨rfl, Or.inr hbefore⟩

theorem le_trans (h : le s t = true) (h' : le t u = true) : le s u = true := by
  rw [le_iff_before] at *
  rcases h with rfl | h
  · exact h'
  · rcases h' with rfl | h'
    · exact Or.inr h
    · exact Or.inr (h.trans h')

theorem le_total (s t : Text) : (le s t || le t s) = true := by
  induction s generalizing t with
  | nil => rfl
  | cons c s ih =>
    cases t with
    | nil => rfl
    | cons d t =>
      by_cases hlt : c < d
      · simp [le, hlt]
      · by_cases hgt : d < c
        · simp [le, hgt]
        · obtain rfl := Char.le_antisymm (Char.not_lt.1 hgt) (Char.not_lt.1 hlt)
          simpa [le] using ih t

end

end Text

namespace Path

/-- Some steps come before others: the first that differs decides, and steps come before those that go on
behind them. -/
def StepsBefore (xs ys : List Text) : Prop :=
  List.Lex Text.Before xs ys

/-- One path comes before another, step by step. -/
def Before (path other : Path) : Prop :=
  StepsBefore (steps path) (steps other)

section

variable {xs ys : List Text}

theorem StepsBefore.asymm (h : StepsBefore xs ys) : ¬ StepsBefore ys xs :=
  List.lex_asymm Text.Before.asymm h

theorem StepsBefore.ne (h : StepsBefore xs ys) : xs ≠ ys := by
  rintro rfl
  exact h.asymm h

theorem eq_of_stepsBefore {as bs : List (List Text)} (ha : as.Pairwise StepsBefore)
    (hb : bs.Pairwise StepsBefore) (h : ∀ xs, xs ∈ as ↔ xs ∈ bs) : as = bs :=
  List.Perm.eq_of_pairwise (fun _ _ _ _ hxy hyx => absurd hyx hxy.asymm) ha hb
    ((List.perm_ext_iff_of_nodup (ha.imp StepsBefore.ne) (hb.imp StepsBefore.ne)).2 h)

theorem before_extend {top : Path} (hxs : ∀ x ∈ xs, '/' ∉ x ∧ isIdle x = false)
    (hys : ∀ y ∈ ys, '/' ∉ y ∧ isIdle y = false) (h : StepsBefore xs ys) :
    Before (extend top xs) (extend top ys) := by
  rw [Before, steps_extend hxs, steps_extend hys]
  exact List.Lex.append_left _ h _

end

end Path

end Namespacing
