import Mathlib.Data.List.Induction
import Namespacing.RenameTable.Basic
set_option autoImplicit false

namespace Namespacing

theorem lookup_upsert (renames : List Rename) (rename : Rename) (literal : Text) :
    (upsert renames rename).lookup literal =
      if rename.1 = literal then some rename.2 else renames.lookup literal := by
  induction renames with
  | nil =>
    obtain ⟨p, q⟩ := rename
    by_cases h : p = literal
    · subst h
      simp [upsert]
    · have hb : (literal == p) = false := by simpa using Ne.symm h
      simp [upsert, List.lookup_cons, hb, h]
  | cons r rs ih =>
    obtain ⟨p, q⟩ := rename
    obtain ⟨p', q'⟩ := r
    rw [upsert]
    split
    · rename_i h
      change p' = p at h
      subst h
      by_cases hl : p' = literal
      · subst hl
        simp
      · have hb : (literal == p') = false := by simpa using Ne.symm hl
        simp [List.lookup_cons, hb, hl]
    · rename_i h
      change p' ≠ p at h
      rw [List.lookup_cons, List.lookup_cons, ih]
      by_cases hl : literal = p'
      · subst hl
        simp [Ne.symm h]
      · have hb : (literal == p') = false := by simpa using hl
        rw [hb]

theorem lookup_foldl_upsert_of_not_mem {renames : List Rename} {literal : Text}
    (h : literal ∉ renames.map Prod.fst) (start : List Rename) :
    (renames.foldl upsert start).lookup literal = start.lookup literal := by
  induction renames generalizing start with
  | nil => rfl
  | cons r rs ih =>
    simp only [List.map_cons, List.mem_cons, not_or] at h
    rw [List.foldl_cons, ih h.2, lookup_upsert, if_neg (Ne.symm h.1)]

/-- The renames with a literal agree on its replacement, so it does not matter which is the last. -/
theorem lookup_foldl_upsert_of_forall {renames : List Rename} {literal replacement : Text}
    (hmem : literal ∈ renames.map Prod.fst)
    (hall : ∀ r ∈ renames, r.1 = literal → r.2 = replacement) (start : List Rename) :
    (renames.foldl upsert start).lookup literal = some replacement := by
  induction renames generalizing start with
  | nil => cases hmem
  | cons r rs ih =>
    have hrest : ∀ x ∈ rs, x.1 = literal → x.2 = replacement :=
      fun x hx => hall x (List.mem_cons_of_mem _ hx)
    by_cases h : literal ∈ rs.map Prod.fst
    · exact ih h hrest _
    · rw [List.map_cons, List.mem_cons] at hmem
      have hr : r.1 = literal := (hmem.resolve_right h).symm
      rw [List.foldl_cons, lookup_foldl_upsert_of_not_mem h, lookup_upsert, if_pos hr,
        hall r List.mem_cons_self hr]

theorem lookup_eq_of_mem {renames : List Rename} (hnodup : (renames.map Prod.fst).Nodup) {r : Rename}
    (h : r ∈ renames) : renames.lookup r.1 = some r.2 := by
  induction renames with
  | nil => cases h
  | cons x xs ih =>
    obtain ⟨p, q⟩ := x
    rw [List.map_cons, List.nodup_cons] at hnodup
    rcases List.mem_cons.1 h with rfl | h
    · simp
    · have hne : r.1 ≠ p := fun heq => hnodup.1 (List.mem_map.2 ⟨r, h, heq⟩)
      have hb : (r.1 == p) = false := by simpa using hne
      rw [List.lookup_cons, hb]
      exact ih hnodup.2 h

theorem literals_upsert (renames : List Rename) (rename : Rename) :
    (upsert renames rename).map Prod.fst =
      if rename.1 ∈ renames.map Prod.fst then renames.map Prod.fst
      else renames.map Prod.fst ++ [rename.1] := by
  induction renames with
  | nil => simp [upsert]
  | cons r rs ih =>
    rw [upsert]
    by_cases h : r.1 = rename.1
    · simp [h]
    · rw [if_neg h, List.map_cons, ih]
      have hiff : rename.1 ∈ (r :: rs).map Prod.fst ↔ rename.1 ∈ rs.map Prod.fst := by
        rw [List.map_cons, List.mem_cons]
        exact or_iff_right (Ne.symm h)
      by_cases hm : rename.1 ∈ rs.map Prod.fst
      · rw [if_pos hm, if_pos (hiff.2 hm), List.map_cons]
      · rw [if_neg hm, if_neg (fun hc => hm (hiff.1 hc)), List.map_cons, List.cons_append]

theorem mem_upsert {renames : List Rename} {rename r : Rename} (h : r ∈ upsert renames rename) :
    r = rename ∨ r ∈ renames := by
  induction renames with
  | nil => exact Or.inl (List.mem_singleton.1 h)
  | cons x xs ih =>
    rw [upsert] at h
    split at h
    · rcases List.mem_cons.1 h with rfl | h
      · exact Or.inl rfl
      · exact Or.inr (List.mem_cons_of_mem _ h)
    · rcases List.mem_cons.1 h with rfl | h
      · exact Or.inr List.mem_cons_self
      · exact (ih h).imp_right (List.mem_cons_of_mem _)

theorem mem_foldl_upsert {renames start : List Rename} {r : Rename}
    (h : r ∈ renames.foldl upsert start) : r ∈ renames ∨ r ∈ start := by
  induction renames generalizing start with
  | nil => exact Or.inr h
  | cons x xs ih =>
    rcases ih h with h | h
    · exact Or.inl (List.mem_cons_of_mem _ h)
    · rcases mem_upsert h with rfl | h
      · exact Or.inl List.mem_cons_self
      · exact Or.inr h

theorem mem_literals_foldl_upsert {renames start : List Rename} {literal : Text} :
    literal ∈ (renames.foldl upsert start).map Prod.fst ↔
      literal ∈ renames.map Prod.fst ∨ literal ∈ start.map Prod.fst := by
  induction renames generalizing start with
  | nil => simp
  | cons r rs ih =>
    have hstart : literal ∈ (upsert start r).map Prod.fst ↔
        literal = r.1 ∨ literal ∈ start.map Prod.fst := by
      rw [literals_upsert]
      split
      · rename_i hr
        exact ⟨Or.inr, fun h => h.elim (fun h => h ▸ hr) id⟩
      · rw [List.mem_append, List.mem_singleton, or_comm]
    rw [List.foldl_cons, ih, hstart, List.map_cons, List.mem_cons]
    tauto

theorem foldl_upsert_append {start renames : List Rename} (h : ∀ r ∈ renames, r.1 ∉ start.map Prod.fst)
    (rest : List Rename) : renames.foldl upsert (start ++ rest) = start ++ renames.foldl upsert rest := by
  have hupsert : ∀ {start : List Rename} {r : Rename}, r.1 ∉ start.map Prod.fst →
      ∀ rest, upsert (start ++ rest) r = start ++ upsert rest r := by
    intro start r hr rest
    induction start with
    | nil => rfl
    | cons x start ih =>
      rw [List.map_cons, List.mem_cons, not_or] at hr
      rw [List.cons_append, upsert, if_neg (Ne.symm hr.1), ih hr.2, List.cons_append]
  induction renames generalizing rest with
  | nil => rfl
  | cons r renames ih =>
    rw [List.foldl_cons, List.foldl_cons, hupsert (h r List.mem_cons_self)]
    exact ih (fun x hx => h x (List.mem_cons_of_mem _ hx)) _

/-- Every occurrence of one literal has the other somewhere before it. -/
def Precedes (first second : Text) (literals : List Text) : Prop :=
  ∀ A B, literals = A ++ second :: B → first ∈ A

theorem precedes_of_not_mem {first second : Text} {literals : List Text} (h : second ∉ literals) :
    Precedes first second literals := by
  rintro A B rfl
  simp at h

theorem Precedes.append {first second : Text} {l₁ l₂ : List Text} (h₁ : Precedes first second l₁)
    (h₂ : Precedes first second l₂) : Precedes first second (l₁ ++ l₂) := by
  intro A B h
  rcases List.append_eq_append_iff.1 h with ⟨C, rfl, hC⟩ | ⟨C, rfl, hC⟩
  · exact List.mem_append_right _ (h₂ C B hC)
  · cases C with
    | nil =>
      have := h₂ [] B hC.symm
      cases this
    | cons c C =>
      obtain ⟨rfl, -⟩ := List.cons.inj hC
      exact h₁ A C rfl

theorem precedes_append_of_mem {first second : Text} {l₁ : List Text} (l₂ : List Text)
    (hfirst : first ∈ l₁) (hsecond : second ∉ l₁) : Precedes first second (l₁ ++ l₂) := by
  intro A B h
  rcases List.append_eq_append_iff.1 h with ⟨C, rfl, -⟩ | ⟨C, rfl, hC⟩
  · exact List.mem_append_left _ hfirst
  · cases C with
    | nil => simpa using hfirst
    | cons c C =>
      obtain ⟨rfl, -⟩ := List.cons.inj hC
      simp at hsecond

theorem precedes_flatMap {α : Type} {first second : Text} (f : α → List Rename) {items : List α}
    (h : ∀ item ∈ items, Precedes first second ((f item).map Prod.fst)) :
    Precedes first second ((items.flatMap f).map Prod.fst) := by
  induction items with
  | nil => exact precedes_of_not_mem (by simp)
  | cons item items ih =>
    rw [List.flatMap_cons, List.map_append]
    exact (h item List.mem_cons_self).append
      (ih fun x hx => h x (List.mem_cons_of_mem _ hx))

theorem Precedes.foldl_upsert {first second : Text} {renames : List Rename}
    (h : Precedes first second (renames.map Prod.fst)) :
    Precedes first second ((renames.foldl upsert []).map Prod.fst) := by
  induction renames using List.reverseRecOn with
  | nil => exact precedes_of_not_mem (by simp)
  | append_singleton renames r ih =>
    have hinit : Precedes first second (renames.map Prod.fst) := by
      intro A B hAB
      exact h A (B ++ [r.1]) (by simp [hAB])
    rw [List.foldl_append, List.foldl_cons, List.foldl_nil, literals_upsert]
    split
    · exact ih hinit
    · rename_i hr
      -- A literal that is new goes to the end, and what precedes it was inserted before.
      by_cases hs : r.1 = second
      · have hfirst : first ∈ renames.map Prod.fst := h (renames.map Prod.fst) [] (by simp [hs])
        refine precedes_append_of_mem _ (mem_literals_foldl_upsert.2 (Or.inl hfirst)) ?_
        rwa [← hs]
      · exact (ih hinit).append (precedes_of_not_mem (by simpa using Ne.symm hs))

end Namespacing
