import Namespacing.Text.Basic
set_option autoImplicit false

namespace Namespacing

namespace Text

theorem replaceAll_nil {p : Text} (r : Text) (hp : p ≠ []) : replaceAll p r [] = [] := by
  cases p with
  | nil => exact absurd rfl hp
  | cons c p => rfl

theorem replaceAll_append_self {p : Text} (r s : Text) (hp : p ≠ []) :
    replaceAll p r (p ++ s) = r ++ replaceAll p r s := by
  cases p with
  | nil => exact absurd rfl hp
  | cons c p =>
    have hs : startsWith (c :: p) (c :: (p ++ s)) = true := startsWith_iff.2 ⟨s, rfl⟩
    change replaceFrom (c :: p) r 0 (c :: (p ++ s)) = r ++ replaceFrom (c :: p) r 0 s
    rw [replaceFrom, if_pos hs, replaceFrom_eq_drop]
    simp

theorem replaceAll_cons {p : Text} (r : Text) (c : Char) (s : Text) (hp : p ≠ [])
    (h : ¬ p <+: c :: s) : replaceAll p r (c :: s) = c :: replaceAll p r s := by
  cases p with
  | nil => exact absurd rfl hp
  | cons d p =>
    have hs : ¬ startsWith (d :: p) (c :: s) = true := by
      rw [startsWith_iff]
      rintro ⟨t, ht⟩
      exact h ⟨t, ht.symm⟩
    change replaceFrom (d :: p) r 0 (c :: s) = c :: replaceFrom (d :: p) r 0 s
    rw [replaceFrom, if_neg hs]

theorem replaceAll_cases {p : Text} (hp : p ≠ []) {motive : Text → Prop} (nil : motive [])
    (found : ∀ s, motive s → motive (p ++ s))
    (kept : ∀ c s, ¬ p <+: c :: s → motive s → motive (c :: s)) (s : Text) : motive s := by
  induction hn : s.length using Nat.strongRecOn generalizing s with
  | ind n ih =>
    subst hn
    cases s with
    | nil => exact nil
    | cons c s =>
      by_cases h : p <+: c :: s
      · obtain ⟨t, ht⟩ := h
        rw [← ht]
        apply found
        refine ih t.length ?_ t rfl
        have hlen : 0 < p.length := List.length_pos_iff.2 hp
        have := congrArg List.length ht
        simp only [List.length_append, List.length_cons] at this ⊢
        omega
      · exact kept c s h (ih s.length (by simp) s rfl)

/-- What holds of a text and is kept by replacing any one occurrence holds after replacing all. -/
theorem replaceAll_induction {p r : Text} (hp : p ≠ []) {motive : Text → Prop}
    (step : ∀ a b, motive (a ++ p ++ b) → motive (a ++ r ++ b)) {s : Text} (h : motive s) :
    motive (replaceAll p r s) := by
  -- The part that was gone through already stands in front.
  suffices ∀ s done, motive (done ++ s) → motive (done ++ replaceAll p r s) from this s [] h
  intro s
  induction s using replaceAll_cases hp with
  | nil =>
    intro done h
    rwa [replaceAll_nil r hp]
  | found s ih =>
    intro done h
    rw [replaceAll_append_self r s hp, ← List.append_assoc]
    apply ih
    apply step
    rwa [List.append_assoc]
  | kept c s hc ih =>
    intro done h
    rw [replaceAll_cons r c s hp hc]
    have := ih (done ++ [c]) (by simpa using h)
    simpa using this

/-- A literal that starts in one text and ends in the next. -/
def Straddles (p w r : Text) : Prop :=
  ∃ w₁ w₂ r₂ r₃, w = w₁ ++ w₂ ∧ r = r₂ ++ r₃ ∧ p = w₂ ++ r₂ ∧ w₂ ≠ [] ∧ r₂ ≠ []

theorem replaceAll_append {p r : Text} (hp : p ≠ []) {h w : Text} (hsplit : ¬ Straddles p w r) :
    replaceAll p h (w ++ r) = replaceAll p h w ++ replaceAll p h r := by
  induction w using replaceAll_cases hp with
  | nil => rw [replaceAll_nil _ hp, List.nil_append, List.nil_append]
  | found s ih =>
    have hs : ¬ Straddles p s r := by
      rintro ⟨w₁, w₂, r₂, r₃, rfl, hrest⟩
      exact hsplit ⟨p ++ w₁, w₂, r₂, r₃, by simp, hrest⟩
    rw [List.append_assoc, replaceAll_append_self _ _ hp, replaceAll_append_self _ _ hp, ih hs,
      List.append_assoc]
  | kept c s hc ih =>
    have hs : ¬ Straddles p s r := by
      rintro ⟨w₁, w₂, r₂, r₃, rfl, hrest⟩
      exact hsplit ⟨c :: w₁, w₂, r₂, r₃, rfl, hrest⟩
    have hcr : ¬ p <+: c :: (s ++ r) := by
      rintro ⟨t, ht⟩
      rw [← List.cons_append] at ht
      rcases List.append_eq_append_iff.1 ht with ⟨x, hx, -⟩ | ⟨x, hx, hx'⟩
      · exact hc ⟨x, hx.symm⟩
      · cases x with
        | nil => exact hc ⟨[], by simpa using hx⟩
        | cons d x => exact hsplit ⟨[], c :: s, d :: x, t, rfl, hx', hx, by simp, by simp⟩
    rw [List.cons_append, replaceAll_cons _ _ _ hp hcr, replaceAll_cons _ _ _ hp hc, ih hs]
    rfl

section

variable {m : Char} {n q s : Text}

/-- The beginning of a result was the beginning of the text when it has no sign of a replacement. -/
theorem prefix_of_prefix_replaceAll {u t : Text} (hu : '\\' ∉ u)
    (h : u <+: replaceAll (m :: n ++ s) (m :: '\\' :: q ++ s) t) : u <+: t := by
  induction t using replaceAll_cases (p := m :: n ++ s) (by simp) generalizing u with
  | nil => rwa [replaceAll_nil _ (by simp)] at h
  | found t ih =>
    rw [replaceAll_append_self _ _ (by simp)] at h
    cases u with
    | nil => exact List.nil_prefix
    | cons c u =>
      simp only [List.cons_append, List.cons_prefix_cons] at h ⊢
      obtain ⟨rfl, h⟩ := h
      cases u with
      | nil => exact ⟨rfl, List.nil_prefix⟩
      | cons d u =>
        rw [List.cons_prefix_cons] at h
        exact absurd (by simp [h.1]) hu
  | kept c t hc ih =>
    rw [replaceAll_cons _ _ _ (by simp) hc] at h
    cases u with
    | nil => exact List.nil_prefix
    | cons d u =>
      rw [List.cons_prefix_cons] at h ⊢
      exact ⟨h.1, ih (fun hmem => hu (List.mem_cons_of_mem _ hmem)) h.2⟩

theorem prefix_replaceAll {u t : Text} (hu : m ∉ u) (h : u ++ [m] <+: t) :
    u ++ [m] <+: replaceAll (m :: n ++ s) (m :: q ++ s) t := by
  induction u generalizing t with
  | nil =>
    obtain ⟨t, rfl⟩ := h
    change [m] <+: replaceAll (m :: n ++ s) (m :: q ++ s) (m :: t)
    by_cases hfound : m :: n ++ s <+: m :: t
    · obtain ⟨t', ht'⟩ := hfound
      rw [← ht', replaceAll_append_self _ _ (by simp)]
      exact ⟨q ++ s ++ replaceAll (m :: n ++ s) (m :: q ++ s) t', by simp⟩
    · rw [replaceAll_cons _ _ _ (by simp) hfound]
      exact ⟨_, rfl⟩
  | cons c u ih =>
    obtain ⟨t, rfl⟩ := h
    have hc : ¬ m :: n ++ s <+: c :: (u ++ [m] ++ t) := by
      intro hpre
      rw [List.cons_append, List.cons_prefix_cons] at hpre
      exact hu (by simp [hpre.1])
    have := ih (t := u ++ [m] ++ t) (fun hmem => hu (List.mem_cons_of_mem _ hmem)) ⟨t, rfl⟩
    change c :: (u ++ [m]) <+: replaceAll (m :: n ++ s) (m :: q ++ s) (c :: (u ++ [m] ++ t))
    rw [replaceAll_cons _ _ _ (by simp) hc, List.cons_prefix_cons]
    exact ⟨rfl, this⟩

theorem eq_nil_of_append_eq {u x c : Text} (hu : m ∉ u) (h : u ++ [m] = x ++ m :: c) : c = [] := by
  rcases List.append_eq_append_iff.1 h with ⟨z, rfl, hz⟩ | ⟨z, rfl, hz⟩
  · cases z with
    | nil => exact (List.cons.inj hz).2.symm
    | cons d z => simp at hz
  · cases z with
    | nil => exact (List.cons.inj hz).2
    | cons d z =>
      obtain ⟨rfl, -⟩ := List.cons.inj hz
      simp at hu

theorem exists_left_of_twice {t : Text} (hn : m ∉ n) (hs : m ∉ s)
    (h : m :: n ++ (s ++ [m]) ++ n ++ (s ++ [m]) <:+: t) :
    ∃ a b, replaceAll (m :: n ++ (s ++ [m])) (m :: q ++ (s ++ [m])) t =
      a ++ (m :: q ++ s) ++ (m :: n ++ (s ++ [m])) ++ b := by
  have hne : m :: n ++ (s ++ [m]) ≠ [] := by simp
  -- What is left follows directly on a replacement.
  have hleft : ∀ u, n ++ (s ++ [m]) <+: u → ∃ a b,
      m :: q ++ (s ++ [m]) ++ replaceAll (m :: n ++ (s ++ [m])) (m :: q ++ (s ++ [m])) u =
        a ++ (m :: q ++ s) ++ (m :: n ++ (s ++ [m])) ++ b := by
    intro u hu
    have hmem : m ∉ n ++ s := by simp [hn, hs]
    rw [← List.append_assoc] at hu
    obtain ⟨b, hb⟩ := prefix_replaceAll (n := n) (q := q) (s := s ++ [m]) hmem hu
    exact ⟨[], b, by rw [← hb]; simp⟩
  induction t using replaceAll_cases hne with
  | nil => simp at h
  | found t ih =>
    rw [replaceAll_append_self _ _ hne]
    obtain ⟨x, y, hxy⟩ := h
    have hsplit : x ++ (m :: (n ++ (s ++ [m]) ++ n ++ (s ++ [m])) ++ y) =
        m :: n ++ (s ++ [m]) ++ t := by rw [← hxy]; simp
    rcases List.append_eq_append_iff.1 hsplit with ⟨c, hc, ht⟩ | ⟨c, rfl, ht⟩
    · cases x with
      | nil =>
        obtain rfl : m :: n ++ (s ++ [m]) = c := hc
        exact hleft t ⟨y, by simpa using ht⟩
      | cons d x =>
        have hc' : n ++ (s ++ [m]) = x ++ c := (List.cons.inj hc).2
        cases c with
        | nil =>
          obtain ⟨a, b, hab⟩ := ih ⟨[], y, by simpa using ht⟩
          exact ⟨m :: q ++ (s ++ [m]) ++ a, b, by rw [hab]; simp⟩
        | cons e c =>
          obtain ⟨rfl, ht'⟩ := List.cons.inj ht
          have hmem : m ∉ n ++ s := by simp [hn, hs]
          obtain rfl := eq_nil_of_append_eq (x := x) (c := c) hmem (by rw [← hc']; simp)
          exact hleft t ⟨n ++ (s ++ [m]) ++ y, by simpa using ht'⟩
    · -- The neighbours stand behind what is replaced.
      obtain ⟨a, b, hab⟩ := ih ⟨c, y, by rw [ht]; simp⟩
      exact ⟨m :: q ++ (s ++ [m]) ++ a, b, by rw [hab]; simp⟩
  | kept c t hc ih =>
    rw [replaceAll_cons _ _ _ hne hc]
    obtain ⟨x, y, hxy⟩ := h
    cases x with
    | nil =>
      refine absurd ⟨n ++ (s ++ [m]) ++ y, ?_⟩ hc
      rw [← hxy]
      simp
    | cons d x =>
      obtain ⟨rfl, ht⟩ := List.cons.inj hxy
      obtain ⟨a, b, hab⟩ := ih ⟨x, y, ht⟩
      exact ⟨d :: a, b, by rw [hab]; simp⟩

/-- What is left follows directly on a replacement and shares a mark with it. -/
theorem twice_of_left {t a b : Text} (hn : n ≠ []) (hback : '\\' ∉ n ++ s) (hns : ∀ c ∈ n, c ∉ s)
    (hq : m ∉ '\\' :: q)
    (h : replaceAll (m :: n ++ s) (m :: '\\' :: q ++ s) t = a ++ (m :: n ++ s) ++ b) :
    ∃ s', s = s' ++ [m] ∧ m :: n ++ s ++ n ++ s <:+: t ∧ m :: '\\' :: q ++ s' <:+ a := by
  have hne : m :: n ++ s ≠ [] := by simp
  induction t using replaceAll_cases hne generalizing a with
  | nil =>
    rw [replaceAll_nil _ hne] at h
    simp at h
  | found t ih =>
    rw [replaceAll_append_self _ _ hne, List.append_assoc a] at h
    rcases List.append_eq_append_iff.1 h with ⟨a', rfl, ht⟩ | ⟨c, hc, ht⟩
    · obtain ⟨s', hs', ⟨x, y, hxy⟩, hsuffix⟩ := ih (a := a') (by rw [ht, List.append_assoc a'])
      refine ⟨s', hs', ⟨m :: n ++ s ++ x, y, by rw [← hxy]; simp⟩, ?_⟩
      exact hsuffix.trans (List.suffix_append _ _)
    · obtain ⟨d, n, rfl⟩ := List.exists_cons_of_ne_nil hn
      cases a with
      | nil =>
        obtain rfl : m :: '\\' :: q ++ s = c := hc
        obtain ⟨-, ht'⟩ := List.cons.inj ht
        exact absurd (by simp [(List.cons.inj ht').1]) hback
      | cons e a =>
        cases c with
        | nil =>
          obtain ⟨s', -, -, hsuffix⟩ := ih (a := []) (by simpa using ht.symm)
          simp at hsuffix
        | cons f c =>
          obtain ⟨rfl, ht'⟩ := List.cons.inj ht
          obtain ⟨x, rfl, rfl⟩ : ∃ x, a = '\\' :: q ++ x ∧ s = x ++ m :: c := by
            rcases List.append_eq_append_iff.1 (List.cons.inj hc).2 with ⟨x, ha, hs⟩ | ⟨x, ha, hs⟩
            · exact ⟨x, ha, hs⟩
            · cases x with
              | nil => exact ⟨[], by simpa using ha.symm, hs.symm⟩
              | cons g x =>
                obtain ⟨rfl, -⟩ := List.cons.inj hs
                exact absurd (ha ▸ by simp) hq
          -- A name starts with no mark, so nothing of the marks stands between the two.
          cases c with
          | nil =>
            have hpre := prefix_of_prefix_replaceAll hback ⟨b, ht'⟩
            obtain ⟨y, rfl⟩ := hpre
            refine ⟨x, rfl, ⟨[], y, by simp⟩, ?_⟩
            rw [← (List.cons.inj hc).1]
            exact List.suffix_rfl
          | cons g c =>
            obtain ⟨rfl, -⟩ := List.cons.inj ht'
            exact absurd (by simp) (hns d List.mem_cons_self)
  | kept c t hc ih =>
    rw [replaceAll_cons _ _ _ hne hc] at h
    cases a with
    | nil =>
      obtain ⟨rfl, hrest⟩ := List.cons.inj h
      have hpre : n ++ s <+: t := prefix_of_prefix_replaceAll hback ⟨b, hrest.symm⟩
      exact absurd (List.cons_prefix_cons.2 ⟨rfl, hpre⟩) hc
    | cons d a =>
      obtain ⟨rfl, hrest⟩ := List.cons.inj h
      obtain ⟨s', hs', hinfix, hsuffix⟩ := ih hrest
      exact ⟨s', hs', List.infix_cons hinfix, hsuffix.trans (List.suffix_cons _ _)⟩

end

end Text

end Namespacing
