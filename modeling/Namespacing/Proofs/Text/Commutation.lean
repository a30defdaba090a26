import Namespacing.Proofs.Text.Replacement
set_option autoImplicit false

namespace Namespacing

namespace Text

/-- A replacement with the middle of the literal that it changes and what stands around the middle. -/
structure Edit where
  front : Text
  old : Text
  new : Text
  back : Text

namespace Edit

def literal (e : Edit) : Text := e.front ++ e.old ++ e.back

def replacement (e : Edit) : Text := e.front ++ e.new ++ e.back

def apply (e : Edit) (text : Text) : Text := replaceAll e.literal e.replacement text

structure Proper (e : Edit) : Prop where
  left : e.front ++ e.old ≠ []
  right : e.old ++ e.back ≠ []

theorem Proper.literal_ne_nil {e : Edit} (h : e.Proper) : e.literal ≠ [] := by
  intro hnil
  exact h.left (List.append_eq_nil_iff.1 hnil).1

/-- The other literal occurs on one side of the place that an edit changes, and never across it. -/
def Apart (e other : Edit) : Prop :=
  ∀ middle ∈ [e.old, e.new], ∀ x y a b,
    x ++ e.front ++ middle ++ (e.back ++ y) = a ++ other.literal ++ b →
      (∃ c, x ++ e.front = a ++ other.literal ++ c) ∨ (∃ c, e.back ++ y = c ++ other.literal ++ b)

variable {e other : Edit}

theorem Apart.literal_ne (h : Apart e other) (he : e.Proper) : e.literal ≠ other.literal := by
  intro heq
  have hlen := congrArg List.length heq
  have hleft := List.length_pos_iff.2 he.left
  have hright := List.length_pos_iff.2 he.right
  simp only [literal, List.length_append] at hlen hleft hright
  rcases h e.old (by simp) [] [] [] [] (by simpa [literal] using heq) with ⟨c, hc⟩ | ⟨c, hc⟩
  · have := congrArg List.length hc
    simp only [literal, List.length_append, List.length_nil] at this
    omega
  · have := congrArg List.length hc
    simp only [literal, List.length_append, List.length_nil] at this
    omega

section

variable {middle : Text} (hmiddle : middle ∈ [e.old, e.new]) (h : Apart e other)

include hmiddle h

theorem Apart.not_straddles_left (x y : Text) :
    ¬ Straddles other.literal (x ++ e.front) (middle ++ (e.back ++ y)) := by
  rintro ⟨w₁, w₂, r₂, r₃, hw, hr, hp, hw₂, hr₂⟩
  have hsplit : x ++ e.front ++ middle ++ (e.back ++ y) = w₁ ++ other.literal ++ r₃ := by
    rw [hp, List.append_assoc, hw, hr]
    simp
  have hlen₂ := List.length_pos_iff.2 hw₂
  have hlen₃ := List.length_pos_iff.2 hr₂
  have hlenr := congrArg List.length hr
  have hlenp := congrArg List.length hp
  rcases h middle hmiddle x y w₁ r₃ hsplit with ⟨c, hc⟩ | ⟨c, hc⟩
  · have := congrArg List.length (hw.symm.trans hc)
    simp only [List.length_append] at this hlenp
    omega
  · have := congrArg List.length hc
    simp only [List.length_append] at this hlenp hlenr
    omega

theorem Apart.not_straddles_right (y : Text) :
    ¬ Straddles other.literal middle (e.back ++ y) := by
  rintro ⟨w₁, w₂, r₂, r₃, hw, hr, hp, hw₂, hr₂⟩
  have hsplit : [] ++ e.front ++ middle ++ (e.back ++ y) = e.front ++ w₁ ++ other.literal ++ r₃ := by
    rw [hp, hw, hr]
    simp
  have hlen₂ := List.length_pos_iff.2 hw₂
  have hlen₃ := List.length_pos_iff.2 hr₂
  have hlenr := congrArg List.length hr
  have hlenp := congrArg List.length hp
  rcases h middle hmiddle [] y _ r₃ hsplit with ⟨c, hc⟩ | ⟨c, hc⟩
  · have := congrArg List.length hc
    simp only [List.length_append, List.length_nil] at this hlenp
    omega
  · have := congrArg List.length hc
    simp only [List.length_append] at this hlenp hlenr
    omega

theorem Apart.apply_middle (hother : other.Proper) : other.apply middle = middle := by
  apply replaceAll_of_not_contains
  rw [Bool.eq_false_iff, ne_eq, contains_iff]
  rintro ⟨u, v, huv⟩
  have hlen := List.length_pos_iff.2 hother.literal_ne_nil
  have hsplit : [] ++ e.front ++ middle ++ (e.back ++ []) =
      e.front ++ u ++ other.literal ++ (v ++ e.back) := by
    rw [huv]
    simp
  rcases h middle hmiddle [] [] _ _ hsplit with ⟨c, hc⟩ | ⟨c, hc⟩
  · have := congrArg List.length hc
    simp only [List.length_append, List.length_nil] at this
    omega
  · have := congrArg List.length hc
    simp only [List.length_append, List.length_nil] at this
    omega

theorem Apart.apply_around (hother : other.Proper) (x y : Text) :
    other.apply (x ++ e.front ++ middle ++ (e.back ++ y)) =
      other.apply (x ++ e.front) ++ middle ++ other.apply (e.back ++ y) := by
  have hne := hother.literal_ne_nil
  have happly := h.apply_middle hmiddle hother
  unfold apply at happly ⊢
  rw [List.append_assoc, replaceAll_append hne (h.not_straddles_left hmiddle x y),
    replaceAll_append hne (h.not_straddles_right hmiddle y), happly, List.append_assoc]

end

/-- The literal stands behind the text and overlaps no earlier occurrence. -/
def First (literal u : Text) : Prop :=
  ∀ x y, u ++ literal = x ++ literal ++ y → y = []

theorem exists_first {p t : Text} (h : contains p t = true) (hp : p ≠ []) :
    ∃ u v, t = u ++ p ++ v ∧ First p u := by
  induction t with
  | nil =>
    obtain ⟨a, b, hab⟩ := contains_iff.1 h
    have := (List.append_eq_nil_iff.1 (List.append_eq_nil_iff.1 hab.symm).1).2
    exact absurd this hp
  | cons c t ih =>
    by_cases hpre : p <+: c :: t
    · obtain ⟨v, hv⟩ := hpre
      refine ⟨[], v, hv.symm, fun x y hxy => ?_⟩
      have := congrArg List.length hxy
      simp only [List.length_append, List.length_nil] at this
      exact List.eq_nil_of_length_eq_zero (by omega)
    · rw [contains, Bool.or_eq_true, startsWith_iff] at h
      rcases h with ⟨r, hr⟩ | h
      · exact absurd ⟨r, hr.symm⟩ hpre
      obtain ⟨u, v, rfl, hfirst⟩ := ih h
      refine ⟨c :: u, v, rfl, fun x y hxy => ?_⟩
      cases x with
      | nil =>
        refine absurd ⟨y ++ v, ?_⟩ hpre
        rw [← List.append_assoc, ← List.cons_append, ← List.cons_append, hxy]
        rfl
      | cons d x => exact hfirst x y (List.cons.inj hxy).2

theorem replaceAll_first {p u : Text} (r v : Text) (hp : p ≠ []) (h : First p u) :
    replaceAll p r (u ++ p ++ v) = u ++ r ++ replaceAll p r v := by
  induction u with
  | nil => exact replaceAll_append_self r v hp
  | cons c u ih =>
    have hkept : ¬ p <+: c :: (u ++ p ++ v) := by
      rintro ⟨t, ht⟩
      have hle : p.length ≤ (c :: (u ++ p)).length := by
        simp only [List.length_cons, List.length_append]
        omega
      obtain ⟨y, hy⟩ : p <+: c :: (u ++ p) :=
        List.prefix_of_prefix_length_le ⟨t, ht⟩ ⟨v, by simp⟩ hle
      have hnil := h [] y hy.symm
      have := congrArg List.length hy
      simp only [hnil, List.length_append, List.length_cons, List.length_nil] at this
      omega
    rw [List.cons_append, List.cons_append, replaceAll_cons r c _ hp hkept,
      ih fun x y hxy => h (c :: x) y (congrArg (c :: ·) hxy)]
    rfl

/-- No edit reaches into a text in front. -/
def Settled (other : Edit) (g : Text) : Prop :=
  ∀ a b rest, a ++ other.literal ++ b = g ++ rest → ∃ c, a ++ other.front = g ++ c

theorem settled_nil (other : Edit) : Settled other [] :=
  fun a _ _ _ => ⟨a ++ other.front, rfl⟩

theorem Apart.settled_literal (h : Apart other e) (hother : other.Proper) :
    Settled other e.literal := by
  intro a b rest hsplit
  have hsplit' : a ++ other.front ++ other.old ++ (other.back ++ b) = [] ++ e.literal ++ rest := by
    simpa [literal] using hsplit
  rcases h other.old (by simp) a b [] rest hsplit' with ⟨c, hc⟩ | ⟨c, hc⟩
  · exact ⟨c, hc⟩
  · -- Nothing of the other literal would stand before the first one.
    have hlen := congrArg List.length hsplit'
    have hlen' := congrArg List.length hc
    have hleft := List.length_pos_iff.2 hother.left
    simp only [List.length_append, List.length_nil] at hlen hlen' hleft
    omega

theorem Apart.apply_front (h : Apart other e) (hother : other.Proper) :
    other.apply e.front = e.front := by
  apply replaceAll_of_not_contains
  rw [Bool.eq_false_iff, ne_eq, contains_iff]
  rintro ⟨a, b, hab⟩
  have hsplit : a ++ other.literal ++ (b ++ e.old ++ e.back) = e.literal ++ [] := by
    have := congrArg (· ++ (e.old ++ e.back)) hab
    simpa [literal] using this.symm
  obtain ⟨c, hc⟩ := h.settled_literal hother _ _ _ hsplit
  have hlen := congrArg List.length hsplit
  have hlen' := congrArg List.length hc
  have hright := List.length_pos_iff.2 hother.right
  simp only [literal, List.length_append, List.length_nil] at hlen hlen' hright
  omega

theorem Settled.exists_replaced {g a b rest : Text} (h : Settled other g)
    (hsplit : a ++ other.literal ++ b = g ++ rest) :
    ∃ c, a ++ other.front = g ++ c ∧ rest = c ++ other.old ++ other.back ++ b ∧
      a ++ other.replacement ++ b = g ++ (c ++ other.new ++ other.back ++ b) := by
  obtain ⟨c, hc⟩ := h a b rest hsplit
  refine ⟨c, hc, ?_, ?_⟩
  · apply (List.append_right_inj g).1
    rw [← hsplit]
    simp only [literal, ← List.append_assoc, hc]
  · simp only [replacement, ← List.append_assoc, hc]

theorem Settled.apply_eq {g : Text} (h : Settled other g) (hother : other.Proper) (t : Text) :
    ∃ d, other.apply (g ++ t) = g ++ d := by
  refine replaceAll_induction hother.literal_ne_nil (motive := fun text => ∃ d, text = g ++ d)
    (fun a b hab => ?_) ⟨t, rfl⟩
  obtain ⟨rest, hrest⟩ := hab
  obtain ⟨c, -, -, hnew⟩ := h.exists_replaced hrest
  exact ⟨_, hnew⟩

section

variable {g : Text} (hg : Settled other g) (h : Apart e other) (h' : Apart other e)
  (he : e.Proper) (hother : other.Proper)

include hg h' hother

/-- The other edit brings in no occurrence of the literal. -/
theorem Apart.contains_apply {t d : Text} (ht : contains e.literal t = false)
    (hd : other.apply (g ++ t) = g ++ d) : contains e.literal d = false := by
  have hmotive : ∃ d', other.apply (g ++ t) = g ++ d' ∧ contains e.literal d' = false := by
    refine replaceAll_induction hother.literal_ne_nil
      (motive := fun text => ∃ d', text = g ++ d' ∧ contains e.literal d' = false)
      (fun a b hab => ?_) ⟨t, rfl, ht⟩
    obtain ⟨rest, hrest, hnot⟩ := hab
    obtain ⟨c, hc, rfl, hnew⟩ := hg.exists_replaced hrest
    refine ⟨_, hnew, ?_⟩
    rw [Bool.eq_false_iff, ne_eq, contains_iff] at hnot ⊢
    rintro ⟨x, y, hxy⟩
    have hsplit : a ++ other.front ++ other.new ++ (other.back ++ b) = (g ++ x) ++ e.literal ++ y := by
      have := congrArg (g ++ ·) hxy
      simpa only [hc, List.append_assoc] using this
    rcases h' other.new (by simp) a b (g ++ x) y hsplit with ⟨z, hz⟩ | ⟨z, hz⟩
    · rw [hc, List.append_assoc, List.append_assoc] at hz
      refine hnot ⟨x, z ++ other.old ++ other.back ++ b, ?_⟩
      rw [List.append_cancel_left hz]
      simp
    · refine hnot ⟨c ++ other.old ++ z, y, ?_⟩
      rw [List.append_assoc _ other.back, hz]
      simp
  obtain ⟨d', hd', hnot⟩ := hmotive
  rwa [List.append_cancel_left (hd.symm.trans hd')]

include he

theorem Apart.apply_before {u : Text} (hu : First e.literal u) :
    ∃ w, other.apply (g ++ u ++ e.front) = g ++ w ++ e.front ∧ First e.literal w := by
  refine replaceAll_induction hother.literal_ne_nil
    (motive := fun text => ∃ w, text = g ++ w ++ e.front ∧ First e.literal w)
    (fun a b hab => ?_) ⟨u, rfl, hu⟩
  obtain ⟨w, hw, hfirst⟩ := hab
  have hwhole : a ++ other.front ++ other.old ++ (other.back ++ (b ++ e.old ++ e.back)) =
      (g ++ w) ++ e.literal ++ [] := by
    have : a ++ other.literal ++ b ++ (e.old ++ e.back) = g ++ w ++ e.front ++ (e.old ++ e.back) := by
      rw [hw]
    simpa [literal] using this
  -- The middle of the other literal stands before what is kept.
  obtain ⟨c, hback⟩ : ∃ c, other.back ++ b = c ++ e.front := by
    rcases h' other.old (by simp) a _ (g ++ w) [] hwhole with ⟨z, hz⟩ | ⟨z, hz⟩
    · have hlen := congrArg List.length hwhole
      have hlen' := congrArg List.length hz
      have hright := List.length_pos_iff.2 hother.right
      simp only [List.length_append, List.length_nil] at hlen hlen' hright
      omega
    · refine ⟨z, ?_⟩
      apply (List.append_left_inj (e.old ++ e.back)).1
      simpa [literal] using hz
  have hgw : a ++ other.front ++ (other.old ++ c) = g ++ w := by
    apply (List.append_left_inj e.front).1
    rw [← hw, literal]
    simp only [List.append_assoc, hback]
  obtain ⟨c', hc'⟩ := hg a b (w ++ e.front) (by rw [hw, List.append_assoc])
  obtain rfl : w = c' ++ other.old ++ c := by
    apply (List.append_right_inj g).1
    rw [← hgw, hc']
    simp
  refine ⟨c' ++ other.new ++ c, ?_, ?_⟩
  · rw [replacement]
    simp only [← List.append_assoc, hc']
    simp only [List.append_assoc, hback]
  · intro x y hxy
    have hsplit : a ++ other.front ++ other.new ++ (other.back ++ (b ++ e.old ++ e.back)) =
        (g ++ x) ++ e.literal ++ y := by
      have hrest : other.back ++ (b ++ e.old ++ e.back) = c ++ e.literal := by
        rw [literal]
        simp only [← List.append_assoc, hback]
      have := congrArg (g ++ ·) hxy
      rw [hrest, hc']
      simpa only [List.append_assoc] using this
    rcases h' other.new (by simp) a _ (g ++ x) y hsplit with ⟨z, hz⟩ | ⟨z, hz⟩
    · rw [hc', List.append_assoc, List.append_assoc] at hz
      have hz := List.append_cancel_left hz
      have := hfirst x (z ++ other.old ++ c ++ e.literal) (by rw [hz]; simp)
      exact absurd (List.append_eq_nil_iff.1 this).2 he.literal_ne_nil
    · apply hfirst (c' ++ other.old ++ z) y
      have hrest : c ++ e.literal = z ++ e.literal ++ y := by
        rw [← hz, literal]
        simp only [← List.append_assoc, hback]
      rw [List.append_assoc _ c, hrest]
      simp

include h

theorem Apart.apply_behind {t d : Text} (hd : other.apply (g ++ t) = g ++ d) :
    other.apply (g ++ e.apply t) = g ++ e.apply d := by
  induction hn : t.length using Nat.strongRecOn generalizing g t d with
  | ind n ih =>
    subst hn
    cases ht : contains e.literal t with
    | false =>
      have hdt := h'.contains_apply hg hother ht hd
      unfold apply at hd ⊢
      rw [replaceAll_of_not_contains ht, replaceAll_of_not_contains hdt, hd]
    | true =>
      obtain ⟨u, v, rfl, hu⟩ := exists_first ht he.literal_ne_nil
      obtain ⟨w, hw, hfirst⟩ := h'.apply_before hg he hother hu
      have hsettled := h'.settled_literal hother
      -- The text behind the occurrence is shorter, and the occurrence is settled.
      obtain ⟨d', hd'⟩ := hsettled.apply_eq hother v
      have hlen : v.length < (u ++ e.literal ++ v).length := by
        have := List.length_pos_iff.2 he.literal_ne_nil
        simp only [List.length_append]
        omega
      have hbehind := ih v.length hlen hsettled hd' rfl
      have hback : ∀ s s', other.apply (e.literal ++ s) = e.literal ++ s' →
          other.apply (e.back ++ s) = e.back ++ s' := by
        intro s s' hs
        have haround := h.apply_around (show e.old ∈ [e.old, e.new] by simp) hother [] s
        rw [List.nil_append, h'.apply_front hother, ← List.append_assoc] at haround
        apply (List.append_right_inj (e.front ++ e.old)).1
        rw [← haround, ← List.append_assoc]
        exact hs
      have holds : other.apply (g ++ (u ++ e.literal ++ v)) = g ++ (w ++ e.literal ++ d') := by
        have := h.apply_around (show e.old ∈ [e.old, e.new] by simp) hother (g ++ u) v
        rw [hw, hback v d' hd'] at this
        simpa [literal] using this
      have hnews : other.apply (g ++ (u ++ e.replacement ++ e.apply v)) =
          g ++ (w ++ e.replacement ++ e.apply d') := by
        have := h.apply_around (show e.new ∈ [e.old, e.new] by simp) hother (g ++ u) (e.apply v)
        rw [hw, hback _ _ hbehind] at this
        simpa [replacement] using this
      obtain rfl := List.append_cancel_left (hd.symm.trans holds)
      have hleft : e.apply (u ++ e.literal ++ v) = u ++ e.replacement ++ e.apply v :=
        replaceAll_first _ _ he.literal_ne_nil hu
      have hright : e.apply (w ++ e.literal ++ d') = w ++ e.replacement ++ e.apply d' :=
        replaceAll_first _ _ he.literal_ne_nil hfirst
      rw [hleft, hright, hnews]

end

theorem apply_comm (h : Apart e other) (h' : Apart other e) (he : e.Proper) (hother : other.Proper)
    (t : Text) : other.apply (e.apply t) = e.apply (other.apply t) :=
  h.apply_behind (settled_nil other) h' he hother rfl

end Edit

end Text

end Namespacing
