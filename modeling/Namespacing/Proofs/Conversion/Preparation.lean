import Namespacing.Proofs.Conversion.Stage
import Namespacing.Proofs.FileSystem.Removal
set_option autoImplicit false

open Namespacing.Path

namespace Namespacing

namespace FileSystem

variable {fs w mid : FileSystem}

/-- Wherever the path goes up, it has come to a directory that is there. -/
def Grounded (fs : FileSystem) (path : Path) : Prop :=
  ∀ before after, segments path = before ++ ['.', '.'] :: after →
    fs.pathIsDirectory (Text.joinWith ['/'] (before ++ [['.', '.']])) = true

theorem grounded_of_not_mem {path : Path} (h : ['.', '.'] ∉ segments path) : fs.Grounded path := by
  intro before after hsegments
  exact absurd (by rw [hsegments]; simp) h

theorem eq_joinWith_or {path : Path} {before after : List Text} {x : Text}
    (h : segments path = before ++ x :: after) :
    path = Text.joinWith ['/'] (before ++ [x]) ∨
      ∃ rest, path = Text.joinWith ['/'] (before ++ [x]) ++ '/' :: rest := by
  have hpieces : ∀ piece ∈ before ++ x :: after, '/' ∉ piece := fun piece hp =>
    Text.not_mem_of_mem_splitOn (s := path) (by rw [← segments, h]; exact hp)
  have hpath := Text.joinWith_splitOn '/' path
  rw [← segments, h] at hpath
  cases after with
  | nil => exact Or.inl hpath.symm
  | cons y after =>
    refine Or.inr ⟨Text.joinWith ['/'] (y :: after), ?_⟩
    have hfront := @Text.splitOn_joinWith '/' (before ++ [x]) (by simp) fun piece hp =>
      hpieces piece (by simp at hp ⊢; rcases hp with hp | hp <;> simp [hp])
    have hback := @Text.splitOn_joinWith '/' (y :: after) (by simp) fun piece hp =>
      hpieces piece (by simp at hp ⊢; rcases hp with hp | hp <;> simp [hp])
    have hsplit := Text.splitOn_append '/' (Text.joinWith ['/'] (before ++ [x]))
      (Text.joinWith ['/'] (y :: after))
    rw [hfront, hback, List.append_assoc, List.singleton_append] at hsplit
    rw [← hpath, ← hsplit]
    exact Text.joinWith_splitOn '/' _

theorem Grounded.anchored {path : Path} (h : fs.Grounded path) :
    fs.Anchored (isAbsolute path) (steps path) := by
  rintro xs ⟨rest, hrest⟩
  rw [steps, List.append_assoc] at hrest
  obtain ⟨front, back, hsegments, rfl, hback⟩ := List.filter_eq_append_iff.1 hrest.symm
  obtain ⟨idle, after, rfl, hidle, -, -⟩ := List.filter_eq_cons_iff.1 hback
  rw [← List.append_assoc] at hsegments
  have hdir := h (front ++ idle) after hsegments
  have hpieces : ∀ piece ∈ (front ++ idle) ++ [['.', '.']], '/' ∉ piece := by
    intro piece hp
    refine Text.not_mem_of_mem_splitOn (s := path) ?_
    rw [← segments, hsegments]
    rcases List.mem_append.1 hp with hp | hp
    · exact List.mem_append_left _ hp
    · rw [List.mem_singleton.1 hp]
      simp
  have hsplit := Text.splitOn_joinWith (by simp) hpieces
  obtain ⟨-, k, place, hreaches⟩ := pathIsDirectory_iff.1 hdir
  refine ⟨k, place, ?_⟩
  have hsteps : steps (Text.joinWith ['/'] ((front ++ idle) ++ [['.', '.']])) =
      front.filter (fun s => !isIdle s) ++ [['.', '.']] := by
    have hnone : idle.filter (fun s => !isIdle s) = [] := List.filter_eq_nil_iff.2 hidle
    rw [steps, segments, hsplit, List.filter_append, List.filter_append, hnone, List.append_nil]
    rfl
  have habs : isAbsolute (Text.joinWith ['/'] ((front ++ idle) ++ [['.', '.']])) = isAbsolute path := by
    have hne : Text.joinWith ['/'] ((front ++ idle) ++ [['.', '.']]) ≠ [] := by
      intro heq
      rw [heq] at hsteps
      simp [steps, segments, Text.splitOn, isIdle] at hsteps
    rcases eq_joinWith_or hsegments with heq | ⟨rest, heq⟩
    · rw [← heq]
    · obtain ⟨c, q, hq⟩ := List.exists_cons_of_ne_nil hne
      rw [heq, hq]
      rfl
  rw [← hsteps, ← habs]
  exact hreaches

theorem Followable.of_append {a b : Path} (hne : a ≠ []) (h : Followable (a ++ b)) : Followable a where
  nul hnul := h.nul (List.mem_append_left _ hnul)
  nonempty := hne
  size := by
    have := h.size
    rw [Text.utf8Size_append] at this
    omega

section

variable {tree path : Path} {before before' : List Text} {x x' : Text} {line : List Name}
  (htree : segments tree = before ++ [x]) (hx : IsDown x)
  (hpath : segments path = before' ++ [x']) (hx' : isIdle x' = false)
  (hleads : Leads (isAbsolute tree) (steps tree) path line) (hline : ∀ name ∈ line, IsDown name)
  (hbelow : ∃ rest, path = tree ++ rest)

include htree hx hpath hx' hleads hline hbelow

theorem exists_fresh (hanchored : w.Anchored (isAbsolute tree) (steps tree))
    (hwipe : fs.removeDirectories tree = (.ok (), w))
    (hcreate : w.createDirectories path = (.ok (), mid)) :
    Followable tree ∧ ∃ k top, Fresh mid (isAbsolute tree) (steps tree) line k top ∧
      Stage mid line top ⟨line, fun _ => none⟩ mid := by
  have hfollowable : Followable tree := by
    have := followable_of_createDirectories (ne_nil_of_segments hpath hx') hcreate
    obtain ⟨rest, rfl⟩ := hbelow
    exact this.of_append (ne_nil_of_segments htree hx.1)
  have hgone : ∀ k place, ¬ w.Reaches (isAbsolute tree) (steps tree) k place := fun k place =>
    not_reaches_of_removeDirectories htree hx hfollowable hwipe
  have hanchored' := hanchored.append_down hline
  rw [← hleads.steps, ← hleads.absolute] at hanchored'
  obtain ⟨pre, ys, k, place, hmade⟩ := createDirectories_ok hpath hx' hanchored' hcreate
  rw [hleads.steps, hleads.absolute] at hmade
  -- What was there ends before the last step of the tree.
  obtain ⟨names, hnames, hsteps, rfl⟩ : ∃ names, names ≠ [] ∧ steps tree = pre ++ names ∧
      ys = names ++ line := by
    have hpre : pre <+: steps tree ++ line := ⟨ys, hmade.steps.symm⟩
    rcases List.prefix_or_prefix_of_prefix hpre (List.prefix_append _ line) with
      ⟨names, hnames⟩ | ⟨rest, hrest⟩
    · refine ⟨names, ?_, hnames.symm, ?_⟩
      · rintro rfl
        rw [List.append_nil] at hnames
        rw [hnames] at hmade
        exact hgone k place hmade.reaches
      · have := hmade.steps
        rw [← hnames, List.append_assoc, List.append_cancel_left_eq] at this
        exact this.symm
    · exfalso
      have hreaches := hmade.reaches
      rw [← hrest] at hreaches
      obtain ⟨k₁, place₁, htree⟩ := hreaches.exists_of_append
      exact hgone k₁ place₁ htree
  have hadds := hmade.adds
  have hextends := hadds.extends
  have hinside := hadds.get?_inside hnames
  refine ⟨hfollowable, k, names.reverse ++ place, ⟨?_, hanchored.extend hextends, hinside, ?_⟩, ?_⟩
  · have hstart := hmade.reaches.extend hextends
    rw [hsteps]
    refine ⟨hstart.start, hstart.walks.append (walks_down ?_ ?_)⟩
    · exact fun y hy => hmade.down y (List.mem_append_left _ hy)
    · exact fun zs hne hzs => hadds.added zs hne (hzs.trans (List.prefix_append _ _))
  · intro init y hinit
    obtain ⟨names', hnames'⟩ : ∃ names', names = names' ++ [y] := by
      rcases List.eq_nil_or_concat names with hnil | ⟨names', z, hconcat⟩
      · exact absurd hnil hnames
      · rw [List.concat_eq_append] at hconcat
        rw [hsteps, hconcat, ← List.append_assoc] at hinit
        exact ⟨names', by rw [hconcat, (List.append_inj' hinit rfl).2]⟩
    subst hnames'
    obtain rfl : pre ++ names' = init := by
      rw [hsteps, ← List.append_assoc] at hinit
      exact (List.append_inj' hinit rfl).1
    have hstart := hmade.reaches.extend hextends
    refine ⟨names'.reverse ++ place, ⟨hstart.start, hstart.walks.append (walks_down ?_ ?_)⟩, by simp⟩
    · exact fun z hz => hmade.down z (by simp [hz])
    · exact fun zs hne hzs => hadds.added zs hne (hzs.trans ⟨[y] ++ line, by simp⟩)
  · refine ⟨rfl, fun _ _ => rfl, fun zs => ?_, List.prefix_rfl, fun y hy => ?_, fun _ _ hfile => ?_⟩
    · rw [hinside]
      rfl
    · exact hmade.down y (List.mem_append_right _ hy)
    · cases hfile

end

end FileSystem

end Namespacing
