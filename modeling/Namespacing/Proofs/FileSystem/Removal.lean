import Namespacing.Proofs.FileSystem.Directories
set_option autoImplicit false

open Namespacing.Path

namespace Namespacing

namespace FileSystem

variable {fs fs' : FileSystem}

theorem grows_clear (place : Location) : Grows (fs.clear place) fs where
  workingDirectory := rfl
  entry other entry h := by
    rw [get?_clear] at h
    split at h
    · cases h
    · exact h

theorem grows_removeTree (place : Location) : Grows (fs.removeTree place) fs := by
  cases place with
  | nil => exact .refl
  | cons name parent =>
    refine ⟨rfl, fun other entry h => ?_⟩
    rw [get?_removeTree] at h
    split at h
    · cases h
    · exact h

theorem grows_removeEmpty (path : Path) : Grows (fs.removeEmpty path).2 fs := by
  unfold removeEmpty
  split
  · exact .refl
  · exact .refl
  · exact .refl
  · rename_i parent name _ _
    split
    · exact .refl
    · exact grows_removeTree (name :: parent)
    · exact .refl
    · exact .refl

theorem grows_removeDirectories (path : Path) : Grows (fs.removeDirectories path).2 fs := by
  unfold removeDirectories
  split
  · exact .refl
  · split
    · exact .refl
    · exact grows_removeTree _
    · exact .refl
    · exact (grows_removeEmpty path).trans (grows_clear _)

section

variable {path : Path} {before : List Text} {x : Text} {last : LastStep}

theorem named_of_locate (hsegments : segments path = before ++ [x]) (hx : IsDown x)
    (hlast : last.step false = .onto) {spot : Spot} (h : fs.locate last path = .ok spot) :
    ∃ k place, fs.Reaches (isAbsolute path) (before.filter fun s => !isIdle s) k place ∧
      spot = .named place x false := by
  obtain ⟨k, place, hreaches, hfollows⟩ := exists_reaches_of_locate h hsegments hx
  have hstep : stepOf last [] = .onto := hlast
  refine ⟨k, place, hreaches, ?_⟩
  cases hfollows with
  | idle hidle => exact absurd hx (not_isDown_of_isIdle hidle)
  | up => exact absurd hx not_isDown_up
  | before => rfl
  | stop => rfl
  | enter _ _ hrest => cases hrest
  | link _ _ hthrough =>
    rw [hstep] at hthrough
    cases hthrough

theorem get?_removeTree_of_not_within {top place : Location} (h : within top place = false) :
    (fs.removeTree top).get? place = fs.get? place := by
  cases top with
  | nil => rfl
  | cons name parent => rw [get?_removeTree, h, if_neg (by decide)]

/-- Nothing outside the place that a path names is touched. -/
theorem get?_removeDirectories (hsegments : segments path = before ++ [x]) (hx : IsDown x)
    {place : Location}
    (hout : ∀ top found, fs.linkStat path = .ok (top, found) → within top place = false) :
    (fs.removeDirectories path).2.get? place = fs.get? place := by
  unfold removeDirectories
  split
  · rfl
  · split
    · rfl
    · rename_i top target hstat
      exact get?_removeTree_of_not_within (hout top _ hstat)
    · rfl
    · rename_i top hstat
      have hwithin := hout top _ hstat
      have hclear : (fs.clear top).get? place = fs.get? place := by
        rw [get?_clear, if_neg]
        rw [hwithin]
        exact fun h => by cases h.2
      -- The empty directory that is removed at the end is the one that was cleared.
      have htop : ∀ parent name slash, (fs.clear top).locate .name path =
          .ok (.named parent name slash) → name :: parent = top := by
        intro parent name slash hlocate
        obtain ⟨k, p, hreaches, hspot⟩ := named_of_locate hsegments hx rfl hlocate
        obtain ⟨rfl, rfl, -⟩ := Spot.named.inj hspot
        unfold linkStat at hstat
        split at hstat
        · cases hstat
        · rename_i spot hlocate'
          obtain ⟨k', p', hreaches', rfl⟩ := named_of_locate hsegments hx rfl hlocate'
          obtain ⟨-, rfl⟩ := ((grows_clear top).reaches hreaches).unique hreaches'
          rw [entryAt] at hstat
          split at hstat
          · cases hstat
          · cases hstat
            rfl
          · split at hstat <;> cases hstat
            rfl
      rw [← hclear]
      unfold removeEmpty
      split
      · rfl
      · rfl
      · rfl
      · rename_i parent name slash hlocate
        split
        · rfl
        · apply get?_removeTree_of_not_within
          rwa [htop parent name slash hlocate]
        · rfl
        · rfl

theorem not_reaches_of_removeDirectories (hsegments : segments path = before ++ [x]) (hx : IsDown x)
    (hpath : Followable path) (h : fs.removeDirectories path = (.ok (), fs')) {k : Nat}
    {place : Location} : ¬ fs'.Reaches (isAbsolute path) (steps path) k place := by
  intro hreaches
  have hgrows : Grows (fs.removeDirectories path).2 fs := grows_removeDirectories path
  rw [h] at hgrows
  have hexists : fs.pathExists path = true := by
    rw [pathExists, stat_directory_iff.2 ⟨hpath, k, hgrows.reaches hreaches⟩]
  rw [steps_of_segments hsegments hx.1] at hreaches
  obtain ⟨k₀, parent, hbefore⟩ := hreaches.exists_of_append
  obtain ⟨hsize, hnext⟩ := hbefore.get?_next hreaches hx
  obtain ⟨entry, hget⟩ : ∃ entry, fs'.get? (x :: parent) = some entry := by
    rcases hnext with hget | ⟨target, hget⟩
    · exact ⟨_, hget⟩
    · exact ⟨_, hget⟩
  -- On every disk between the two the path names this place.
  have hlocate : ∀ disk : FileSystem, Grows fs' disk → ∀ last : LastStep, last.step false = .onto →
      disk.locate last path = .ok (.named parent x false) := by
    intro disk hdisk last hlast
    refine ((hdisk.reaches hbefore).locate_last hpath hsegments hx ?_).2 hsize fun _ _ => hlast
    rw [hlast]
    exact fun h => by cases h
  have hgone : ∀ disk : FileSystem, fs' = disk.removeTree (x :: parent) → False := by
    rintro disk rfl
    have hself : within (x :: parent) (x :: parent) = true := within_iff.2 ⟨[], rfl⟩
    rw [get?_removeTree, hself] at hget
    cases hget
  have hstat : fs.linkStat path = .ok (x :: parent, entry) := by
    rw [linkStat, hlocate fs hgrows .entry rfl]
    change fs.entryAt (.named parent x false) = _
    rw [entryAt, hgrows.entry _ _ hget]
    cases entry <;> rfl
  rw [removeDirectories, if_neg (by simp [hexists]), hstat] at h
  cases entry with
  | link target => exact hgone fs (Prod.mk.inj h).2.symm
  | file content => cases (Prod.mk.inj h).1
  | directory =>
    change (fs.clear (x :: parent)).removeEmpty path = (.ok (), fs') at h
    have hcleared : Grows ((fs.clear (x :: parent)).removeEmpty path).2 (fs.clear (x :: parent)) :=
      grows_removeEmpty path
    rw [h] at hcleared
    rw [removeEmpty, hlocate _ hcleared .name rfl] at h
    dsimp only at h
    split at h
    · rename_i hnone
      have := hcleared.entry _ _ hget
      rw [get?, hnone] at this
      cases this
    · exact hgone _ (Prod.mk.inj h).2.symm
    · cases (Prod.mk.inj h).1
    · cases (Prod.mk.inj h).1

end

end FileSystem

end Namespacing
