import Namespacing.Proofs.FileSystem.Directories
set_option autoImplicit false

open Namespacing.Path

namespace Namespacing

namespace FileSystem

variable {fs fs' : FileSystem}

structure Fills (fs : FileSystem) (place : Location) (content : Bytes) (fs' : FileSystem) : Prop where
  workingDirectory : fs'.workingDirectory = fs.workingDirectory
  self : fs'.get? place = some (.file content)
  other : ∀ p, p ≠ place → fs'.get? p = fs.get? p

theorem fills_put {x : Name} {place : Location} (hname : isName x = true)
    (hparent : fs.isDirectory place = true) (hfile : fs.isDirectory (x :: place) = false)
    (content : Bytes) : Fills fs (x :: place) content (fs.put (x :: place) (.file content)) where
  workingDirectory := workingDirectory_put _ _
  self := get?_put_self hname hparent hfile
  other _ hne := get?_put_of_ne hne

section

variable {path : Path} {before : List Text} {x : Text} {k : Nat} {place : Location}
  (hreaches : fs.Reaches (isAbsolute path) (before.filter fun s => !isIdle s) k place)
  (hsegments : segments path = before ++ [x]) (hname : isName x = true)
  (hlink : ∀ target, fs.get? (x :: place) ≠ some (.link target))

include hreaches hsegments hname hlink

theorem locate_named {last : LastStep} {spot : Spot}
    (h : fs.locate last path = .ok spot) : spot = .named place x false := by
  have hx := (isDown_of_isName hname).1
  obtain ⟨k', place', hreaches', hfollows⟩ := exists_reaches_of_locate h hsegments hx
  obtain ⟨-, rfl⟩ := hreaches'.unique hreaches
  cases hfollows with
  | idle hidle => exact absurd hx (not_isDown_of_isIdle hidle)
  | up => exact absurd hx not_isDown_up
  | before => rfl
  | stop => rfl
  | enter _ _ hrest => cases hrest
  | link _ _ _ hget => exact absurd hget (hlink _)

theorem writablePlace_last {spot : Location} (h : fs.writablePlace path = .ok spot) :
    spot = x :: place ∧ fs.isDirectory (x :: place) = false := by
  unfold writablePlace at h
  split at h
  · cases h
  · cases h
  · rename_i parent name slash hlocate
    obtain ⟨rfl, rfl, rfl⟩ :=
      Spot.named.inj (locate_named hreaches hsegments hname hlink hlocate)
    split at h
    · cases h
    · rename_i hdir
      cases h
      exact ⟨rfl, by simpa using hdir⟩

/-- Writing fills the file that the path names. -/
theorem write_last {content : Bytes} (h : fs.write path content = .ok fs') :
    Fills fs (x :: place) content fs' ∧ fs.isDirectory (x :: place) = false := by
  unfold write at h
  split at h
  · cases h
  · rename_i spot hspot
    obtain ⟨rfl, hdir⟩ := writablePlace_last hreaches hsegments hname hlink hspot
    cases h
    exact ⟨fills_put hname hreaches.isDirectory hdir content, hdir⟩

theorem copy_last {source : Path} {origin : Location} {content : Bytes}
    (hsource : fs.stat source = .ok (origin, .file content)) (hne : origin ≠ x :: place)
    (hthere : fs.get? origin = some (.file content)) (h : fs.copy source path = .ok fs') :
    Fills fs (x :: place) content fs' ∧ fs.isDirectory (x :: place) = false := by
  rw [copy, hsource] at h
  dsimp only at h
  split at h
  · cases h
  · rename_i spot hspot
    obtain ⟨rfl, hdir⟩ := writablePlace_last hreaches hsegments hname hlink hspot
    have hempty := fills_put hname hreaches.isDirectory hdir []
    rw [hempty.other origin hne, hthere] at h
    cases h
    have hdir' : (fs.put (x :: place) (.file [])).isDirectory (x :: place) = false := by
      rw [isDirectory, hempty.self]
      rfl
    have hparent : (fs.put (x :: place) (.file [])).isDirectory place = true := by
      rw [isDirectory, hempty.other]
      · exact hreaches.isDirectory
      · intro heq
        have := congrArg List.length heq
        simp at this
    have hfull := fills_put hname hparent hdir' content
    refine ⟨⟨?_, hfull.self, fun p hp => ?_⟩, hdir⟩
    · rw [hfull.workingDirectory, hempty.workingDirectory]
    · rw [hfull.other p hp, hempty.other p hp]

theorem read_last {content : Bytes} (h : fs.read path = .ok content) :
    fs.get? (x :: place) = some (.file content) := by
  unfold read at h
  split at h
  · cases h
  · rename_i p c hstat
    cases h
    unfold stat at hstat
    split at hstat
    · cases hstat
    · rename_i spot hlocate
      rw [locate_named hreaches hsegments hname hlink hlocate, entryAt] at hstat
      split at hstat
      · cases hstat
      · cases hstat
      · rename_i hget
        cases hstat
        exact hget
  · cases h
  · cases h

end

theorem get?_of_stat {path : Path} {place : Location} {entry : Entry}
    (h : fs.stat path = .ok (place, entry)) : fs.get? place = some entry := by
  cases entry with
  | directory =>
    obtain ⟨-, k, hreaches⟩ := stat_directory_iff.1 h
    exact (isDirectory_iff _ _).1 hreaches.isDirectory
  | file content =>
    unfold stat at h
    split at h
    · cases h
    · rename_i spot hlocate
      cases spot with
      | here p => cases h
      | named parent name slash =>
        rw [entryAt] at h
        split at h
        · cases h
        · cases h
        · rename_i hget
          split at h
          · cases h
          · cases h
            exact hget
  | link target =>
    unfold stat at h
    split at h
    · cases h
    · rename_i spot hlocate
      cases spot with
      | here p => cases h
      | named parent name slash =>
        rw [entryAt] at h
        split at h
        · cases h
        · cases h
        · rename_i hget
          split at h
          · cases h
          · cases h
            exact hget

end FileSystem

end Namespacing
