import Namespacing.Proofs.FileSystem.Walks
set_option autoImplicit false

open Namespacing.Path

namespace Namespacing

namespace FileSystem

variable {fs fs' : FileSystem}

structure Followable (path : Path) : Prop where
  nul : '\x00' ∉ path
  nonempty : path ≠ []
  size : Text.utf8Size path ≤ maxPathSize

def origin (fs : FileSystem) (absolute : Bool) : Location :=
  if absolute then [] else fs.workingDirectory

/-- The steps of a path lead to a directory. -/
structure Reaches (fs : FileSystem) (absolute : Bool) (steps : List Text) (k : Nat)
    (place : Location) : Prop where
  start : fs.isDirectory (fs.origin absolute) = true
  walks : Walks fs maxLinks (fs.origin absolute) steps k place

theorem Reaches.isDirectory {absolute : Bool} {steps : List Text} {k : Nat} {place : Location}
    (h : fs.Reaches absolute steps k place) : fs.isDirectory place = true :=
  h.walks.isDirectory h.start

theorem Reaches.unique {absolute : Bool} {steps : List Text} {k k' : Nat} {place place' : Location}
    (h : fs.Reaches absolute steps k place) (h' : fs.Reaches absolute steps k' place') :
    k = k' ∧ place = place' :=
  h.walks.unique h'.walks

theorem Reaches.get?_next {absolute : Bool} {xs ys : List Text} {x : Text} {k k' : Nat}
    {place place' : Location} (h : fs.Reaches absolute xs k place)
    (h' : fs.Reaches absolute (xs ++ x :: ys) k' place') (hx : IsDown x) :
    Text.utf8Size x ≤ maxNameSize ∧
      (fs.get? (x :: place) = some .directory ∨ ∃ target, fs.get? (x :: place) = some (.link target)) := by
  obtain ⟨k₁, p₁, hbefore, hlast⟩ := h'.walks.split
  obtain ⟨rfl, rfl⟩ := hbefore.unique h.walks
  cases hlast with
  | idle hidle => exact absurd hx (not_isDown_of_isIdle hidle)
  | up => exact absurd hx not_isDown_up
  | enter _ hsize hget => exact ⟨hsize, Or.inl hget⟩
  | link _ hsize hget => exact ⟨hsize, Or.inr ⟨_, hget⟩⟩

theorem Reaches.ne_none {absolute : Bool} {xs ys : List Text} {x : Text} {k k' : Nat}
    {place place' : Location} (h : fs.Reaches absolute xs k place)
    (h' : fs.Reaches absolute (xs ++ x :: ys) k' place') (hx : IsDown x) :
    fs.get? (x :: place) ≠ none := by
  intro hnone
  obtain ⟨-, hget | ⟨target, hget⟩⟩ := h.get?_next h' hx
  · rw [hnone] at hget
    cases hget
  · rw [hnone] at hget
    cases hget

theorem Reaches.exists_of_append {absolute : Bool} {xs ys : List Text} {k : Nat} {place : Location}
    (h : fs.Reaches absolute (xs ++ ys) k place) : ∃ k₁ place₁, fs.Reaches absolute xs k₁ place₁ := by
  obtain ⟨k₁, place₁, hbefore, -⟩ := h.walks.split
  exact ⟨k₁, place₁, h.start, hbefore⟩

theorem exists_start {absolute : Bool} (h : fs.isDirectory (fs.origin absolute) = true) :
    ∃ start : fs.Directory, start.place = fs.origin absolute ∧
      (if absolute then some (Directory.root fs) else Directory.at? fs fs.workingDirectory) =
        some start := by
  cases absolute with
  | true => exact ⟨Directory.root fs, rfl, rfl⟩
  | false =>
    obtain ⟨start, hat, hplace⟩ := exists_at? h
    exact ⟨start, hplace, hat⟩

theorem locate_eq_follow {path : Path} (hpath : Followable path)
    (hstart : fs.isDirectory (fs.origin (isAbsolute path)) = true) :
    ∃ start : fs.Directory, start.place = fs.origin (isAbsolute path) ∧
      ∀ last, fs.locate last path = follow last maxLinks start (segments path) := by
  obtain ⟨start, hplace, heq⟩ := exists_start hstart
  refine ⟨start, hplace, fun last => ?_⟩
  rw [locate, if_neg (by simpa using hpath.nul), if_neg (by simpa using hpath.nonempty),
    if_neg (Nat.not_lt.2 hpath.size), heq]

theorem followable_of_locate {last : LastStep} {path : Path} {spot : Spot}
    (h : fs.locate last path = .ok spot) :
    Followable path ∧ fs.isDirectory (fs.origin (isAbsolute path)) = true := by
  unfold locate at h
  split at h
  · cases h
  · rename_i hnul
    split at h
    · cases h
    · rename_i hempty
      split at h
      · cases h
      · rename_i hsize
        refine ⟨⟨by simpa using hnul, by simpa using hempty, Nat.le_of_not_lt hsize⟩, ?_⟩
        cases habs : isAbsolute path with
        | true => rfl
        | false =>
          rw [habs, if_neg (by decide)] at h
          split at h
          · rename_i start hat
            have hplace : start.place = fs.workingDirectory := by
              unfold Directory.at? at hat
              split at hat
              · cases hat
                rfl
              · cases hat
            rw [origin, if_neg (by decide), ← hplace]
            exact start.isDirectory
          · cases h

theorem locate_ok_iff {last : LastStep} {path : Path} {spot : Spot} :
    fs.locate last path = .ok spot ↔
      Followable path ∧ fs.isDirectory (fs.origin (isAbsolute path)) = true ∧
        Follows fs last maxLinks (fs.origin (isAbsolute path)) (segments path) spot := by
  constructor
  · intro h
    obtain ⟨hpath, hstart⟩ := followable_of_locate h
    obtain ⟨start, hplace, heq⟩ := locate_eq_follow hpath hstart
    rw [heq] at h
    rw [← hplace]
    exact ⟨hpath, by rwa [hplace], follows_of_follow _ _ _ h⟩
  · rintro ⟨hpath, hstart, hfollows⟩
    obtain ⟨start, hplace, heq⟩ := locate_eq_follow hpath hstart
    rw [heq]
    exact follow_of_follows hfollows start hplace

theorem stat_directory_iff {path : Path} {place : Location} :
    fs.stat path = .ok (place, .directory) ↔
      Followable path ∧ ∃ k, fs.Reaches (isAbsolute path) (steps path) k place := by
  unfold stat
  constructor
  · intro h
    split at h
    · cases h
    · rename_i spot hlocate
      obtain ⟨hpath, hstart, hfollows⟩ := locate_ok_iff.1 hlocate
      obtain ⟨k, hwalks⟩ := hfollows.walks h
      exact ⟨hpath, k, hstart, walks_filter_iff.2 hwalks⟩
  · rintro ⟨hpath, k, hstart, hwalks⟩
    obtain ⟨spot, hfollows, hspot⟩ := (walks_filter_iff.1 hwalks).exists_follows
    rw [locate_ok_iff.2 ⟨hpath, hstart, hfollows⟩]
    exact hspot

theorem pathIsDirectory_iff {path : Path} :
    fs.pathIsDirectory path = true ↔
      Followable path ∧ ∃ k place, fs.Reaches (isAbsolute path) (steps path) k place := by
  rw [pathIsDirectory]
  constructor
  · intro h
    split at h
    · rename_i place hstat
      obtain ⟨hpath, k, hreaches⟩ := stat_directory_iff.1 hstat
      exact ⟨hpath, k, place, hreaches⟩
    · cases h
  · rintro ⟨hpath, k, place, hreaches⟩
    rw [stat_directory_iff.2 ⟨hpath, k, hreaches⟩]

section

variable {path : Path} {before : List Text} {x : Text} {k : Nat} {place : Location} {last : LastStep}

theorem follow_last (hx : IsDown x) (hstep : last.step false ≠ .before) (there : fs.Directory) :
    (maxNameSize < Text.utf8Size x → follow last k there [x] = .error .nameTooLong) ∧
    (Text.utf8Size x ≤ maxNameSize →
      (∀ t, fs.get? (x :: there.place) = some (.link t) → last.step false = .onto) →
      follow last k there [x] = .ok (.named there.place x false)) := by
  have hstep' : stepOf last [] = last.step false := rfl
  constructor
  · intro hsize
    rw [follow_down hx, hstep', if_neg hstep, if_pos hsize]
  · intro hsize hlink
    exact follow_of_follows (.stop hx hsize rfl hlink) there rfl

/-- The last name of a path is looked up in the directory that the steps before it lead to. -/
theorem Reaches.locate_last (h : fs.Reaches (isAbsolute path) (before.filter fun s => !isIdle s) k place)
    (hpath : Followable path) (hsegments : segments path = before ++ [x]) (hx : IsDown x)
    (hstep : last.step false ≠ .before) :
    (maxNameSize < Text.utf8Size x → fs.locate last path = .error .nameTooLong) ∧
    (Text.utf8Size x ≤ maxNameSize →
      (∀ t, fs.get? (x :: place) = some (.link t) → last.step false = .onto) →
      fs.locate last path = .ok (.named place x false)) := by
  have hne : [x].all List.isEmpty = false := by
    have := hx.1
    cases x with
    | nil => cases this
    | cons c x => rfl
  obtain ⟨start, hplace, heq⟩ := locate_eq_follow hpath h.start
  obtain ⟨there, rfl, hfollow⟩ := (walks_filter_iff.1 h.walks).follow_append start hplace hne
  rw [heq, hsegments, hfollow]
  exact follow_last hx hstep there

theorem exists_reaches_of_locate {spot : Spot} (h : fs.locate last path = .ok spot)
    (hsegments : segments path = before ++ [x]) (hx : IsDown x) :
    ∃ k place, fs.Reaches (isAbsolute path) (before.filter fun s => !isIdle s) k place ∧
      Follows fs last k place [x] spot := by
  have hne : [x].all List.isEmpty = false := by
    have := hx.1
    cases x with
    | nil => cases this
    | cons c x => rfl
  obtain ⟨-, hstart, hfollows⟩ := locate_ok_iff.1 h
  rw [hsegments] at hfollows
  obtain ⟨k, place, hwalks, hlast⟩ := hfollows.split hne
  exact ⟨k, place, ⟨hstart, walks_filter_iff.2 hwalks⟩, hlast⟩

end

/-- Another disk has all directories and the same links. -/
structure Extends (fs fs' : FileSystem) : Prop where
  workingDirectory : fs'.workingDirectory = fs.workingDirectory
  directory : ∀ place, fs.get? place = some .directory → fs'.get? place = some .directory
  link : ∀ place target, fs.get? place = some (.link target) ↔ fs'.get? place = some (.link target)

theorem Extends.refl : Extends fs fs := ⟨rfl, fun _ h => h, fun _ _ => Iff.rfl⟩

theorem Extends.trans {fs'' : FileSystem} (h : Extends fs fs') (h' : Extends fs' fs'') :
    Extends fs fs'' where
  workingDirectory := h'.workingDirectory.trans h.workingDirectory
  directory place hd := h'.directory place (h.directory place hd)
  link place target := (h.link place target).trans (h'.link place target)

theorem Walks.mono (hdirectory : ∀ place, fs.get? place = some .directory →
      fs'.get? place = some .directory)
    (hlink : ∀ place target, fs.get? place = some (.link target) →
      fs'.get? place = some (.link target)) {k k' : Nat} {p p' : Location} {xs : List Text}
    (hw : Walks fs k p xs k' p') : Walks fs' k p xs k' p' := by
  induction hw with
  | nil => exact .nil
  | idle hidle _ ih => exact .idle hidle ih
  | up _ ih => exact .up ih
  | enter hx hsize hget _ ih => exact .enter hx hsize (hdirectory _ hget) ih
  | link hx hsize hget _ _ ihhead ih => exact .link hx hsize (hlink _ _ hget) ihhead ih

theorem Walks.extend (h : Extends fs fs') {k k' : Nat} {p p' : Location} {xs : List Text}
    (hw : Walks fs k p xs k' p') : Walks fs' k p xs k' p' :=
  hw.mono h.directory fun place target => (h.link place target).1

theorem Follows.extend (h : Extends fs fs') {last : LastStep} {k : Nat} {p : Location}
    {xs : List Text} {spot : Spot} (hf : Follows fs last k p xs spot) :
    Follows fs' last k p xs spot := by
  induction hf with
  | here => exact .here
  | idle hidle _ ih => exact .idle hidle ih
  | up _ ih => exact .up ih
  | before hx hbefore => exact .before hx hbefore
  | stop hx hsize hlast hlink =>
    exact .stop hx hsize hlast fun t ht => hlink t ((h.link _ _).2 ht)
  | enter hx hsize hrest hget _ ih => exact .enter hx hsize hrest (h.directory _ hget) ih
  | link hx hsize hstep hget _ ih => exact .link hx hsize hstep ((h.link _ _).1 hget) ih

theorem Extends.isDirectory (h : Extends fs fs') {place : Location}
    (hd : fs.isDirectory place = true) : fs'.isDirectory place = true :=
  (isDirectory_iff _ _).2 (h.directory _ ((isDirectory_iff _ _).1 hd))

theorem Extends.origin (h : Extends fs fs') (absolute : Bool) :
    fs'.origin absolute = fs.origin absolute := by
  cases absolute with
  | true => rfl
  | false => exact h.workingDirectory

theorem Reaches.extend (h : Extends fs fs') {absolute : Bool} {steps : List Text} {k : Nat}
    {place : Location} (hr : fs.Reaches absolute steps k place) :
    fs'.Reaches absolute steps k place := by
  refine ⟨?_, ?_⟩
  · rw [h.origin]
    exact h.isDirectory hr.start
  · rw [h.origin]
    exact hr.walks.extend h

theorem Extends.locate (h : Extends fs fs') {last : LastStep} {path : Path} {spot : Spot}
    (hl : fs.locate last path = .ok spot) : fs'.locate last path = .ok spot := by
  obtain ⟨hpath, hstart, hfollows⟩ := locate_ok_iff.1 hl
  refine locate_ok_iff.2 ⟨hpath, ?_, ?_⟩
  · rw [h.origin]
    exact h.isDirectory hstart
  · rw [h.origin]
    exact hfollows.extend h

theorem Extends.stat (h : Extends fs fs') {path : Path} {place : Location} {entry : Entry}
    (hs : fs.stat path = .ok (place, entry)) (hget : fs'.get? place = some entry) :
    fs'.stat path = .ok (place, entry) := by
  unfold FileSystem.stat at hs ⊢
  split at hs
  · cases hs
  · rename_i spot hlocate
    rw [h.locate hlocate]
    cases spot with
    | here p => exact hs
    | named parent name slash =>
      change fs'.entryAt (.named parent name slash) = _
      rw [entryAt] at hs ⊢
      split at hs
      · cases hs
      · rename_i hold
        cases hs
        rw [hget]
      · rename_i e hne hold
        split at hs
        · cases hs
        · rename_i hslash
          cases hs
          rw [hget]
          cases entry with
          | directory => exact absurd rfl hne
          | file content => exact if_neg hslash
          | link target => exact if_neg hslash

end FileSystem

end Namespacing
