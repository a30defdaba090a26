import Namespacing.Proofs.FileSystem.Filling
import Namespacing.Proofs.FileSystem.Rereading
import Namespacing.Proofs.FileSystem.Listings
set_option autoImplicit false

open Namespacing.Path

namespace Namespacing

namespace FileSystem

/-- The path through some names below a top can be followed as far as its text goes. -/
structure Taken (top : Path) (names : List Name) : Prop where
  followable : Followable (extend top names)
  sizes : ∀ name ∈ names, Text.utf8Size name ≤ maxNameSize

section

variable {fs : FileSystem}

theorem Follows.sizes {k : Nat} {place : Location} {xs : List Text} {spot : Spot}
    (h : Follows fs .target k place xs spot) : ∀ x ∈ xs, IsDown x → Text.utf8Size x ≤ maxNameSize := by
  induction h with
  | here => simp
  | idle hidle _ ih =>
    intro x hx hdown
    rcases List.mem_cons.1 hx with rfl | hx
    · exact absurd hdown (not_isDown_of_isIdle hidle)
    · exact ih x hx hdown
  | up _ ih =>
    intro x hx hdown
    rcases List.mem_cons.1 hx with rfl | hx
    · exact absurd hdown not_isDown_up
    · exact ih x hx hdown
  | before _ hbefore =>
    rw [stepOf_target] at hbefore
    cases hbefore
  | stop _ hsize hlast =>
    intro x hx hdown
    rcases List.mem_cons.1 hx with rfl | hx
    · exact hsize
    · have hidle : isIdle x = true := by simp [isIdle, List.all_eq_true.1 hlast x hx]
      exact absurd hdown (not_isDown_of_isIdle hidle)
  | enter _ hsize _ _ _ ih =>
    intro x hx hdown
    rcases List.mem_cons.1 hx with rfl | hx
    · exact hsize
    · exact ih x hx hdown
  | link _ hsize _ _ _ ih =>
    intro x hx hdown
    rcases List.mem_cons.1 hx with rfl | hx
    · exact hsize
    · exact ih x (List.mem_append_right _ hx) hdown

theorem isName_of_mem {names : List Name} {place : Location} {entry : Entry}
    (h : fs.get? (names ++ place) = some entry) : ∀ name ∈ names, isName name = true := by
  induction names generalizing entry with
  | nil => simp
  | cons name names ih =>
    have hparent := (isDirectory_iff fs _).1 (isDirectory_of_get?_cons h)
    exact List.forall_mem_cons.2 ⟨isName_of_get? h, ih hparent⟩

theorem isName_of_below {names : List Name} {place : Location} {entry : Entry}
    (h : fs.get? (names.reverse ++ place) = some entry) : ∀ name ∈ names, isName name = true :=
  fun name hname => isName_of_mem h name (List.mem_reverse.2 hname)

theorem plain_of_isName {names : List Name} (h : ∀ name ∈ names, isName name = true) :
    ∀ name ∈ names, '/' ∉ name ∧ isIdle name = false :=
  fun name hname => ⟨(isDown_of_isName (h name hname)).2, (isDown_of_isName (h name hname)).1.1⟩

theorem taken_of_stat {top : Path} {names : List Name} {found : Location × Entry}
    (hnames : ∀ name ∈ names, isName name = true) (h : fs.stat (extend top names) = .ok found) :
    Taken top names := by
  unfold stat at h
  split at h
  · cases h
  · rename_i spot hlocate
    obtain ⟨hpath, -, hfollows⟩ := locate_ok_iff.1 hlocate
    refine ⟨hpath, fun name hname => hfollows.sizes name ?_ (isDown_of_isName (hnames name hname)).1⟩
    have hsteps : name ∈ steps (extend top names) := by
      rw [steps_extend (plain_of_isName hnames)]
      exact List.mem_append_right _ hname
    exact List.mem_of_mem_filter hsteps

theorem Reaches.down {absolute : Bool} {xs dirs : List Text} {k : Nat} {place : Location} {name : Name}
    {entry : Entry} (h : fs.Reaches absolute xs k place)
    (hentry : fs.get? (name :: (dirs.reverse ++ place)) = some entry)
    (hsizes : ∀ dir ∈ dirs, Text.utf8Size dir ≤ maxNameSize) :
    fs.Reaches absolute (xs ++ dirs) k (dirs.reverse ++ place) := by
  refine ⟨h.start, h.walks.append (walks_down (fun dir hdir => ⟨?_, hsizes dir hdir⟩) ?_)⟩
  · have hparent := (isDirectory_iff fs _).1 (isDirectory_of_get?_cons hentry)
    exact (isDown_of_isName (isName_of_below hparent dir hdir)).1
  · rintro zs - ⟨rest, rfl⟩
    rw [List.reverse_append, List.append_assoc, ← List.cons_append] at hentry
    exact directory_above hentry (List.cons_ne_nil _ _)

theorem stat_of_taken {top : Path} {place : Location} {names : List Name} {entry : Entry}
    (htop : fs.stat top = .ok (place, .directory)) (h : fs.get? (names.reverse ++ place) = some entry)
    (hlink : ∀ target, entry ≠ .link target) (htaken : Taken top names) :
    fs.stat (extend top names) = .ok (names.reverse ++ place, entry) := by
  obtain ⟨-, k, hreaches⟩ := stat_directory_iff.1 htop
  have hnames := isName_of_below h
  have hplain := plain_of_isName hnames
  obtain ⟨hpath, hsizes⟩ := htaken
  rcases List.eq_nil_or_concat' names with rfl | ⟨dirs, name, rfl⟩
  · rw [List.reverse_nil, List.nil_append, get?_of_stat htop] at h
    cases h
    exact htop
  · rw [List.reverse_concat, List.cons_append] at h ⊢
    obtain ⟨hslash, hidle⟩ := hplain name (by simp)
    have hdirs := hreaches.down h fun dir hdir => hsizes dir (List.mem_append_left _ hdir)
    have hjoin : extend top (dirs ++ [name]) = join (extend top dirs) name := List.foldl_append
    obtain ⟨before, hsegments, hbefore⟩ := exists_segments_join (extend top dirs) hslash
    rw [← hjoin] at hsegments
    rw [← isAbsolute_extend hplain, ← steps_extend fun dir hdir => hplain dir (List.mem_append_left _ hdir),
      ← hbefore] at hdirs
    have hdown := (isDown_of_isName (hnames name (by simp))).1
    have hlocate : fs.locate .target (extend top (dirs ++ [name])) = .ok (.named (dirs.reverse ++ place) name false) :=
      (hdirs.locate_last hpath hsegments hdown (by decide)).2 (hsizes name (by simp)) fun target hget =>
        absurd (Option.some.inj (h.symm.trans hget)) (hlink target)
    rw [stat, hlocate]
    simp only [entryAt, h]
    cases entry with
    | directory => rfl
    | file content => rfl
    | link target => exact absurd rfl (hlink target)

variable {excluded included : Name → Bool} {top : Path}

theorem files_of_no_directory (h : ∀ place, fs.stat top ≠ .ok (place, .directory)) :
    (fs.tree top).files excluded included =
      .error ⟨[], match fs.stat top with | .error error => error | .ok _ => .notDirectory⟩ := by
  unfold tree
  cases hstat : fs.stat top with
  | error error => rfl
  | ok found =>
    obtain ⟨place, entry⟩ := found
    dsimp only
    split
    · rename_i children hnode
      have hget := get?_of_stat hstat
      rw [get?, hnode] at hget
      cases hget
      exact absurd hstat (h place)
    · rfl

theorem lists_of_files {files : List (List Name)} (h : (fs.tree top).files excluded included = .ok files) :
    ∀ names ∈ files, names ≠ [] ∧ (∀ name ∈ names, isName name = true) ∧
      fs.pathIsFile (extend top names) = true := by
  by_cases hdirectory : ∃ place, fs.stat top = .ok (place, .directory)
  · obtain ⟨place, htop⟩ := hdirectory
    have hexact := @exact_files fs excluded included top place htop
    rw [h] at hexact
    intro names hnames
    obtain ⟨dirs, name, entry, rfl, -, -, hget, -, hfile⟩ := (hexact.2.1 names).1 hnames
    exact ⟨by simp, isName_of_below hget, hfile⟩
  · rw [files_of_no_directory fun place hplace => hdirectory ⟨place, hplace⟩] at h
    cases h

end

end FileSystem

end Namespacing
