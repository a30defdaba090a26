import Namespacing.Proofs.Conversion.Copies
import Namespacing.Proofs.FileSystem.Filling
set_option autoImplicit false

open Namespacing.Path

namespace Namespacing

namespace FileSystem

variable {mid disk disk' : FileSystem} {absolute : Bool} {base : List Text} {first : List Name} {k : Nat}
  {top : Location} {inventory : Inventory}

/-- The steps of a path lead to a tree that has nothing but one line of directories, and they end with the
name of the tree itself. -/
structure Fresh (mid : FileSystem) (absolute : Bool) (base : List Text) (first : List Name) (k : Nat)
    (top : Location) : Prop where
  reaches : mid.Reaches absolute base k top
  anchored : mid.Anchored absolute base
  inside : ∀ names, mid.get? (names.reverse ++ top) = if names <+: first then some .directory else none
  named : ∀ before x, base = before ++ [x] → ∃ parent, mid.Reaches absolute before k parent ∧ top = x :: parent

/-- The tree holds what the inventory says, and everything else is as it was. -/
structure Stage (mid : FileSystem) (first : List Name) (top : Location) (inventory : Inventory)
    (disk : FileSystem) : Prop where
  workingDirectory : disk.workingDirectory = mid.workingDirectory
  outside : ∀ place, within top place = false → disk.get? place = mid.get? place
  inside : ∀ names, disk.get? (names.reverse ++ top) = inventory.at? names
  first : first <+: inventory.line
  down : ∀ name ∈ inventory.line, IsDown name ∧ Text.utf8Size name ≤ maxNameSize
  apart : ∀ names content, inventory.files names = some content → ¬ names <+: inventory.line

/-- The steps of a path lead on from the tree along some names. -/
structure Leads (absolute : Bool) (base : List Text) (path : Path) (dir : List Name) : Prop where
  absolute : isAbsolute path = absolute
  steps : steps path = base ++ dir

theorem within_cases (top place : Location) :
    within top place = false ∨ ∃ names : List Name, place = names.reverse ++ top := by
  cases h : within top place with
  | false => exact Or.inl rfl
  | true =>
    obtain ⟨names, rfl⟩ := within_iff.1 h
    exact Or.inr ⟨names.reverse, by rw [List.reverse_reverse]⟩

theorem Stage.store (h : Stage mid first top inventory disk) {dir : List Name} {name : Name}
    {content : Bytes} (hfile : disk.isDirectory (name :: (dir.reverse ++ top)) = false)
    (hfills : Fills disk (name :: (dir.reverse ++ top)) content disk') :
    Stage mid first top (inventory.store (dir ++ [name]) content) disk' := by
  have hplace : (dir ++ [name]).reverse ++ top = name :: (dir.reverse ++ top) := by simp
  rw [← hplace] at hfile hfills
  have hself : ¬ dir ++ [name] <+: inventory.line := by
    rw [← Inventory.at?_eq_directory_iff, ← h.inside, ← isDirectory_iff, hfile]
    exact fun heq => by cases heq
  refine ⟨hfills.workingDirectory.trans h.workingDirectory, fun place hout => ?_, fun names => ?_,
    h.first, h.down, fun names found hfound => ?_⟩
  · rw [hfills.other, h.outside place hout]
    rintro rfl
    rw [within_iff.2 ⟨_, rfl⟩] at hout
    cases hout
  · by_cases hnames : names = dir ++ [name]
    · rw [hnames, hfills.self, Inventory.at?_store_self hself]
    · rw [hfills.other, h.inside, Inventory.at?_store_of_ne hnames]
      intro heq
      exact hnames (List.reverse_inj.1 (List.append_cancel_right heq))
  · by_cases hnames : names = dir ++ [name]
    · rw [hnames]
      exact hself
    · exact h.apart names found ((if_neg hnames).symm.trans hfound)

theorem Stage.get?_eq_some_iff (h : Stage mid first top inventory disk) {names : List Name}
    {entry : Entry} : disk.get? (names.reverse ++ top) = some entry ↔ inventory.Holds names entry := by
  rw [h.inside]
  exact Inventory.at?_eq_some_iff (h.apart names)

section

variable (hfresh : Fresh mid absolute base first k top) (h : Stage mid first top inventory disk)

include hfresh

theorem Fresh.not_within {place : Location} {content : Bytes}
    (hget : mid.get? place = some (.file content)) : within top place = false := by
  rcases within_cases top place with hout | ⟨names, rfl⟩
  · exact hout
  · rw [hfresh.inside] at hget
    split at hget <;> cases hget

include h

theorem Stage.extends : Extends mid disk where
  workingDirectory := h.workingDirectory
  directory place hget := by
    rcases within_cases top place with hout | ⟨names, rfl⟩
    · rw [h.outside place hout, hget]
    · rw [hfresh.inside] at hget
      split at hget
      · rename_i hpre
        rw [h.inside, Inventory.at?_eq_directory_iff]
        exact hpre.trans h.first
      · cases hget
  link place target := by
    rcases within_cases top place with hout | ⟨names, rfl⟩
    · rw [h.outside place hout]
    · rw [hfresh.inside, h.inside]
      constructor
      · intro hget
        split at hget <;> cases hget
      · intro hget
        exact absurd hget (inventory.at?_ne_link names target)

theorem Stage.grows : Grows mid disk where
  workingDirectory := h.workingDirectory
  entry place entry hget := by
    rcases within_cases top place with hout | ⟨names, rfl⟩
    · rw [h.outside place hout, hget]
    · have hdirectory : entry = .directory := by
        rw [hfresh.inside] at hget
        split at hget <;> cases hget
        rfl
      subst hdirectory
      exact (h.extends hfresh).directory _ hget

theorem Stage.reaches {dir : List Name} (hdir : dir <+: inventory.line) :
    disk.Reaches absolute (base ++ dir) k (dir.reverse ++ top) := by
  have hbase := hfresh.reaches.extend (h.extends hfresh)
  refine ⟨hbase.start, hbase.walks.append (walks_down (fun y hy => h.down y (hdir.subset hy)) ?_)⟩
  intro zs _ hzs
  rw [h.inside, Inventory.at?_eq_directory_iff]
  exact hzs.trans hdir

section

variable {path : Path} {dir : List Name} (hleads : Leads absolute base path dir)
  (hdir : dir <+: inventory.line) {name : Name} (hname : isName name = true)

include hleads hdir hname

theorem Stage.exists_last :
    ∃ before, segments (join path name) = before ++ [name] ∧
      disk.Reaches (isAbsolute (join path name)) (before.filter fun s => !isIdle s) k
        (dir.reverse ++ top) ∧
      ∀ target, disk.get? (name :: (dir.reverse ++ top)) ≠ some (.link target) := by
  have hslash := (isDown_of_isName hname).2
  obtain ⟨before, hsegments, hbefore⟩ := exists_segments_join path hslash
  refine ⟨before, hsegments, ?_, fun target => ?_⟩
  · rw [hbefore, isAbsolute_join path (isAbsolute_of_not_mem hslash), hleads.absolute, hleads.steps]
    exact h.reaches hfresh hdir
  · have hplace : name :: (dir.reverse ++ top) = (dir ++ [name]).reverse ++ top := by simp
    rw [hplace, h.inside]
    exact inventory.at?_ne_link _ target

theorem Stage.write {content : Bytes} (hwrite : disk.write (join path name) content = .ok disk') :
    Stage mid first top (inventory.store (dir ++ [name]) content) disk' := by
  obtain ⟨before, hsegments, hreaches, hlink⟩ := h.exists_last hfresh hleads hdir hname
  obtain ⟨hfills, hfile⟩ := write_last hreaches hsegments hname hlink hwrite
  exact h.store hfile hfills

theorem Stage.read {content : Bytes} (hread : disk.read (join path name) = .ok content) :
    inventory.files (dir ++ [name]) = some content := by
  obtain ⟨before, hsegments, hreaches, hlink⟩ := h.exists_last hfresh hleads hdir hname
  have hget := read_last hreaches hsegments hname hlink hread
  have hplace : name :: (dir.reverse ++ top) = (dir ++ [name]).reverse ++ top := by simp
  rw [hplace, h.inside, Inventory.at?] at hget
  split at hget
  · cases hget
  · cases hfile : inventory.files (dir ++ [name]) with
    | none =>
      rw [hfile] at hget
      cases hget
    | some found =>
      rw [hfile] at hget
      cases hget
      rfl

theorem Stage.copy {source : Path} {origin : Location} {content : Bytes}
    (hsource : mid.stat source = .ok (origin, .file content))
    (hcopy : disk.copy source (join path name) = .ok disk') :
    Stage mid first top (inventory.store (dir ++ [name]) content) disk' := by
  obtain ⟨before, hsegments, hreaches, hlink⟩ := h.exists_last hfresh hleads hdir hname
  have hget := get?_of_stat hsource
  have hout := hfresh.not_within hget
  have hthere : disk.get? origin = some (.file content) := by rw [h.outside origin hout, hget]
  have hstat := (h.extends hfresh).stat hsource hthere
  have hne : origin ≠ name :: (dir.reverse ++ top) := by
    rintro rfl
    rw [within_cons name (within_iff.2 ⟨_, rfl⟩)] at hout
    cases hout
  obtain ⟨hfills, hfile⟩ := copy_last hreaches hsegments hname hlink hstat hne hthere hcopy
  exact h.store hfile hfills

end

theorem Stage.stat_of_read {path : Path} {content : Bytes} (hfile : mid.pathIsFile path = true)
    (hread : disk.read path = .ok content) :
    ∃ origin, mid.stat path = .ok (origin, .file content) := by
  unfold pathIsFile at hfile
  split at hfile
  · rename_i origin found hstat
    have hget := get?_of_stat hstat
    have hthere : disk.get? origin = some (.file found) := by
      rw [h.outside origin (hfresh.not_within hget), hget]
    rw [FileSystem.read, (h.extends hfresh).stat hstat hthere] at hread
    cases hread
    exact ⟨origin, hstat⟩
  · cases hfile

theorem Stage.anchored {dir : List Name} (hdir : ∀ name ∈ dir, IsDown name) :
    disk.Anchored absolute (base ++ dir) :=
  (hfresh.anchored.extend (h.extends hfresh)).append_down hdir

omit hfresh in
theorem Stage.lengthen {name : Name} (hname : IsDown name ∧ Text.utf8Size name ≤ maxNameSize)
    (hadds : Adds disk (inventory.line.reverse ++ top) [name] disk') :
    Stage mid first top { inventory with line := inventory.line ++ [name] } disk' := by
  have hplace : (inventory.line ++ [name]).reverse ++ top = name :: (inventory.line.reverse ++ top) := by
    simp
  refine ⟨hadds.workingDirectory.trans h.workingDirectory, fun other hout => ?_, fun names => ?_,
    h.first.trans (List.prefix_append _ _), fun y hy => ?_, fun names content hfile => ?_⟩
  · rw [hadds.kept_singleton, h.outside other hout]
    rintro rfl
    rw [← hplace, within_iff.2 ⟨_, rfl⟩] at hout
    cases hout
  · by_cases hnames : names = inventory.line ++ [name]
    · rw [hnames, hplace, Inventory.at?_eq_directory_iff.2 List.prefix_rfl]
      exact hadds.added [name] (by simp) List.prefix_rfl
    · have hiff : names <+: inventory.line ++ [name] ↔ names <+: inventory.line := by
        rw [List.prefix_concat_iff, or_iff_right hnames]
      rw [hadds.kept_singleton, h.inside, Inventory.at?, Inventory.at?]
      · simp only [hiff]
      · rw [← hplace]
        exact fun heq => hnames (List.reverse_inj.1 (List.append_cancel_right heq))
  · rcases List.mem_append.1 hy with hy | hy
    · exact h.down y hy
    · rw [List.mem_singleton.1 hy]
      exact hname
  · rw [List.prefix_concat_iff, not_or]
    refine ⟨?_, h.apart names content hfile⟩
    rintro rfl
    have hnone : inventory.at? (inventory.line ++ [name]) = none := by
      rw [← h.inside, hplace]
      exact hadds.fresh [name] (by simp) List.prefix_rfl
    rw [Inventory.at?, if_neg (h.apart _ content hfile), hfile] at hnone
    cases hnone

section

variable {path : Path} {before : List Text} {x : Text} (hsegments : segments path = before ++ [x])
  (hx : isIdle x = false)

include hsegments hx

theorem Stage.create_same {dir : List Name} (hleads : Leads absolute base path dir)
    (hdir : dir <+: inventory.line) (hcreate : disk.createDirectories path = (.ok (), disk')) :
    Stage mid first top inventory disk' := by
  have hanchored := h.anchored hfresh fun name hn => (h.down name (hdir.subset hn)).1
  rw [← hleads.steps, ← hleads.absolute] at hanchored
  obtain ⟨pre, ys, j, place, hmade⟩ := createDirectories_ok hsegments hx hanchored hcreate
  rw [hleads.steps, hleads.absolute] at hmade
  have hreaches := h.reaches hfresh hdir
  rw [← List.append_nil (base ++ dir)] at hmade
  obtain ⟨rest, rfl, hys⟩ := hmade.exists_rest hreaches
  obtain ⟨rfl, rfl⟩ := List.append_eq_nil_iff.1 hys.symm
  have hkept := hmade.adds.kept_nil
  refine ⟨hmade.adds.workingDirectory.trans h.workingDirectory, fun other hout => ?_, fun names => ?_,
    h.first, h.down, h.apart⟩
  · rw [hkept, h.outside other hout]
  · rw [hkept, h.inside]

theorem Stage.create_fails {dir : List Name} {name : Name}
    (hleads : Leads absolute base path (dir ++ [name])) (hdir : dir <+: inventory.line)
    (hname : IsDown name) {error : IoError} (hcreate : disk.createDirectories path = (.error error, disk')) :
    disk' = disk := by
  have hsteps := hleads.steps
  rw [steps_of_segments hsegments hx, ← List.append_assoc] at hsteps
  obtain ⟨hbefore, hlast⟩ := List.append_inj' hsteps rfl
  obtain rfl := (List.cons.inj hlast).1
  have hreaches := h.reaches hfresh hdir
  rw [← hbefore, ← hleads.absolute] at hreaches
  rcases ensureChain_cons_error hcreate with hsame | ⟨hnotFound, -⟩
  · exact hsame
  · exact absurd hnotFound
      (not_notFound_of_reaches hsegments hname hreaches (ne_nil_of_segments hsegments hx))

theorem Stage.create_next {name : Name} (hleads : Leads absolute base path (inventory.line ++ [name]))
    (hname : IsDown name) (hcreate : disk.createDirectories path = (.ok (), disk')) :
    Stage mid first top { inventory with line := inventory.line ++ [name] } disk' := by
  have hdown : ∀ y ∈ inventory.line ++ [name], IsDown y := by
    intro y hy
    rcases List.mem_append.1 hy with hy | hy
    · exact (h.down y hy).1
    · rw [List.mem_singleton.1 hy]
      exact hname
  have hanchored := h.anchored hfresh hdown
  rw [← hleads.steps, ← hleads.absolute] at hanchored
  obtain ⟨pre, ys, j, place, hmade⟩ := createDirectories_ok hsegments hx hanchored hcreate
  rw [hleads.steps, hleads.absolute, ← List.append_assoc] at hmade
  have hreaches := h.reaches hfresh List.prefix_rfl
  obtain ⟨rest, rfl, hrest⟩ := hmade.exists_rest hreaches
  cases rest with
  | cons y rest =>
    -- The directory would have been there, but no directory is below the line.
    exfalso
    obtain ⟨rfl, hnil⟩ := List.cons.inj hrest
    obtain ⟨rfl, rfl⟩ := List.append_eq_nil_iff.1 hnil.symm
    have hnext := (hreaches.get?_next hmade.reaches hname).2
    have hplace : name :: (inventory.line.reverse ++ top) = (inventory.line ++ [name]).reverse ++ top := by
      simp
    rw [hplace, h.inside] at hnext
    rcases hnext with hget | ⟨target, hget⟩
    · have := (Inventory.at?_eq_directory_iff.1 hget).length_le
      rw [List.length_append, List.length_singleton] at this
      omega
    · exact inventory.at?_ne_link _ _ hget
  | nil =>
    obtain rfl : [name] = ys := hrest
    have hreached := hmade.reaches
    rw [List.append_nil] at hreached
    obtain ⟨rfl, rfl⟩ := hreached.unique hreaches
    exact h.lengthen (hmade.down name (by simp)) hmade.adds

end

end

end FileSystem

end Namespacing
