import Namespacing.Proofs.FileSystem.Filling
set_option autoImplicit false

open Namespacing.Path

namespace Namespacing

namespace FileSystem

variable {fs : FileSystem} {path : Path} {place : Location} {content : Bytes}

theorem Follows.slash_of_suffix {last : LastStep} {k : Nat} {p q : Location} {todo : List Text} {x : Name}
    {slash : Bool} (h : Follows fs last k p todo (.named q x slash)) (hend : [[]] <:+ todo) : slash = true := by
  generalize hspot : Spot.named q x slash = spot at h
  have hrest : ∀ {y : Text} {ys : List Text}, IsDown y → [[]] <:+ y :: ys → [[]] <:+ ys := by
    intro y ys hy hsuffix
    refine (List.suffix_cons_iff.1 hsuffix).resolve_left fun heq => ?_
    obtain ⟨rfl, -⟩ := List.cons.inj heq
    exact absurd hy.1 (by decide)
  have hne : ∀ {ys : List Text}, [[]] <:+ ys → (!ys.isEmpty) = true := by
    rintro ys ⟨zs, rfl⟩
    simp
  induction h with
  | here => cases hspot
  | idle hidle tail ih =>
    rcases List.suffix_cons_iff.1 hend with heq | hsuffix
    · obtain ⟨rfl, rfl⟩ := List.cons.inj heq
      cases tail
      cases hspot
    · exact ih hsuffix hspot
  | up _ ih => exact ih ((List.suffix_cons_iff.1 hend).resolve_left (by simp)) hspot
  | before hx =>
    cases hspot
    exact hne (hrest hx hend)
  | stop hx =>
    cases hspot
    exact hne (hrest hx hend)
  | enter hx _ _ _ _ ih => exact ih (hrest hx hend) hspot
  | link hx _ _ _ _ ih => exact ih ((hrest hx hend).trans (List.suffix_append _ _)) hspot

/-- A path that ends at a name without slashes ends there too when it is followed to a file to fill. -/
theorem Follows.file_of_target {k : Nat} {p q : Location} {todo : List Text} {x : Name}
    (h : Follows fs .target k p todo (.named q x false)) : Follows fs .file k p todo (.named q x false) := by
  generalize hspot : Spot.named q x false = spot at h ⊢
  induction h with
  | here => cases hspot
  | idle hidle _ ih => exact .idle hidle (ih hspot)
  | up _ ih => exact .up (ih hspot)
  | before _ hstep =>
    rw [stepOf_target] at hstep
    cases hstep
  | @stop _ _ _ xs hx hsize hlast hlink =>
    refine .stop hx hsize hlast fun target htarget => ?_
    have hstep := hlink target htarget
    rw [stepOf_target] at hstep
    cases hstep
  | enter hx hsize hrest hdirectory _ ih => exact .enter hx hsize hrest hdirectory (ih hspot)
  | @link _ _ _ xs _ target hx hsize _ htarget tail ih =>
    refine .link hx hsize ?_ htarget (ih hspot)
    cases hlast : xs.all List.isEmpty with
    | false => exact stepOf_of_not_last hlast
    | true =>
      -- The name of the link stands at the end of the path, so no slash stands behind it.
      rcases List.eq_nil_or_concat xs with rfl | ⟨ys, y, rfl⟩
      · rfl
      · obtain rfl : y = [] := by simpa using (List.all_eq_true.1 hlast) y (by simp)
        subst hspot
        cases tail.slash_of_suffix ⟨segments target ++ ys, by simp⟩

theorem stat_of_read (h : fs.read path = .ok content) : ∃ place, fs.stat path = .ok (place, .file content) := by
  unfold read at h
  split at h
  · cases h
  · rename_i place other hstat
    cases h
    exact ⟨place, hstat⟩
  · cases h
  · cases h

theorem read_of_stat (h : fs.stat path = .ok (place, .file content)) : fs.read path = .ok content := by
  rw [read, h]

theorem locate_of_stat (h : fs.stat path = .ok (place, .file content)) :
    ∃ name parent, place = name :: parent ∧ fs.locate .target path = .ok (.named parent name false) := by
  unfold stat at h
  split at h
  · cases h
  · rename_i spot hlocate
    cases spot with
    | here p => cases h
    | named parent name slash =>
      have h : fs.entryAt (.named parent name slash) = .ok (place, .file content) := h
      rw [entryAt] at h
      split at h
      · cases h
      · cases h
      · cases slash with
        | true => cases h
        | false => exact ⟨name, parent, (congrArg Prod.fst (Except.ok.inj h)).symm, hlocate⟩

theorem stat_of_locate {name : Name} {parent : Location}
    (hlocate : fs.locate .target path = .ok (.named parent name false))
    (hget : fs.get? (name :: parent) = some (.file content)) :
    fs.stat path = .ok (name :: parent, .file content) := by
  rw [stat, hlocate]
  simp only [entryAt, hget, Bool.false_eq_true, if_false]

theorem writablePlace_of_stat (h : fs.stat path = .ok (place, .file content)) :
    fs.writablePlace path = .ok place := by
  have hget := get?_of_stat h
  obtain ⟨name, parent, rfl, hlocate⟩ := locate_of_stat h
  obtain ⟨hpath, hstart, hfollows⟩ := locate_ok_iff.1 hlocate
  have hdirectory : fs.isDirectory (name :: parent) = false := by
    rw [isDirectory, hget]
    rfl
  rw [writablePlace, locate_ok_iff.2 ⟨hpath, hstart, hfollows.file_of_target⟩]
  simp only [hdirectory, Bool.or_false, Bool.false_eq_true, if_false]

theorem isName_of_get? {name : Name} {parent : Location} {entry : Entry}
    (h : fs.get? (name :: parent) = some entry) : isName name = true := by
  obtain ⟨children, hchildren⟩ := exists_node?_of_isDirectory (isDirectory_of_get?_cons h)
  rw [get?, node?_cons hchildren] at h
  obtain ⟨node, hnode, -⟩ := Option.map_eq_some_iff.1 h
  refine (fs.sound parent.reverse children hchildren).2 name ?_
  exact List.mem_map.2 ⟨(name, node), Node.mem_of_lookup hnode, rfl⟩

theorem extends_put (hget : fs.get? place = some (.file content)) (filled : Bytes) :
    Extends fs (fs.put place (.file filled)) ∧
      (fs.put place (.file filled)).get? place = some (.file filled) := by
  cases place with
  | nil => cases hget
  | cons name parent =>
    have hdirectory : fs.isDirectory (name :: parent) = false := by
      rw [isDirectory, hget]
      rfl
    have hfills := fills_put (isName_of_get? hget) (isDirectory_of_get?_cons hget) hdirectory filled
    refine ⟨⟨hfills.workingDirectory, fun other hother => ?_, fun other target => ?_⟩, hfills.self⟩
    · rw [hfills.other other (fun heq => by rw [heq, hget] at hother; cases hother), hother]
    · by_cases heq : other = name :: parent
      · rw [heq, hget, hfills.self]
        exact iff_of_false (by simp) (by simp)
      · rw [hfills.other other heq]

theorem read_put (h : fs.stat path = .ok (place, .file content)) (filled : Bytes) :
    (fs.put place (.file filled)).read path = .ok filled := by
  obtain ⟨hextends, hself⟩ := extends_put (get?_of_stat h) filled
  obtain ⟨name, parent, rfl, hlocate⟩ := locate_of_stat h
  exact read_of_stat (stat_of_locate (hextends.locate hlocate) hself)

end FileSystem

end Namespacing
