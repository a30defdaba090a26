import Namespacing.Proofs.FileSystem.Lookup
set_option autoImplicit false

open Namespacing.Path

namespace Namespacing

namespace FileSystem

variable {fs fs' : FileSystem}

@[simp] theorem workingDirectory_put (place : Location) (entry : Entry) :
    (fs.put place entry).workingDirectory = fs.workingDirectory := by
  unfold put
  split
  · rfl
  · split <;> rfl

theorem get?_append_eq_none {place : Location} (h : fs.get? place = none) (names : List Name) :
    fs.get? (names ++ place) = none := by
  induction names with
  | nil => exact h
  | cons name names ih =>
    cases hget : fs.get? (name :: (names ++ place)) with
    | none => exact hget
    | some entry =>
      have := (isDirectory_iff fs _).1 (isDirectory_of_get?_cons hget)
      rw [ih] at this
      cases this

theorem isName_of_isDown {x : Text} (hx : IsDown x) (hslash : '/' ∉ x) : isName x = true := by
  obtain ⟨hidle, hup⟩ := hx
  simp only [isIdle, Bool.or_eq_false_iff] at hidle
  simp [isName, hidle.1, hslash, hup, bne, hidle.2]

theorem isDown_of_isName {x : Text} (h : isName x = true) : IsDown x ∧ '/' ∉ x := by
  simp only [isName, Bool.and_eq_true, Bool.not_eq_true', bne_iff_ne, ne_eq] at h
  obtain ⟨⟨⟨hempty, hslash⟩, hdot⟩, hup⟩ := h
  refine ⟨⟨?_, hup⟩, by simpa using hslash⟩
  simp [isIdle, hempty, hdot]

/-- Nothing that is on one disk is missing or different on the other. -/
structure Grows (fs fs' : FileSystem) : Prop where
  workingDirectory : fs'.workingDirectory = fs.workingDirectory
  entry : ∀ place entry, fs.get? place = some entry → fs'.get? place = some entry

theorem Grows.refl : Grows fs fs := ⟨rfl, fun _ _ h => h⟩

theorem Grows.trans {fs'' : FileSystem} (h : Grows fs fs') (h' : Grows fs' fs'') : Grows fs fs'' where
  workingDirectory := h'.workingDirectory.trans h.workingDirectory
  entry place entry hget := h'.entry place entry (h.entry place entry hget)

theorem Grows.reaches (h : Grows fs fs') {absolute : Bool} {steps : List Text} {k : Nat}
    {place : Location} (hr : fs.Reaches absolute steps k place) :
    fs'.Reaches absolute steps k place := by
  have horigin : fs'.origin absolute = fs.origin absolute := by
    rw [origin, origin, h.workingDirectory]
  refine ⟨?_, ?_⟩
  · rw [horigin, isDirectory_iff]
    exact h.entry _ _ ((isDirectory_iff _ _).1 hr.start)
  · rw [horigin]
    exact hr.walks.mono (fun _ => h.entry _ _) fun _ _ => h.entry _ _

theorem grows_put {place : Location} (h : fs.get? place = none) (entry : Entry) :
    Grows fs (fs.put place entry) where
  workingDirectory := workingDirectory_put place entry
  entry other e hget := by
    rw [get?_put_of_ne, hget]
    rintro rfl
    rw [h] at hget
    cases hget

theorem grows_makeDirectory {path : Path} (h : fs.makeDirectory path = .ok fs') : Grows fs fs' := by
  unfold makeDirectory at h
  split at h
  · cases h
  · cases h
  · split at h
    · cases h
    · rename_i hnone
      cases h
      exact grows_put hnone .directory

theorem grows_ensureDirectory {path : Path} (h : fs.ensureDirectory path = .ok fs') :
    Grows fs fs' := by
  unfold ensureDirectory at h
  split at h
  · rename_i made hmade
    cases h
    exact grows_makeDirectory hmade
  · split at h
    · cases h
      exact .refl
    · cases h

theorem grows_ensureChain (paths : List Path) : Grows fs (fs.ensureChain paths).2 := by
  induction paths generalizing fs with
  | nil => exact .refl
  | cons path above ih =>
    rw [ensureChain]
    split
    · exact .refl
    · split
      · rename_i made hmade
        exact grows_ensureDirectory hmade
      · have hgrows : Grows fs (fs.ensureChain above).2 := ih
        split
        · rename_i error made hchain
          rw [hchain] at hgrows
          exact hgrows
        · rename_i made hchain
          rw [hchain] at hgrows
          split
          · rename_i made' hmade
            exact hgrows.trans (grows_ensureDirectory hmade)
          · exact hgrows
      · exact .refl

theorem grows_createDirectories (path : Path) : Grows fs (fs.createDirectories path).2 :=
  grows_ensureChain _

/-- The names lead down a line of directories that are new on the second disk, and nothing else is. -/
structure Adds (fs : FileSystem) (top : Location) (ys : List Text) (fs' : FileSystem) : Prop where
  workingDirectory : fs'.workingDirectory = fs.workingDirectory
  fresh : ∀ zs, zs ≠ [] → zs <+: ys → fs.get? (zs.reverse ++ top) = none
  added : ∀ zs, zs ≠ [] → zs <+: ys → fs'.get? (zs.reverse ++ top) = some .directory
  kept : ∀ place, (∀ zs, zs ≠ [] → zs <+: ys → place ≠ zs.reverse ++ top) →
    fs'.get? place = fs.get? place

theorem adds_nil (fs : FileSystem) (top : Location) : Adds fs top [] fs where
  workingDirectory := rfl
  fresh _ hne hpre := absurd (List.prefix_nil.1 hpre) hne
  added _ hne hpre := absurd (List.prefix_nil.1 hpre) hne
  kept _ _ := rfl

theorem Adds.extends {top : Location} {ys : List Text} (h : Adds fs top ys fs') : Extends fs fs' where
  workingDirectory := h.workingDirectory
  directory place hd := by
    by_cases hadded : ∃ zs, zs ≠ [] ∧ zs <+: ys ∧ place = zs.reverse ++ top
    · obtain ⟨zs, hne, hpre, rfl⟩ := hadded
      exact h.added zs hne hpre
    · rw [h.kept place fun zs hne hpre heq => hadded ⟨zs, hne, hpre, heq⟩, hd]
  link place target := by
    by_cases hadded : ∃ zs, zs ≠ [] ∧ zs <+: ys ∧ place = zs.reverse ++ top
    · obtain ⟨zs, hne, hpre, rfl⟩ := hadded
      rw [h.added zs hne hpre, h.fresh zs hne hpre]
      constructor <;> intro hcontra <;> cases hcontra
    · rw [h.kept place fun zs hne hpre heq => hadded ⟨zs, hne, hpre, heq⟩]

theorem Adds.kept_nil {top : Location} (h : Adds fs top [] fs') (place : Location) :
    fs'.get? place = fs.get? place :=
  h.kept place fun _ hne hpre => absurd (List.prefix_nil.1 hpre) hne

theorem Adds.kept_singleton {top : Location} {x : Text} (h : Adds fs top [x] fs') {place : Location}
    (hplace : place ≠ x :: top) : fs'.get? place = fs.get? place := by
  refine h.kept place fun zs hne hpre heq => hplace ?_
  cases zs with
  | nil => exact absurd rfl hne
  | cons z zs =>
    obtain ⟨rfl, hrest⟩ := List.cons_prefix_cons.1 hpre
    rw [heq, List.prefix_nil.1 hrest]
    rfl

theorem Adds.get?_inside {top : Location} {names line : List Text} (h : Adds fs top (names ++ line) fs')
    (hnames : names ≠ []) (zs : List Text) :
    fs'.get? (zs.reverse ++ (names.reverse ++ top)) = if zs <+: line then some .directory else none := by
  rw [← List.append_assoc, ← List.reverse_append]
  split
  · rename_i hzs
    exact h.added (names ++ zs) (by simp [hnames]) ((List.prefix_append_right_inj names).2 hzs)
  · rename_i hzs
    rw [h.kept]
    · rw [List.reverse_append, List.append_assoc]
      exact get?_append_eq_none (h.fresh names hnames (List.prefix_append _ _)) zs.reverse
    · intro zs' _ hzs' heq
      rw [← List.reverse_inj.1 (List.append_cancel_right heq), List.prefix_append_right_inj] at hzs'
      exact hzs hzs'

theorem Adds.snoc {top : Location} {ys : List Text} (h : Adds fs top ys fs') {x : Name}
    (hname : isName x = true) (hparent : fs'.isDirectory (ys.reverse ++ top) = true)
    (hfresh : fs.get? (x :: (ys.reverse ++ top)) = none)
    (hnone : fs'.get? (x :: (ys.reverse ++ top)) = none) :
    Adds fs top (ys ++ [x]) (fs'.put (x :: (ys.reverse ++ top)) .directory) := by
  have hplace : (ys ++ [x]).reverse ++ top = x :: (ys.reverse ++ top) := by simp
  have hfile : fs'.isDirectory (x :: (ys.reverse ++ top)) = false := by
    rw [isDirectory, hnone]
    rfl
  have hother : ∀ zs, zs <+: ys → zs.reverse ++ top ≠ x :: (ys.reverse ++ top) := by
    intro zs hpre heq
    have hlen := congrArg List.length heq
    have hle := hpre.length_le
    simp only [List.length_append, List.length_reverse, List.length_cons] at hlen
    omega
  refine ⟨?_, fun zs hne hpre => ?_, fun zs hne hpre => ?_, fun place hplaces => ?_⟩
  · rw [workingDirectory_put, h.workingDirectory]
  · rcases List.prefix_concat_iff.1 hpre with rfl | hpre
    · rw [hplace, hfresh]
    · exact h.fresh zs hne hpre
  · rcases List.prefix_concat_iff.1 hpre with rfl | hpre
    · rw [hplace, get?_put_self hname hparent hfile]
    · rw [get?_put_of_ne (hother zs hpre), h.added zs hne hpre]
  · rw [get?_put_of_ne, h.kept place fun zs hne hpre =>
      hplaces zs hne (hpre.trans (List.prefix_append _ _))]
    rw [← hplace]
    exact hplaces _ (by simp) List.prefix_rfl

theorem stepOf_name (rest : List Text) : stepOf .name rest ≠ .before := by
  unfold stepOf
  split <;> exact fun h => by cases h

section

variable {path : Path} {before : List Text} {x : Text}

theorem makeDirectory_ok (hsegments : segments path = before ++ [x]) (hx : IsDown x)
    (h : fs.makeDirectory path = .ok fs') :
    ∃ k place, fs.Reaches (isAbsolute path) (before.filter fun s => !isIdle s) k place ∧
      Text.utf8Size x ≤ maxNameSize ∧ fs.get? (x :: place) = none ∧
      fs' = fs.put (x :: place) .directory := by
  unfold makeDirectory at h
  split at h
  · cases h
  · cases h
  · rename_i parent name slash hlocate
    obtain ⟨k, place, hreaches, hfollows⟩ := exists_reaches_of_locate hlocate hsegments hx
    split at h
    · cases h
    · rename_i hnone
      cases h
      cases hfollows with
      | idle hidle => exact absurd hx (not_isDown_of_isIdle hidle)
      | up => exact absurd hx not_isDown_up
      | before _ hbefore => exact absurd hbefore (stepOf_name [])
      | stop _ hsize _ _ => exact ⟨k, parent, hreaches, hsize, hnone, rfl⟩
      | enter _ _ hrest => cases hrest
      | link _ _ hstep => cases hstep

theorem ensureDirectory_ok_cases (h : fs.ensureDirectory path = .ok fs') :
    fs.makeDirectory path = .ok fs' ∨ (fs' = fs ∧ fs.pathIsDirectory path = true) := by
  unfold ensureDirectory at h
  split at h
  · rename_i made hmade
    cases h
    exact Or.inl hmade
  · split at h
    · rename_i hdir
      cases h
      exact Or.inr ⟨rfl, hdir⟩
    · cases h

theorem locate_of_ensureDirectory_notFound (h : fs.ensureDirectory path = .error .notFound) :
    fs.locate .name path = .error .notFound ∧ fs.pathIsDirectory path = false := by
  unfold ensureDirectory at h
  split at h
  · cases h
  · rename_i error hmake
    split at h
    · cases h
    · rename_i hdir
      cases h
      refine ⟨?_, by simpa using hdir⟩
      unfold makeDirectory at hmake
      split at hmake
      · rename_i hlocate
        cases hmake
        exact hlocate
      · cases hmake
      · split at hmake <;> cases hmake

theorem followable_of_locate_notFound {last : LastStep} (hne : path ≠ [])
    (h : fs.locate last path = .error .notFound) : Followable path := by
  unfold locate at h
  split at h
  · cases h
  · rename_i hnul
    split at h
    · rename_i hempty
      exact absurd (by simpa using hempty) hne
    · split at h
      · cases h
      · rename_i hsize
        exact ⟨by simpa using hnul, hne, Nat.le_of_not_lt hsize⟩

theorem not_notFound_of_reaches (hsegments : segments path = before ++ [x]) (hx : IsDown x)
    {k : Nat} {place : Location}
    (hreaches : fs.Reaches (isAbsolute path) (before.filter fun s => !isIdle s) k place)
    (hne : path ≠ []) : fs.ensureDirectory path ≠ .error .notFound := by
  intro h
  have hlocate := (locate_of_ensureDirectory_notFound h).1
  have hpath := followable_of_locate_notFound hne hlocate
  obtain ⟨hlong, hshort⟩ :=
    @Reaches.locate_last fs path before x k place .name hreaches hpath hsegments hx (by decide)
  rcases Nat.lt_or_ge maxNameSize (Text.utf8Size x) with hsize | hsize
  · rw [hlong hsize] at hlocate
    cases hlocate
  · rw [hshort hsize fun _ _ => rfl] at hlocate
    cases hlocate

end

/-- A path that goes up at its end, or nowhere, names no directory that could be made. -/
theorem makeDirectory_ne_ok_of_here {path : Path}
    (h : ∀ spot, fs.locate .name path = .ok spot → ∃ place, spot = .here place) :
    fs.makeDirectory path ≠ .ok fs' := by
  intro hmake
  unfold makeDirectory at hmake
  split at hmake
  · cases hmake
  · cases hmake
  · rename_i hlocate
    obtain ⟨place, hspot⟩ := h _ hlocate
    cases hspot

theorem Follows.here_of_idle {last : LastStep} {k : Nat} {p : Location} {xs : List Text} {spot : Spot}
    (hxs : (xs.filter fun x => !isIdle x) = []) (h : Follows fs last k p xs spot) :
    spot = .here p := by
  induction xs with
  | nil =>
    cases h
    rfl
  | cons x xs ih =>
    have hidle : isIdle x = true := by
      cases hx : isIdle x with
      | true => rfl
      | false =>
        rw [List.filter_cons_of_pos (by simp [hx])] at hxs
        cases hxs
    rw [List.filter_cons_of_neg (by simp [hidle])] at hxs
    cases h with
    | idle _ tail => exact ih hxs tail
    | up => cases hidle
    | before hx => exact absurd hx (not_isDown_of_isIdle hidle)
    | stop hx => exact absurd hx (not_isDown_of_isIdle hidle)
    | enter hx => exact absurd hx (not_isDown_of_isIdle hidle)
    | link hx => exact absurd hx (not_isDown_of_isIdle hidle)

/-- Wherever the steps go up, they have come to a directory that is there. -/
def Anchored (fs : FileSystem) (absolute : Bool) (steps : List Text) : Prop :=
  ∀ xs, xs ++ [['.', '.']] <+: steps → ∃ k place, fs.Reaches absolute (xs ++ [['.', '.']]) k place

theorem Anchored.of_append {absolute : Bool} {steps rest : List Text}
    (h : fs.Anchored absolute (steps ++ rest)) : fs.Anchored absolute steps :=
  fun xs hpre => h xs (hpre.trans (List.prefix_append _ _))

theorem Anchored.append_down {absolute : Bool} {steps dir : List Text} (h : fs.Anchored absolute steps)
    (hdir : ∀ name ∈ dir, IsDown name) : fs.Anchored absolute (steps ++ dir) := by
  intro xs hxs
  refine h xs ?_
  rcases List.prefix_or_prefix_of_prefix hxs (List.prefix_append steps dir) with hpre | ⟨rest, hrest⟩
  · exact hpre
  · rcases List.eq_nil_or_concat rest with rfl | ⟨init, last, rfl⟩
    · rw [List.append_nil] at hrest
      exact ⟨[], (List.append_nil _).trans hrest.symm⟩
    · exfalso
      rw [List.concat_eq_append, ← List.append_assoc] at hrest
      obtain ⟨-, hlast⟩ := List.append_inj' hrest rfl
      rw [← hrest, List.append_assoc, List.prefix_append_right_inj] at hxs
      have hmem : ['.', '.'] ∈ dir := hxs.subset (by simp [hlast])
      exact not_isDown_up (hdir _ hmem)

theorem Anchored.extend {absolute : Bool} {steps : List Text} (h : fs.Anchored absolute steps)
    (hextends : Extends fs fs') : fs'.Anchored absolute steps := by
  intro xs hxs
  obtain ⟨k, place, hreaches⟩ := h xs hxs
  exact ⟨k, place, hreaches.extend hextends⟩

theorem walks_down {ys : List Text} {place : Location} {k : Nat}
    (hys : ∀ y ∈ ys, IsDown y ∧ Text.utf8Size y ≤ maxNameSize)
    (hdirs : ∀ zs, zs ≠ [] → zs <+: ys → fs.get? (zs.reverse ++ place) = some .directory) :
    Walks fs k place ys k (ys.reverse ++ place) := by
  induction ys generalizing place with
  | nil => exact .nil
  | cons y ys ih =>
    obtain ⟨hy, hsize⟩ := hys y List.mem_cons_self
    have hget : fs.get? (y :: place) = some .directory := hdirs [y] (by simp) (by simp)
    have hbelow : ∀ zs, zs ≠ [] → zs <+: ys → fs.get? (zs.reverse ++ y :: place) = some .directory := by
      intro zs _ hpre
      simpa using hdirs (y :: zs) (by simp) (List.cons_prefix_cons.2 ⟨rfl, hpre⟩)
    refine .enter hy hsize hget ?_
    simpa using ih (fun z hz => hys z (List.mem_cons_of_mem _ hz)) hbelow

/-- What making a directory with all above it has done when it succeeds. -/
structure Made (fs : FileSystem) (absolute : Bool) (steps : List Text) (fs' : FileSystem)
    (pre ys : List Text) (k : Nat) (place : Location) : Prop where
  steps : steps = pre ++ ys
  reaches : fs.Reaches absolute pre k place
  down : ∀ y ∈ ys, IsDown y ∧ Text.utf8Size y ≤ maxNameSize
  adds : Adds fs place ys fs'

theorem Made.reaches_all {absolute : Bool} {steps pre ys : List Text} {k : Nat} {place : Location}
    (h : Made fs absolute steps fs' pre ys k place) :
    fs'.Reaches absolute steps k (ys.reverse ++ place) := by
  have hpre := h.reaches.extend h.adds.extends
  refine ⟨hpre.start, ?_⟩
  rw [h.steps]
  exact hpre.walks.append (walks_down h.down h.adds.added)

theorem made_refl {absolute : Bool} {steps : List Text} {k : Nat} {place : Location}
    (h : fs.Reaches absolute steps k place) : Made fs absolute steps fs steps [] k place :=
  ⟨by simp, h, by simp, adds_nil fs place⟩

theorem Made.exists_rest {absolute : Bool} {xs zs pre ys : List Text} {k k' : Nat}
    {place place' : Location} (h : Made fs absolute (xs ++ zs) fs' pre ys k place)
    (hreaches : fs.Reaches absolute xs k' place') : ∃ rest, pre = xs ++ rest ∧ zs = rest ++ ys := by
  have hpre : pre <+: xs ++ zs := ⟨ys, h.steps.symm⟩
  rcases List.prefix_or_prefix_of_prefix (List.prefix_append xs zs) hpre with
    ⟨rest, rfl⟩ | ⟨rest, rfl⟩
  · have hsteps := h.steps
    rw [List.append_assoc, List.append_cancel_left_eq] at hsteps
    exact ⟨rest, rfl, hsteps⟩
  · have hsteps := h.steps
    rw [List.append_assoc, List.append_cancel_left_eq] at hsteps
    cases rest with
    | nil => exact ⟨[], by simp, hsteps⟩
    | cons y rest =>
      exfalso
      subst hsteps
      have hnone : fs.get? (y :: place) = none := h.adds.fresh [y] (by simp) ⟨rest ++ zs, rfl⟩
      exact h.reaches.ne_none hreaches (h.down y (by simp)).1 hnone

theorem ensureChain_cons_ok {path : Path} {above : List Path} (hne : path ≠ [])
    (h : fs.ensureChain (path :: above) = (.ok (), fs')) :
    fs.ensureDirectory path = .ok fs' ∨ fs.ensureDirectory path = .error .notFound ∧
      ∃ mid, fs.ensureChain above = (.ok (), mid) ∧ mid.ensureDirectory path = .ok fs' := by
  rw [ensureChain, if_neg (by simpa using hne)] at h
  split at h
  · rename_i made hmade
    cases h
    exact Or.inl hmade
  · rename_i hnotFound
    split at h
    · cases h
    · rename_i mid habove
      split at h
      · rename_i made hmade
        cases h
        exact Or.inr ⟨hnotFound, mid, habove, hmade⟩
      · cases h
  · cases h

/-- A chain that fails leaves what the paths above the first one leave, if these were tried at all. -/
theorem ensureChain_cons_error {path : Path} {above : List Path} {error : IoError}
    (h : fs.ensureChain (path :: above) = (.error error, fs')) :
    fs' = fs ∨ fs.ensureDirectory path = .error .notFound ∧ fs' = (fs.ensureChain above).2 := by
  rw [ensureChain] at h
  split at h
  · cases h
  · split at h
    · cases h
    · rename_i hnotFound
      split at h
      · rename_i made habove
        cases h
        exact Or.inr ⟨hnotFound, by rw [habove]⟩
      · rename_i made habove
        split at h
        · cases h
        · cases h
          exact Or.inr ⟨hnotFound, by rw [habove]⟩
    · cases h
      exact Or.inl rfl

theorem ensureChain_same {path : Path} {above : List Path} {k : Nat} {place : Location}
    (hhere : ∀ spot, fs.locate .name path = .ok spot → ∃ place, spot = .here place)
    (hreaches : fs.Reaches (isAbsolute path) (steps path) k place)
    (h : fs.ensureChain (path :: above) = (.ok (), fs')) : fs' = fs := by
  by_cases hne : path = []
  · subst hne
    cases h
    rfl
  rcases ensureChain_cons_ok hne h with hmade | ⟨hnotFound, -⟩
  · rcases ensureDirectory_ok_cases hmade with hmake | ⟨rfl, -⟩
    · exact absurd hmake (makeDirectory_ne_ok_of_here hhere)
    · rfl
  · obtain ⟨hlocate, hdir⟩ := locate_of_ensureDirectory_notFound hnotFound
    have hfollowable := followable_of_locate_notFound hne hlocate
    rw [pathIsDirectory_iff.2 ⟨hfollowable, k, place, hreaches⟩] at hdir
    cases hdir

section

variable {path : Path} {before : List Text} {x : Text} (hsegments : segments path = before ++ [x])

include hsegments

theorem here_of_up (hup : x = ['.', '.']) {spot : Spot} (h : fs.locate .name path = .ok spot) :
    ∃ place, spot = .here place := by
  subst hup
  obtain ⟨-, -, hfollows⟩ := locate_ok_iff.1 h
  rw [hsegments] at hfollows
  obtain ⟨k, place, -, hlast⟩ := hfollows.split rfl
  cases hlast with
  | idle hidle => cases hidle
  | up tail => exact ⟨_, tail.here_of_idle rfl⟩
  | before hx => exact absurd hx not_isDown_up
  | stop hx => exact absurd hx not_isDown_up
  | enter hx => exact absurd hx not_isDown_up
  | link hx => exact absurd hx not_isDown_up

theorem made_of_ensureDirectory (hx : IsDown x) (hslash : '/' ∉ x)
    (h : fs.ensureDirectory path = .ok fs') :
    ∃ pre ys k place, Made fs (isAbsolute path) (steps path) fs' pre ys k place := by
  rcases ensureDirectory_ok_cases h with hmake | ⟨rfl, hthere⟩
  · obtain ⟨k, place, hreaches, hsize, hnone, rfl⟩ := makeDirectory_ok hsegments hx hmake
    refine ⟨_, [x], k, place, steps_of_segments hsegments hx.1, hreaches, ?_, ?_⟩
    · intro y hy
      rw [List.mem_singleton.1 hy]
      exact ⟨hx, hsize⟩
    · exact (adds_nil fs place).snoc (isName_of_isDown hx hslash) hreaches.isDirectory hnone hnone
  · obtain ⟨-, k, place, hreaches⟩ := pathIsDirectory_iff.1 hthere
    exact ⟨_, _, k, place, made_refl hreaches⟩

theorem Made.snoc {mid : FileSystem} {pre ys : List Text} {k : Nat} {place : Location} (hx : IsDown x)
    (hslash : '/' ∉ x)
    (hmade : Made fs (isAbsolute path) (before.filter fun s => !isIdle s) mid pre ys k place)
    (hys : ys ≠ []) (h : mid.ensureDirectory path = .ok fs') :
    Made fs (isAbsolute path) (Path.steps path) fs' pre (ys ++ [x]) k place := by
  have hsteps := steps_of_segments hsegments hx.1
  have hreaches := hmade.reaches_all
  have hnone : mid.get? (x :: (ys.reverse ++ place)) = none := by
    have hadds := hmade.adds
    rw [← List.append_nil ys] at hadds
    simpa using hadds.get?_inside hys [x]
  rcases ensureDirectory_ok_cases h with hmake | ⟨rfl, hthere⟩
  · obtain ⟨k', place', hreaches', hsize, -, rfl⟩ := makeDirectory_ok hsegments hx hmake
    obtain ⟨rfl, rfl⟩ := hreaches'.unique hreaches
    refine ⟨?_, hmade.reaches, ?_, ?_⟩
    · rw [hsteps, hmade.steps, List.append_assoc]
    · intro y hy
      rcases List.mem_append.1 hy with hy | hy
      · exact hmade.down y hy
      · rw [List.mem_singleton.1 hy]
        exact ⟨hx, hsize⟩
    · refine hmade.adds.snoc (isName_of_isDown hx hslash) hreaches.isDirectory ?_ hnone
      exact get?_append_eq_none (hmade.adds.fresh ys hys List.prefix_rfl) [x]
  · -- It would have to be there already in the directory that was made last.
    exfalso
    obtain ⟨-, k', place', hthere⟩ := pathIsDirectory_iff.1 hthere
    rw [hsteps] at hthere
    exact hreaches.ne_none hthere hx hnone

end

section

variable {root : Root}

theorem ensureChain_root (hclean : Parts.Clean ⟨root, []⟩)
    (hstart : fs.isDirectory (fs.origin (decide (root = .slash))) = true)
    (h : fs.ensureChain (chain root []) = (.ok (), fs')) :
    ∃ k place, Made fs (decide (root = .slash)) [] fs' [] [] k place := by
  have hreaches : fs.Reaches (decide (root = .slash)) [] maxLinks (fs.origin (decide (root = .slash))) :=
    ⟨hstart, .nil⟩
  have hsteps : steps (Parts.toPath ⟨root, []⟩) = [] := hclean.steps_toPath
  have habs := hclean.isAbsolute_toPath
  have hhere : ∀ spot, fs.locate .name (Parts.toPath ⟨root, []⟩) = .ok spot →
      ∃ place, spot = .here place := by
    intro spot hlocate
    obtain ⟨-, -, hfollows⟩ := locate_ok_iff.1 hlocate
    exact ⟨_, hfollows.here_of_idle hsteps⟩
  have hsame := ensureChain_same hhere (by rw [habs, hsteps]; exact hreaches) h
  rw [hsame]
  exact ⟨_, _, made_refl hreaches⟩

theorem ensureChain_ok {rev : List Text} (hclean : Parts.Clean ⟨root, rev.reverse⟩)
    (hstart : fs.isDirectory (fs.origin (decide (root = .slash))) = true)
    (hanchored : fs.Anchored (decide (root = .slash)) (rev.reverse.filter fun s => !isIdle s))
    (h : fs.ensureChain (chain root rev) = (.ok (), fs')) :
    ∃ pre ys k place, Made fs (decide (root = .slash)) (rev.reverse.filter fun s => !isIdle s) fs'
      pre ys k place := by
  induction rev generalizing fs' with
  | nil =>
    obtain ⟨k, place, hmade⟩ := ensureChain_root hclean hstart h
    exact ⟨_, _, k, place, hmade⟩
  | cons x rest ih =>
    rw [List.reverse_cons] at hclean hanchored ⊢
    cases hidle : isIdle x with
    | true =>
      have hnone : ((rest.reverse ++ [x]).filter fun s => !isIdle s) =
          rest.reverse.filter fun s => !isIdle s := by simp [hidle]
      rw [chain_idle hidle] at h
      rw [hnone] at hanchored ⊢
      exact ih hclean.of_append hanchored h
    | false =>
      rw [chain_step hidle, List.reverse_cons] at h
      obtain ⟨before, hsegments, hbefore⟩ := hclean.exists_segments_toPath
      have habs := hclean.isAbsolute_toPath
      have hsteps := hclean.steps_toPath
      generalize Parts.toPath ⟨root, rest.reverse ++ [x]⟩ = path at h hsegments habs hsteps
      rw [← habs, ← hsteps] at hanchored ⊢
      rw [← habs, ← hbefore] at ih
      have hone := steps_of_segments hsegments hidle
      have hne : path ≠ [] := by
        rintro rfl
        rw [show steps [] = [] from rfl] at hone
        simp at hone
      by_cases hup : x = ['.', '.']
      · -- The directory is there, and nothing was to be made.
        subst hup
        rw [hone] at hanchored
        obtain ⟨k, place, hreaches⟩ := hanchored _ List.prefix_rfl
        rw [← hone] at hreaches
        rw [ensureChain_same (fun spot => here_of_up hsegments rfl) hreaches h]
        exact ⟨_, _, k, place, made_refl hreaches⟩
      · have hx : IsDown x := ⟨hidle, hup⟩
        have hslash := hclean.slash x (by simp)
        rcases ensureChain_cons_ok hne h with hensure | ⟨hnotFound, mid, habove, hensure⟩
        · exact made_of_ensureDirectory hsegments hx hslash hensure
        · rw [hone] at hanchored
          obtain ⟨pre, ys, k, place, hmade⟩ := ih hclean.of_append hanchored.of_append habove
          have hys : ys ≠ [] := by
            rintro rfl
            have hreaches := hmade.reaches
            rw [← List.append_nil pre, ← hmade.steps] at hreaches
            exact not_notFound_of_reaches hsegments hx hreaches hne hnotFound
          exact ⟨pre, ys ++ [x], k, place, hmade.snoc hsegments hx hslash hys hensure⟩

/-- Whether a chain succeeds or not, all that it leaves is a line of directories. -/
theorem ensureChain_left {rev : List Text} (hclean : Parts.Clean ⟨root, rev.reverse⟩)
    (hstart : fs.isDirectory (fs.origin (decide (root = .slash))) = true)
    (hanchored : fs.Anchored (decide (root = .slash)) (rev.reverse.filter fun s => !isIdle s)) :
    (fs.ensureChain (chain root rev)).2 = fs ∨
      ∃ xs pre ys k place, xs <+: (rev.reverse.filter fun s => !isIdle s) ∧
        Made fs (decide (root = .slash)) xs (fs.ensureChain (chain root rev)).2 pre ys k place := by
  rcases hrun : fs.ensureChain (chain root rev) with ⟨outcome, fs'⟩
  cases outcome with
  | ok _ =>
    obtain ⟨pre, ys, k, place, hmade⟩ := ensureChain_ok hclean hstart hanchored hrun
    exact Or.inr ⟨_, pre, ys, k, place, List.prefix_rfl, hmade⟩
  | error error =>
    induction rev generalizing fs' error with
    | nil =>
      rcases ensureChain_cons_error hrun with rfl | ⟨-, rfl⟩
      · exact Or.inl rfl
      · left
        rw [ancestorsFrom]
        split <;> rfl
    | cons x rest ih =>
      rw [List.reverse_cons] at hclean hanchored ⊢
      rw [List.filter_append] at hanchored ⊢
      cases hidle : isIdle x with
      | true =>
        have hnone : [x].filter (fun s => !isIdle s) = [] := by simp [hidle]
        rw [chain_idle hidle] at hrun
        rw [hnone, List.append_nil] at hanchored ⊢
        exact ih hclean.of_append hanchored _ _ hrun
      | false =>
        rw [chain_step hidle] at hrun
        rcases ensureChain_cons_error hrun with rfl | ⟨-, rfl⟩
        · exact Or.inl rfl
        · rcases habove : fs.ensureChain (chain root rest) with ⟨outcome, made⟩
          cases outcome with
          | error error' =>
            refine (ih hclean.of_append hanchored.of_append _ _ habove).imp id ?_
            rintro ⟨xs, pre, ys, k, place, hxs, hmade⟩
            exact ⟨xs, pre, ys, k, place, hxs.trans (List.prefix_append _ _), hmade⟩
          | ok _ =>
            obtain ⟨pre, ys, k, place, hmade⟩ :=
              ensureChain_ok hclean.of_append hstart hanchored.of_append habove
            exact Or.inr ⟨_, pre, ys, k, place, List.prefix_append _ _, hmade⟩

theorem followable_of_ensureDirectory {path : Path} (h : fs.ensureDirectory path = .ok fs') :
    Followable path ∧ fs.isDirectory (fs.origin (isAbsolute path)) = true := by
  rcases ensureDirectory_ok_cases h with hmake | ⟨-, hdir⟩
  · unfold makeDirectory at hmake
    split at hmake
    · cases hmake
    · cases hmake
    · rename_i hlocate
      exact followable_of_locate hlocate
  · obtain ⟨hpath, k, place, hreaches⟩ := pathIsDirectory_iff.1 hdir
    exact ⟨hpath, hreaches.start⟩

theorem ensureChain_of_no_start {paths : List Path} (hpaths : ∀ path ∈ paths, isAbsolute path = false)
    (hstart : fs.isDirectory fs.workingDirectory = false) :
    (fs.ensureChain paths).2 = fs ∧
      ∀ path above, paths = path :: above → path ≠ [] → (fs.ensureChain paths).1 ≠ .ok () := by
  have hfails : ∀ path, isAbsolute path = false → ∀ made, fs.ensureDirectory path ≠ .ok made := by
    intro path habs made hmade
    have := (followable_of_ensureDirectory hmade).2
    rw [habs] at this
    change fs.isDirectory fs.workingDirectory = true at this
    rw [hstart] at this
    cases this
  induction paths with
  | nil => exact ⟨rfl, fun _ _ h => by cases h⟩
  | cons path above ih =>
    have habs := hpaths path List.mem_cons_self
    obtain ⟨hsame, -⟩ := ih fun p hp => hpaths p (List.mem_cons_of_mem _ hp)
    suffices (path = [] ∧ fs.ensureChain (path :: above) = (.ok (), fs)) ∨
        ∃ error, fs.ensureChain (path :: above) = (.error error, fs) by
      rcases this with ⟨hempty, heq⟩ | ⟨error, heq⟩
      · rw [heq]
        refine ⟨rfl, fun path' above' h hne => ?_⟩
        rw [(List.cons.inj h).1] at hempty
        exact absurd hempty hne
      · rw [heq]
        exact ⟨rfl, fun _ _ _ _ h => by cases h⟩
    rw [ensureChain]
    split
    · rename_i hempty
      exact Or.inl ⟨by simpa using hempty, rfl⟩
    · right
      split
      · rename_i made hmade
        exact absurd hmade (hfails path habs made)
      · split
        · rename_i error made hchain
          rw [hchain] at hsame
          obtain rfl : made = fs := hsame
          exact ⟨error, rfl⟩
        · rename_i made hchain
          rw [hchain] at hsame
          obtain rfl : made = fs := hsame
          split
          · rename_i made' hmade
            exact absurd hmade (hfails path habs made')
          · exact ⟨_, rfl⟩
      · exact ⟨_, rfl⟩

theorem isAbsolute_of_mem_ancestorsFrom {rev : List Text} (hclean : Parts.Clean ⟨root, rev.reverse⟩)
    (hroot : root ≠ .slash) {path : Path} (h : path ∈ ancestorsFrom root rev) :
    isAbsolute path = false := by
  induction rev with
  | nil =>
    rw [ancestorsFrom] at h
    split at h
    · rw [List.mem_singleton.1 h]
      rfl
    · cases h
  | cons x rest ih =>
    rw [List.reverse_cons] at hclean
    rw [ancestorsFrom] at h
    split at h
    · exact ih hclean.of_append h
    · rcases List.mem_cons.1 h with rfl | h
      · have htrim : ∃ tail, rest.reverse = trimIdle rest.reverse ++ tail := by
          rw [trimIdle_reverse]
          refine ⟨(rest.takeWhile isIdle).reverse, ?_⟩
          rw [← List.reverse_append, List.takeWhile_append_dropWhile]
        obtain ⟨tail, htail⟩ := htrim
        have hrest := hclean.of_append
        rw [htail] at hrest
        rw [hrest.of_append.isAbsolute_toPath]
        simp [hroot]
      · exact ih hclean.of_append h

theorem followable_of_createDirectories {path : Path} (hne : path ≠ [])
    (h : fs.createDirectories path = (.ok (), fs')) : Followable path := by
  rw [createDirectories, ensureChain, if_neg (by simpa using hne)] at h
  split at h
  · rename_i hmade
    exact (followable_of_ensureDirectory hmade).1
  · split at h
    · cases h
    · split at h
      · rename_i hmade
        exact (followable_of_ensureDirectory hmade).1
      · cases h
  · cases h

theorem isAbsolute_of_mem_chain {path : Path} (habs : isAbsolute path = false) :
    ∀ p ∈ path :: ancestors path, isAbsolute p = false := by
  have hroot : (parts path).root ≠ .slash := by
    rw [isAbsolute_eq] at habs
    simpa using habs
  intro p hp
  rcases List.mem_cons.1 hp with rfl | hp
  · exact habs
  · refine isAbsolute_of_mem_ancestorsFrom ?_ hroot hp
    rw [List.reverse_reverse]
    exact clean_parts path

theorem createDirectories_ok {path : Path} {before : List Text} {x : Text}
    (hsegments : segments path = before ++ [x]) (hx : isIdle x = false)
    (hanchored : fs.Anchored (isAbsolute path) (steps path))
    (h : fs.createDirectories path = (.ok (), fs')) :
    ∃ pre ys k place, Made fs (isAbsolute path) (steps path) fs' pre ys k place := by
  have hclean := clean_parts path
  have hne := ne_nil_of_segments hsegments hx
  have hstart : fs.isDirectory (fs.origin (isAbsolute path)) = true := by
    cases habs : isAbsolute path with
    | true => rfl
    | false =>
      cases hwd : fs.isDirectory fs.workingDirectory with
      | true => exact hwd
      | false =>
        exfalso
        have := (ensureChain_of_no_start (isAbsolute_of_mem_chain habs) hwd).2 path _ rfl hne
        rw [createDirectories] at h
        rw [h] at this
        exact this rfl
  rw [createDirectories, cons_ancestors hsegments hx] at h
  rw [isAbsolute_eq, steps_eq] at hanchored ⊢
  rw [isAbsolute_eq] at hstart
  have hrev : (parts path).body.reverse.reverse = (parts path).body := List.reverse_reverse _
  rw [← hrev] at hanchored ⊢
  exact ensureChain_ok (by rw [hrev]; exact hclean) hstart hanchored h

theorem createDirectories_left {path : Path} {before : List Text} {x : Text}
    (hsegments : segments path = before ++ [x]) (hx : isIdle x = false)
    (hanchored : fs.Anchored (isAbsolute path) (steps path)) :
    (fs.createDirectories path).2 = fs ∨ ∃ xs pre ys k place, xs <+: steps path ∧
      Made fs (isAbsolute path) xs (fs.createDirectories path).2 pre ys k place := by
  cases hstart : fs.isDirectory (fs.origin (isAbsolute path)) with
  | false =>
    cases habs : isAbsolute path with
    | true =>
      rw [habs] at hstart
      cases hstart
    | false =>
      rw [habs] at hstart
      exact Or.inl (ensureChain_of_no_start (isAbsolute_of_mem_chain habs) hstart).1
  | true =>
    have hrev : (parts path).body.reverse.reverse = (parts path).body := List.reverse_reverse _
    rw [isAbsolute_eq, steps_eq, ← hrev] at hanchored
    rw [isAbsolute_eq] at hstart
    have hleft := ensureChain_left (by rw [hrev]; exact clean_parts path) hstart hanchored
    rw [hrev] at hleft
    rwa [createDirectories, cons_ancestors hsegments hx, isAbsolute_eq, steps_eq]

end

end FileSystem

end Namespacing
