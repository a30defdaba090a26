import Namespacing.FileSystem.Node
set_option autoImplicit false

namespace Namespacing

abbrev Location := List Name

/-- The entries of a disk, and the place where relative paths start. -/
structure FileSystem where
  top : List (Name × Node)
  workingDirectory : Location
  sound : (Node.directory top).Sound

namespace FileSystem

def node? (fs : FileSystem) (place : Location) : Option Node :=
  (Node.directory fs.top).descend? place.reverse

def get? (fs : FileSystem) (place : Location) : Option Entry :=
  (fs.node? place).map Node.entry

def isDirectory (fs : FileSystem) (place : Location) : Bool :=
  fs.get? place == some .directory

def entriesBelow (fs : FileSystem) (place : Location) : List (List Name × Entry) :=
  match fs.node? place with
  | some node => node.entriesBelow
  | none => []

def empty : FileSystem where
  top := []
  workingDirectory := []
  sound := Node.sound_directory_nil

def startingAt (fs : FileSystem) (place : Location) : FileSystem :=
  { fs with workingDirectory := place }

def update (fs : FileSystem) (place : Location)
    (change : List (Name × Node) → List (Name × Node))
    (h : ∀ children, (Node.directory children).Sound → (Node.directory (change children)).Sound) :
    FileSystem :=
  { fs with
    top := Node.updateChildren change place.reverse fs.top
    sound := Node.sound_updateChildren h place.reverse fs.sound }

def removeTree (fs : FileSystem) : Location → FileSystem
  | [] => fs
  | name :: parent =>
    fs.update parent (Node.eraseChild name) fun _ h => Node.sound_eraseChild name h

def clear (fs : FileSystem) (place : Location) : FileSystem :=
  fs.update place (fun _ => []) fun _ _ => Node.sound_directory_nil

/-- Put an entry at a place: in place of a file or link, or where nothing is. A place that cannot take
the entry stays as it is: it has no name, is not in a directory, or is a directory itself. -/
def put (fs : FileSystem) (place : Location) (entry : Entry) : FileSystem :=
  match place with
  | [] => fs
  | name :: parent =>
    if h : isName name = true ∧ fs.isDirectory (name :: parent) = false then
      fs.update parent (Node.setChild name (Node.ofEntry entry)) fun _ hs =>
        Node.sound_setChild h.1 (Node.sound_ofEntry entry) hs
    else fs

@[simp] theorem get?_root (fs : FileSystem) : fs.get? [] = some .directory := rfl

theorem isDirectory_iff (fs : FileSystem) (place : Location) :
    fs.isDirectory place = true ↔ fs.get? place = some .directory := by
  rw [isDirectory, beq_iff_eq]

theorem node?_cons {fs : FileSystem} {place : Location} {children : List (Name × Node)}
    (h : fs.node? place = some (.directory children)) (name : Name) :
    fs.node? (name :: place) = children.lookup name := by
  rw [node?, List.reverse_cons, Node.descend?_append]
  rw [node?] at h
  rw [h, Option.bind_some, Node.descend?_directory_cons]
  cases children.lookup name with
  | none => rfl
  | some node => cases node <;> rfl

theorem isDirectory_of_get?_cons {fs : FileSystem} {name : Name} {place : Location} {entry : Entry}
    (h : fs.get? (name :: place) = some entry) : fs.isDirectory place = true := by
  rw [isDirectory_iff]
  by_cases hd : fs.get? place = some .directory
  · exact hd
  · rw [get?, node?, List.reverse_cons, Node.descend?_append_cons_eq_none hd] at h
    cases h

def within (top place : Location) : Bool := top.isSuffixOf place

theorem within_iff {top place : Location} : within top place = true ↔ ∃ names, place = names ++ top := by
  rw [within, List.isSuffixOf_iff_suffix]
  exact ⟨fun ⟨names, h⟩ => ⟨names, h.symm⟩, fun ⟨names, h⟩ => ⟨names, h.symm⟩⟩

theorem within_cons {top : Location} (name : Name) {parent : Location}
    (h : within top parent = true) : within top (name :: parent) = true := by
  obtain ⟨names, rfl⟩ := within_iff.1 h
  exact within_iff.2 ⟨name :: names, rfl⟩

theorem not_within_self_cons (name : Name) (parent : Location) :
    within (name :: parent) parent = false := by
  rw [← Bool.not_eq_true, within_iff]
  rintro ⟨names, h⟩
  have := congrArg List.length h
  simp only [List.length_append, List.length_cons] at this
  omega

theorem within_iff_reverse {top place : Location} :
    within top place = true ↔
      place = top ∨ ∃ name rest, place.reverse = top.reverse ++ name :: rest := by
  rw [within_iff]
  constructor
  · rintro ⟨names, rfl⟩
    cases hr : names.reverse with
    | nil => exact Or.inl (by simp [List.reverse_eq_nil_iff.1 hr])
    | cons name rest => exact Or.inr ⟨name, rest, by rw [List.reverse_append, hr]⟩
  · rintro (rfl | ⟨name, rest, h⟩)
    · exact ⟨[], rfl⟩
    · refine ⟨(name :: rest).reverse, ?_⟩
      rw [← List.reverse_reverse place, h, List.reverse_append, List.reverse_reverse]

theorem not_below_or_below (top place : Location) :
    (place = top ∨ within top place = false) ∨
      ∃ name rest, place.reverse = top.reverse ++ name :: rest := by
  cases hw : within top place with
  | false => exact Or.inl (Or.inr rfl)
  | true =>
    rcases within_iff_reverse.1 hw with heq | hbelow
    · exact Or.inl (Or.inl heq)
    · exact Or.inr hbelow

theorem get?_update_of_not_below {fs : FileSystem} {place other : Location}
    {change : List (Name × Node) → List (Name × Node)}
    {h : ∀ children, (Node.directory children).Sound → (Node.directory (change children)).Sound}
    (ho : other = place ∨ within place other = false) :
    (fs.update place change h).get? other = fs.get? other := by
  refine Node.entry_descend?_updateChildren change ?_ fs.top
  intro name rest hr
  have hw : within place other = true := within_iff_reverse.2 (Or.inr ⟨name, rest, hr⟩)
  rcases ho with rfl | hf
  · have := congrArg List.length hr
    simp at this
  · rw [hw] at hf
    cases hf

theorem get?_of_below {fs : FileSystem} {place other : Location} {children : List (Name × Node)}
    (hp : fs.node? place = some (.directory children)) {name : Name} {rest : List Name}
    (hr : other.reverse = place.reverse ++ name :: rest) :
    fs.get? other = ((Node.directory children).descend? (name :: rest)).map Node.entry := by
  rw [node?] at hp
  rw [get?, node?, hr, Node.descend?_append, hp, Option.bind_some]

theorem get?_update_of_below {fs : FileSystem} {place other : Location}
    {change : List (Name × Node) → List (Name × Node)} {children : List (Name × Node)}
    {h : ∀ children, (Node.directory children).Sound → (Node.directory (change children)).Sound}
    (hp : fs.node? place = some (.directory children)) {name : Name} {rest : List Name}
    (hr : other.reverse = place.reverse ++ name :: rest) :
    (fs.update place change h).get? other =
      ((Node.directory (change children)).descend? (name :: rest)).map Node.entry := by
  rw [get?, node?, hr]
  exact congrArg _ (Node.descend?_updateChildren_append change hp name rest)

theorem get?_update_of_not_directory {fs : FileSystem} {place other : Location}
    {change : List (Name × Node) → List (Name × Node)}
    {h : ∀ children, (Node.directory children).Sound → (Node.directory (change children)).Sound}
    (hp : fs.isDirectory place = false) :
    (fs.update place change h).get? other = fs.get? other := by
  have hd : fs.get? place ≠ some .directory := by
    intro hd
    rw [← isDirectory_iff, hp] at hd
    cases hd
  rcases not_below_or_below place other with hb | ⟨name, rest, hr⟩
  · exact get?_update_of_not_below hb
  · have hd' : (fs.update place change h).get? place ≠ some .directory := by
      rw [get?_update_of_not_below (Or.inl rfl)]
      exact hd
    rw [get?, get?, node?, node?, hr, Node.descend?_append_cons_eq_none hd,
      Node.descend?_append_cons_eq_none hd']

theorem exists_node?_of_isDirectory {fs : FileSystem} {place : Location}
    (h : fs.isDirectory place = true) :
    ∃ children, fs.node? place = some (.directory children) := by
  rw [isDirectory_iff, get?] at h
  cases hn : fs.node? place with
  | none => simp [hn] at h
  | some node =>
    cases node with
    | directory children => exact ⟨children, rfl⟩
    | file content => simp [hn, Node.entry] at h
    | link target => simp [hn, Node.entry] at h

/-- Nothing is left below a place that was cleared, and everything else is as it was. -/
theorem get?_clear (fs : FileSystem) (top place : Location) :
    (fs.clear top).get? place =
      if place ≠ top ∧ within top place = true then none else fs.get? place := by
  split
  · rename_i h
    rcases within_iff_reverse.1 h.2 with heq | ⟨name, rest, hr⟩
    · exact absurd heq h.1
    · by_cases hd : fs.isDirectory top = true
      · obtain ⟨children, hn⟩ := exists_node?_of_isDirectory hd
        rw [clear, get?_update_of_below hn hr]
        rfl
      · have hf : fs.isDirectory top = false := by simpa using hd
        rw [clear, get?_update_of_not_directory hf, get?, node?, hr,
          Node.descend?_append_cons_eq_none]
        · rfl
        · intro hd'
          exact hd ((isDirectory_iff fs top).2 hd')
  · rename_i h
    refine get?_update_of_not_below ?_
    by_cases heq : place = top
    · exact Or.inl heq
    · refine Or.inr ?_
      cases hw : within top place with
      | false => rfl
      | true => exact absurd ⟨heq, hw⟩ h

/-- Nothing is left within a tree that was taken away, and everything else is as it was. -/
theorem get?_removeTree (fs : FileSystem) (name : Name) (parent place : Location) :
    (fs.removeTree (name :: parent)).get? place =
      if within (name :: parent) place then none else fs.get? place := by
  rw [removeTree]
  by_cases hd : fs.isDirectory parent = true
  · obtain ⟨children, hn⟩ := exists_node?_of_isDirectory hd
    rcases not_below_or_below parent place with hb | ⟨first, rest, hr⟩
    · rw [get?_update_of_not_below hb]
      have hw : within (name :: parent) place = false := by
        rw [← Bool.not_eq_true]
        intro hw
        rcases hb with rfl | hb
        · rw [not_within_self_cons] at hw
          cases hw
        · obtain ⟨names, rfl⟩ := within_iff.1 hw
          rw [within_iff.2 ⟨names ++ [name], by simp⟩] at hb
          cases hb
      rw [hw]
      rfl
    · rw [get?_update_of_below hn hr, Node.descend?_directory_cons]
      by_cases hf : first = name
      · subst hf
        have hin : within (first :: parent) place = true := by
          refine within_iff.2 ⟨rest.reverse, ?_⟩
          rw [← List.reverse_reverse place, hr]
          simp
        rw [Node.lookup_eraseChild_self, hin]
        rfl
      · have hout : within (name :: parent) place = false := by
          rw [← Bool.not_eq_true, within_iff]
          rintro ⟨names, rfl⟩
          rw [List.reverse_append, List.reverse_cons, List.append_assoc,
            List.append_cancel_left_eq, List.singleton_append, List.cons.injEq] at hr
          exact hf hr.1.symm
        rw [Node.lookup_eraseChild_of_ne hf, hout, ← Node.descend?_directory_cons,
          ← get?_of_below hn hr]
        rfl
  · have hf : fs.isDirectory parent = false := by simpa using hd
    rw [get?_update_of_not_directory hf]
    split
    · rename_i hw
      obtain ⟨names, rfl⟩ := within_iff.1 hw
      rw [get?, node?, List.reverse_append, List.reverse_cons, List.append_assoc,
        List.singleton_append, Node.descend?_append_cons_eq_none]
      · rfl
      · intro hd'
        exact hd ((isDirectory_iff fs parent).2 hd')
    · rfl

/-- Putting an entry changes no other place. -/
theorem get?_put_of_ne {fs : FileSystem} {place other : Location} {entry : Entry}
    (h : other ≠ place) : (fs.put place entry).get? other = fs.get? other := by
  unfold put
  split
  · rfl
  · rename_i name parent
    split
    · rename_i hc
      by_cases hd : fs.isDirectory parent = true
      · obtain ⟨children, hn⟩ := exists_node?_of_isDirectory hd
        rcases not_below_or_below parent other with hb | ⟨first, rest, hr⟩
        · exact get?_update_of_not_below hb
        · rw [get?_update_of_below hn hr, Node.descend?_directory_cons]
          by_cases hf : first = name
          · subst hf
            rw [Node.lookup_setChild_self, Option.bind_some]
            have hplace : fs.get? (first :: parent) ≠ some .directory := by
              intro hp
              rw [← isDirectory_iff, hc.2] at hp
              cases hp
            cases rest with
            | nil =>
              refine absurd ?_ h
              rw [← List.reverse_reverse other, hr]
              simp
            | cons second more =>
              have hr' : other.reverse = (first :: parent).reverse ++ second :: more := by
                rw [hr, List.reverse_cons, List.append_assoc, List.singleton_append]
              rw [get?, node?, hr', Node.descend?_append_cons_eq_none hplace]
              cases entry <;> simp [Node.ofEntry, Node.descend?]
          · rw [Node.lookup_setChild_of_ne hf, ← Node.descend?_directory_cons,
              ← get?_of_below hn hr]
      · have hf : fs.isDirectory parent = false := by simpa using hd
        exact get?_update_of_not_directory hf
    · rfl

theorem get?_put_self {fs : FileSystem} {name : Name} {parent : Location} {entry : Entry}
    (hn : isName name = true) (hp : fs.isDirectory parent = true)
    (hf : fs.isDirectory (name :: parent) = false) :
    (fs.put (name :: parent) entry).get? (name :: parent) = some entry := by
  have h : isName name = true ∧ fs.isDirectory (name :: parent) = false := ⟨hn, hf⟩
  obtain ⟨children, hc⟩ := exists_node?_of_isDirectory hp
  rw [put, dif_pos h, get?_update_of_below hc List.reverse_cons, Node.descend?_directory_cons,
    Node.lookup_setChild_self, Option.bind_some]
  cases entry <;> rfl

structure Directory (fs : FileSystem) where
  place : Location
  children : List (Name × Node)
  found : fs.node? place = some (.directory children)

namespace Directory

variable {fs : FileSystem}

def root (fs : FileSystem) : fs.Directory := ⟨[], fs.top, rfl⟩

def at? (fs : FileSystem) (place : Location) : Option fs.Directory :=
  match h : fs.node? place with
  | some (.directory children) => some ⟨place, children, h⟩
  | _ => none

/-- The directory that holds a directory; the root holds itself. -/
def parent (directory : fs.Directory) : fs.Directory :=
  (at? fs directory.place.tail).getD (root fs)

def enter (directory : fs.Directory) (name : Name) {children : List (Name × Node)}
    (h : directory.children.lookup name = some (.directory children)) : fs.Directory :=
  ⟨name :: directory.place, children, by rw [node?_cons directory.found, h]⟩

theorem lookup_children (directory : fs.Directory) (name : Name) :
    directory.children.lookup name = fs.node? (name :: directory.place) :=
  (node?_cons directory.found name).symm

end Directory

end FileSystem

end Namespacing
