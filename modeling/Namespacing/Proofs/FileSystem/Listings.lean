import Namespacing.FileSystem.Tree
import Namespacing.Proofs.FileSystem.Lookup
import Namespacing.Proofs.Path.Order
set_option autoImplicit false

/-!
# What a walk must find

`Exact` says that an outcome is right about two things that may lie below a directory: the files that are wanted
and the directories that are blocked. It lists all of the files in order, or it is the first of the blocked
directories. There is only one outcome that is right. The walk through a directory is right, by induction on what
lies below it.
-/

open Namespacing.Path

namespace Namespacing

namespace Tree

namespace Outcome

/-- An outcome is right about the wanted files and the blocked directories. -/
def Exact (wanted : List Name → Prop) (blocked : List Name → IoError → Prop) : Outcome → Prop
  | .ok files => files.Pairwise StepsBefore ∧ (∀ names, names ∈ files ↔ wanted names) ∧
      ∀ names error, ¬ blocked names error
  | .error obstacle => blocked obstacle.names obstacle.error ∧
      ∀ names error, blocked names error → names = obstacle.names ∨ StepsBefore obstacle.names names

section

variable {wanted wanted' : List Name → Prop} {blocked blocked' : List Name → IoError → Prop}
  {outcome other : Outcome}

theorem Exact.eq (h : Exact wanted blocked outcome) (h' : Exact wanted blocked other)
    (hfunctional : ∀ names error error', blocked names error → blocked names error' → error = error') :
    outcome = other := by
  cases outcome with
  | ok files =>
    cases other with
    | ok files' =>
      exact congrArg Except.ok (eq_of_stepsBefore h.1 h'.1 fun names => (h.2.1 names).trans (h'.2.1 names).symm)
    | error obstacle => exact absurd h'.1 (h.2.2 _ _)
  | error obstacle =>
    cases other with
    | ok files => exact absurd h.1 (h'.2.2 _ _)
    | error obstacle' =>
      obtain ⟨names, error⟩ := obstacle
      obtain ⟨names', error'⟩ := obstacle'
      have hnames : names = names' := by
        rcases h.2 _ _ h'.1 with heq | hbefore
        · exact heq.symm
        · exact (h'.2 _ _ h.1).resolve_right hbefore.asymm
      subst hnames
      obtain rfl := hfunctional _ _ _ h.1 h'.1
      rfl

def ExactAt (name : Name) (wanted : List Name → Prop) (blocked : List Name → IoError → Prop)
    (outcome : Outcome) : Prop :=
  Exact (fun names => names.head? = some name ∧ wanted names)
    (fun names error => names.head? = some name ∧ blocked names error) outcome

theorem Exact.congr (h : Exact wanted blocked outcome) (hwanted : ∀ names, wanted names ↔ wanted' names)
    (hblocked : ∀ names error, blocked names error ↔ blocked' names error) : Exact wanted' blocked' outcome := by
  obtain rfl : wanted = wanted' := funext fun names => propext (hwanted names)
  obtain rfl : blocked = blocked' := funext fun names => funext fun error => propext (hblocked names error)
  exact h

theorem Exact.under (name : Name) (h : Exact wanted blocked outcome) :
    Exact (fun names => ∃ rest, names = name :: rest ∧ wanted rest)
      (fun names error => ∃ rest, names = name :: rest ∧ blocked rest error) (outcome.under name) := by
  cases outcome with
  | ok files =>
    obtain ⟨hordered, hmem, hfree⟩ := h
    refine ⟨List.pairwise_map.2 (hordered.imp .cons), fun names => ?_, ?_⟩
    · rw [List.mem_map]
      exact exists_congr fun rest => by rw [hmem, and_comm, eq_comm]
    · rintro names error ⟨rest, -, hblocked⟩
      exact hfree rest error hblocked
  | error obstacle =>
    obtain ⟨hhere, hfirst⟩ := h
    refine ⟨⟨_, rfl, hhere⟩, ?_⟩
    rintro names error ⟨rest, rfl, hblocked⟩
    exact (hfirst rest error hblocked).imp (congrArg (name :: ·)) .cons

def StartsIn (entries : List (Name × Outcome)) (names : List Name) : Prop :=
  ∃ entry ∈ entries, names.head? = some entry.1

theorem startsIn_cons {entry : Name × Outcome} {entries : List (Name × Outcome)} {names : List Name} :
    StartsIn (entry :: entries) names ↔ names.head? = some entry.1 ∨ StartsIn entries names := by
  simp [StartsIn]

theorem stepsBefore_of_head {entry : Name × Outcome} {entries : List (Name × Outcome)}
    (hfirst : ∀ later ∈ entries, Text.Before entry.1 later.1) {names others : List Name}
    (hnames : names.head? = some entry.1) (hothers : StartsIn entries others) : StepsBefore names others := by
  obtain ⟨later, hlater, hhead⟩ := hothers
  obtain ⟨rest, rfl⟩ := List.head?_eq_some_iff.1 hnames
  obtain ⟨rest', rfl⟩ := List.head?_eq_some_iff.1 hhead
  exact .rel (hfirst later hlater)

/-- Entries in the order of their names, one after another. -/
theorem exact_concat {entries : List (Name × Outcome)}
    (hordered : entries.Pairwise fun a b => Text.Before a.1 b.1)
    (h : ∀ entry ∈ entries, ExactAt entry.1 wanted blocked entry.2) :
    Exact (fun names => StartsIn entries names ∧ wanted names)
      (fun names error => StartsIn entries names ∧ blocked names error) (concat (entries.map Prod.snd)) := by
  induction entries with
  | nil => exact ⟨.nil, by simp [StartsIn], by simp [StartsIn]⟩
  | cons entry entries ih =>
    obtain ⟨hfirst, hordered⟩ := List.pairwise_cons.1 hordered
    have hrest := ih hordered fun later hlater => h later (List.mem_cons_of_mem _ hlater)
    have hhere := h entry List.mem_cons_self
    obtain ⟨name, outcome⟩ := entry
    cases outcome with
    | error obstacle =>
      obtain ⟨⟨hhead, hblocked⟩, hleast⟩ := hhere
      refine ⟨⟨startsIn_cons.2 (Or.inl hhead), hblocked⟩, ?_⟩
      rintro names error ⟨hstarts, hnames⟩
      rcases startsIn_cons.1 hstarts with hstarts | hstarts
      · exact hleast names error ⟨hstarts, hnames⟩
      · exact Or.inr (stepsBefore_of_head hfirst hhead hstarts)
    | ok files =>
      obtain ⟨hfiles, hmem, hfree⟩ := hhere
      rw [List.map_cons, concat]
      cases hconcat : concat (entries.map Prod.snd) with
      | error obstacle =>
        rw [hconcat] at hrest
        obtain ⟨⟨hstarts, hblocked⟩, hleast⟩ := hrest
        refine ⟨⟨startsIn_cons.2 (Or.inr hstarts), hblocked⟩, ?_⟩
        rintro names error ⟨hstarts, hnames⟩
        rcases startsIn_cons.1 hstarts with hstarts | hstarts
        · exact absurd ⟨hstarts, hnames⟩ (hfree names error)
        · exact hleast names error ⟨hstarts, hnames⟩
      | ok more =>
        rw [hconcat] at hrest
        obtain ⟨hmore, hmem', hfree'⟩ := hrest
        refine ⟨List.pairwise_append.2 ⟨hfiles, hmore, fun a ha b hb => ?_⟩, fun names => ?_, ?_⟩
        · exact stepsBefore_of_head hfirst ((hmem a).1 ha).1 ((hmem' b).1 hb).1
        · rw [List.mem_append, hmem, hmem', ← or_and_right]
          exact (and_congr_left' startsIn_cons).symm
        · rintro names error ⟨hstarts, hnames⟩
          rcases startsIn_cons.1 hstarts with hstarts | hstarts
          · exact hfree names error ⟨hstarts, hnames⟩
          · exact hfree' names error ⟨hstarts, hnames⟩

theorem exact_inOrder {entries : List (Name × Outcome)} (hnodup : (entries.map Prod.fst).Nodup)
    (h : ∀ entry ∈ entries, ExactAt entry.1 wanted blocked entry.2) :
    Exact (fun names => StartsIn entries names ∧ wanted names)
      (fun names error => StartsIn entries names ∧ blocked names error) (inOrder entries) := by
  have hperm := List.mergeSort_perm entries fun a b => Text.le a.1 b.1
  have hle := @List.pairwise_mergeSort _ (fun a b : Name × Outcome => Text.le a.1 b.1)
    (fun _ _ _ => Text.le_trans) (fun _ _ => Text.le_total _ _) entries
  have hne := List.pairwise_map.1 ((hperm.map Prod.fst).nodup_iff.2 hnodup)
  have hsorted := hle.and hne |>.imp fun hboth => (Text.le_iff_before.1 hboth.1).resolve_left hboth.2
  have hexact := exact_concat hsorted fun entry hentry => h entry (hperm.mem_iff.1 hentry)
  have hstarts : ∀ names, StartsIn (entries.mergeSort fun a b => Text.le a.1 b.1) names ↔ StartsIn entries names :=
    fun names => exists_congr fun entry => and_congr_left' hperm.mem_iff
  exact hexact.congr (fun names => and_congr_left' (hstarts names)) fun names _ => and_congr_left' (hstarts names)

end

end Outcome

theorem filesOfEach_eq_map (excluded included : Name → Bool) (trees : List (Name × Tree)) :
    filesOfEach excluded included trees =
      trees.map fun child => (child.1, filesAt excluded included child.1 child.2) := by
  induction trees with
  | nil => rfl
  | cons child rest ih => rw [filesOfEach, ih, List.map_cons]

end Tree

theorem Node.lookup_of_mem {children : List (Name × Node)} (hnodup : (children.map Prod.fst).Nodup)
    {name : Name} {node : Node} (h : (name, node) ∈ children) : children.lookup name = some node := by
  induction children with
  | nil => cases h
  | cons child rest ih =>
    obtain ⟨other, found⟩ := child
    rw [List.map_cons, List.nodup_cons] at hnodup
    rw [List.lookup_cons]
    rcases List.mem_cons.1 h with heq | hmem
    · cases heq
      simp
    · have hne : (name == other) = false := by
        rw [beq_eq_false_iff_ne]
        rintro rfl
        exact hnodup.1 (List.mem_map.2 ⟨_, hmem, rfl⟩)
      rw [hne]
      exact ih hnodup.2 hmem

namespace FileSystem

open Namespacing.Tree Namespacing.Tree.Outcome

section

variable {fs : FileSystem}

theorem treesOf_eq_map (path : Path) (children : List (Name × Node)) :
    fs.treesOf path children =
      children.map fun child => (child.1, fs.treeOf (Path.join path child.1) child.2) := by
  induction children with
  | nil => rfl
  | cons child rest ih => rw [treesOf, ih, List.map_cons]

theorem sound_of_node? {place : Location} {node : Node} (h : fs.node? place = some node) :
    node.Sound := by
  intro names children hd
  refine fs.sound (place.reverse ++ names) children ?_
  rw [Node.descend?_append]
  rw [node?] at h
  rw [h]
  exact hd

theorem node?_of_mem {place : Location} {children : List (Name × Node)}
    (hnode : fs.node? place = some (.directory children)) {child : Name × Node} (h : child ∈ children) :
    fs.node? (child.1 :: place) = some child.2 := by
  rw [node?_cons hnode]
  exact Node.lookup_of_mem (Node.sound_directory_iff.1 (sound_of_node? hnode)).1.1 h

end

/-- Names lead down from a directory to a file that is wanted: they pass no excluded name, the last one is
included, and what is there is no directory and leads to a file along its path. -/
def Wanted (fs : FileSystem) (excluded included : Name → Bool) (path : Path) (place : Location)
    (names : List Name) : Prop :=
  ∃ dirs name entry, names = dirs ++ [name] ∧ (∀ dir ∈ dirs, excluded dir = false) ∧ included name = true ∧
    fs.get? (names.reverse ++ place) = some entry ∧ entry ≠ .directory ∧ fs.pathIsFile (extend path names) = true

/-- Names lead down from a directory to one that cannot be read along its path. -/
def Blocked (fs : FileSystem) (excluded : Name → Bool) (path : Path) (place : Location) (names : List Name)
    (error : IoError) : Prop :=
  (∀ name ∈ names, excluded name = false) ∧ fs.get? (names.reverse ++ place) = some .directory ∧
    fs.stat (extend path names) = .error error

section

variable {fs : FileSystem} {excluded included : Name → Bool} {path : Path} {place : Location} {name : Name}
  {names : List Name} {error : IoError}

theorem directory_above {entry : Entry} (h : fs.get? (names ++ place) = some entry) (hne : names ≠ []) :
    fs.get? place = some .directory := by
  induction names generalizing entry with
  | nil => exact absurd rfl hne
  | cons name names ih =>
    have hparent := (isDirectory_iff fs _).1 (isDirectory_of_get?_cons h)
    cases names with
    | nil => exact hparent
    | cons => exact ih hparent (List.cons_ne_nil _ _)

theorem reverse_cons_append (name : Name) (names : List Name) (place : Location) :
    (name :: names).reverse ++ place = names.reverse ++ name :: place := by
  simp

theorem blocked_cons : fs.Blocked excluded path place (name :: names) error ↔
    excluded name = false ∧ fs.Blocked excluded (join path name) (name :: place) names error := by
  rw [Blocked, Blocked, List.forall_mem_cons, reverse_cons_append, and_assoc]
  rfl

theorem wanted_cons_of_directory (h : fs.get? (name :: place) = some .directory) :
    fs.Wanted excluded included path place (name :: names) ↔
      excluded name = false ∧ fs.Wanted excluded included (join path name) (name :: place) names := by
  constructor
  · rintro ⟨dirs, last, entry, heq, hdirs, hlast, hentry, hne, hfile⟩
    rw [reverse_cons_append] at hentry
    cases dirs with
    | nil =>
      obtain ⟨rfl, rfl⟩ := List.cons.inj heq
      rw [List.reverse_nil, List.nil_append, h] at hentry
      cases hentry
      exact absurd rfl hne
    | cons dir dirs =>
      obtain ⟨rfl, rfl⟩ := List.cons.inj heq
      obtain ⟨hdir, hdirs⟩ := List.forall_mem_cons.1 hdirs
      exact ⟨hdir, dirs, last, entry, rfl, hdirs, hlast, hentry, hne, hfile⟩
  · rintro ⟨hdir, dirs, last, entry, rfl, hdirs, hlast, hentry, hne, hfile⟩
    rw [← reverse_cons_append] at hentry
    exact ⟨name :: dirs, last, entry, rfl, List.forall_mem_cons.2 ⟨hdir, hdirs⟩, hlast, hentry, hne, hfile⟩

section

variable {entry : Entry} (h : fs.get? (name :: place) = some entry) (hne : entry ≠ .directory)

include h hne

theorem eq_nil_of_get? {below : Entry} (hbelow : fs.get? ((name :: names).reverse ++ place) = some below) :
    names = [] ∧ below = entry := by
  rw [reverse_cons_append] at hbelow
  cases names with
  | nil => exact ⟨rfl, Option.some.inj (hbelow.symm.trans h)⟩
  | cons other names =>
    have habove := directory_above hbelow (by simp)
    rw [h] at habove
    exact absurd (Option.some.inj habove) hne

theorem wanted_cons_of_leaf : fs.Wanted excluded included path place (name :: names) ↔
    names = [] ∧ included name = true ∧ fs.pathIsFile (join path name) = true := by
  constructor
  · rintro ⟨dirs, last, found, heq, -, hlast, hfound, -, hfile⟩
    obtain ⟨rfl, -⟩ := eq_nil_of_get? h hne hfound
    obtain ⟨rfl, hname⟩ := (List.append_eq_singleton_iff.1 heq.symm).resolve_right (by simp)
    obtain rfl := (List.cons.inj hname).1
    exact ⟨rfl, hlast, hfile⟩
  · rintro ⟨rfl, hname, hfile⟩
    exact ⟨[], name, entry, rfl, by simp, hname, h, hne, hfile⟩

theorem not_blocked_cons : ¬ fs.Blocked excluded path place (name :: names) error := by
  rintro ⟨-, hget, -⟩
  exact hne (eq_nil_of_get? h hne hget).2.symm

theorem exact_leaf : ExactAt name (fs.Wanted excluded included path place) (fs.Blocked excluded path place)
    (filesAt excluded included name (.leaf (fs.pathIsFile (join path name)))) := by
  refine ⟨by split <;> simp, fun names => ?_, ?_⟩
  · constructor
    · intro hmem
      split at hmem
      · rename_i hfile
        obtain ⟨hfile, hname⟩ := Bool.and_eq_true _ _ ▸ hfile
        obtain rfl := List.mem_singleton.1 hmem
        exact ⟨rfl, (wanted_cons_of_leaf h hne).2 ⟨rfl, hname, hfile⟩⟩
      · cases hmem
    · rintro ⟨hhead, hwanted⟩
      obtain ⟨rest, rfl⟩ := List.head?_eq_some_iff.1 hhead
      obtain ⟨rfl, hname, hfile⟩ := (wanted_cons_of_leaf h hne).1 hwanted
      simp [hname, hfile]
  · rintro names error ⟨hhead, hblocked⟩
    obtain ⟨rest, rfl⟩ := List.head?_eq_some_iff.1 hhead
    exact not_blocked_cons h hne hblocked

end

section

variable (h : fs.get? (name :: place) = some .directory)

include h

theorem exact_excluded (hname : excluded name = true) :
    ExactAt name (fs.Wanted excluded included path place) (fs.Blocked excluded path place) (.ok []) := by
  refine ⟨.nil, fun names => iff_of_false List.not_mem_nil ?_, ?_⟩
  · rintro ⟨hhead, hwanted⟩
    obtain ⟨rest, rfl⟩ := List.head?_eq_some_iff.1 hhead
    rw [wanted_cons_of_directory h, hname] at hwanted
    cases hwanted.1
  · rintro names error ⟨hhead, hblocked⟩
    obtain ⟨rest, rfl⟩ := List.head?_eq_some_iff.1 hhead
    rw [blocked_cons, hname] at hblocked
    cases hblocked.1

theorem exact_unreadable (hname : excluded name = false) (hstat : fs.stat (join path name) = .error error) :
    ExactAt name (fs.Wanted excluded included path place) (fs.Blocked excluded path place)
      (.error ⟨[name], error⟩) := by
  refine ⟨⟨rfl, blocked_cons.2 ⟨hname, by simp, h, hstat⟩⟩, ?_⟩
  rintro names error ⟨hhead, -⟩
  obtain ⟨rest, rfl⟩ := List.head?_eq_some_iff.1 hhead
  cases rest with
  | nil => exact Or.inl rfl
  | cons => exact Or.inr (.cons .nil)

theorem exact_below {outcome : Outcome} (hname : excluded name = false)
    (hbelow : Exact (fs.Wanted excluded included (join path name) (name :: place))
      (fs.Blocked excluded (join path name) (name :: place)) outcome) :
    ExactAt name (fs.Wanted excluded included path place) (fs.Blocked excluded path place)
      (outcome.under name) := by
  refine (hbelow.under name).congr (fun names => ?_) fun names error => ?_
  · rw [List.head?_eq_some_iff, ← exists_and_right]
    refine exists_congr fun rest => and_congr_right ?_
    rintro rfl
    rw [wanted_cons_of_directory h, hname]
    exact (and_iff_right rfl).symm
  · rw [List.head?_eq_some_iff, ← exists_and_right]
    refine exists_congr fun rest => and_congr_right ?_
    rintro rfl
    rw [blocked_cons, hname]
    exact (and_iff_right rfl).symm

end

theorem exact_folder {children : List (Name × Node)} {found : Location × Entry}
    (hnode : fs.node? place = some (.directory children)) (hstat : fs.stat path = .ok found)
    (h : ∀ child ∈ children,
      ExactAt child.1 (fs.Wanted excluded included path place) (fs.Blocked excluded path place)
        (filesAt excluded included child.1 (fs.treeOf (join path child.1) child.2))) :
    Exact (fs.Wanted excluded included path place) (fs.Blocked excluded path place)
      (inOrder (filesOfEach excluded included (fs.treesOf path children))) := by
  have hentries : filesOfEach excluded included (fs.treesOf path children) =
      children.map fun child =>
        (child.1, filesAt excluded included child.1 (fs.treeOf (join path child.1) child.2)) := by
    rw [filesOfEach_eq_map, treesOf_eq_map, List.map_map]
    rfl
  have hnodup : ((children.map fun child =>
      (child.1, filesAt excluded included child.1 (fs.treeOf (join path child.1) child.2))).map Prod.fst).Nodup := by
    rw [List.map_map]
    exact (Node.sound_directory_iff.1 (sound_of_node? hnode)).1.1
  -- What lies below the directory lies at one of its children or below it.
  have hstarts : ∀ name rest entry, fs.get? ((name :: rest).reverse ++ place) = some entry →
      StartsIn (children.map fun child =>
        (child.1, filesAt excluded included child.1 (fs.treeOf (join path child.1) child.2))) (name :: rest) := by
    intro name rest entry hget
    rw [reverse_cons_append] at hget
    obtain ⟨there, hthere⟩ : ∃ there, fs.get? (name :: place) = some there := by
      cases rest with
      | nil => exact ⟨entry, hget⟩
      | cons => exact ⟨_, directory_above hget (by simp)⟩
    rw [get?, node?_cons hnode, Option.map_eq_some_iff] at hthere
    obtain ⟨node, hlookup, -⟩ := hthere
    exact ⟨_, List.mem_map.2 ⟨(name, node), Node.mem_of_lookup hlookup, rfl⟩, rfl⟩
  rw [hentries]
  refine (exact_inOrder hnodup fun entry hentry => ?_).congr (fun names => and_iff_right_of_imp ?_)
    fun names error => and_iff_right_of_imp ?_
  · obtain ⟨child, hchild, rfl⟩ := List.mem_map.1 hentry
    exact h child hchild
  · rintro ⟨dirs, name, entry, rfl, -, -, hget, -, -⟩
    cases dirs with
    | nil => exact hstarts _ _ _ hget
    | cons => exact hstarts _ _ _ hget
  · rintro ⟨-, hget, herror⟩
    cases names with
    | nil =>
      rw [show extend path [] = path from rfl, hstat] at herror
      cases herror
    | cons => exact hstarts _ _ _ hget

end

section

variable {fs : FileSystem} {excluded included : Name → Bool}

mutual

theorem exact_filesAt (path : Path) (place : Location) (name : Name) : (node : Node) →
    fs.node? (name :: place) = some node →
    ExactAt name (fs.Wanted excluded included path place) (fs.Blocked excluded path place)
      (filesAt excluded included name (fs.treeOf (join path name) node))
  | .directory children, hnode => by
    have hget : fs.get? (name :: place) = some .directory := congrArg (Option.map Node.entry) hnode
    rw [treeOf]
    split
    · rename_i hstat
      rw [filesAt]
      split
      · rename_i hname
        exact exact_excluded hget hname
      · rename_i hname
        refine exact_below hget (by simpa using hname) (exact_folder hnode hstat ?_)
        exact exact_children (join path name) (name :: place) children fun child => node?_of_mem hnode
    · rename_i hstat
      rw [filesAt]
      split
      · rename_i hname
        exact exact_excluded hget hname
      · rename_i hname
        exact exact_unreadable hget (by simpa using hname) hstat
  | .file content, hnode => exact_leaf (congrArg (Option.map Node.entry) hnode) (by simp [Node.entry])
  | .link target, hnode => exact_leaf (congrArg (Option.map Node.entry) hnode) (by simp [Node.entry])

theorem exact_children (path : Path) (place : Location) : (children : List (Name × Node)) →
    (∀ child ∈ children, fs.node? (child.1 :: place) = some child.2) → ∀ child ∈ children,
    ExactAt child.1 (fs.Wanted excluded included path place) (fs.Blocked excluded path place)
      (filesAt excluded included child.1 (fs.treeOf (join path child.1) child.2))
  | [], _ => by simp
  | (name, node) :: rest, h => by
    intro child hmem
    rcases List.mem_cons.1 hmem with rfl | hmem
    · exact exact_filesAt path place name node (h (name, node) List.mem_cons_self)
    · exact exact_children path place rest (fun c hc => h c (List.mem_cons_of_mem _ hc)) child hmem

end

section

variable {top : Path} {place : Location} (h : fs.stat top = .ok (place, .directory))

include h

theorem files_of_directory {children : List (Name × Node)} (hnode : fs.node? place = some (.directory children)) :
    (fs.tree top).files excluded included =
      inOrder (filesOfEach excluded included (fs.treesOf top children)) := by
  rw [tree, h]
  dsimp only
  rw [hnode]
  rfl

theorem exact_files : Exact (fs.Wanted excluded included top place) (fs.Blocked excluded top place)
    ((fs.tree top).files excluded included) := by
  obtain ⟨-, k, hreaches⟩ := stat_directory_iff.1 h
  obtain ⟨children, hnode⟩ := exists_node?_of_isDirectory hreaches.isDirectory
  rw [files_of_directory h hnode]
  exact exact_folder hnode h (exact_children top place children fun child => node?_of_mem hnode)

end

end

end FileSystem

end Namespacing
