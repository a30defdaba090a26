import Namespacing.Conversion.Session
import Namespacing.Proofs.Path.Steps
set_option autoImplicit false

/-!
# What a conversion should make

A plan is the settings of a conversion and the source files in the order of the walk. It fixes the
renames, the report, and everything that the target tree holds in the end, without a disk.
-/

namespace Namespacing

def Namespace.segments (ns : Namespace) : List Name := Text.splitOn '\\' ns.root

structure Source where
  file : SourceFile
  content : Bytes

namespace Source

def text (source : Source) : Text := (Encoding.decode source.content).1

def encoding (source : Source) : Encoding := (Encoding.decode source.content).2

def outline (source : Source) : Outline := Outline.ofSourceOrEmpty source.text

def role (source : Source) : FileRole := source.outline.role

def symbols (source : Source) : Symbols := Symbols.ofOutline source.file.container source.outline

end Source

/-- The names that lead from the target tree to the copy of a file. -/
def Namespace.destination? (ns : Namespace) : FileRole → Name → Option (List Name)
  | .classBearing, name => some (ns.segments ++ [name])
  | .functionBearing, name => some (ns.segments ++ [ns.functionsSegment] ++ [name])
  | .unclassified, _ => none

namespace Source

def destination? (ns : Namespace) (source : Source) : Option (List Name) :=
  ns.destination? source.role source.file.name

def revisedText (revision : Revision) (source : Source) : Text :=
  match source.role with
  | .classBearing => revision.classSource source.text
  | .functionBearing => revision.functionSource source.file.container source.text
  | .unclassified => source.text

def revised? (revision : Revision) (source : Source) : Option Bytes :=
  source.encoding.encode? (source.revisedText revision)

end Source

/-- What a tree holds: a line of directories, one in the other, and files. -/
structure Inventory where
  line : List Name
  files : List Name → Option Bytes

namespace Inventory

/-- What is at the end of some names below the top of the tree. -/
def at? (inventory : Inventory) (names : List Name) : Option Entry :=
  if names <+: inventory.line then some .directory else (inventory.files names).map .file

/-- There is a directory of the line at the end of the names, or a file. -/
def Holds (inventory : Inventory) (names : List Name) (entry : Entry) : Prop :=
  (names <+: inventory.line ∧ entry = .directory) ∨
    ∃ content, inventory.files names = some content ∧ entry = .file content

def store (inventory : Inventory) (names : List Name) (content : Bytes) : Inventory :=
  { inventory with
    files := fun other => if other = names then some content else inventory.files other }

theorem at?_eq_directory_iff {inventory : Inventory} {names : List Name} :
    inventory.at? names = some .directory ↔ names <+: inventory.line := by
  unfold at?
  split
  · rename_i h
    exact ⟨fun _ => h, fun _ => rfl⟩
  · rename_i h
    refine ⟨fun heq => ?_, fun hpre => absurd hpre h⟩
    cases hfile : inventory.files names with
    | none =>
      rw [hfile] at heq
      cases heq
    | some content =>
      rw [hfile] at heq
      cases heq

theorem at?_eq_some_iff {inventory : Inventory} {names : List Name} {entry : Entry}
    (h : ∀ content, inventory.files names = some content → ¬ names <+: inventory.line) :
    inventory.at? names = some entry ↔ inventory.Holds names entry := by
  unfold at? Holds
  split
  · rename_i hpre
    constructor
    · rintro heq
      exact Or.inl ⟨hpre, (Option.some.inj heq).symm⟩
    · rintro (⟨-, rfl⟩ | ⟨content, hfile, -⟩)
      · rfl
      · exact absurd hpre (h content hfile)
  · rename_i hpre
    rw [Option.map_eq_some_iff]
    constructor
    · rintro ⟨content, hfile, rfl⟩
      exact Or.inr ⟨content, hfile, rfl⟩
    · rintro (⟨hpre', -⟩ | ⟨content, hfile, rfl⟩)
      · exact absurd hpre' hpre
      · exact ⟨content, hfile, rfl⟩

theorem at?_store_self {inventory : Inventory} {names : List Name} {content : Bytes}
    (h : ¬ names <+: inventory.line) :
    (inventory.store names content).at? names = some (.file content) := by
  have : (inventory.store names content).files names = some content := if_pos rfl
  rw [at?, if_neg (show ¬ names <+: (inventory.store names content).line from h), this]
  rfl

theorem at?_store_of_ne {inventory : Inventory} {names other : List Name} {content : Bytes}
    (h : other ≠ names) : (inventory.store names content).at? other = inventory.at? other := by
  have : (inventory.store names content).files other = inventory.files other := if_neg h
  rw [at?, at?, this]
  rfl

theorem at?_ne_link (inventory : Inventory) (names : List Name) (target : Path) :
    inventory.at? names ≠ some (.link target) := by
  unfold at?
  split
  · exact fun h => by cases h
  · cases inventory.files names with
    | none => exact fun h => by cases h
    | some content => exact fun h => by cases h

end Inventory

structure Plan where
  settings : Settings
  sources : List Source

namespace Plan

def ns (plan : Plan) : Namespace := plan.settings.toNamespace

def symbols (plan : Plan) : List Symbols :=
  .globals (GlobalClasses.withExtra plan.settings.extraGlobals) ::
    (plan.sources.filter fun source => source.role != .unclassified).map Source.symbols

def revision (plan : Plan) : Revision := ⟨plan.ns, RenameTable.ofSymbols plan.ns plan.symbols⟩

def bearing (plan : Plan) (role : FileRole) : List Source :=
  plan.sources.filter fun source => source.role == role

def names (plan : Plan) (role : FileRole) : List Name :=
  ((plan.bearing role).map fun source => source.file.name).foldl Harvest.addOnce []

def manifest (plan : Plan) : Manifest :=
  (plan.bearing .functionBearing).flatMap fun source => source.symbols.manifest plan.ns

def line (plan : Plan) : List Name :=
  if (plan.bearing .functionBearing).isEmpty then plan.ns.segments
  else plan.ns.segments ++ [plan.ns.functionsSegment]

/-- The last file that goes to a destination. -/
def last? (plan : Plan) (names : List Name) : Option Source :=
  (plan.sources.filter fun source => source.destination? plan.ns == some names).getLast?

/-- All that the target tree holds in the end. -/
def result (plan : Plan) : Inventory where
  line := plan.line
  files names :=
    if names = [plan.settings.manifestFile] then some plan.manifest.render.toUtf8
    else (plan.last? names).bind (Source.revised? plan.revision)

def report (plan : Plan) (workspace : Workspace) : Report where
  root := plan.ns.root
  directory := workspace.classDirectory
  classFiles := (plan.names .classBearing).map (Path.join workspace.classDirectory)
  functionFiles := (plan.names .functionBearing).map (Path.join workspace.functionDirectory)
  skipped := (plan.bearing .unclassified).map fun source => source.file.relativePath
  copied := (plan.names .classBearing).length + (plan.names .functionBearing).length
  renames := plan.revision.table.size
  release := GlobalClasses.release
  functions := plan.manifest
  manifestPath := Path.join workspace.target plan.settings.manifestFile

def add (plan : Plan) (source : Source) : Plan :=
  { plan with sources := plan.sources ++ [source] }

@[simp] theorem ns_add (plan : Plan) (source : Source) : (plan.add source).ns = plan.ns := rfl

theorem bearing_add (plan : Plan) (source : Source) (role : FileRole) :
    (plan.add source).bearing role =
      plan.bearing role ++ if source.role = role then [source] else [] := by
  rw [bearing, add, List.filter_append]
  by_cases h : source.role = role
  · simp [bearing, h]
  · simp [bearing, h]

theorem symbols_add (plan : Plan) (source : Source) :
    (plan.add source).symbols =
      plan.symbols ++ if source.role = .unclassified then [] else [source.symbols] := by
  rw [symbols, symbols, add, List.filter_append, List.map_append]
  by_cases h : source.role = .unclassified
  · simp [h]
  · simp [h]

theorem last?_add (plan : Plan) (source : Source) (names : List Name) :
    (plan.add source).last? names =
      if source.destination? plan.ns = some names then some source else plan.last? names := by
  have happend : (plan.add source).last? names =
      (plan.sources.filter (fun s => s.destination? plan.ns == some names) ++
        [source].filter fun s => s.destination? plan.ns == some names).getLast? := by
    rw [← List.filter_append]
    rfl
  rw [happend]
  by_cases h : source.destination? plan.ns = some names
  · rw [if_pos h, List.filter_cons_of_pos (by simp [h]), List.filter_nil, List.getLast?_concat]
  · rw [if_neg h, List.filter_cons_of_neg (by simp [h]), List.filter_nil, List.append_nil]
    rfl

theorem names_add (plan : Plan) (source : Source) (role : FileRole) :
    (plan.add source).names role =
      if source.role = role then Harvest.addOnce (plan.names role) source.file.name
      else plan.names role := by
  rw [names, bearing_add, List.map_append, List.foldl_append]
  by_cases h : source.role = role
  · rw [if_pos h, if_pos h]
    rfl
  · rw [if_neg h, if_neg h]
    rfl

theorem table_add (plan : Plan) (source : Source) :
    (plan.add source).revision.table =
      if source.role = .unclassified then plan.revision.table
      else plan.revision.table.add plan.ns source.symbols := by
  change RenameTable.ofSymbols plan.ns (plan.add source).symbols = _
  rw [symbols_add, RenameTable.ofSymbols, List.foldl_append]
  by_cases h : source.role = .unclassified
  · rw [if_pos h, if_pos h]
    rfl
  · rw [if_neg h, if_neg h]
    rfl

theorem manifest_add (plan : Plan) (source : Source) :
    (plan.add source).manifest =
      plan.manifest ++
        if source.role = .functionBearing then source.symbols.manifest plan.ns else [] := by
  rw [manifest, bearing_add, List.flatMap_append]
  by_cases h : source.role = .functionBearing
  · rw [if_pos h, if_pos h]
    simp [manifest]
  · rw [if_neg h, if_neg h]
    simp [manifest]

theorem line_add (plan : Plan) (source : Source) :
    (plan.add source).line =
      if source.role = .functionBearing then plan.ns.segments ++ [plan.ns.functionsSegment]
      else plan.line := by
  rw [line, bearing_add]
  by_cases h : source.role = .functionBearing
  · rw [if_pos h, if_pos h, if_neg (by simp)]
    rfl
  · rw [if_neg h, if_neg h, List.append_nil]
    rfl

theorem line_cases (plan : Plan) :
    plan.line = plan.ns.segments ∨ plan.line = plan.ns.segments ++ [plan.ns.functionsSegment] := by
  unfold line
  split
  · exact Or.inl rfl
  · exact Or.inr rfl

theorem segments_prefix_line (plan : Plan) : plan.ns.segments <+: plan.line := by
  rcases plan.line_cases with h | h
  · exact ⟨[], (List.append_nil _).trans h.symm⟩
  · exact ⟨[plan.ns.functionsSegment], h.symm⟩

theorem mem_addOnce {paths : List Path} {path other : Path} :
    other ∈ Harvest.addOnce paths path ↔ other ∈ paths ∨ other = path := by
  unfold Harvest.addOnce
  split
  · rename_i h
    constructor
    · exact Or.inl
    · rintro (hmem | rfl)
      · exact hmem
      · simpa using h
  · rw [List.mem_append, List.mem_singleton]

theorem nodup_addOnce {paths : List Path} (h : paths.Nodup) (path : Path) :
    (Harvest.addOnce paths path).Nodup := by
  unfold Harvest.addOnce
  split
  · exact h
  · rename_i hmem
    rw [List.nodup_append]
    refine ⟨h, by simp, fun a ha b hb => ?_⟩
    rw [List.mem_singleton.1 hb]
    rintro rfl
    exact hmem (by simpa using ha)

theorem map_addOnce {paths : List Path} {path : Path} {f : Path → Path}
    (h : ∀ other ∈ paths, f other = f path → other = path) :
    (Harvest.addOnce paths path).map f = Harvest.addOnce (paths.map f) (f path) := by
  unfold Harvest.addOnce
  by_cases hmem : path ∈ paths
  · have hf : f path ∈ paths.map f := List.mem_map.2 ⟨path, hmem, rfl⟩
    rw [if_pos (by simpa using hmem), if_pos (by simpa using hf)]
  · have hf : f path ∉ paths.map f := by
      intro hf
      obtain ⟨other, hother, heq⟩ := List.mem_map.1 hf
      rw [h other hother heq] at hother
      exact hmem hother
    rw [if_neg (by simpa using hmem), if_neg (by simpa using hf), List.map_append]
    rfl

theorem mem_foldl_addOnce {names paths : List Path} {path : Path} :
    path ∈ names.foldl Harvest.addOnce paths ↔ path ∈ paths ∨ path ∈ names := by
  induction names generalizing paths with
  | nil => simp
  | cons name names ih => rw [List.foldl_cons, ih, mem_addOnce, List.mem_cons, or_assoc]

theorem nodup_foldl_addOnce (names : List Path) {paths : List Path} (h : paths.Nodup) :
    (names.foldl Harvest.addOnce paths).Nodup := by
  induction names generalizing paths with
  | nil => exact h
  | cons name names ih => exact ih (nodup_addOnce h name)

theorem mem_names {plan : Plan} {role : FileRole} {name : Name} :
    name ∈ plan.names role ↔ ∃ source ∈ plan.sources, source.role = role ∧ source.file.name = name := by
  rw [names, mem_foldl_addOnce, bearing]
  simp only [List.not_mem_nil, false_or, List.mem_map, List.mem_filter, beq_iff_eq, and_assoc]

theorem nodup_names (plan : Plan) (role : FileRole) : (plan.names role).Nodup :=
  nodup_foldl_addOnce _ List.nodup_nil

end Plan

end Namespacing
