import Namespacing.Proofs.Conversion.Plan
import Namespacing.Proofs.FileSystem.Directories
set_option autoImplicit false

open Namespacing.Path

namespace Namespacing

theorem Path.join_injective {base a b : Path} (ha : isAbsolute a = false) (hb : isAbsolute b = false)
    (h : join base a = join base b) : a = b := by
  have hjoin : ∀ path, isAbsolute path = false → join base path =
      if base.isEmpty || base.getLast? == some '/' then base ++ path else base ++ '/' :: path := by
    intro path hpath
    rw [join, hpath, if_neg (by decide)]
  rw [hjoin a ha, hjoin b hb] at h
  split at h
  · exact List.append_cancel_left h
  · exact (List.cons.inj (List.append_cancel_left h)).2

theorem Namespace.destination?_injective {ns : Namespace} {role role' : FileRole} {name name' : Name}
    {names : List Name} (h : ns.destination? role name = some names)
    (h' : ns.destination? role' name' = some names) : role = role' ∧ name = name' := by
  have hconcat : ∀ {xs ys : List Name} {a b : Name}, some (xs ++ [a]) = some names →
      some (ys ++ [b]) = some names → xs.length = ys.length ∧ a = b := by
    intro xs ys a b hx hy
    have heq := List.append_inj' (Option.some.inj (hx.trans hy.symm)) rfl
    exact ⟨congrArg List.length heq.1, (List.cons.inj heq.2).1⟩
  cases role with
  | unclassified => cases h
  | classBearing =>
    cases role' with
    | unclassified => cases h'
    | classBearing => exact ⟨rfl, (hconcat h h').2⟩
    | functionBearing => simpa using (hconcat h h').1
  | functionBearing =>
    cases role' with
    | unclassified => cases h'
    | classBearing => simpa using (hconcat h h').1
    | functionBearing => exact ⟨rfl, (hconcat h h').2⟩

namespace Plan

theorem mem_of_last? {plan : Plan} {names : List Name} {source : Source}
    (h : plan.last? names = some source) :
    source ∈ plan.sources ∧ source.destination? plan.ns = some names := by
  have hmem := List.mem_filter.1 (List.mem_of_getLast? h)
  exact ⟨hmem.1, by simpa using hmem.2⟩

def copies (plan : Plan) : Inventory where
  line := plan.line
  files names := (plan.last? names).map Source.content

theorem copies_add_of_none {plan : Plan} {source : Source} (h : source.role = .unclassified) :
    (plan.add source).copies = plan.copies := by
  have hline : (plan.add source).line = plan.line := by
    rw [line_add, if_neg (by simp [h])]
  have hlast : ∀ names, (plan.add source).last? names = plan.last? names := by
    intro names
    rw [last?_add, if_neg (by simp [Source.destination?, h, Namespace.destination?])]
  simp only [copies, hline, hlast]

theorem copies_add {plan : Plan} {source : Source} {names : List Name}
    (h : source.destination? plan.ns = some names) :
    (plan.add source).copies =
      { plan.copies with line := (plan.add source).line }.store names source.content := by
  have hfiles : (plan.add source).copies.files = (plan.copies.store names source.content).files := by
    funext other
    change ((plan.add source).last? other).map Source.content =
      if other = names then _ else (plan.last? other).map Source.content
    rw [last?_add, h]
    by_cases hother : other = names
    · rw [hother, if_pos rfl, if_pos rfl]
      rfl
    · rw [if_neg (fun heq => hother (Option.some.inj heq).symm), if_neg hother]
  change Inventory.mk (plan.add source).line (plan.add source).copies.files = _
  rw [hfiles]
  rfl

def revised (plan : Plan) (done : List (List Name)) : Inventory where
  line := plan.line
  files names :=
    (plan.last? names).bind fun source =>
      if names ∈ done then source.revised? plan.revision else some source.content

theorem revised_nil (plan : Plan) : plan.revised [] = plan.copies := by
  have hfiles : (plan.revised []).files = plan.copies.files := by
    funext names
    change ((plan.last? names).bind fun source => if names ∈ [] then _ else _) =
      (plan.last? names).map Source.content
    cases plan.last? names with
    | none => rfl
    | some source => rw [Option.bind_some, if_neg List.not_mem_nil, Option.map_some]
  change Inventory.mk plan.line (plan.revised []).files = _
  rw [hfiles]
  rfl

theorem revised_concat {plan : Plan} {done : List (List Name)} {names : List Name} {source : Source}
    {content : Bytes} (hlast : plan.last? names = some source)
    (hcontent : source.revised? plan.revision = some content) :
    plan.revised (done ++ [names]) = (plan.revised done).store names content := by
  have hfiles : (plan.revised (done ++ [names])).files =
      ((plan.revised done).store names content).files := by
    funext other
    change ((plan.last? other).bind fun source => if other ∈ done ++ [names] then _ else _) =
      if other = names then _ else (plan.last? other).bind fun source => if other ∈ done then _ else _
    by_cases hother : other = names
    · rw [hother, if_pos rfl, hlast]
      change (if names ∈ done ++ [names] then source.revised? plan.revision else _) = _
      rw [if_pos (by simp), hcontent]
    · have hmem : other ∈ done ++ [names] ↔ other ∈ done := by simp [hother]
      simp only [if_neg hother, hmem]
  change Inventory.mk plan.line (plan.revised (done ++ [names])).files = _
  rw [hfiles]
  rfl

/-- When all copies have been revised, the manifest is what is missing. -/
theorem result_eq {plan : Plan} {done : List (List Name)}
    (h : ∀ names source, plan.last? names = some source → names ∈ done) :
    plan.result = (plan.revised done).store [plan.settings.manifestFile] plan.manifest.render.toUtf8 := by
  have hfiles : plan.result.files = ((plan.revised done).store [plan.settings.manifestFile]
      plan.manifest.render.toUtf8).files := by
    funext names
    change (if _ then _ else _) = if _ then _ else (plan.last? names).bind _
    by_cases hnames : names = [plan.settings.manifestFile]
    · rw [if_pos hnames, if_pos hnames]
    · rw [if_neg hnames, if_neg hnames]
      cases hlast : plan.last? names with
      | none => rfl
      | some source =>
        change _ = if names ∈ done then _ else _
        rw [if_pos (h names source hlast)]
        rfl
  change Inventory.mk plan.line plan.result.files = _
  rw [hfiles]
  rfl

def classPlaces (plan : Plan) : List (List Name) :=
  (plan.names .classBearing).map fun name => plan.ns.segments ++ [name]

def functionPlaces (plan : Plan) : List (List Name) :=
  (plan.names .functionBearing).map fun name => plan.ns.segments ++ [plan.ns.functionsSegment] ++ [name]

theorem concat_not_mem_map {names : List Name} {name : Name} (dir : List Name) (h : name ∉ names) :
    dir ++ [name] ∉ names.map fun other => dir ++ [other] := by
  intro hmem
  obtain ⟨other, hother, heq⟩ := List.mem_map.1 hmem
  rw [List.append_cancel_left_eq, List.cons.injEq] at heq
  exact h (heq.1 ▸ hother)

theorem not_mem_functionPlaces (plan : Plan) (name : Name) :
    plan.ns.segments ++ [name] ∉ plan.functionPlaces := by
  intro hmem
  obtain ⟨other, -, heq⟩ := List.mem_map.1 hmem
  simpa using congrArg List.length heq

theorem mem_places_of_last? {plan : Plan} {names : List Name} {source : Source}
    (h : plan.last? names = some source) : names ∈ plan.functionPlaces ++ plan.classPlaces := by
  obtain ⟨hsource, hdestination⟩ := mem_of_last? h
  rw [Source.destination?] at hdestination
  cases hrole : source.role with
  | unclassified =>
    rw [hrole] at hdestination
    cases hdestination
  | classBearing =>
    rw [hrole] at hdestination
    cases hdestination
    exact List.mem_append_right _ (List.mem_map.2 ⟨_, mem_names.2 ⟨source, hsource, hrole, rfl⟩, rfl⟩)
  | functionBearing =>
    rw [hrole] at hdestination
    cases hdestination
    exact List.mem_append_left _ (List.mem_map.2 ⟨_, mem_names.2 ⟨source, hsource, hrole, rfl⟩, rfl⟩)

def harvest (plan : Plan) (workspace : Workspace) : Harvest where
  table := plan.revision.table
  classFiles := (plan.names .classBearing).map (Path.join workspace.classDirectory)
  functionFiles := (plan.names .functionBearing).map (Path.join workspace.functionDirectory)
  skipped := (plan.bearing .unclassified).map fun source => source.file.relativePath
  manifest := plan.manifest

theorem harvest_start (settings : Settings) (workspace : Workspace) :
    Harvest.start settings.toNamespace settings = (Plan.mk settings []).harvest workspace := by
  have hsymbols : (Plan.mk settings []).symbols =
      [.globals (GlobalClasses.withExtra settings.extraGlobals)] := by
    rw [symbols, List.filter_nil, List.map_nil]
  have htable : (Plan.mk settings []).revision.table = RenameTable.empty.add settings.toNamespace
      (.globals (GlobalClasses.withExtra settings.extraGlobals)) := by
    rw [revision, hsymbols]
    generalize GlobalClasses.withExtra settings.extraGlobals = globals
    rfl
  rw [Harvest.start, harvest, htable]
  generalize GlobalClasses.withExtra settings.extraGlobals = globals
  rfl

def Proper (plan : Plan) : Prop := ∀ source ∈ plan.sources, isName source.file.name = true

theorem Proper.not_mem {plan : Plan} (h : plan.Proper) {role : FileRole} {name : Name}
    (hname : name ∈ plan.names role) : '/' ∉ name := by
  obtain ⟨source, hsource, -, rfl⟩ := mem_names.1 hname
  exact (FileSystem.isDown_of_isName (h source hsource)).2

theorem map_names_add {plan : Plan} {source : Source} (h : (plan.add source).Proper) (base : Path) :
    ((plan.add source).names source.role).map (Path.join base) =
      Harvest.addOnce ((plan.names source.role).map (Path.join base)) (Path.join base source.file.name) := by
  have hproper : plan.Proper := fun s hs => h s (List.mem_append_left _ hs)
  have hself := (FileSystem.isDown_of_isName (h source (by simp [add]))).2
  rw [names_add, if_pos rfl]
  apply map_addOnce
  intro other hother heq
  exact join_injective (isAbsolute_of_not_mem (hproper.not_mem hother)) (isAbsolute_of_not_mem hself) heq

section

variable {plan : Plan} {source : Source} {workspace : Workspace}

theorem harvest_add_class (h : (plan.add source).Proper) (hrole : source.role = .classBearing) :
    (plan.add source).harvest workspace =
      { plan.harvest workspace with
        table := (plan.harvest workspace).table.add plan.ns source.symbols
        classFiles := Harvest.addOnce (plan.harvest workspace).classFiles
          (Path.join workspace.classDirectory source.file.name) } := by
  have hnames := map_names_add h workspace.classDirectory
  rw [hrole] at hnames
  simp only [harvest, hnames]
  simp only [table_add, names_add, bearing_add, manifest_add, hrole, reduceCtorEq, if_false,
    List.append_nil]

theorem harvest_add_function (h : (plan.add source).Proper) (hrole : source.role = .functionBearing) :
    (plan.add source).harvest workspace =
      { plan.harvest workspace with
        table := (plan.harvest workspace).table.add plan.ns source.symbols
        manifest := (plan.harvest workspace).manifest ++ source.symbols.manifest plan.ns
        functionFiles := Harvest.addOnce (plan.harvest workspace).functionFiles
          (Path.join workspace.functionDirectory source.file.name) } := by
  have hnames := map_names_add h workspace.functionDirectory
  rw [hrole] at hnames
  simp only [harvest, hnames]
  simp only [table_add, names_add, bearing_add, manifest_add, hrole, reduceCtorEq, if_false, if_true,
    List.append_nil]

theorem harvest_add_unclassified (hrole : source.role = .unclassified) :
    (plan.add source).harvest workspace =
      { plan.harvest workspace with
        skipped := (plan.harvest workspace).skipped ++ [source.file.relativePath] } := by
  simp only [harvest, table_add, names_add, bearing_add, manifest_add, hrole, reduceCtorEq, if_false,
    if_true, List.append_nil, List.map_append, List.map_cons, List.map_nil]

end

end Plan

end Namespacing
