import Namespacing.Proofs.Conversion.Runs
set_option autoImplicit false

open Namespacing.Path Namespacing.FileSystem

namespace Namespacing

variable {α β : Type}

/-- The trace of a run that comes to its end. -/
def Progress.trace (skipped : List Path) (copied renames : Nat) : List Progress :=
  .cleaned :: skipped.map .skipped ++ [.copied copied, .replacing renames, .done]

/-- From a session, a computation that succeeds tells the whole trace and gives a value of which `post`
holds; one that fails tells a first part of the trace, and not that it is done. -/
def Tells (action : ExceptT Fault SessionM α) (session : Session) (trace : List Progress)
    (post : α → Prop) : Prop :=
  match action.run session with
  | (.ok value, after) => post value ∧ after.progress = session.progress ++ trace
  | (.error _, after) =>
    ∃ told, told <+: trace ∧ .done ∉ told ∧ after.progress = session.progress ++ told

namespace Yields

variable {session middle after : Session}

theorem exists_of_bind {action : ExceptT Fault SessionM α} {next : α → ExceptT Fault SessionM β}
    {result : β} (h : Yields (action >>= next) session result after) :
    ∃ value middle, Yields action session value middle ∧ Yields (next value) middle result after := by
  rw [Yields, run_bind] at h
  rcases hrun : action.run session with ⟨fault | value, middle⟩
  · rw [hrun] at h
    cases h
  · rw [hrun] at h
    exact ⟨value, middle, hrun, h⟩

theorem eq_of_attempt {context : Text} {operation : FileSystem → Except IoError Unit × FileSystem}
    {value : Unit} (h : Yields (Storage.inContext context (SessionM.attempt operation)) session value after) :
    after = ⟨(operation session.files).2, session.progress⟩ := by
  rw [Yields, run_inContext, SessionM.attempt] at h
  rcases hrun : operation session.files with ⟨error | _, disk⟩
  · rw [hrun] at h
    cases h
  · rw [hrun] at h
    exact (Prod.mk.inj h).2.symm

end Yields

def Silent (action : ExceptT Fault SessionM α) : Prop :=
  ∀ session, (action.run session).2.progress = session.progress

namespace Silent

theorem bind {action : ExceptT Fault SessionM α} {next : α → ExceptT Fault SessionM β}
    (h : Silent action) (hnext : ∀ value, Silent (next value)) : Silent (action >>= next) := by
  intro session
  rw [run_bind]
  have hfirst := h session
  revert hfirst
  rcases action.run session with ⟨fault | value, middle⟩
  · exact id
  · exact (hnext value middle).trans

theorem pure (value : α) : Silent (Pure.pure value) := fun _ => rfl

theorem throw (fault : Fault) : Silent (MonadExcept.throw fault : ExceptT Fault SessionM α) :=
  fun _ => rfl

theorem forM {σ : Type} {action : σ → ExceptT Fault SessionM Unit} (h : ∀ x, Silent (action x))
    (items : List σ) : Silent (items.forM action) := by
  induction items with
  | nil => exact pure ()
  | cons x items ih => exact (h x).bind fun _ => ih

theorem inContext {context : Text} {operation : SessionM (Except IoError α)}
    (h : ∀ session, (operation session).2.progress = session.progress) :
    Silent (Storage.inContext context operation) := by
  intro session
  rw [run_inContext]
  have hoperation := h session
  revert hoperation
  rcases operation session with ⟨error | value, after⟩
  · exact id
  · exact id

theorem change (context : Text) (operation : FileSystem → Except IoError FileSystem) :
    Silent (Storage.inContext context (SessionM.change operation)) := by
  refine inContext fun session => ?_
  unfold SessionM.change
  split
  · rfl
  · rfl

theorem attempt (context : Text) (operation : FileSystem → Except IoError Unit × FileSystem) :
    Silent (Storage.inContext context (SessionM.attempt operation)) := inContext fun _ => rfl

theorem readText (path : Path) (context : Text) : Silent (Storage.readText path context) :=
  (inContext fun _ => rfl).bind fun _ => pure _

theorem writeText (path : Path) (text : Text) (encoding : Encoding) (context : Text) :
    Silent (Storage.writeText path text encoding context) := by
  unfold Storage.writeText
  split
  · exact change context _
  · exact throw _

theorem copyFile (source target : Path) : Silent (Storage.copyFile source target) := by
  unfold Storage.copyFile
  dsimp only
  split
  · exact (attempt _ _).bind fun _ => change _ _
  · exact change _ _

theorem reviseInPlace (revise : Text → Text) (path : Path) :
    Silent (Namespacing.reviseInPlace revise path) :=
  (readText path _).bind fun _ => writeText path _ _ _

theorem reviseCopies (workspace : Workspace) (harvest : Harvest) :
    Silent (Namespacing.reviseCopies workspace harvest) :=
  (forM (fun _ => reviseInPlace _ _) _).bind fun _ => forM (fun _ => reviseInPlace _ _) _

theorem sourceFiles (settings : Settings) (top : Path) :
    Silent (Namespacing.sourceFiles settings top) := by
  intro session
  rw [run_sourceFiles]
  split
  · rfl
  · rfl

end Silent

namespace Tells

variable {session : Session}

theorem ok_or_error {action : ExceptT Fault SessionM α} {trace : List Progress} {post : α → Prop}
    (h : Tells action session trace post) :
    (∃ value after, action.run session = (.ok value, after) ∧ post value ∧
      after.progress = session.progress ++ trace) ∨
    ∃ fault after told, action.run session = (.error fault, after) ∧ told <+: trace ∧ .done ∉ told ∧
      after.progress = session.progress ++ told := by
  unfold Tells at h
  rcases hrun : action.run session with ⟨fault | value, after⟩
  · rw [hrun] at h
    obtain ⟨told, htold⟩ := h
    exact Or.inr ⟨fault, after, told, rfl, htold⟩
  · rw [hrun] at h
    exact Or.inl ⟨value, after, rfl, h⟩

theorem of_silent {action : ExceptT Fault SessionM α} (h : Silent action) {post : α → Prop}
    (hpost : ∀ value after, Yields action session value after → post value) :
    Tells action session [] post := by
  have hprogress := h session
  unfold Tells
  rcases hrun : action.run session with ⟨fault | value, after⟩
  · rw [hrun] at hprogress
    exact ⟨[], List.prefix_rfl, List.not_mem_nil, by rw [List.append_nil]; exact hprogress⟩
  · rw [hrun] at hprogress
    exact ⟨hpost value after hrun, by rw [List.append_nil]; exact hprogress⟩

theorem tell (progress : Progress) :
    Tells (liftM (SessionM.tell progress)) session [progress] fun _ => True := ⟨trivial, rfl⟩

theorem pure {value : α} {post : α → Prop} (h : post value) :
    Tells (Pure.pure value) session [] post := ⟨h, (List.append_nil _).symm⟩

theorem throw {fault : Fault} {trace : List Progress} {post : α → Prop} :
    Tells (MonadExcept.throw fault) session trace post :=
  ⟨[], List.nil_prefix, List.not_mem_nil, (List.append_nil _).symm⟩

theorem bind {action : ExceptT Fault SessionM α} {next : α → ExceptT Fault SessionM β}
    {first rest : List Progress} {post : α → Prop} {final : β → Prop}
    (h : Tells action session first post) (hdone : .done ∉ first)
    (hnext : ∀ value after, Yields action session value after → post value →
      Tells (next value) after rest final) :
    Tells (action >>= next) session (first ++ rest) final := by
  unfold Tells at h ⊢
  rw [run_bind]
  rcases hrun : action.run session with ⟨fault | value, middle⟩
  · rw [hrun] at h
    obtain ⟨told, htold, hnot, hprogress⟩ := h
    exact ⟨told, htold.trans (List.prefix_append first rest), hnot, hprogress⟩
  · rw [hrun] at h
    obtain ⟨hvalue, hprogress⟩ := h
    have hrest := hnext value middle hrun hvalue
    unfold Tells at hrest
    revert hrest
    dsimp only
    rcases (next value).run middle with ⟨fault | result, after⟩
    · rintro ⟨told, htold, hnot, hafter⟩
      refine ⟨first ++ told, (List.prefix_append_right_inj first).2 htold, ?_, ?_⟩
      · rw [List.mem_append, not_or]
        exact ⟨hdone, hnot⟩
      · rw [hafter, hprogress, List.append_assoc]
    · rintro ⟨hresult, hafter⟩
      exact ⟨hresult, by rw [hafter, hprogress, List.append_assoc]⟩

theorem done {value : α} {post : α → Prop} (h : post value) :
    Tells (liftM (SessionM.tell .done) >>= fun _ => Pure.pure value) session [.done] post := ⟨h, rfl⟩

theorem after_silent {action : ExceptT Fault SessionM α} {next : α → ExceptT Fault SessionM β}
    {trace : List Progress} {final : β → Prop} (h : Silent action)
    (hnext : ∀ value after, Yields action session value after → Tells (next value) after trace final) :
    Tells (action >>= next) session trace final := by
  have hfirst : Tells action session [] fun _ => True := of_silent h fun _ _ _ => trivial
  exact hfirst.bind List.not_mem_nil fun value after hrun _ => hnext value after hrun

end Tells

/-- Source files in the order of a harvest, each with the content that it has when its turn comes: the disk
is then the one that the files before it have left. -/
def Visited (workspace : Workspace) : Harvest → Session → List Source → Prop
  | _, _, [] => True
  | harvest, session, source :: rest =>
    (∀ content, session.files.read (source.file.path workspace.source) = .ok content →
      source.content = content) ∧
    ∀ harvest' after,
      Yields (harvestFile SessionM.tell workspace harvest source.file) session harvest' after →
      Visited workspace harvest' after rest

theorem exists_visited (workspace : Workspace) (files : List SourceFile) (harvest : Harvest)
    (session : Session) :
    ∃ sources, sources.map Source.file = files ∧ Visited workspace harvest session sources := by
  induction files generalizing harvest session with
  | nil => exact ⟨[], rfl, trivial⟩
  | cons file files ih =>
    obtain ⟨content, hcontent⟩ : ∃ content, ∀ found,
        session.files.read (file.path workspace.source) = .ok found → content = found := by
      rcases session.files.read (file.path workspace.source) with error | found
      · exact ⟨[], fun _ h => by cases h⟩
      · exact ⟨found, fun _ h => by cases h; rfl⟩
    rcases hrun : (harvestFile SessionM.tell workspace harvest file).run session with
      ⟨fault | harvest', after⟩
    · obtain ⟨sources, hsources, -⟩ := ih harvest session
      refine ⟨⟨file, content⟩ :: sources, congrArg (file :: ·) hsources, hcontent, ?_⟩
      intro harvest' after' hyields
      cases hrun.symm.trans hyields
    · obtain ⟨sources, hsources, hvisited⟩ := ih harvest' after
      refine ⟨⟨file, content⟩ :: sources, congrArg (file :: ·) hsources, hcontent, ?_⟩
      intro harvest'' after' hyields
      cases hrun.symm.trans hyields
      exact hvisited

namespace Source

def skipped (sources : List Source) : List Path :=
  (sources.filter fun source => source.role == .unclassified).map fun source => source.file.relativePath

def told (source : Source) : List Progress :=
  if source.role = .unclassified then [.skipped source.file.relativePath] else []

theorem flatMap_told (sources : List Source) : sources.flatMap told = (skipped sources).map .skipped := by
  unfold skipped
  induction sources with
  | nil => rfl
  | cons source sources ih =>
    rw [List.flatMap_cons, ih, told]
    by_cases h : source.role = .unclassified
    · rw [if_pos h, List.filter_cons_of_pos (by simp [h])]
      rfl
    · rw [if_neg h, List.filter_cons_of_neg (by simp [h])]
      rfl

theorem done_not_mem_told (sources : List Source) : Progress.done ∉ sources.flatMap told := by
  rw [flatMap_told]
  simp

end Source

theorem exists_of_readText {path : Path} {context : Text} {session after : Session} {read : Text × Encoding}
    (h : Yields (Storage.readText path context) session read after) :
    ∃ content, session.files.read path = .ok content ∧ read = Encoding.decode content := by
  obtain ⟨content, hread, hcontent, hsame⟩ := (@Ensures.readText (· = session.files) (fun _ => True)
    path context fun _ _ => trivial).of_ok rfl h
  exact ⟨content, hsame ▸ hcontent, hread⟩

namespace Plan

variable {workspace : Workspace} {session : Session}

theorem tells_harvestFile {plan : Plan} {source : Source} (hns : workspace.ns = plan.ns)
    (hproper : (plan.add source).Proper)
    (hcontent : ∀ content, session.files.read (source.file.path workspace.source) = .ok content →
      source.content = content) :
    Tells (harvestFile SessionM.tell workspace (plan.harvest workspace) source.file) session source.told
      fun harvest => harvest = (plan.add source).harvest workspace := by
  unfold harvestFile
  refine Tells.after_silent (Silent.readText _ _) fun read middle hread => ?_
  obtain ⟨content, hfile, rfl⟩ := exists_of_readText hread
  obtain rfl := hcontent content hfile
  dsimp only
  rw [hns]
  split
  · rename_i hrole
    have htold : source.told = [] := by
      rw [Source.told, if_neg]
      rw [show source.role = .classBearing from hrole]
      decide
    rw [htold, harvest_add_class hproper hrole]
    exact Tells.after_silent (Silent.copyFile _ _) fun _ _ _ => .pure rfl
  · rename_i hrole
    have htold : source.told = [] := by
      rw [Source.told, if_neg]
      rw [show source.role = .functionBearing from hrole]
      decide
    rw [htold, harvest_add_function hproper hrole]
    exact Tells.after_silent (Silent.copyFile _ _) fun _ _ _ => .pure rfl
  · rename_i hrole
    have htold : source.told = [.skipped source.file.relativePath] := if_pos hrole
    rw [htold, harvest_add_unclassified hrole]
    exact (Tells.tell _).bind (by simp) fun _ _ _ _ => .pure rfl

theorem tells_harvest {plan : Plan} {sources : List Source} (hns : workspace.ns = plan.ns)
    (hproper : (Plan.mk plan.settings (plan.sources ++ sources)).Proper)
    (hvisited : Visited workspace (plan.harvest workspace) session sources) :
    Tells ((sources.map Source.file).foldlM (harvestFile SessionM.tell workspace) (plan.harvest workspace))
      session (sources.flatMap Source.told)
      fun harvest => harvest = (Plan.mk plan.settings (plan.sources ++ sources)).harvest workspace := by
  induction sources generalizing plan session with
  | nil => exact .pure (by rw [List.append_nil])
  | cons source sources ih =>
    obtain ⟨hcontent, hrest⟩ := hvisited
    have happend : plan.sources ++ source :: sources = (plan.add source).sources ++ sources := by
      rw [add, List.append_assoc]
      rfl
    rw [happend] at hproper ⊢
    have hadd : (plan.add source).Proper := fun s hs => hproper s (List.mem_append_left _ hs)
    rw [List.map_cons, List.foldlM_cons, List.flatMap_cons]
    refine (tells_harvestFile hns hadd hcontent).bind ?_ fun harvest after hyields hharvest => ?_
    · unfold Source.told
      split
      · simp
      · exact List.not_mem_nil
    · have hvisited := hrest harvest after hyields
      rw [hharvest] at hvisited ⊢
      exact ih hns hproper hvisited

end Plan

section

variable {settings : Settings} {source target : Path} {session : Session}

theorem eq_of_prepare {workspace : Workspace} {after : Session}
    (h : Yields (prepare workspace) session () after) :
    after = ⟨workspace.prepared session.files, session.progress⟩ := by
  obtain ⟨_, middle, hwipe, hmake⟩ := h.exists_of_bind
  rw [hmake.eq_of_attempt, hwipe.eq_of_attempt]
  rfl

theorem eq_of_sourceFiles {path : Path} {files : List SourceFile} {after : Session}
    (h : Yields (sourceFiles settings path) session files after) :
    settings.filesIn (session.files.tree path) = .ok files ∧ after = session := by
  rw [Yields, run_sourceFiles] at h
  split at h
  · rename_i found hfound
    cases h
    exact ⟨hfound, rfl⟩
  · cases h

theorem Settings.proper_of_filesIn {disk : FileSystem} {path : Path} {sources : List Source}
    (h : settings.filesIn (disk.tree path) = .ok (sources.map Source.file)) :
    (Plan.mk settings sources).Proper :=
  fun _ hsource => (Settings.exists_of_mem_filesIn h (List.mem_map_of_mem hsource)).1

theorem Plan.copied_harvest (plan : Plan) (workspace : Workspace) :
    (plan.harvest workspace).classFiles.length + (plan.harvest workspace).functionFiles.length =
      (plan.report workspace).copied := by
  simp only [harvest, report, List.length_map]

theorem Progress.trace_eq (sources : List Source) (copied renames : Nat) :
    trace (Source.skipped sources) copied renames =
      [.cleaned] ++ (sources.flatMap Source.told ++ ([.copied copied] ++ ([.replacing renames] ++ [.done]))) := by
  rw [Source.flatMap_told]
  rfl

theorem tells_convert {sources : List Source}
    (hwalk : ∀ files, settings.filesIn (((Workspace.ofRoots settings source target).prepared
      session.files).tree (Workspace.ofRoots settings source target).source) = .ok files →
      sources.map Source.file = files)
    (hvisited : Visited (Workspace.ofRoots settings source target)
      (Harvest.start settings.toNamespace settings)
      ⟨(Workspace.ofRoots settings source target).prepared session.files, session.progress ++ [.cleaned]⟩
      sources) :
    Tells (Namespacing.convert SessionM.tell settings source target) session
      (Progress.trace (Source.skipped sources)
        ((Plan.mk settings sources).report (Workspace.ofRoots settings source target)).copied
        ((Plan.mk settings sources).report (Workspace.ofRoots settings source target)).renames)
      fun report => report = (Plan.mk settings sources).report (Workspace.ofRoots settings source target) := by
  rw [Progress.trace_eq]
  unfold Namespacing.convert
  refine Tells.after_silent (fun _ => rfl) fun _ _ hcheck => ?_
  obtain ⟨-, rfl⟩ := Prod.mk.inj hcheck
  refine Tells.after_silent (fun _ => rfl) fun present _ hlook => ?_
  obtain ⟨-, rfl⟩ := Prod.mk.inj hlook
  dsimp only
  split
  · exact Tells.throw
  · refine Tells.after_silent ((Silent.attempt _ _).bind fun _ => Silent.attempt _ _) fun _ after hprepare => ?_
    obtain rfl := eq_of_prepare hprepare
    refine (Tells.tell _).bind (by simp) fun _ _ htell _ => ?_
    obtain ⟨-, rfl⟩ := Prod.mk.inj htell
    refine Tells.after_silent (Silent.sourceFiles _ _) fun files _ hfound => ?_
    obtain ⟨hfiles, rfl⟩ := eq_of_sourceFiles hfound
    obtain rfl := hwalk files hfiles
    have hproper := Settings.proper_of_filesIn hfiles
    have hstart := Plan.harvest_start settings (Workspace.ofRoots settings source target)
    rw [show (Workspace.ofRoots settings source target).ns = settings.toNamespace from rfl, hstart]
    rw [hstart] at hvisited
    have hharvest := @Plan.tells_harvest (Workspace.ofRoots settings source target) _
      (Plan.mk settings []) sources rfl hproper hvisited
    refine hharvest.bind (Source.done_not_mem_told sources) fun harvest after _ hharvest => ?_
    obtain rfl := hharvest
    dsimp only
    rw [List.nil_append, Plan.copied_harvest]
    refine (Tells.tell _).bind (by simp) fun _ _ _ _ => ?_
    refine (Tells.tell _).bind (by simp) fun _ _ _ _ => ?_
    refine Tells.after_silent (Silent.reviseCopies _ _) fun _ _ _ => ?_
    refine Tells.after_silent (Silent.change _ _) fun _ _ _ => ?_
    exact Tells.done rfl

/-- Whatever the disk and the paths are, a conversion tells a first part of the trace of the files that it
skips, in the order of the walk, and of the numbers of copies and renames; it tells the whole trace exactly
if it succeeds, and then the trace is that of its report. The role of a file is that of the content that it
has when its turn comes. -/
theorem convert_tells_trace (settings : Settings) (source target : Path) (session : Session) :
    ∃ (sources : List Source) (told : List Progress),
      let workspace := Workspace.ofRoots settings source target
      let planned := (Plan.mk settings sources).report workspace
      let trace := Progress.trace (Source.skipped sources) planned.copied planned.renames
      (∀ files, settings.filesIn ((workspace.prepared session.files).tree workspace.source) = .ok files →
        sources.map Source.file = files) ∧
      Visited workspace (Harvest.start settings.toNamespace settings)
        ⟨workspace.prepared session.files, session.progress ++ [.cleaned]⟩ sources ∧
      (Session.convert settings source target session).2.progress = session.progress ++ told ∧
      told <+: trace ∧
      (told = trace ↔ ∃ report, (Session.convert settings source target session).1 = .ok report) ∧
      ∀ report, (Session.convert settings source target session).1 = .ok report →
        report = planned ∧ report.skipped = Source.skipped sources ∧
        report.copied = report.classFiles.length + report.functionFiles.length := by
  let workspace := Workspace.ofRoots settings source target
  obtain ⟨files, hfiles⟩ : ∃ files, ∀ found,
      settings.filesIn ((workspace.prepared session.files).tree workspace.source) = .ok found →
        files = found := by
    rcases settings.filesIn ((workspace.prepared session.files).tree workspace.source) with obstacle | files
    · exact ⟨[], fun _ h => by cases h⟩
    · exact ⟨files, fun _ h => Except.ok.inj h⟩
  obtain ⟨sources, hsources, hvisited⟩ := exists_visited workspace files
    (Harvest.start settings.toNamespace settings)
    ⟨workspace.prepared session.files, session.progress ++ [.cleaned]⟩
  have hwalk : ∀ found,
      settings.filesIn ((workspace.prepared session.files).tree workspace.source) = .ok found →
        sources.map Source.file = found := fun found h => hsources.trans (hfiles found h)
  have htells := tells_convert hwalk hvisited
  have hdone : Progress.done ∈ Progress.trace (Source.skipped sources)
      ((Plan.mk settings sources).report workspace).copied
      ((Plan.mk settings sources).report workspace).renames := by
    simp [Progress.trace]
  rcases htells.ok_or_error with ⟨report, after, hrun, rfl, hprogress⟩ |
    ⟨fault, after, told, hrun, htold, hnot, hprogress⟩
  · replace hrun : Session.convert settings source target session = _ := hrun
    rw [hrun]
    refine ⟨sources, _, hwalk, hvisited, hprogress, List.prefix_rfl, ⟨fun _ => ⟨_, rfl⟩, fun _ => rfl⟩, ?_⟩
    rintro report ⟨⟩
    exact ⟨rfl, rfl, by simp only [Plan.report, List.length_map]⟩
  · replace hrun : Session.convert settings source target session = _ := hrun
    rw [hrun]
    refine ⟨sources, told, hwalk, hvisited, hprogress, htold, ⟨?_, ?_⟩, ?_⟩
    · rintro rfl
      exact absurd hdone hnot
    · rintro ⟨report, h⟩
      cases h
    · intro report h
      cases h

end

end Namespacing
