import Namespacing.Proofs.Conversion.Phases
set_option autoImplicit false

namespace Namespacing

variable {α β : Type}

/-- An operation failed that a conversion had begun with. -/
def Fault.IsOperational (fault : Fault) : Prop :=
  (∃ error context, fault = .io error context) ∨ ∃ error, fault = .unexpected error

theorem not_isOperational_of_code {fault : Fault}
    (h : fault.code = "config.invalid_value".toList ∨ fault.code = "source.not_found".toList) :
    ¬ fault.IsOperational := by
  rintro (⟨error, context, rfl⟩ | ⟨error, rfl⟩)
  · change "internal.io_error".toList = _ ∨ "internal.io_error".toList = _ at h
    revert h
    decide
  · change "internal.unexpected".toList = _ ∨ "internal.unexpected".toList = _ at h
    revert h
    decide

def FailsOnly (action : ExceptT Fault SessionM α) (allowed : Fault → Prop) : Prop :=
  ∀ (session after : Session) (fault : Fault), action.run session = (.error fault, after) → allowed fault

namespace FailsOnly

variable {allowed : Fault → Prop}

theorem bind {action : ExceptT Fault SessionM α} {next : α → ExceptT Fault SessionM β}
    (h : FailsOnly action allowed) (hnext : ∀ value, FailsOnly (next value) allowed) :
    FailsOnly (action >>= next) allowed := by
  intro session after fault hrun
  rw [run_bind] at hrun
  rcases hfirst : action.run session with ⟨first | value, middle⟩
  · rw [hfirst] at hrun
    rw [← Except.error.inj (Prod.mk.inj hrun).1]
    exact h session middle first hfirst
  · rw [hfirst] at hrun
    exact hnext value middle after fault hrun

theorem pure (value : α) : FailsOnly (Pure.pure value) allowed := by
  intro session after fault hrun
  cases hrun

theorem throw {fault : Fault} (h : allowed fault) :
    FailsOnly (MonadExcept.throw fault : ExceptT Fault SessionM α) allowed := by
  intro session after fault' hrun
  obtain ⟨hfault, -⟩ := Prod.mk.inj hrun
  rwa [← Except.error.inj hfault]

theorem tell (progress : Progress) : FailsOnly (liftM (SessionM.tell progress)) allowed := by
  intro session after fault hrun
  cases hrun

theorem foldlM {σ : Type} {step : β → σ → ExceptT Fault SessionM β} (h : ∀ acc x, FailsOnly (step acc x) allowed)
    (items : List σ) (acc : β) : FailsOnly (items.foldlM step acc) allowed := by
  induction items generalizing acc with
  | nil => exact pure acc
  | cons x items ih =>
    rw [List.foldlM_cons]
    exact (h acc x).bind ih

theorem forM {σ : Type} {action : σ → ExceptT Fault SessionM Unit} (h : ∀ x, FailsOnly (action x) allowed)
    (items : List σ) : FailsOnly (items.forM action) allowed := by
  induction items with
  | nil => exact pure ()
  | cons x items ih => exact (h x).bind fun _ => ih

theorem inContext (context : Text) (operation : SessionM (Except IoError α)) :
    FailsOnly (Storage.inContext context operation) Fault.IsOperational := by
  intro session after fault hrun
  rw [run_inContext] at hrun
  rcases hoperation : operation session with ⟨error | value, middle⟩
  · rw [hoperation] at hrun
    exact Or.inl ⟨error, some context, (Except.error.inj (Prod.mk.inj hrun).1).symm⟩
  · rw [hoperation] at hrun
    cases hrun

theorem readText (path : Path) (context : Text) :
    FailsOnly (Storage.readText path context) Fault.IsOperational :=
  (inContext context _).bind fun _ => pure _

theorem writeText (path : Path) (text : Text) (encoding : Encoding) (context : Text) :
    FailsOnly (Storage.writeText path text encoding context) Fault.IsOperational := by
  unfold Storage.writeText
  split
  · exact inContext context _
  · exact throw (Or.inr ⟨_, rfl⟩)

theorem copyFile (source target : Path) :
    FailsOnly (Storage.copyFile source target) Fault.IsOperational := by
  unfold Storage.copyFile
  dsimp only
  split
  · exact (inContext _ _).bind fun _ => inContext _ _
  · exact inContext _ _

theorem reviseInPlace (change : Text → Text) (path : Path) :
    FailsOnly (Namespacing.reviseInPlace change path) Fault.IsOperational :=
  (readText path _).bind fun _ => writeText path _ _ _

theorem harvestFile (workspace : Workspace) (harvest : Harvest) (file : SourceFile) :
    FailsOnly (Namespacing.harvestFile SessionM.tell workspace harvest file) Fault.IsOperational := by
  unfold Namespacing.harvestFile
  refine (readText _ _).bind fun read => ?_
  dsimp only
  split
  · exact (copyFile _ _).bind fun _ => pure _
  · exact (copyFile _ _).bind fun _ => pure _
  · exact (tell _).bind fun _ => pure _

theorem sourceFiles (settings : Settings) (top : Path) :
    FailsOnly (Namespacing.sourceFiles settings top) Fault.IsOperational := by
  intro session after fault hrun
  rw [run_sourceFiles] at hrun
  split at hrun
  · cases hrun
  · exact Or.inl ⟨_, _, (Except.error.inj (Prod.mk.inj hrun).1).symm⟩

end FailsOnly

/-- A computation fails in an operation, or it leaves the session as it is. -/
def Refuses (action : ExceptT Fault SessionM α) : Prop :=
  ∀ (session after : Session) (fault : Fault), action.run session = (.error fault, after) →
    fault.IsOperational ∨ after = session

theorem FailsOnly.refuses {action : ExceptT Fault SessionM α} (h : FailsOnly action Fault.IsOperational) :
    Refuses action := fun session after fault hrun => Or.inl (h session after fault hrun)

theorem Refuses.bind {action : ExceptT Fault SessionM α} {next : α → ExceptT Fault SessionM β}
    (hstill : ∀ session, (action.run session).2 = session) (hnext : ∀ value, Refuses (next value)) :
    Refuses (action >>= next) := by
  intro session after fault hrun
  have hsame := hstill session
  rw [run_bind] at hrun
  rcases hfirst : action.run session with ⟨first | value, middle⟩
  · rw [hfirst] at hrun hsame
    exact Or.inr ((Prod.mk.inj hrun).2.symm.trans hsame)
  · rw [hfirst] at hrun hsame
    change middle = session at hsame
    subst hsame
    exact hnext value middle after fault hrun

theorem refuses_convert (settings : Settings) (source target : Path) :
    Refuses (Namespacing.convert SessionM.tell settings source target) := by
  unfold Namespacing.convert
  refine Refuses.bind (fun session => rfl) fun _ => ?_
  refine Refuses.bind (fun session => rfl) fun present => ?_
  dsimp only
  split
  · intro session after fault hrun
    exact Or.inr (Prod.mk.inj hrun).2.symm
  · apply FailsOnly.refuses
    refine FailsOnly.bind ((FailsOnly.inContext _ _).bind fun _ => FailsOnly.inContext _ _) fun _ => ?_
    refine (FailsOnly.tell _).bind fun _ => (FailsOnly.sourceFiles _ _).bind fun files => ?_
    refine (FailsOnly.foldlM (FailsOnly.harvestFile _) _ _).bind fun harvest => ?_
    refine (FailsOnly.tell _).bind fun _ => (FailsOnly.tell _).bind fun _ => FailsOnly.bind ?_ fun _ => ?_
    · exact (FailsOnly.forM (fun _ => FailsOnly.reviseInPlace _ _) _).bind fun _ =>
        FailsOnly.forM (fun _ => FailsOnly.reviseInPlace _ _) _
    · exact (FailsOnly.inContext _ _).bind fun _ => (FailsOnly.tell _).bind fun _ => FailsOnly.pure _

theorem eq_of_refused {settings : Settings} {source target : Path} {session after : Session} {fault : Fault}
    (hrun : Session.convert settings source target session = (.error fault, after))
    (hfault : ¬ fault.IsOperational) : after = session :=
  (refuses_convert settings source target session after fault hrun).resolve_left hfault

end Namespacing
