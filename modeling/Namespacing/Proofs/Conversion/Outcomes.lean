import Namespacing.Conversion.Session
set_option autoImplicit false

namespace Namespacing

variable {α β : Type}

/-- From a disk of which `pre` holds, a value comes with a disk that `post` holds of, and `fails` holds of
every disk that a failure leaves. -/
def Ensures (action : ExceptT Fault SessionM α) (pre : FileSystem → Prop)
    (post : α → FileSystem → Prop) (fails : FileSystem → Prop) : Prop :=
  ∀ session : Session, pre session.files →
    match action.run session with
    | (.ok value, after) => post value after.files
    | (.error _, after) => fails after.files

theorem run_bind (action : ExceptT Fault SessionM α) (next : α → ExceptT Fault SessionM β)
    (session : Session) :
    (action >>= next).run session =
      match action.run session with
      | (.ok value, after) => (next value).run after
      | (.error fault, after) => (.error fault, after) := by
  change ExceptT.bindCont next (action.run session).1 (action.run session).2 = _
  rcases action.run session with ⟨_ | value, after⟩ <;> rfl

theorem SessionM.bind_apply {β : Type} (action : SessionM α) (next : α → SessionM β)
    (session : Session) : (action >>= next) session = next (action session).1 (action session).2 := rfl

theorem run_inContext (context : Text) (operation : SessionM (Except IoError α)) (session : Session) :
    (Storage.inContext context operation).run session =
      match operation session with
      | (.ok value, after) => (.ok value, after)
      | (.error error, after) => (.error (.io error (some context)), after) := by
  unfold Storage.inContext
  rw [ExceptT.run_mk, SessionM.bind_apply]
  rcases operation session with ⟨_ | value, after⟩ <;> rfl

namespace Ensures

section

variable {pre pre' : FileSystem → Prop} {post post' : α → FileSystem → Prop} {fails : FileSystem → Prop}

theorem of_ok {action : ExceptT Fault SessionM α} (h : Ensures action pre post fails)
    {session after : Session} {value : α} (hsession : pre session.files)
    (hrun : action.run session = (.ok value, after)) : post value after.files := by
  have := h session hsession
  rwa [hrun] at this

theorem of_error {action : ExceptT Fault SessionM α} (h : Ensures action pre post fails)
    {session after : Session} {fault : Fault} (hsession : pre session.files)
    (hrun : action.run session = (.error fault, after)) : fails after.files := by
  have := h session hsession
  rwa [hrun] at this

theorem consequence {action : ExceptT Fault SessionM α} (h : Ensures action pre post fails)
    (hpre : ∀ disk, pre' disk → pre disk) (hpost : ∀ value disk, post value disk → post' value disk) :
    Ensures action pre' post' fails := by
  intro session hsession
  have := h session (hpre _ hsession)
  revert this
  rcases action.run session with ⟨_ | value, after⟩
  · exact id
  · exact hpost value after.files

theorem weaken {action : ExceptT Fault SessionM α} {fails' : FileSystem → Prop}
    (h : Ensures action pre post fails) (hfails : ∀ disk, fails disk → fails' disk) :
    Ensures action pre post fails' := by
  intro session hsession
  have := h session hsession
  revert this
  rcases action.run session with ⟨_ | value, after⟩
  · exact hfails after.files
  · exact id

theorem bind {action : ExceptT Fault SessionM α} {next : α → ExceptT Fault SessionM β}
    {final : β → FileSystem → Prop} (h : Ensures action pre post fails)
    (hnext : ∀ value, Ensures (next value) (post value) final fails) :
    Ensures (action >>= next) pre final fails := by
  intro session hsession
  rw [run_bind]
  have := h session hsession
  revert this
  rcases action.run session with ⟨_ | value, after⟩
  · exact id
  · exact hnext value after

theorem pure {value : α} (h : ∀ disk, pre disk → post value disk) :
    Ensures (Pure.pure value) pre post fails := fun session hsession => h session.files hsession

theorem throw {fault : Fault} (h : ∀ disk, pre disk → fails disk) :
    Ensures (MonadExcept.throw fault) pre post fails := fun session hsession => h session.files hsession

theorem of_exists {γ : Type} {action : ExceptT Fault SessionM α} {pres : γ → FileSystem → Prop}
    (h : ∀ x, Ensures action (pres x) post fails) :
    Ensures action (fun disk => ∃ x, pres x disk) post fails :=
  fun session ⟨x, hx⟩ => h x session hx

theorem assuming {action : ExceptT Fault SessionM α} {fact : Prop} (hfact : ∀ disk, pre disk → fact)
    (h : fact → Ensures action pre post fails) : Ensures action pre post fails :=
  fun session hsession => h (hfact _ hsession) session hsession

theorem of_and {action : ExceptT Fault SessionM α} {fact : Prop}
    (h : fact → Ensures action pre post fails) :
    Ensures action (fun disk => fact ∧ pre disk) post fails :=
  fun session ⟨hfact, hsession⟩ => h hfact session hsession

end

theorem ofExcept {pre fails : FileSystem → Prop} (outcome : Except Fault α)
    (hfails : ∀ fault, outcome = .error fault → ∀ disk, pre disk → fails disk) :
    Ensures (ExceptT.mk (Pure.pure outcome)) pre (fun value disk => outcome = .ok value ∧ pre disk)
      fails := by
  intro session hsession
  cases outcome with
  | error fault => exact hfails fault rfl _ hsession
  | ok value => exact ⟨rfl, hsession⟩

theorem tell {pre fails : FileSystem → Prop} (progress : Progress) :
    Ensures (liftM (SessionM.tell progress)) pre (fun _ => pre) fails := fun _ h => h

theorem look {pre fails : FileSystem → Prop} (view : FileSystem → α) :
    Ensures (liftM (SessionM.look view)) pre (fun value disk => pre disk ∧ view disk = value) fails :=
  fun _ h => ⟨h, rfl⟩

section

variable {pre fails : FileSystem → Prop} (context : Text)

theorem inContext_look (view : FileSystem → Except IoError α) (hfails : ∀ disk, pre disk → fails disk) :
    Ensures (Storage.inContext context (SessionM.look view)) pre
      (fun value disk => pre disk ∧ view disk = .ok value) fails := by
  intro session hsession
  rw [run_inContext, SessionM.look]
  cases hview : view session.files with
  | error error => exact hfails _ hsession
  | ok value => exact ⟨hsession, hview⟩

theorem inContext_change {operation : FileSystem → Except IoError FileSystem}
    {post : FileSystem → Prop} (hfails : ∀ disk, pre disk → fails disk)
    (h : ∀ disk disk', pre disk → operation disk = .ok disk' → post disk') :
    Ensures (Storage.inContext context (SessionM.change operation)) pre (fun _ => post) fails := by
  intro session hsession
  rw [run_inContext, SessionM.change]
  cases hchange : operation session.files with
  | error error => exact hfails _ hsession
  | ok disk => exact h _ _ hsession hchange

/-- An attempt may leave another disk also when it fails. -/
theorem inContext_attempt {operation : FileSystem → Except IoError Unit × FileSystem}
    {post : FileSystem → Prop} (hfails : ∀ disk, pre disk → fails (operation disk).2)
    (h : ∀ disk disk', pre disk → operation disk = (.ok (), disk') → post disk') :
    Ensures (Storage.inContext context (SessionM.attempt operation)) pre (fun _ => post) fails := by
  intro session hsession
  have hfail := hfails _ hsession
  rw [run_inContext, SessionM.attempt]
  rcases hattempt : operation session.files with ⟨_ | value, disk⟩
  · rw [hattempt] at hfail
    exact hfail
  · exact h _ _ hsession hattempt

end

theorem foldlM {γ σ : Type} {step : β → σ → ExceptT Fault SessionM β} {item : γ → σ}
    {invariant : List γ → β → FileSystem → Prop} {fails : FileSystem → Prop} {items : List σ}
    (h : ∀ done acc, ∀ x ∈ items, Ensures (step acc x) (invariant done acc)
      (fun acc' disk => ∃ thing, item thing = x ∧ invariant (done ++ [thing]) acc' disk) fails)
    (done : List γ) (acc : β) :
    Ensures (items.foldlM step acc) (invariant done acc)
      (fun acc' disk => ∃ things, things.map item = items ∧ invariant (done ++ things) acc' disk)
      fails := by
  induction items generalizing done acc with
  | nil => exact pure fun disk hdisk => ⟨[], rfl, by rwa [List.append_nil]⟩
  | cons x items ih =>
    rw [List.foldlM_cons]
    refine (h done acc x List.mem_cons_self).bind fun acc' => of_exists fun thing => of_and ?_
    rintro rfl
    have hrest := ih (fun done acc y hy => h done acc y (List.mem_cons_of_mem _ hy)) (done ++ [thing]) acc'
    refine hrest.consequence (fun _ => id) ?_
    rintro acc'' disk ⟨things, rfl, hthings⟩
    exact ⟨thing :: things, rfl, by simpa using hthings⟩

theorem forM {γ σ : Type} {action : σ → ExceptT Fault SessionM Unit} {item : γ → σ}
    {invariant : List γ → FileSystem → Prop} {fails : FileSystem → Prop} {things : List γ}
    (h : ∀ done x rest, things = done ++ x :: rest →
      Ensures (action (item x)) (invariant done) (fun _ => invariant (done ++ [x])) fails) :
    Ensures ((things.map item).forM action) (invariant []) (fun _ => invariant things) fails := by
  suffices ∀ done rest, things = done ++ rest →
      Ensures ((rest.map item).forM action) (invariant done) (fun _ => invariant things) fails from
    this [] things rfl
  intro done rest
  induction rest generalizing done with
  | nil =>
    rintro rfl
    exact pure fun disk hdisk => by rwa [List.append_nil]
  | cons x rest ih =>
    intro hthings
    change Ensures (action (item x) >>= fun _ => (rest.map item).forM action) _ _ _
    refine (h done x rest hthings).bind fun _ => ih (done ++ [x]) ?_
    rw [hthings, List.append_assoc]
    rfl

end Ensures

end Namespacing
