import Namespacing.Proofs.RenameTable.Commuting
import Namespacing.Proofs.RenameTable.Restorations
set_option autoImplicit false

namespace Namespacing

open Text

section

variable {α β ι : Type} {f : β → α → β}

theorem foldl_move_front {a : α} {X : List α} (Y : List α)
    (h : ∀ x ∈ X, ∀ s, f (f s x) a = f (f s a) x) (s : β) :
    (X ++ a :: Y).foldl f s = (X ++ Y).foldl f (f s a) := by
  induction X generalizing s with
  | nil => rfl
  | cons x X ih =>
    rw [List.cons_append, List.foldl_cons, ih (fun y hy => h y (List.mem_cons_of_mem _ hy)),
      h x List.mem_cons_self, List.cons_append, List.foldl_cons]

/-- Two lists of steps do the same when every group stands in the same order in both and steps of
different groups commute. -/
theorem foldl_eq_of_groups {I : List ι} {group : ι → α → Bool} {l₁ l₂ : List α}
    (hcover : ∀ a ∈ l₁ ++ l₂, ∃ i ∈ I, group i a = true)
    (hsame : ∀ i ∈ I, l₁.filter (group i) = l₂.filter (group i))
    (hcomm : ∀ i ∈ I, ∀ j ∈ I, i ≠ j → ∀ a b, group i a = true → group j b = true →
      ∀ s, f (f s a) b = f (f s b) a) (s : β) : l₁.foldl f s = l₂.foldl f s := by
  induction l₁ generalizing l₂ s with
  | nil =>
    cases l₂ with
    | nil => rfl
    | cons b l₂ =>
      obtain ⟨i, hi, hb⟩ := hcover b (by simp)
      have := hsame i hi
      rw [List.filter_nil, List.filter_cons_of_pos hb] at this
      cases this
  | cons a l₁ ih =>
    obtain ⟨i, hi, ha⟩ := hcover a (by simp)
    have hfirst := hsame i hi
    rw [List.filter_cons_of_pos ha] at hfirst
    obtain ⟨X, Y, rfl, hX, -, hY⟩ := List.filter_eq_cons_iff.1 hfirst.symm
    have hmove : ∀ x ∈ X, ∀ s, f (f s x) a = f (f s a) x := by
      intro x hx
      obtain ⟨j, hj, hxj⟩ := hcover x (by simp [hx])
      have hne : j ≠ i := by
        rintro rfl
        exact hX x hx hxj
      exact hcomm j hj i hi hne x a hxj ha
    rw [foldl_move_front Y hmove, List.foldl_cons]
    apply ih
    · intro b hb
      apply hcover
      simp only [List.mem_append, List.mem_cons] at hb ⊢
      tauto
    · intro j hj
      have hj := hsame j hj
      rw [List.filter_append, List.filter_cons, List.filter_cons] at hj
      rw [List.filter_append]
      by_cases haj : group j a = true
      · rw [if_pos haj, if_pos haj] at hj
        cases hXj : X.filter (group j) with
        | nil => simpa [hXj] using hj
        | cons x rest =>
          -- The first step of the group would be the one that was moved, and it stood behind.
          rw [hXj] at hj
          obtain rfl : a = x := (List.cons.inj hj).1
          have hx : a ∈ X.filter (group j) := by rw [hXj]; exact List.mem_cons_self
          exact absurd ha (hX a (List.mem_filter.1 hx).1)
      · simpa [haj] using hj

end

theorem upsert_eq_self {renames : List Rename} {r : Rename} (hmem : r ∈ renames)
    (hall : ∀ x ∈ renames, x.1 = r.1 → x = r) : upsert renames r = renames := by
  induction renames with
  | nil => cases hmem
  | cons x renames ih =>
    rw [upsert]
    split
    · rename_i hx
      rw [hall x List.mem_cons_self hx]
    · rename_i hx
      rcases List.mem_cons.1 hmem with rfl | hmem
      · exact absurd rfl hx
      · rw [ih hmem fun y hy => hall y (List.mem_cons_of_mem _ hy)]

theorem upsert_upsert (renames : List Rename) (r : Rename) :
    upsert (upsert renames r) r = upsert renames r := by
  induction renames with
  | nil => simp [upsert]
  | cons x renames ih =>
    rw [upsert]
    split
    · simp [upsert]
    · rename_i hx
      rw [upsert, if_neg hx, ih]

theorem foldl_upsert_replicate (renames : List Rename) (k : Nat) (r : Rename) :
    (List.replicate (k + 1) r).foldl upsert renames = upsert renames r := by
  induction k with
  | zero => rfl
  | succ k ih => rw [List.replicate_succ, List.foldl_cons, List.replicate_succ, List.foldl_cons,
      upsert_upsert, ← List.foldl_cons, ← List.replicate_succ, ih]

theorem filter_upsert {q : Rename → Bool} {renames : List Rename} {r : Rename}
    (h : ∀ x ∈ renames, x.1 = r.1 → q x = q r) :
    (upsert renames r).filter q =
      if q r = true then upsert (renames.filter q) r else renames.filter q := by
  induction renames with
  | nil => cases hr : q r <;> simp [upsert, hr]
  | cons x renames ih =>
    have hrest := ih fun y hy => h y (List.mem_cons_of_mem _ hy)
    rw [upsert]
    split
    · rename_i hx
      have hq := h x List.mem_cons_self hx
      cases hr : q r with
      | true => simp [hq, hr, hx, upsert]
      | false => simp [hq, hr]
    · rename_i hx
      cases hqx : q x with
      | true => cases hr : q r <;> simp [hqx, hrest, hr, upsert, hx]
      | false => simp [hqx, hrest]

/-- A group of renames that share no literal with the others is made from its own renames alone. -/
theorem filter_foldl_upsert {q : Rename → Bool} {renames : List Rename}
    (h : ∀ x ∈ renames, ∀ y ∈ renames, x.1 = y.1 → q x = q y) :
    (renames.foldl upsert []).filter q = (renames.filter q).foldl upsert [] := by
  induction renames using List.reverseRecOn with
  | nil => rfl
  | append_singleton renames r ih =>
    have hinit : ∀ x ∈ renames, ∀ y ∈ renames, x.1 = y.1 → q x = q y := fun x hx y hy =>
      h x (List.mem_append_left _ hx) y (List.mem_append_left _ hy)
    have hlast : ∀ x ∈ renames.foldl upsert [], x.1 = r.1 → q x = q r := by
      intro x hx
      rcases mem_foldl_upsert hx with hx | hx
      · exact h x (List.mem_append_left _ hx) r (by simp)
      · cases hx
    rw [List.foldl_append, List.foldl_cons, List.foldl_nil, filter_upsert hlast, ih hinit,
      List.filter_append, List.foldl_append]
    by_cases hr : q r = true
    · rw [if_pos hr, List.filter_cons_of_pos hr, List.filter_nil, List.foldl_cons, List.foldl_nil]
    · rw [if_neg hr, List.filter_cons_of_neg hr, List.filter_nil, List.foldl_nil]

def Functional (renames : List Rename) : Prop :=
  ∀ x ∈ renames, ∀ y ∈ renames, x.1 = y.1 → x = y

namespace Functional

variable {M : List Rename} (hM : Functional M)

include hM

theorem foldl_upsert_of_subset {renames : List Rename} (h : ∀ r ∈ renames, r ∈ M) :
    renames.foldl upsert (M.foldl upsert []) = M.foldl upsert [] := by
  induction renames with
  | nil => rfl
  | cons r renames ih =>
    have hr := h r List.mem_cons_self
    have hall : ∀ x ∈ M.foldl upsert [], x.1 = r.1 → x = r := by
      intro x hx
      rcases mem_foldl_upsert hx with hx | hx
      · exact hM x hx r hr
      · cases hx
    have hmem : r ∈ M.foldl upsert [] := by
      have hliteral := (@mem_literals_foldl_upsert M [] r.1).2 (Or.inl (List.mem_map_of_mem hr))
      obtain ⟨x, hx, hxr⟩ := List.mem_map.1 hliteral
      rwa [← hall x hx hxr]
    rw [List.foldl_cons, upsert_eq_self hmem hall]
    exact ih fun x hx => h x (List.mem_cons_of_mem _ hx)

theorem foldl_upsert_flatten {blocks : List (List Rename)}
    (hsub : ∀ block ∈ blocks, ∀ r ∈ block, r ∈ M)
    (hblock : ∀ block ∈ blocks, block ≠ [] → block.foldl upsert [] = M.foldl upsert [])
    (hsome : ∃ block ∈ blocks, block ≠ []) :
    blocks.flatten.foldl upsert [] = M.foldl upsert [] := by
  induction blocks with
  | nil =>
    obtain ⟨block, hmem, -⟩ := hsome
    cases hmem
  | cons block blocks ih =>
    rw [List.flatten_cons, List.foldl_append]
    have hrest : ∀ b ∈ blocks, ∀ r ∈ b, r ∈ M := fun b hb => hsub b (List.mem_cons_of_mem _ hb)
    by_cases hne : block = []
    · rw [hne, List.foldl_nil]
      apply ih hrest fun b hb => hblock b (List.mem_cons_of_mem _ hb)
      obtain ⟨b, hb, hb'⟩ := hsome
      rcases List.mem_cons.1 hb with rfl | hb
      · exact absurd hne hb'
      · exact ⟨b, hb, hb'⟩
    · rw [hblock block List.mem_cons_self hne]
      apply hM.foldl_upsert_of_subset
      intro r hr
      obtain ⟨b, hb, hr⟩ := List.mem_flatten.1 hr
      exact hrest b hb r hr

end Functional

namespace Symbols

variable {ns : Namespace} {σ τ : Symbols}

theorem functional_renames (hnames : ∀ n ∈ σ.names, isIdentifier n = true)
    (hcontainer : ∀ c names, σ = .functions c names → isIdentifier c = true) :
    Functional (σ.renames ns) := by
  rintro r hr ⟨literal, t⟩ hr' rfl
  have hr' := mem_renames_iff.1 hr'
  cases mem_renames_iff.1 hr with
  | qualify hgives hp hs =>
    obtain ⟨q, behind, hgives', -, rfl⟩ :=
      hr'.of_framed hp (hnames _ hgives.mem_names) (hgives.marks hs) hnames
    rw [(hgives.unique hgives').1]
  | @restoreClass n kind s hs =>
    rw [hr'.of_classDeclaration hnames (hnames n (List.mem_singleton.2 rfl)) hs]
  | @restoreFunction c names n s hn hs =>
    rw [hr'.of_functionDeclaration hnames (hcontainer c names rfl) hcontainer (hnames n hn) hs]
    rfl

theorem exists_rule_of_mem_singles (h : σ ∈ τ.singles) : ∃ r, Rule ns σ r ∧ Rule ns τ r := by
  have hp : ['('] ∈ Frame.before := by decide
  have hclass : [' '] ∈ Frame.behindClass := by decide
  have hfunction : ['('] ∈ Frame.behindFunction := by decide
  cases τ with
  | globals names =>
    obtain ⟨n, hn, rfl⟩ := List.mem_map.1 h
    exact ⟨_, .qualify (.global List.mem_cons_self) hp hclass, .qualify (.global hn) hp hclass⟩
  | classLike n =>
    obtain rfl := List.mem_singleton.1 h
    exact ⟨_, .qualify .classLike hp hclass, .qualify .classLike hp hclass⟩
  | functions c names =>
    obtain ⟨n, hn, rfl⟩ := List.mem_map.1 h
    exact ⟨_, .qualify (.function List.mem_cons_self) hp hfunction, .qualify (.function hn) hp hfunction⟩

def owns (ns : Namespace) (σ : Symbols) (r : Rename) : Bool :=
  decide (r ∈ σ.renames ns)

theorem owns_iff {r : Rename} : σ.owns ns r = true ↔ r ∈ σ.renames ns :=
  decide_eq_true_iff

theorem exists_owner {symbols : List Symbols} {r : Rename}
    (h : r ∈ (RenameTable.ofSymbols ns symbols).toList) :
    ∃ σ ∈ symbols.flatMap singles, σ.owns ns r = true := by
  obtain ⟨τ, hτ, hr⟩ := RenameTable.exists_rule_of_mem h
  obtain ⟨σ, hσ, hr⟩ := hr.exists_single
  exact ⟨σ, List.mem_flatMap.2 ⟨τ, hτ, hσ⟩, owns_iff.2 (mem_renames_iff.2 hr)⟩

theorem Separable.congr {first second : List Symbols} (h : Separable first)
    (hsame : ∀ σ, σ ∈ first ↔ σ ∈ second) : Separable second where
  identifier σ hσ := h.identifier σ ((hsame σ).2 hσ)
  container c names hc := h.container c names ((hsame _).2 hc)
  distinct σ hσ τ hτ := h.distinct σ ((hsame σ).2 hσ) τ ((hsame τ).2 hτ)
  keyword σ hσ := h.keyword σ ((hsame σ).2 hσ)

section

variable {symbols : List Symbols} (h : Separable (symbols.flatMap singles)) (hns : ns.Accepted)
  (hσ : σ ∈ symbols.flatMap singles)

include h hσ

theorem Separable.functional : Functional (σ.renames ns) :=
  functional_renames (h.identifier σ hσ) fun c names hc => h.container c names (hc ▸ hσ)

include hns

theorem Separable.filter_single (hτ : τ ∈ symbols.flatMap singles) :
    (τ.renames ns).filter (σ.owns ns) = if τ = σ then σ.renames ns else [] := by
  split
  · rename_i heq
    rw [heq, List.filter_eq_self]
    exact fun r hr => owns_iff.2 hr
  · rename_i hne
    rw [List.filter_eq_nil_iff]
    intro r hr hr'
    exact h.literal_ne hns hτ hσ hne (mem_renames_iff.1 hr) (mem_renames_iff.1 (owns_iff.1 hr')) rfl

theorem Separable.foldl_filter_globals {names : List Text} (hτ : .globals names ∈ symbols)
    (hne : (globalRenames names).filter (σ.owns ns) ≠ []) :
    ((globalRenames names).filter (σ.owns ns)).foldl upsert [] = (σ.renames ns).foldl upsert [] := by
  have hsingle : ∀ n ∈ names, Symbols.globals [n] ∈ symbols.flatMap singles := fun n hn =>
    List.mem_flatMap.2 ⟨_, hτ, List.mem_map.2 ⟨n, hn, rfl⟩⟩
  obtain ⟨r, hr⟩ := List.exists_mem_of_ne_nil _ hne
  obtain ⟨hrτ, hrσ⟩ := List.mem_filter.1 hr
  have hrule : Rule ns (.globals names) r := mem_renames_iff.1 hrτ
  obtain ⟨ρ, hρ, hrule⟩ := hrule.exists_single
  obtain ⟨n, hn, rfl⟩ := List.mem_map.1 hρ
  obtain rfl : σ = .globals [n] := by
    by_contra hne
    exact h.literal_ne hns hσ (hsingle n hn) hne (mem_renames_iff.1 (owns_iff.1 hrσ)) hrule rfl
  obtain ⟨k, hk⟩ : ∃ k, names.count n = k + 1 := Nat.exists_eq_add_one.2 (List.count_pos_iff.2 hn)
  -- With each pair of marks only the one name is left, as often as it is listed.
  have hframe : ∀ s ∈ Frame.behindClass, ∀ p ∈ Frame.before,
      (names.map fun n' => (p ++ n' ++ s, p ++ '\\' :: n' ++ s)).filter ((Symbols.globals [n]).owns ns) =
        List.replicate (k + 1) (p ++ n ++ s, p ++ '\\' :: n ++ s) := by
    intro s hs p hp
    have hown : ∀ n' ∈ names, (Symbols.globals [n]).owns ns (p ++ n' ++ s, p ++ '\\' :: n' ++ s) =
        decide (n' = n) := by
      intro n' hn'
      have hrule' : Rule ns (.globals [n']) (p ++ n' ++ s, p ++ '\\' :: n' ++ s) :=
        .qualify (.global List.mem_cons_self) hp hs
      rw [owns, decide_eq_decide]
      refine ⟨fun hmem => ?_, ?_⟩
      · by_contra hnn
        exact h.literal_ne hns (hsingle n' hn') hσ (by simpa using hnn) hrule'
          (mem_renames_iff.1 hmem) rfl
      · rintro rfl
        exact mem_renames_iff.2 hrule'
    have hfilter : names.filter ((Symbols.globals [n]).owns ns ∘
        fun n' => (p ++ n' ++ s, p ++ '\\' :: n' ++ s)) = List.replicate (k + 1) n := by
      rw [← hk, ← List.filter_eq]
      exact List.filter_congr hown
    rw [List.filter_map, hfilter, List.map_replicate]
  have hleft : (globalRenames names).filter ((Symbols.globals [n]).owns ns) =
      Frame.behindClass.flatMap fun s => Frame.before.flatMap fun p =>
        List.replicate (k + 1) (p ++ n ++ s, p ++ '\\' :: n ++ s) := by
    rw [globalRenames, List.filter_flatMap]
    apply List.flatMap_congr
    intro s hs
    rw [List.filter_flatMap]
    apply List.flatMap_congr
    exact hframe s hs
  rw [hleft, renames, globalRenames]
  simp only [List.foldl_flatMap, foldl_upsert_replicate, List.map_cons, List.map_nil, List.foldl_cons,
    List.foldl_nil]

/-- What symbols contribute to the renames of a single one of them is nothing or all. -/
theorem Separable.foldl_filter_renames (hτ : τ ∈ symbols) (hne : (τ.renames ns).filter (σ.owns ns) ≠ []) :
    ((τ.renames ns).filter (σ.owns ns)).foldl upsert [] = (σ.renames ns).foldl upsert [] := by
  have hpart : ∀ ρ ∈ τ.singles, (ρ.renames ns).filter (σ.owns ns) ≠ [] →
      ((ρ.renames ns).filter (σ.owns ns)).foldl upsert [] = (σ.renames ns).foldl upsert [] := by
    intro ρ hρ hne
    rw [h.filter_single hns hσ (List.mem_flatMap.2 ⟨τ, hτ, hρ⟩)] at hne ⊢
    split
    · rfl
    · rename_i hρσ
      exact absurd (if_neg hρσ) hne
  cases τ with
  | globals names => exact h.foldl_filter_globals hns hσ hτ hne
  | classLike n => exact hpart _ (List.mem_singleton.2 rfl) hne
  | functions c names =>
    have hone : ∀ n, (Symbols.functions c [n]).renames ns = functionRenames ns c n := by
      intro n
      simp [renames]
    rw [renames, List.filter_flatMap, List.flatMap_def] at hne ⊢
    apply (h.functional hσ).foldl_upsert_flatten
    · intro block hblock r hr
      obtain ⟨n, -, rfl⟩ := List.mem_map.1 hblock
      exact owns_iff.1 (List.mem_filter.1 hr).2
    · intro block hblock hblockne
      obtain ⟨n, hn, rfl⟩ := List.mem_map.1 hblock
      rw [← hone n] at hblockne ⊢
      exact hpart _ (List.mem_map.2 ⟨n, hn, rfl⟩) hblockne
    · obtain ⟨r, hr⟩ := List.exists_mem_of_ne_nil _ hne
      obtain ⟨block, hblock, hr⟩ := List.mem_flatten.1 hr
      exact ⟨block, hblock, List.ne_nil_of_mem hr⟩

theorem Separable.filter_toList :
    (RenameTable.ofSymbols ns symbols).toList.filter (σ.owns ns) = (σ.renames ns).foldl upsert [] := by
  have hagree : ∀ x ∈ symbols.flatMap (renames ns), ∀ y ∈ symbols.flatMap (renames ns), x.1 = y.1 →
      σ.owns ns x = σ.owns ns y := by
    have hsingle : ∀ x ∈ symbols.flatMap (renames ns),
        ∃ ρ ∈ symbols.flatMap singles, Rule ns ρ x := by
      intro x hx
      obtain ⟨τ, hτ, hx⟩ := List.mem_flatMap.1 hx
      obtain ⟨ρ, hρ, hrule⟩ := (mem_renames_iff.1 hx).exists_single
      exact ⟨ρ, List.mem_flatMap.2 ⟨τ, hτ, hρ⟩, hrule⟩
    intro x hx y hy hxy
    obtain ⟨ρ, hρ, hx⟩ := hsingle x hx
    obtain ⟨π, hπ, hy⟩ := hsingle y hy
    obtain rfl : ρ = π := by
      by_contra hne
      exact h.literal_ne hns hρ hπ hne hx hy hxy
    rw [h.functional hρ x (mem_renames_iff.2 hx) y (mem_renames_iff.2 hy) hxy]
  rw [RenameTable.toList_ofSymbols, filter_foldl_upsert hagree, List.filter_flatMap, List.flatMap_def]
  apply (h.functional hσ).foldl_upsert_flatten
  · intro block hblock r hr
    obtain ⟨τ, -, rfl⟩ := List.mem_map.1 hblock
    exact owns_iff.1 (List.mem_filter.1 hr).2
  · intro block hblock hne
    obtain ⟨τ, hτ, rfl⟩ := List.mem_map.1 hblock
    exact h.foldl_filter_renames hns hσ hτ hne
  · obtain ⟨τ, hτ, hστ⟩ := List.mem_flatMap.1 hσ
    obtain ⟨r, hr, hr'⟩ := @exists_rule_of_mem_singles ns σ τ hστ
    refine ⟨_, List.mem_map.2 ⟨τ, hτ, rfl⟩, List.ne_nil_of_mem (a := r) ?_⟩
    exact List.mem_filter.2 ⟨mem_renames_iff.2 hr', owns_iff.2 (mem_renames_iff.2 hr)⟩

end

end Symbols

namespace RenameTable

/-- Tables of the same symbols make the same of every text, in whatever order the symbols came in and
however often. -/
theorem substitute_eq_of_same_symbols (ns : Namespace) (hns : ns.Accepted) (first second : List Symbols)
    (hsame : ∀ σ, σ ∈ first.flatMap Symbols.singles ↔ σ ∈ second.flatMap Symbols.singles)
    (hseparable : Symbols.Separable (first.flatMap Symbols.singles)) (text : Text) :
    (ofSymbols ns first).substitute text = (ofSymbols ns second).substitute text := by
  have hseparable' : Symbols.Separable (second.flatMap Symbols.singles) := hseparable.congr hsame
  have hcover : ∀ r ∈ (ofSymbols ns first).toList ++ (ofSymbols ns second).toList,
      ∃ σ ∈ first.flatMap Symbols.singles, σ.owns ns r = true := by
    intro r hr
    rcases List.mem_append.1 hr with hr | hr
    · exact Symbols.exists_owner hr
    · obtain ⟨σ, hσ, howns⟩ := Symbols.exists_owner hr
      exact ⟨σ, (hsame σ).2 hσ, howns⟩
  have hgroups : ∀ σ ∈ first.flatMap Symbols.singles,
      (ofSymbols ns first).toList.filter (σ.owns ns) = (ofSymbols ns second).toList.filter (σ.owns ns) := by
    intro σ hσ
    rw [hseparable.filter_toList hns hσ, hseparable'.filter_toList hns ((hsame σ).1 hσ)]
  have hcomm : ∀ σ ∈ first.flatMap Symbols.singles, ∀ τ ∈ first.flatMap Symbols.singles, σ ≠ τ →
      ∀ r r', σ.owns ns r = true → τ.owns ns r' = true →
        ∀ text, applyRename (applyRename text r) r' = applyRename (applyRename text r') r := by
    intro σ hσ τ hτ hne r r' hr hr'
    exact hseparable.applyRename_comm hns hσ hτ hne (Symbols.mem_renames_iff.1 (Symbols.owns_iff.1 hr))
      (Symbols.mem_renames_iff.1 (Symbols.owns_iff.1 hr'))
  rw [substitute_eq_foldl, substitute_eq_foldl]
  exact foldl_eq_of_groups hcover hgroups hcomm text

/-- A class, two functions and a name of the runtime in two orders. -/
theorem substitute_eq_of_same_symbols_widget :
    let ns : Namespace := ⟨"Lib".toList, "Functions".toList⟩
    let first : List Symbols := [.globals ["Exception".toList], .classLike "Widget".toList,
      .functions "util".toList ["greet".toList, "farewell".toList]]
    let second : List Symbols := [.functions "util".toList ["farewell".toList],
      .globals ["Exception".toList, "Exception".toList], .functions "util".toList ["greet".toList],
      .classLike "Widget".toList]
    (ns.Accepted ∧ (∀ σ, σ ∈ first.flatMap Symbols.singles ↔ σ ∈ second.flatMap Symbols.singles) ∧
      Symbols.Separable (first.flatMap Symbols.singles)) ∧
    (ofSymbols ns first).substitute "function greet() { throw new Exception(farewell()); }".toList =
      (ofSymbols ns second).substitute "function greet() { throw new Exception(farewell()); }".toList := by
  intro ns first second
  have hns : ns.Accepted := ⟨by decide, by decide⟩
  have hfirst : first.flatMap Symbols.singles = [.globals ["Exception".toList],
      .classLike "Widget".toList, .functions "util".toList ["greet".toList],
      .functions "util".toList ["farewell".toList]] := rfl
  have hsecond : second.flatMap Symbols.singles = [.functions "util".toList ["farewell".toList],
      .globals ["Exception".toList], .globals ["Exception".toList],
      .functions "util".toList ["greet".toList], .classLike "Widget".toList] := rfl
  have hsame : ∀ σ, σ ∈ first.flatMap Symbols.singles ↔ σ ∈ second.flatMap Symbols.singles := by
    intro σ
    rw [hfirst, hsecond]
    simp only [List.mem_cons, List.not_mem_nil, or_false]
    tauto
  have hstatic : ∀ σ ∈ first.flatMap Symbols.singles, ∀ n ∈ σ.names, ¬ "static".toList <:+ n := by
    rw [hfirst]
    decide
  have hfunction : ∀ σ ∈ first.flatMap Symbols.singles, ∀ n ∈ σ.names, ¬ "function".toList <:+ n := by
    rw [hfirst]
    decide
  have hseparable : Symbols.Separable (first.flatMap Symbols.singles) := by
    refine ⟨?_, ?_, ?_, fun σ hσ n hn => ⟨hstatic σ hσ n hn, hfunction σ hσ n hn⟩⟩
    · rw [hfirst]
      decide
    · intro c names hc
      rw [hfirst] at hc
      simp only [List.mem_cons, List.not_mem_nil, or_false, Symbols.functions.injEq, reduceCtorEq,
        false_or] at hc
      rcases hc with ⟨rfl, -⟩ | ⟨rfl, -⟩ <;> decide
    · rw [hfirst]
      decide
  exact ⟨⟨hns, hsame, hseparable⟩, substitute_eq_of_same_symbols ns hns first second hsame hseparable _⟩

end RenameTable

end Namespacing
