import Namespacing.Proofs.RenameTable.Resolution
import Namespacing.Proofs.RenameTable.Windows
set_option autoImplicit false

namespace Namespacing

open Text

theorem ClassKind.spelling_injective {kind kind' : ClassKind} (h : kind.spelling = kind'.spelling) :
    kind = kind' := by
  revert h
  cases kind <;> cases kind' <;> decide

theorem ClassKind.spelling_ne_function (kind : ClassKind) : kind.spelling ≠ "function".toList := by
  cases kind <;> decide

theorem classDeclaration_inj {ns : Namespace} {kind kind' : ClassKind} {n n' s s' : Text}
    (hn : isIdentifier n = true) (hn' : isIdentifier n' = true) (hs : s ≠ [] ∧ IsMarks s)
    (hs' : s' ≠ [] ∧ IsMarks s')
    (h : kind.spelling ++ ' ' :: ns.qualifyClass n ++ s = kind'.spelling ++ ' ' :: ns.qualifyClass n' ++ s') :
    kind = kind' ∧ n = n' ∧ s = s' := by
  have hblank : isRunChar ' ' = false := by decide
  simp only [List.append_assoc, List.cons_append] at h
  obtain ⟨hkind, -, hrest⟩ := run_mark_inj kind.isRun_spelling kind'.isRun_spelling hblank hblank h
  have hbare : n ++ s = n' ++ s' := by simpa [Namespace.qualifyClass] using hrest
  obtain ⟨rfl, rfl⟩ := run_marks_inj (isRun_of_isIdentifier hn) (isRun_of_isIdentifier hn') hs.2 hs'.2
    hs.1 hs'.1 hbare
  exact ⟨ClassKind.spelling_injective hkind, rfl, rfl⟩

theorem functionDeclaration_inj {ns : Namespace} {c c' n n' s s' : Text} (hc : isIdentifier c = true)
    (hc' : isIdentifier c' = true) (hn : isIdentifier n = true) (hn' : isIdentifier n' = true)
    (hs : s ≠ [] ∧ IsMarks s) (hs' : s' ≠ [] ∧ IsMarks s')
    (h : "function ".toList ++ ns.qualifyFunction c n ++ s = "function ".toList ++ ns.qualifyFunction c' n' ++ s') :
    c = c' ∧ n = n' ∧ s = s' := by
  have hcolon : isRunChar ':' = false := by decide
  have hqualified : c ++ ':' :: (':' :: (n ++ s)) = c' ++ ':' :: (':' :: (n' ++ s')) := by
    simpa [Namespace.qualifyFunction] using h
  obtain ⟨rfl, -, hrest⟩ := run_mark_inj (isRun_of_isIdentifier hc) (isRun_of_isIdentifier hc') hcolon
    hcolon hqualified
  obtain ⟨rfl, rfl⟩ := run_marks_inj (isRun_of_isIdentifier hn) (isRun_of_isIdentifier hn') hs.2 hs'.2
    hs.1 hs'.1 (List.cons.inj hrest).2
  exact ⟨rfl, rfl, rfl⟩

namespace Namespace

variable {ns : Namespace} {c c' n : Text}

theorem qualifyClass_ne_global : ns.qualifyClass n ≠ '\\' :: n := by
  intro h
  have := congrArg List.length h
  simp only [qualifyClass, List.cons_append, List.length_cons, List.length_append] at this
  omega

theorem qualifyFunction_ne_global : ns.qualifyFunction c n ≠ '\\' :: n := by
  intro h
  have := congrArg List.length h
  simp only [qualifyFunction, List.cons_append, List.length_cons, List.length_append] at this
  have hcolons : "::".toList.length = 2 := rfl
  omega

theorem qualifyFunction_ne_qualifyClass : ns.qualifyFunction c n ≠ ns.qualifyClass n := by
  intro h
  have := congrArg List.length h
  simp only [qualifyFunction, qualifyClass, functionsRoot, List.cons_append, List.length_cons,
    List.length_append] at this
  have hcolons : "::".toList.length = 2 := rfl
  omega

theorem qualifyFunction_container_inj (h : ns.qualifyFunction c n = ns.qualifyFunction c' n) : c = c' := by
  simpa [qualifyFunction] using h

end Namespace

namespace Symbols

variable {ns : Namespace} {σ : Symbols} {n s : Text}

theorem eq_classLike_of_form? (h : σ.form? ns n s = some (ns.qualifyClass n)) :
    σ = .classLike n ∧ s ∈ Frame.behindClass := by
  obtain ⟨behind, hgives, hs⟩ := form?_eq_some_iff.1 h
  generalize hq : ns.qualifyClass n = q at hgives
  cases hgives with
  | global => exact absurd hq Namespace.qualifyClass_ne_global
  | classLike => exact ⟨rfl, hs⟩
  | function => exact absurd hq.symm Namespace.qualifyFunction_ne_qualifyClass

theorem eq_functions_of_form? {c : Text} (h : σ.form? ns n s = some (ns.qualifyFunction c n)) :
    ∃ names, σ = .functions c names ∧ n ∈ names ∧ s ∈ Frame.behindFunction := by
  obtain ⟨behind, hgives, hs⟩ := form?_eq_some_iff.1 h
  generalize hq : ns.qualifyFunction c n = q at hgives
  cases hgives with
  | global => exact absurd hq Namespace.qualifyFunction_ne_global
  | classLike => exact absurd hq Namespace.qualifyFunction_ne_qualifyClass
  | @function c' names _ hn =>
    obtain rfl := Namespace.qualifyFunction_container_inj hq
    exact ⟨names, rfl, hn, hs⟩

/-- Renames that frame a name in turn with each mark behind it, with its declarations after each turn. -/
theorem precedes_framed {behind : List Text} {declarations : Text → List Rename} {p m q second : Text}
    (hp : p ∈ Frame.before) (hframed : ∀ p ∈ Frame.before, ∀ t, p ++ t ≠ second)
    (hdeclared : ∀ s' ∈ behind, second ∈ (declarations s').map Prod.fst → m = n ∧ s' = s) :
    Precedes (p ++ n ++ s) second
      ((behind.flatMap fun s' => Frame.renames m q s' ++ declarations s').map Prod.fst) := by
  apply precedes_flatMap
  intro s' hs'
  rw [List.map_append]
  have hnot : second ∉ (Frame.renames m q s').map Prod.fst := by
    intro hmem
    simp only [Frame.renames, List.map_map, List.mem_map, Function.comp_apply] at hmem
    obtain ⟨p', hp', hkey⟩ := hmem
    exact hframed p' hp' _ (by rw [← hkey, List.append_assoc])
  by_cases hmem : second ∈ (declarations s').map Prod.fst
  · obtain ⟨rfl, rfl⟩ := hdeclared s' hs' hmem
    refine precedes_append_of_mem _ ?_ hnot
    exact List.mem_map.2 ⟨_, List.mem_map.2 ⟨p, hp, rfl⟩, rfl⟩
  · refine precedes_of_not_mem fun h => ?_
    rcases List.mem_append.1 h with h | h
    · exact hnot h
    · exact hmem h

theorem mem_classDeclarations {q second : Text} (h : second ∈ (classDeclarations n q s).map Prod.fst) :
    ∃ kind : ClassKind, second = kind.spelling ++ ' ' :: q ++ s := by
  simp only [classDeclarations, List.map_map, List.mem_map, Function.comp_apply] at h
  obtain ⟨kind, -, rfl⟩ := h
  exact ⟨kind, rfl⟩

theorem function_ne_classDeclaration {kind : ClassKind} {q q' t t' : Text} :
    "function ".toList ++ q ++ t ≠ kind.spelling ++ ' ' :: q' ++ t' := by
  have hblank : isRunChar ' ' = false := by decide
  have hfunction : IsRun "function".toList := by decide
  intro h
  rw [List.append_assoc, List.append_assoc] at h
  exact kind.spelling_ne_function (run_mark_inj hfunction kind.isRun_spelling hblank hblank h).1.symm

section

variable (hnames : ∀ n ∈ σ.names, isIdentifier n = true)

include hnames

theorem Rule.of_classDeclaration {kind : ClassKind} {t : Text} (hn : isIdentifier n = true)
    (hs : s ∈ Frame.behindClass) (h : Rule ns σ (kind.spelling ++ ' ' :: ns.qualifyClass n ++ s, t)) :
    t = kind.spelling ++ ' ' :: n ++ s := by
  generalize hr : (kind.spelling ++ ' ' :: ns.qualifyClass n ++ s, t) = r at h
  cases h with
  | qualify h hp hs' =>
    obtain ⟨hkey, -⟩ := Prod.mk.inj hr
    rw [List.append_assoc, List.append_assoc] at hkey
    exact absurd hkey.symm (framed_ne_of_run hp kind.isRun_spelling)
  | @restoreClass n' kind' s' hs' =>
    obtain ⟨hkey, rfl⟩ := Prod.mk.inj hr
    obtain ⟨rfl, rfl, rfl⟩ := classDeclaration_inj hn (hnames n' (List.mem_singleton.2 rfl))
      (Frame.behindClass_marks s hs) (Frame.behindClass_marks s' hs') hkey
    rfl
  | restoreFunction h hs' =>
    exact absurd (Prod.mk.inj hr).1.symm function_ne_classDeclaration

theorem Rule.of_functionDeclaration {c t : Text} (hc : isIdentifier c = true)
    (hcontainer : ∀ c names, σ = .functions c names → isIdentifier c = true) (hn : isIdentifier n = true)
    (hs : s ∈ Frame.behindFunction) (h : Rule ns σ ("function ".toList ++ ns.qualifyFunction c n ++ s, t)) :
    t = "static function ".toList ++ n ++ s := by
  generalize hr : ("function ".toList ++ ns.qualifyFunction c n ++ s, t) = r at h
  cases h with
  | qualify h hp hs' =>
    obtain ⟨hkey, -⟩ := Prod.mk.inj hr
    have hfunction : IsRun "function".toList := by decide
    rw [List.append_assoc, List.append_assoc] at hkey
    exact absurd hkey.symm (framed_ne_of_run (t := ' ' :: _) hp hfunction)
  | restoreClass kind hs' =>
    exact absurd (Prod.mk.inj hr).1 function_ne_classDeclaration
  | @restoreFunction c' names n' s' hn' hs' =>
    obtain ⟨hkey, rfl⟩ := Prod.mk.inj hr
    obtain ⟨-, rfl, rfl⟩ := functionDeclaration_inj hc (hcontainer c' names rfl) hn (hnames n' hn')
      (Frame.behindFunction_marks s hs) (Frame.behindFunction_marks s' hs') hkey
    rfl

theorem precedes_classDeclaration {p : Text} {kind : ClassKind} (hp : p ∈ Frame.before)
    (hn : isIdentifier n = true) (hs : s ∈ Frame.behindClass) :
    Precedes (p ++ n ++ s) (kind.spelling ++ ' ' :: ns.qualifyClass n ++ s)
      ((σ.renames ns).map Prod.fst) := by
  have hframed : ∀ p ∈ Frame.before, ∀ t,
      p ++ t ≠ kind.spelling ++ ' ' :: ns.qualifyClass n ++ s := by
    intro p hp t
    rw [List.append_assoc]
    exact framed_ne_of_run hp kind.isRun_spelling
  cases σ with
  | globals names =>
    apply precedes_of_not_mem
    intro hmem
    obtain ⟨r, hr, hkey⟩ := List.mem_map.1 hmem
    cases mem_renames_iff.1 hr with
    | qualify h hp hs' => exact hframed _ hp _ (by rw [← hkey, List.append_assoc])
  | classLike m =>
    refine precedes_framed hp hframed fun s' hs' hmem => ?_
    obtain ⟨kind', hkey⟩ := mem_classDeclarations hmem
    obtain ⟨-, rfl, rfl⟩ := classDeclaration_inj hn (hnames m (List.mem_singleton.2 rfl))
      (Frame.behindClass_marks s hs) (Frame.behindClass_marks s' hs') hkey
    exact ⟨rfl, rfl⟩
  | functions c names =>
    apply precedes_flatMap
    intro m hm
    refine precedes_framed hp hframed fun s' hs' hmem => ?_
    obtain ⟨r, hr, hkey⟩ := List.mem_map.1 hmem
    obtain rfl := List.mem_singleton.1 hr
    exact absurd hkey function_ne_classDeclaration

theorem precedes_functionDeclaration {p c : Text} (hp : p ∈ Frame.before) (hc : isIdentifier c = true)
    (hcontainer : ∀ c names, σ = .functions c names → isIdentifier c = true) (hn : isIdentifier n = true)
    (hs : s ∈ Frame.behindFunction) :
    Precedes (p ++ n ++ s) ("function ".toList ++ ns.qualifyFunction c n ++ s)
      ((σ.renames ns).map Prod.fst) := by
  have hfunction : IsRun "function".toList := by decide
  have hframed : ∀ p ∈ Frame.before, ∀ t, p ++ t ≠ "function ".toList ++ ns.qualifyFunction c n ++ s := by
    intro p hp t
    rw [List.append_assoc]
    exact framed_ne_of_run (t := ' ' :: _) hp hfunction
  cases σ with
  | globals names =>
    apply precedes_of_not_mem
    intro hmem
    obtain ⟨r, hr, hkey⟩ := List.mem_map.1 hmem
    cases mem_renames_iff.1 hr with
    | qualify h hp hs' => exact hframed _ hp _ (by rw [← hkey, List.append_assoc])
  | classLike m =>
    refine precedes_framed hp hframed fun s' hs' hmem => ?_
    obtain ⟨kind, hkey⟩ := mem_classDeclarations hmem
    exact absurd hkey function_ne_classDeclaration
  | functions c' names =>
    apply precedes_flatMap
    intro m hm
    refine precedes_framed hp hframed fun s' hs' hmem => ?_
    obtain ⟨r, hr, hkey⟩ := List.mem_map.1 hmem
    obtain rfl := List.mem_singleton.1 hr
    obtain ⟨-, rfl, rfl⟩ := functionDeclaration_inj (hcontainer c' names rfl) hc (hnames m hm) hn
      (Frame.behindFunction_marks s' hs') (Frame.behindFunction_marks s hs) hkey
    exact ⟨rfl, rfl⟩

end

end Symbols

namespace RenameTable

variable {ns : Namespace} {symbols : List Symbols} {first second : Text}

/-- A literal has a replacement and stands behind another one. -/
def Follows (table : RenameTable) (first second value : Text) : Prop :=
  table.get? second = some value ∧
    ∃ i j, table.position? first = some i ∧ table.position? second = some j ∧ i < j

theorem exists_positions_of_precedes {table : RenameTable} (h : Precedes first second table.literals)
    (hmem : second ∈ table.literals) :
    ∃ i j, table.position? first = some i ∧ table.position? second = some j ∧ i < j := by
  obtain ⟨A, B, hsplit⟩ := List.append_of_mem hmem
  obtain ⟨i, hi⟩ := List.getElem?_of_mem (h A B hsplit)
  have hlt : i < A.length := (List.getElem?_eq_some_iff.1 hi).1
  refine ⟨i, A.length, position?_eq_some_iff.2 ?_, position?_eq_some_iff.2 ?_, hlt⟩
  · rw [hsplit, List.getElem?_append_left hlt, hi]
  · rw [hsplit, List.getElem?_append_right (Nat.le_refl _), Nat.sub_self]
    rfl

theorem follows_of_precedes {value : Text} {σ : Symbols} (hσ : σ ∈ symbols)
    (hrule : Symbols.Rule ns σ (second, value))
    (hvalue : ∀ σ ∈ symbols, ∀ t, Symbols.Rule ns σ (second, t) → t = value)
    (hprecedes : ∀ σ ∈ symbols, Precedes first second ((σ.renames ns).map Prod.fst)) :
    (ofSymbols ns symbols).Follows first second value := by
  have hmem : second ∈ (symbols.flatMap (Symbols.renames ns)).map Prod.fst :=
    List.mem_map.2 ⟨_, List.mem_flatMap.2 ⟨σ, hσ, Symbols.mem_renames_iff.2 hrule⟩, rfl⟩
  constructor
  · rw [get?_eq_lookup, toList_ofSymbols]
    apply lookup_foldl_upsert_of_forall hmem
    rintro ⟨literal, t⟩ hr rfl
    obtain ⟨τ, hτ, hr⟩ := List.mem_flatMap.1 hr
    exact hvalue τ hτ t (Symbols.mem_renames_iff.1 hr)
  · apply exists_positions_of_precedes
    · rw [literals, toList_ofSymbols]
      exact (precedes_flatMap _ hprecedes).foldl_upsert
    · rw [literals, toList_ofSymbols]
      exact mem_literals_foldl_upsert.2 (Or.inl hmem)

/-- A name that the table qualifies as a class of the library is made bare again behind each keyword of
its declaration, and one that it qualifies as a function is made bare, and static, where it is declared.
The renames that do so stand behind the ones that qualify. -/
theorem declarations_follow (ns : Namespace) (symbols : List Symbols)
    (hnames : ∀ σ ∈ symbols, ∀ n ∈ σ.names, isIdentifier n = true)
    (hcontainers : ∀ c names, .functions c names ∈ symbols → isIdentifier c = true) (p n s : Text)
    (hp : p ∈ Frame.before) (hn : isIdentifier n = true)
    (hs : s ∈ Frame.behindClass ∨ s ∈ Frame.behindFunction) :
    ((ofSymbols ns symbols).get? (p ++ n ++ s) = some (p ++ ns.qualifyClass n ++ s) →
      ∀ kind : ClassKind, (ofSymbols ns symbols).Follows (p ++ n ++ s)
        (kind.spelling ++ ' ' :: ns.qualifyClass n ++ s) (kind.spelling ++ ' ' :: n ++ s)) ∧
    ∀ c, (ofSymbols ns symbols).get? (p ++ n ++ s) = some (p ++ ns.qualifyFunction c n ++ s) →
      (ofSymbols ns symbols).Follows (p ++ n ++ s)
        ("function ".toList ++ ns.qualifyFunction c n ++ s) ("static function ".toList ++ n ++ s) := by
  have hgiver : ∀ q, (ofSymbols ns symbols).get? (p ++ n ++ s) = some (p ++ q ++ s) →
      ∃ σ ∈ symbols, σ.form? ns n s = some q := by
    intro q h
    rw [get?_framed hnames hp hn (Symbols.marks_of_mem hs)] at h
    obtain ⟨q', hfind, hq⟩ := Option.map_eq_some_iff.1 h
    obtain rfl : q' = q := List.append_cancel_left (List.append_cancel_right hq)
    obtain ⟨σ, hσ, hform⟩ := List.exists_of_findSome?_eq_some hfind
    exact ⟨σ, List.mem_reverse.1 hσ, hform⟩
  constructor
  · intro hget kind
    obtain ⟨σ, hσ, hform⟩ := hgiver _ hget
    obtain ⟨rfl, hs'⟩ := Symbols.eq_classLike_of_form? hform
    exact follows_of_precedes hσ (.restoreClass kind hs')
      (fun τ hτ t h => h.of_classDeclaration (hnames τ hτ) hn hs')
      (fun τ hτ => Symbols.precedes_classDeclaration (hnames τ hτ) hp hn hs')
  · intro c hget
    obtain ⟨σ, hσ, hform⟩ := hgiver _ hget
    obtain ⟨names, rfl, hmem, hs'⟩ := Symbols.eq_functions_of_form? hform
    have hc := hcontainers c names hσ
    have hcontainer : ∀ τ ∈ symbols, ∀ c names, τ = .functions c names → isIdentifier c = true :=
      fun τ hτ c names heq => hcontainers c names (heq ▸ hτ)
    exact follows_of_precedes hσ (.restoreFunction hmem hs')
      (fun τ hτ t h => h.of_functionDeclaration (hnames τ hτ) hc (hcontainer τ hτ) hn hs')
      (fun τ hτ => Symbols.precedes_functionDeclaration (hnames τ hτ) hp hc (hcontainer τ hτ) hn hs')

/-- A name of the runtime that becomes a function and then a class, and a function beside it. -/
theorem declarations_follow_widget :
    let ns : Namespace := ⟨"Lib".toList, "Functions".toList⟩
    let symbols : List Symbols := [.globals ["Widget".toList],
      .functions "u".toList ["Widget".toList, "render".toList], .classLike "Widget".toList]
    let table := ofSymbols ns symbols
    ((∀ σ ∈ symbols, ∀ n ∈ σ.names, isIdentifier n = true) ∧
      (∀ c names, .functions c names ∈ symbols → isIdentifier c = true) ∧ [' '] ∈ Frame.before ∧
      isIdentifier "Widget".toList = true ∧ isIdentifier "render".toList = true ∧
      (['('] ∈ Frame.behindClass ∨ ['('] ∈ Frame.behindFunction)) ∧
    table.get? " Widget(".toList = some " \\Lib\\Widget(".toList ∧
    (∀ kind : ClassKind, table.Follows " Widget(".toList (kind.spelling ++ " \\Lib\\Widget(".toList)
      (kind.spelling ++ " Widget(".toList)) ∧
    table.get? " render(".toList = some " \\Lib\\Functions\\u::render(".toList ∧
    table.Follows " render(".toList "function \\Lib\\Functions\\u::render(".toList
      "static function render(".toList := by
  intro ns symbols table
  have hnames : ∀ σ ∈ symbols, ∀ n ∈ σ.names, isIdentifier n = true := by decide
  have hcontainers : ∀ c names, .functions c names ∈ symbols → isIdentifier c = true := by
    intro c names h
    simp only [symbols, List.mem_cons, List.not_mem_nil, or_false, reduceCtorEq, false_or,
      Symbols.functions.injEq] at h
    rw [h.1]
    decide
  have hp : [' '] ∈ Frame.before := by decide
  have hclass : isIdentifier "Widget".toList = true := by decide
  have hfunction : isIdentifier "render".toList = true := by decide
  have hs : ['('] ∈ Frame.behindClass ∨ ['('] ∈ Frame.behindFunction := by decide
  have hgetClass : table.get? " Widget(".toList = some " \\Lib\\Widget(".toList :=
    (get?_framed hnames hp hclass (Symbols.marks_of_mem hs)).trans (by decide)
  have hgetFunction : table.get? " render(".toList = some " \\Lib\\Functions\\u::render(".toList :=
    (get?_framed hnames hp hfunction (Symbols.marks_of_mem hs)).trans (by decide)
  refine ⟨⟨hnames, hcontainers, hp, hclass, hfunction, hs⟩, hgetClass, fun kind => ?_, hgetFunction, ?_⟩
  · have hq : ∀ v, kind.spelling ++ ' ' :: v ++ ['('] = kind.spelling ++ (' ' :: (v ++ ['('])) :=
      fun v => List.append_assoc _ _ _
    have hfollows := (declarations_follow ns symbols hnames hcontainers [' '] "Widget".toList ['('] hp
      hclass hs).1 hgetClass kind
    rwa [hq, hq] at hfollows
  · exact (declarations_follow ns symbols hnames hcontainers [' '] "render".toList ['('] hp hfunction
      hs).2 "u".toList hgetFunction

end RenameTable

end Namespacing
