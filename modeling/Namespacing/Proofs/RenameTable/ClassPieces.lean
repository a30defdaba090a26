import Namespacing.Proofs.RenameTable.Entries
set_option autoImplicit false

namespace Namespacing

open Text

def IsClassKeyword (w : Text) : Prop := ∃ kind : ClassKind, w = kind.spelling

/-- The table looks for a keyword without looking at what stands before it, so it also finds the one
at the end of a longer word. -/
def EndsInClassKeyword (w : Text) : Prop := ∃ kind : ClassKind, kind.spelling <:+ w

/-- What may become of a piece between other pieces. A qualified library class becomes bare directly
behind a run that `declares`, a blank between them. -/
inductive PieceChange (ns : Namespace) (symbols : List Symbols) (declares : Text → Prop)
    (before behind : List Piece) : Piece → Piece → Prop where
  | same (piece : Piece) : PieceChange ns symbols declares before behind piece piece
  | qualified {n q : Text} (hn : ∃ σ ∈ symbols, n ∈ σ.names)
      (hform : q = '\\' :: n ∨ q = ns.qualifyClass n)
      (hstored : ∀ p ∈ Frame.before, ∀ s ∈ Frame.behindClass,
        (RenameTable.ofSymbols ns symbols).get? (p ++ n ++ s) = some (p ++ q ++ s)) :
      PieceChange ns symbols declares before behind (.run n) (.run q)
  | bared {n w s : Text} (hn : .classLike n ∈ symbols)
      (hbefore : ∃ A, before = A ++ [.run w, .mark ' ']) (hw : declares w)
      (hs : s ∈ Frame.behindClass) (hbehind : marks s <+: behind) :
      PieceChange ns symbols declares before behind (.run (ns.qualifyClass n)) (.run n)

/-- Wherever a qualified library class has a blank before it and a mark of a class name behind it, a
word that ends in the letters of a keyword is that keyword. -/
def DeclaresInKeywords (ns : Namespace) (symbols : List Symbols) (text : Text) : Prop :=
  ∀ A w n s B, cut text = A ++ .run w :: .mark ' ' :: .run (ns.qualifyClass n) :: (marks s ++ B) →
    .classLike n ∈ symbols → s ∈ Frame.behindClass → EndsInClassKeyword w → IsClassKeyword w

theorem suffix_of_not_mem {c : Char} {k z n : Text} (hc : c ∉ k) (h : k <:+ z ++ c :: n) :
    k <:+ n := by
  obtain ⟨t, ht⟩ := h
  rcases List.append_eq_append_iff.1 ht with ⟨x, rfl, hx⟩ | ⟨x, rfl, hx⟩
  · exact absurd (hx ▸ by simp) hc
  · cases x with
    | nil => exact absurd (hx ▸ List.mem_cons_self : c ∈ [] ++ k) hc
    | cons d x =>
      obtain ⟨-, rfl⟩ := List.cons.inj hx
      exact ⟨x, rfl⟩

theorem ClassKind.backslash_not_mem_spelling (kind : ClassKind) : '\\' ∉ kind.spelling := by
  cases kind <;> decide

section

variable {ns : Namespace} {symbols : List Symbols} {declares : Text → Prop}
  {before behind : List Piece}

theorem PieceChange.keyword_suffix {x : Piece} {w : Text}
    (h : PieceChange ns symbols declares before behind x (.run w))
    {kind : ClassKind} (hw : kind.spelling <:+ w) : ∃ v, x = .run v ∧ kind.spelling <:+ v := by
  cases h with
  | same => exact ⟨w, rfl, hw⟩
  | @qualified n _ hn hform hstored =>
    refine ⟨n, rfl, ?_⟩
    rcases hform with rfl | rfl
    · exact suffix_of_not_mem (z := []) kind.backslash_not_mem_spelling hw
    · exact suffix_of_not_mem kind.backslash_not_mem_spelling hw
  | bared hn hbefore hw' hs hbehind =>
    exact ⟨_, rfl, hw.trans ⟨'\\' :: ns.root ++ ['\\'], by simp [Namespace.qualifyClass]⟩⟩

theorem Namespace.qualifyClass_ne (ns : Namespace) (n : Text) : ns.qualifyClass n ≠ n := by
  intro h
  have hlen := congrArg List.length h
  simp only [Namespace.qualifyClass, List.cons_append, List.length_cons, List.length_append] at hlen
  omega

theorem PieceChange.exists_declares {n : Text}
    (hnames : ∀ σ ∈ symbols, ∀ n ∈ σ.names, isIdentifier n = true)
    (h : PieceChange ns symbols declares before behind (.run (ns.qualifyClass n)) (.run n)) :
    ∃ A w, before = A ++ [.run w, .mark ' '] ∧ declares w := by
  generalize hq : ns.qualifyClass n = q at h
  cases h with
  | same => exact absurd hq (ns.qualifyClass_ne n)
  | qualified hn =>
    obtain ⟨σ, hσ, hmem⟩ := hn
    refine absurd ?_ (backslash_not_mem (hnames σ hσ q hmem))
    simp [← hq, Namespace.qualifyClass]
  | bared hn hbefore hw =>
    obtain ⟨A, hA⟩ := hbefore
    exact ⟨A, _, hA, hw⟩

theorem PieceChange.eq_mark {x : Piece} {c : Char}
    (h : PieceChange ns symbols declares before behind x (.mark c)) : x = .mark c := by
  cases h
  rfl

theorem precedes_restoreClass (hroot : Settings.isRoot ns.root = true)
    (hnames : ∀ σ ∈ symbols, ∀ n ∈ σ.names, isIdentifier n = true) {n s : Text}
    (hn : isIdentifier n = true) (hs : s ∈ Frame.behindClass) (kind : ClassKind) :
    Precedes (' ' :: n ++ s) (kind.spelling ++ ' ' :: ns.qualifyClass n ++ s)
      (RenameTable.ofSymbols ns symbols).literals := by
  have hblank : isRunChar ' ' = false := by decide
  have hkind := kind.isRun_spelling
  have hframed : ∀ p ∈ Frame.before, ∀ t,
      p ++ t ≠ kind.spelling ++ ' ' :: ns.qualifyClass n ++ s := by
    intro p hp t
    rw [List.append_assoc]
    exact framed_ne_of_run hp hkind
  rw [RenameTable.literals, RenameTable.toList_ofSymbols]
  apply Precedes.foldl_upsert
  apply precedes_flatMap
  intro σ hσ
  cases σ with
  | globals names =>
    apply precedes_of_not_mem
    intro hmem
    obtain ⟨r, hr, hkey⟩ := List.mem_map.1 hmem
    cases Symbols.mem_renames_iff.1 hr with
    | qualify h hp hs' => exact hframed _ hp _ (by rw [← hkey, List.append_assoc])
  | functions container names =>
    apply precedes_of_not_mem
    intro hmem
    obtain ⟨r, hr, hkey⟩ := List.mem_map.1 hmem
    cases Symbols.mem_renames_iff.1 hr with
    | qualify h hp hs' => exact hframed _ hp _ (by rw [← hkey, List.append_assoc])
    | restoreFunction h hs' =>
      have hfunction : IsRun "function".toList := by decide
      rw [List.append_assoc] at hkey
      have := (run_mark_inj hfunction hkind hblank hblank hkey).1
      revert this
      cases kind <;> decide
  | classLike m =>
    have hm : isIdentifier m = true := hnames _ hσ m (List.mem_singleton.2 rfl)
    apply precedes_flatMap
    intro s' hs'
    rw [List.map_append]
    have hnot : kind.spelling ++ ' ' :: ns.qualifyClass n ++ s ∉
        (Frame.renames m (ns.qualifyClass m) s').map Prod.fst := by
      intro hmem
      simp only [Frame.renames, List.map_map, List.mem_map, Function.comp_apply] at hmem
      obtain ⟨p, hp, hkey⟩ := hmem
      exact hframed p hp _ (by rw [← hkey, List.append_assoc])
    by_cases hsame : m = n ∧ s' = s
    · obtain ⟨rfl, rfl⟩ := hsame
      refine precedes_append_of_mem _ ?_ hnot
      refine List.mem_map.2 ⟨_, List.mem_map.2 ⟨[' '], by decide, rfl⟩, rfl⟩
    · apply precedes_of_not_mem
      intro hmem
      rcases List.mem_append.1 hmem with hmem | hmem
      · exact hnot hmem
      · simp only [Symbols.classDeclarations, List.map_map, List.mem_map, Function.comp_apply,
          List.append_assoc, List.cons_append] at hmem
        obtain ⟨kind', -, hkey⟩ := hmem
        have hrest := (run_mark_inj kind'.isRun_spelling hkind hblank hblank hkey).2.2
        have hms := Frame.behindClass_marks s hs
        have hms' := Frame.behindClass_marks s' hs'
        obtain ⟨hq, rfl⟩ := run_marks_inj (Namespace.isRun_qualifyClass hroot hm)
          (Namespace.isRun_qualifyClass hroot hn) hms'.2 hms.2 hms'.1 hms.1 hrest
        exact hsame ⟨Namespace.qualifyClass_injective hq, rfl⟩

/-- The pieces of a text and of what it has become so far. A name that was made bare is not qualified
again: what would do so is no longer pending. -/
structure Tracks (ns : Namespace) (symbols : List Symbols) (pending : List Rename)
    (text current : Text) : Prop where
  length : (cut current).length = (cut text).length
  change : ∀ i x y, (cut text)[i]? = some x → (cut current)[i]? = some y →
    PieceChange ns symbols EndsInClassKeyword ((cut text).take i) ((cut text).drop (i + 1)) x y
  settled : ∀ i n s, (cut text)[i]? = some (.run (ns.qualifyClass n)) →
    (cut current)[i]? = some (.run n) → s ∈ Frame.behindClass →
    marks s <+: (cut text).drop (i + 1) → ' ' :: n ++ s ∉ pending.map Prod.fst

section

variable {ns : Namespace} {symbols : List Symbols} {pending : List Rename} {text current : Text}

theorem Tracks.refl : Tracks ns symbols pending text text where
  length := rfl
  change i x y hx hy := by
    rw [hx] at hy
    obtain rfl := Option.some.inj hy
    exact .same x
  settled i n s hx hy := by
    rw [hx] at hy
    exact absurd (Piece.run.inj (Option.some.inj hy)) (ns.qualifyClass_ne n)

theorem Tracks.exists_piece (h : Tracks ns symbols pending text current) {i : Nat} {y : Piece}
    (hy : (cut current)[i]? = some y) :
    ∃ x, (cut text)[i]? = some x ∧
      PieceChange ns symbols EndsInClassKeyword ((cut text).take i) ((cut text).drop (i + 1)) x y := by
  obtain ⟨hi, -⟩ := List.getElem?_eq_some_iff.1 hy
  rw [h.length] at hi
  exact ⟨_, List.getElem?_eq_getElem hi, h.change i _ y (List.getElem?_eq_getElem hi) hy⟩

theorem Tracks.mark (h : Tracks ns symbols pending text current) {i : Nat} {c : Char}
    (hy : (cut current)[i]? = some (.mark c)) : (cut text)[i]? = some (.mark c) := by
  obtain ⟨x, hx, hchange⟩ := h.exists_piece hy
  rw [hx, hchange.eq_mark]

theorem Tracks.marks_prefix (h : Tracks ns symbols pending text current) {i : Nat} {s : Text}
    (hs : marks s <+: (cut current).drop i) : marks s <+: (cut text).drop i := by
  rw [List.prefix_iff_getElem?] at hs ⊢
  intro j hj
  have hj' : j < s.length := by simpa [marks] using hj
  have := hs j hj
  rw [List.getElem?_drop] at this ⊢
  have hmark : (marks s)[j] = .mark s[j] := by simp [marks]
  rw [hmark] at this ⊢
  exact h.mark this

theorem Tracks.weaken {r : Rename} (h : Tracks ns symbols (r :: pending) text current) :
    Tracks ns symbols pending text current where
  length := h.length
  change := h.change
  settled i n s hx hy hs hmarks hmem :=
    h.settled i n s hx hy hs hmarks (List.mem_cons_of_mem _ hmem)

theorem Tracks.set {next : Text} (h : Tracks ns symbols pending text current) {i : Nat} {y : Piece}
    (hcut : cut next = (cut current).set i y)
    (hchange : ∀ x, (cut text)[i]? = some x →
      PieceChange ns symbols EndsInClassKeyword ((cut text).take i) ((cut text).drop (i + 1)) x y)
    (hsettled : ∀ n s, (cut text)[i]? = some (.run (ns.qualifyClass n)) → y = .run n →
      s ∈ Frame.behindClass → marks s <+: (cut text).drop (i + 1) →
      ' ' :: n ++ s ∉ pending.map Prod.fst) :
    Tracks ns symbols pending text next where
  length := by rw [hcut, List.length_set, h.length]
  change j x z hx hz := by
    rw [hcut, List.getElem?_set] at hz
    by_cases hij : i = j
    · subst hij
      rw [if_pos rfl] at hz
      split at hz
      · obtain rfl := Option.some.inj hz
        exact hchange x hx
      · cases hz
    · rw [if_neg hij] at hz
      exact h.change j x z hx hz
  settled j n s hx hz hs hmarks := by
    rw [hcut, List.getElem?_set] at hz
    by_cases hij : i = j
    · subst hij
      rw [if_pos rfl] at hz
      split at hz
      · exact hsettled n s hx (Option.some.inj hz) hs hmarks
      · cases hz
    · rw [if_neg hij] at hz
      exact h.settled j n s hx hz hs hmarks

theorem getElem?_of_take_eq {pieces A : List Piece} {i : Nat} {x y z : Piece}
    (hx : pieces[i + 1]? = some x) (h : pieces.take (i + 1) = A ++ [y, z]) :
    pieces[i]? = some z := by
  have hi := (List.getElem?_eq_some_iff.1 hx).1
  have hlen := congrArg List.length h
  simp only [List.length_take, List.length_append, List.length_cons, List.length_nil] at hlen
  have hz : (pieces.take (i + 1))[i]? = some z := by
    obtain rfl : i = A.length + 1 := by omega
    rw [h]
    simp
  rwa [List.getElem?_take_of_lt (by omega)] at hz

theorem Tracks.run_of_pending {A B : List Piece} {m : Char} {n s : Text}
    (h : Tracks ns symbols pending text current)
    (hcut : cut current = A ++ .mark m :: .run n :: (marks s ++ B)) (hn : isIdentifier n = true)
    (hs : s ∈ Frame.behindClass) (hpending : m :: n ++ s ∈ pending.map Prod.fst) :
    (cut text)[A.length + 1]? = some (.run n) := by
  have hrun : (cut current)[A.length + 1]? = some (.run n) := by rw [hcut]; simp
  obtain ⟨x, hx, hchange⟩ := h.exists_piece hrun
  rw [hx]
  cases hchange with
  | same => rfl
  | qualified _ hform _ =>
    refine absurd ?_ (backslash_not_mem hn)
    rcases hform with rfl | rfl <;> simp [Namespace.qualifyClass]
  | bared _ hbefore _ _ _ =>
    obtain ⟨A', hA'⟩ := hbefore
    have hmark : (cut text)[A.length]? = some (.mark m) := h.mark (by rw [hcut]; simp)
    rw [getElem?_of_take_eq hx hA', Option.some.injEq, Piece.mark.injEq] at hmark
    subst hmark
    have hfollow : marks s <+: (cut text).drop (A.length + 1 + 1) := by
      apply h.marks_prefix
      rw [hcut]
      simp [Nat.add_assoc]
    exact absurd hpending (h.settled _ n s hx hrun hs hfollow)

theorem Tracks.qualify {a b p n q s : Text}
    (h : Tracks ns symbols pending text (a ++ (p ++ n ++ s) ++ b))
    (hroot : Settings.isRoot ns.root = true)
    (hnames : ∀ σ ∈ symbols, ∀ n ∈ σ.names, isIdentifier n = true) (hp : p ∈ Frame.before)
    (hs : s ∈ Frame.behindClass) (hn : ∃ σ ∈ symbols, n ∈ σ.names)
    (hform : q = '\\' :: n ∨ q = ns.qualifyClass n)
    (hstored : ∀ p ∈ Frame.before, ∀ s ∈ Frame.behindClass,
      (RenameTable.ofSymbols ns symbols).get? (p ++ n ++ s) = some (p ++ q ++ s))
    (hpending : p ++ n ++ s ∈ pending.map Prod.fst) :
    Tracks ns symbols pending text (a ++ (p ++ q ++ s) ++ b) := by
  obtain ⟨m, rfl, hm, -⟩ := Frame.exists_mark hp
  obtain ⟨hne, hmarks⟩ := Frame.behindClass_marks s hs
  have hid : isIdentifier n = true := hn.elim fun σ hσ => hnames σ hσ.1 n hσ.2
  have hq : IsRun q := by
    rcases hform with rfl | rfl
    · exact (isRun_of_isIdentifier hid).backslash_cons
    · exact Namespace.isRun_qualifyClass hroot hid
  have hcut : ∀ r, IsRun r → cut (a ++ ([m] ++ r ++ s) ++ b) =
      cut a ++ .mark m :: .run r :: (marks s ++ cut b) := by
    intro r hr
    rw [← cut_framed a hm hr hmarks hne]
    simp
  have hold := hcut n (isRun_of_isIdentifier hid)
  have hrun := h.run_of_pending hold hid hs hpending
  apply h.set (i := (cut a).length + 1) (y := .run q)
  · rw [hcut q hq, hold]
    simp
  · intro x hx
    rw [hrun] at hx
    obtain rfl := Option.some.inj hx
    exact .qualified hn hform hstored
  · intro n' s' hx
    rw [hrun, Option.some.injEq, Piece.run.injEq] at hx
    refine absurd ?_ (backslash_not_mem hid)
    simp [hx, Namespace.qualifyClass]

theorem Tracks.restore {a b n s : Text} {kind : ClassKind}
    (h : Tracks ns symbols pending text
      (a ++ (kind.spelling ++ ' ' :: ns.qualifyClass n ++ s) ++ b))
    (hroot : Settings.isRoot ns.root = true)
    (hnames : ∀ σ ∈ symbols, ∀ n ∈ σ.names, isIdentifier n = true)
    (hs : s ∈ Frame.behindClass) (hn : .classLike n ∈ symbols)
    (hpending : ' ' :: n ++ s ∉ pending.map Prod.fst) :
    Tracks ns symbols pending text (a ++ (kind.spelling ++ ' ' :: n ++ s) ++ b) := by
  obtain ⟨hne, hmarks⟩ := Frame.behindClass_marks s hs
  have hid : ∀ {m}, .classLike m ∈ symbols → isIdentifier m = true :=
    fun hm => hnames _ hm _ (List.mem_singleton.2 rfl)
  obtain ⟨A, w, -, -, hA⟩ := exists_cut_append_run a
  have hcut : ∀ r, IsRun r → cut (a ++ (kind.spelling ++ ' ' :: r ++ s) ++ b) =
      A ++ .run (w ++ kind.spelling) :: .mark ' ' :: .run r :: (marks s ++ cut b) := by
    intro r hr
    have := cut_framed (a ++ kind.spelling) (m := ' ') (by decide) hr hmarks hne b
    rw [hA _ kind.isRun_spelling] at this
    simpa using this
  have hold := hcut _ (Namespace.isRun_qualifyClass hroot (hid hn))
  have hfollow : marks s <+: (cut text).drop (A.length + 2 + 1) := by
    apply h.marks_prefix
    rw [hold]
    simp [Nat.add_assoc]
  apply h.set (i := A.length + 2) (y := .run n)
  · rw [hcut n (isRun_of_isIdentifier (hid hn)), hold]
    simp
  · intro x hx
    have hchange := h.change _ x (.run (ns.qualifyClass n)) hx (by rw [hold]; simp)
    cases hchange with
    | same =>
      -- The keyword was at the end of the run before from the start.
      obtain ⟨y, hy, hkeyword⟩ :=
        h.exists_piece (i := A.length) (y := .run (w ++ kind.spelling)) (by rw [hold]; simp)
      obtain ⟨v, rfl, hv⟩ := hkeyword.keyword_suffix ⟨w, rfl⟩
      have hblank : (cut text)[A.length + 1]? = some (.mark ' ') := h.mark (by rw [hold]; simp)
      refine .bared hn ⟨(cut text).take A.length, ?_⟩ ⟨kind, hv⟩ hs hfollow
      rw [List.take_add_one, List.take_add_one, hy, hblank]
      simp
    | @qualified n' _ hn' hform _ =>
      have hid' : isIdentifier n' = true := hn'.elim fun σ hσ => hnames σ hσ.1 n' hσ.2
      rcases hform with hform | hform
      · refine absurd ?_ (backslash_not_mem hid')
        have : '\\' :: (ns.root ++ '\\' :: n) = '\\' :: n' := hform
        rw [← (List.cons.inj this).2]
        simp
      · rw [Namespace.qualifyClass_injective hform]
        exact .same _
    | bared hn' _ _ _ _ =>
      refine absurd ?_ (backslash_not_mem (hid hn'))
      simp [Namespace.qualifyClass]
  · intro n' s' _ hrun hs' hfollow'
    obtain rfl := Piece.run.inj hrun
    have hss : s' = s := by
      rcases List.prefix_or_prefix_of_prefix hfollow' hfollow with hpre | hpre
      · exact Frame.behindClass_prefix s' hs' s hs (marks_prefix_iff.1 hpre)
      · exact (Frame.behindClass_prefix s hs s' hs' (marks_prefix_iff.1 hpre)).symm
    rwa [hss]

end

end

def Symbols.AreClasses : Symbols → Prop
  | .functions .. => False
  | _ => True

theorem exists_stored_form {ns : Namespace} {symbols : List Symbols}
    (hclasses : ∀ σ ∈ symbols, σ.AreClasses)
    (hnames : ∀ σ ∈ symbols, ∀ n ∈ σ.names, isIdentifier n = true) {n : Text}
    (hn : ∃ σ ∈ symbols, n ∈ σ.names) :
    ∃ q, (q = '\\' :: n ∨ q = ns.qualifyClass n) ∧ ∀ p ∈ Frame.before, ∀ s ∈ Frame.behindClass,
      (RenameTable.ofSymbols ns symbols).get? (p ++ n ++ s) = some (p ++ q ++ s) := by
  obtain ⟨X, σ, Y, rfl, hσ, hlast⟩ := Symbols.exists_last hn
  cases σ with
  | globals names =>
    refine ⟨'\\' :: n, Or.inl rfl, fun p hp s hs => ?_⟩
    exact RenameTable.get?_ofSymbols_of_last (.global hσ) hp hs hlast hnames
  | classLike m =>
    obtain rfl := List.mem_singleton.1 hσ
    refine ⟨ns.qualifyClass n, Or.inr rfl, fun p hp s hs => ?_⟩
    exact RenameTable.get?_ofSymbols_of_last .classLike hp hs hlast hnames
  | functions container names => exact absurd (hclasses (.functions container names) (by simp)) id

theorem RenameTable.snd_eq_of_get? {table : RenameTable} {r : Rename} {t : Text}
    (hr : r ∈ table.toList) (h : table.get? r.1 = some t) : r.2 = t := by
  rw [get?_eq_lookup, lookup_eq_of_mem table.nodup_literals hr] at h
  exact Option.some.inj h

theorem ne_nil_of_rule {ns : Namespace} {σ : Symbols} {r : Rename} (h : Symbols.Rule ns σ r) :
    r.1 ≠ [] := by
  cases h with
  | qualify h hp hs => simp [(h.marks hs).1]
  | restoreClass kind hs => simp
  | restoreFunction h hs =>
    exact List.append_ne_nil_of_right_ne_nil _ (Frame.behindFunction_marks _ hs).1

/-- What a table of classes does to any text: a library class is made bare behind a word that ends in
the letters of a keyword. -/
theorem Tracks.substitute (ns : Namespace) (hroot : Settings.isRoot ns.root = true)
    (symbols : List Symbols) (hclasses : ∀ σ ∈ symbols, σ.AreClasses)
    (hnames : ∀ σ ∈ symbols, ∀ n ∈ σ.names, isIdentifier n = true) (text : Text) :
    Tracks ns symbols [] text ((RenameTable.ofSymbols ns symbols).substitute text) := by
  have hrules : ∀ r ∈ (RenameTable.ofSymbols ns symbols).toList, ∃ σ ∈ symbols,
      Symbols.Rule ns σ r := fun r hr => RenameTable.exists_rule_of_mem hr
  refine RenameTable.substitute_induction _ ?_
    (motive := fun pending current => Tracks ns symbols pending text current) ?_ ?_ ?_
  · exact fun r hr => (hrules r hr).elim fun σ hσ => ne_nil_of_rule hσ.2
  · exact Tracks.refl
  · intro earlier r later hsplit a b h
    have hr : r ∈ (RenameTable.ofSymbols ns symbols).toList := by simp [hsplit]
    obtain ⟨σ, hσ, hrule⟩ := hrules r hr
    cases hrule with
    | @qualify _ n q _ p s hgives hp hs =>
      have hn : ∃ σ ∈ symbols, n ∈ σ.names := ⟨σ, hσ, hgives.mem_names⟩
      have hs : s ∈ Frame.behindClass := by
        cases hgives with
        | global => exact hs
        | classLike => exact hs
        | function => exact absurd (hclasses _ hσ) id
      obtain ⟨q', hform, hstored⟩ := @exists_stored_form ns symbols hclasses hnames n hn
      have hvalue := RenameTable.snd_eq_of_get? hr (hstored p hp s hs)
      rw [hvalue]
      exact h.qualify hroot hnames hp hs hn hform hstored (by simp)
    | @restoreClass n kind s hs =>
      have hid : isIdentifier n = true := hnames _ hσ n (List.mem_singleton.2 rfl)
      refine h.restore hroot hnames hs hσ ?_
      -- The rename that would qualify the name again stands earlier in the table.
      have hearlier := precedes_restoreClass hroot hnames hid hs kind
        (earlier.map Prod.fst) (later.map Prod.fst) (by simp [RenameTable.literals, hsplit])
      have hnodup := (RenameTable.ofSymbols ns symbols).nodup_literals
      rw [RenameTable.literals, hsplit, List.map_append] at hnodup
      exact fun hmem => (List.nodup_append.1 hnodup).2.2 _ hearlier _ hmem rfl
    | restoreFunction h hs => exact absurd (hclasses _ hσ) id
  · exact fun r later current h => h.weaken

/-- Substituting a table of classes keeps every mark and the number of runs, if a word before a
qualified library class ends in the letters of a keyword only where it is that keyword. A run stays as
it is, or it was a bare name and gets the form that the table has for it, or it was a qualified library
class directly behind a keyword and a blank and is now bare. -/
theorem substitute_classes_pieces (ns : Namespace) (hroot : Settings.isRoot ns.root = true)
    (symbols : List Symbols) (hclasses : ∀ σ ∈ symbols, σ.AreClasses)
    (hnames : ∀ σ ∈ symbols, ∀ n ∈ σ.names, isIdentifier n = true) (text : Text)
    (hkeywords : DeclaresInKeywords ns symbols text) :
    (cut ((RenameTable.ofSymbols ns symbols).substitute text)).length = (cut text).length ∧
    ∀ i x y, (cut text)[i]? = some x →
      (cut ((RenameTable.ofSymbols ns symbols).substitute text))[i]? = some y →
      PieceChange ns symbols IsClassKeyword ((cut text).take i) ((cut text).drop (i + 1)) x y := by
  have htracks := Tracks.substitute ns hroot symbols hclasses hnames text
  refine ⟨htracks.length, fun i x y hx hy => ?_⟩
  cases htracks.change i x y hx hy with
  | same => exact .same x
  | qualified hn hform hstored => exact .qualified hn hform hstored
  | @bared n w s hn hbefore hw hs hbehind =>
    obtain ⟨A, hA⟩ := hbefore
    obtain ⟨B, hB⟩ := hbehind
    have hcut : cut text = A ++ .run w :: .mark ' ' :: .run (ns.qualifyClass n) :: (marks s ++ B) := by
      have hdrop : (cut text).drop i = .run (ns.qualifyClass n) :: (cut text).drop (i + 1) := by
        rw [List.drop_eq_getElem?_toList_append, hx]
        rfl
      rw [hB]
      calc
        cut text = (cut text).take i ++ (cut text).drop i := (List.take_append_drop i _).symm
        _ = _ := by rw [hA, hdrop]; simp
    exact .bared hn ⟨A, hA⟩ (hkeywords A w n s B hcut hn hs hw) hs ⟨B, hB⟩

/-- A library class that is declared qualified, one that is used and one that only looks alike. -/
theorem substitute_classes_pieces_widget :
    let ns : Namespace := ⟨"Lib\\Core".toList, "Functions".toList⟩
    let symbols : List Symbols := [.globals ["Exception".toList], .classLike "Widget".toList]
    let text := "class \\Lib\\Core\\Widget extends Exception \x7b new Widget(MyWidget); \x7d".toList
    (Settings.isRoot ns.root = true ∧ (∀ σ ∈ symbols, σ.AreClasses) ∧
      (∀ σ ∈ symbols, ∀ n ∈ σ.names, isIdentifier n = true) ∧ DeclaresInKeywords ns symbols text) ∧
    (cut ((RenameTable.ofSymbols ns symbols).substitute text)).length = (cut text).length ∧
    ∀ i x y, (cut text)[i]? = some x →
      (cut ((RenameTable.ofSymbols ns symbols).substitute text))[i]? = some y →
      PieceChange ns symbols IsClassKeyword ((cut text).take i) ((cut text).drop (i + 1)) x y := by
  intro ns symbols text
  have hroot : Settings.isRoot ns.root = true := by decide
  have hclasses : ∀ σ ∈ symbols, σ.AreClasses := by
    simp [symbols, Symbols.AreClasses]
  have hnames : ∀ σ ∈ symbols, ∀ n ∈ σ.names, isIdentifier n = true := by decide
  have hkeywords : DeclaresInKeywords ns symbols text := by
    intro A w n s B hcut hn _ _
    obtain rfl : n = "Widget".toList := by simpa [symbols] using hn
    have hplaces : ∀ i < (cut text).length,
        (cut text)[i + 2]? = some (.run (ns.qualifyClass "Widget".toList)) →
        (cut text)[i]? = some (.run ClassKind.plainClass.spelling) := by decide
    have hclass := hplaces A.length (by rw [hcut]; simp) (by rw [hcut]; simp)
    rw [hcut] at hclass
    exact ⟨.plainClass, by simpa using hclass⟩
  exact ⟨⟨hroot, hclasses, hnames, hkeywords⟩,
    substitute_classes_pieces ns hroot symbols hclasses hnames text hkeywords⟩

/-- A word that only ends in the letters of a keyword makes the class behind it bare, too. -/
theorem substitute_classes_bares_lookalike :
    let ns : Namespace := ⟨"Lib\\Core".toList, "Functions".toList⟩
    let symbols : List Symbols := [.classLike "Widget".toList]
    let text := "subclass \\Lib\\Core\\Widget;".toList
    (Settings.isRoot ns.root = true ∧ (∀ σ ∈ symbols, σ.AreClasses) ∧
      ∀ σ ∈ symbols, ∀ n ∈ σ.names, isIdentifier n = true) ∧
    (RenameTable.ofSymbols ns symbols).substitute text = "subclass Widget;".toList ∧
    ¬ ((cut ((RenameTable.ofSymbols ns symbols).substitute text)).length = (cut text).length ∧
      ∀ i x y, (cut text)[i]? = some x →
        (cut ((RenameTable.ofSymbols ns symbols).substitute text))[i]? = some y →
        PieceChange ns symbols IsClassKeyword ((cut text).take i) ((cut text).drop (i + 1)) x y) := by
  intro ns symbols text
  have hresult : (RenameTable.ofSymbols ns symbols).substitute text = "subclass Widget;".toList := by
    rw [RenameTable.substitute_eq_foldl, RenameTable.toList_ofSymbols]
    decide +kernel
  have hclasses : ∀ σ ∈ symbols, σ.AreClasses := by
    simp [symbols, Symbols.AreClasses]
  have hnames : ∀ σ ∈ symbols, ∀ n ∈ σ.names, isIdentifier n = true := by decide
  refine ⟨⟨by decide, hclasses, hnames⟩, hresult, fun hpieces => ?_⟩
  have hchange := hpieces.2 2 (.run (ns.qualifyClass "Widget".toList)) (.run "Widget".toList)
    (by decide) (by rw [hresult]; decide)
  obtain ⟨A, w, hbefore, kind, rfl⟩ := hchange.exists_declares hnames
  have htake : (cut text).take 2 = [] ++ [.run "subclass".toList, .mark ' '] := by decide
  have hkeyword := (List.append_inj' (htake.symm.trans hbefore) rfl).2
  revert hkeyword
  cases kind <;> decide

end Namespacing
