import Namespacing.Proofs.Text.Commutation
import Namespacing.Proofs.RenameTable.Windows
set_option autoImplicit false

/-!
# Renames of different names commute

Every literal of a table has one shape: a mark, with letters before it or nothing, then what may qualify
a name, the name, and the marks behind it. So a literal with one name never reaches across the place that
a rename of another name changes. Only where a function is declared do words come in before the name; no
name that ends in one of them may stand there.
-/

namespace Namespacing

open Text

/-- What may stand between a mark and a name. -/
inductive Qualifier (ns : Namespace) : Text → Prop where
  | bare : Qualifier ns []
  | global : Qualifier ns ['\\']
  | root : Qualifier ns ('\\' :: ns.root ++ ['\\'])
  | container {c : Text} (hc : isIdentifier c = true) : Qualifier ns (ns.qualifyContainer c ++ "::".toList)

structure PlainQualifier (ns : Namespace) (z : Text) : Prop where
  run : ∀ c ∈ z, isRunChar c = true
  last : z = [] ∨ ∃ w, z = w ++ ['\\']
  short : z.length ≤ ns.root.length + 2

namespace Qualifier

variable {ns : Namespace} {z z' n n' s s' : Text}

theorem plain_or_container (hns : ns.Accepted) (hz : Qualifier ns z) :
    PlainQualifier ns z ∨ ∃ c, isIdentifier c = true ∧ z = ns.qualifyContainer c ++ "::".toList := by
  cases hz with
  | bare => exact Or.inl ⟨by simp, Or.inl rfl, by simp⟩
  | global => exact Or.inl ⟨by decide, Or.inr ⟨[], rfl⟩, by simp⟩
  | root =>
    refine Or.inl ⟨fun c hc => ?_, Or.inr ⟨_, rfl⟩, by simp⟩
    simp only [List.cons_append, List.mem_cons, List.mem_append, List.not_mem_nil, or_false] at hc
    rcases hc with rfl | hc | rfl
    · decide
    · exact Namespace.isRunChar_of_mem_root hns.root hc
    · decide
  | container hc => exact Or.inr ⟨_, hc, rfl⟩

theorem mem (hns : ns.Accepted) (hz : Qualifier ns z) {c : Char} (hc : c ∈ z) :
    isRunChar c = true ∨ c = ':' := by
  rcases hz.plain_or_container hns with hplain | ⟨d, hd, rfl⟩
  · exact Or.inl (hplain.run c hc)
  · rcases List.mem_append.1 hc with hc | hc
    · exact Or.inl ((Namespace.isRun_qualifyContainer hns hd).2 c hc)
    · exact Or.inr (by simpa using hc)

theorem exists_last (hns : ns.Accepted) (hz : Qualifier ns z) {m : Char} (hm : isRunChar m = false) :
    ∃ w d, m :: z = w ++ [d] ∧ isWordChar d = false := by
  rcases hz.plain_or_container hns with ⟨-, rfl | ⟨w, rfl⟩, -⟩ | ⟨d, hd, rfl⟩
  · refine ⟨[], m, rfl, ?_⟩
    rw [Bool.eq_false_iff]
    intro hword
    rw [isRunChar_of_isWordChar hword] at hm
    cases hm
  · exact ⟨m :: w, '\\', rfl, by decide⟩
  · exact ⟨m :: ns.qualifyContainer d ++ [':'], ':', by simp, by decide⟩

theorem exists_head (hz : Qualifier ns z) (hn : isIdentifier n = true) (t : Text) :
    ∃ d r, z ++ n ++ t = d :: r ∧ isRunChar d = true := by
  cases hz with
  | bare =>
    obtain ⟨d, n, rfl⟩ := List.exists_cons_of_ne_nil (ne_nil_of_isIdentifier hn)
    exact ⟨d, n ++ t, rfl, (isRun_of_isIdentifier hn).2 d List.mem_cons_self⟩
  | global => exact ⟨'\\', n ++ t, rfl, by decide⟩
  | root => exact ⟨'\\', _, rfl, by decide⟩
  | container hc => exact ⟨'\\', _, rfl, by decide⟩

end Qualifier

theorem eq_of_last_backslash {z z' n n' : Text} (hz : z = [] ∨ ∃ w, z = w ++ ['\\'])
    (hz' : z' = [] ∨ ∃ w, z' = w ++ ['\\']) (hn : '\\' ∉ n) (hn' : '\\' ∉ n') (h : z ++ n = z' ++ n') :
    z = z' ∧ n = n' := by
  have hlast : ∀ {u v x : Text}, (u = [] ∨ ∃ w, u = w ++ ['\\']) → u = v ++ x → '\\' ∉ x → x = [] := by
    intro u v x hu hux hx
    rcases hu with rfl | ⟨w, rfl⟩
    · exact (List.append_eq_nil_iff.1 hux.symm).2
    · rcases List.eq_nil_or_concat x with rfl | ⟨x, c, rfl⟩
      · rfl
      · rw [List.concat_eq_append, ← List.append_assoc] at hux
        obtain rfl := (List.cons.inj (List.append_inj' hux rfl).2).1
        simp at hx
  rcases List.append_eq_append_iff.1 h with ⟨x, rfl, rfl⟩ | ⟨x, rfl, rfl⟩
  · obtain rfl := hlast hz' rfl fun hmem => hn (List.mem_append_left _ hmem)
    exact ⟨by simp, by simp⟩
  · obtain rfl := hlast hz rfl fun hmem => hn' (List.mem_append_left _ hmem)
    exact ⟨by simp, by simp⟩

section

variable {ns : Namespace} (hns : ns.Accepted)

include hns

theorem PlainQualifier.append_ne_container {z n c : Text} (hz : PlainQualifier ns z)
    (hn : isIdentifier n = true) (hc : isIdentifier c = true) : z ++ n ≠ ns.qualifyContainer c := by
  intro h
  have hsplit : z ++ n = ('\\' :: ns.functionsRoot ++ ['\\']) ++ c := by
    rw [h, Namespace.qualifyContainer]
    simp
  obtain ⟨rfl, -⟩ := eq_of_last_backslash hz.last (Or.inr ⟨_, rfl⟩) (backslash_not_mem hn)
    (backslash_not_mem hc) hsplit
  have hlen := hz.short
  have hsegment := List.length_pos_iff.2 (ne_nil_of_isIdentifier hns.segment)
  simp only [Namespace.functionsRoot, List.cons_append, List.length_cons, List.length_append,
    List.length_nil] at hlen
  omega

/-- A text tells the qualifier and the name that stand in it before a mark. -/
theorem Qualifier.parts_inj {z z' n n' t t' : Text} {m m' : Char} (hz : Qualifier ns z)
    (hz' : Qualifier ns z') (hn : isIdentifier n = true) (hn' : isIdentifier n' = true)
    (hm : isRunChar m = false) (hm' : isRunChar m' = false)
    (h : z ++ n ++ m :: t = z' ++ n' ++ m' :: t') : z = z' ∧ n = n' ∧ m :: t = m' :: t' := by
  have hcolon : isRunChar ':' = false := by decide
  have hrun := isRun_of_isIdentifier hn
  have hrun' := isRun_of_isIdentifier hn'
  rcases hz.plain_or_container hns with hplain | ⟨c, hc, rfl⟩
  · have hzn := IsRun.append_left hplain.run hrun
    rcases hz'.plain_or_container hns with hplain' | ⟨c', hc', rfl⟩
    · have hzn' := IsRun.append_left hplain'.run hrun'
      obtain ⟨heq, rfl, rfl⟩ := run_mark_inj hzn hzn' hm hm' h
      obtain ⟨rfl, rfl⟩ := eq_of_last_backslash hplain.last hplain'.last (backslash_not_mem hn)
        (backslash_not_mem hn') heq
      exact ⟨rfl, rfl, rfl⟩
    · have hcontainer := Namespace.isRun_qualifyContainer hns hc'
      have hsplit : z ++ n ++ m :: t = ns.qualifyContainer c' ++ ':' :: (':' :: (n' ++ m' :: t')) := by
        simpa using h
      obtain ⟨heq, -, -⟩ := run_mark_inj hzn hcontainer hm hcolon hsplit
      exact absurd heq (hplain.append_ne_container hns hn hc')
  · have hcontainer := Namespace.isRun_qualifyContainer hns hc
    rcases hz'.plain_or_container hns with hplain' | ⟨c', hc', rfl⟩
    · have hzn' := IsRun.append_left hplain'.run hrun'
      have hsplit : ns.qualifyContainer c ++ ':' :: (':' :: (n ++ m :: t)) = z' ++ n' ++ m' :: t' := by
        simpa using h
      obtain ⟨heq, -, -⟩ := run_mark_inj hcontainer hzn' hcolon hm' hsplit
      exact absurd heq.symm (hplain'.append_ne_container hns hn' hc)
    · have hcontainer' := Namespace.isRun_qualifyContainer hns hc'
      have hsplit : ns.qualifyContainer c ++ ':' :: (':' :: (n ++ m :: t)) =
          ns.qualifyContainer c' ++ ':' :: (':' :: (n' ++ m' :: t')) := by
        simpa using h
      obtain ⟨heq, -, hrest⟩ := run_mark_inj hcontainer hcontainer' hcolon hcolon hsplit
      obtain ⟨rfl, rfl, rfl⟩ := run_mark_inj hrun hrun' hm hm' (List.cons.inj hrest).2
      rw [heq]
      exact ⟨rfl, rfl, rfl⟩

end

theorem exists_of_letters {a k x e : Text} {d : Char} (hk : ∀ c ∈ k, isWordChar c = true)
    (hd : isWordChar d = false) (h : a ++ k = x ++ [d] ++ e) : ∃ f, a = x ++ [d] ++ f ∧ e = f ++ k := by
  rcases List.append_eq_append_iff.1 h with ⟨f, hf, rfl⟩ | ⟨f, hf, he⟩
  · rcases List.eq_nil_or_concat f with rfl | ⟨f, d', rfl⟩
    · exact ⟨[], by simpa using hf.symm, rfl⟩
    · rw [List.concat_eq_append, ← List.append_assoc] at hf
      obtain rfl := (List.cons.inj (List.append_inj' hf rfl).2).1
      rw [hk d (by simp)] at hd
      cases hd
  · exact ⟨f, hf, he⟩

/-- The literals with a name. -/
inductive LiteralOf (ns : Namespace) (n : Text) : Text → Prop where
  | intro {k z s : Text} {m : Char} (hk : ∀ c ∈ k, isWordChar c = true) (hm : isRunChar m = false)
      (hcolon : m ≠ ':') (hz : Qualifier ns z) (hs : s ≠ [] ∧ IsMarks s) :
      LiteralOf ns n (k ++ m :: (z ++ n ++ s))

section

variable {ns : Namespace} {n n' p : Text} (hns : ns.Accepted) (hn : isIdentifier n = true)

include hns hn

theorem exists_behind_mark {z s b c r : Text} {m d : Char} (hz : Qualifier ns z)
    (hs : s ≠ [] ∧ IsMarks s) (hm : isRunChar m = false) (hcolon : m ≠ ':') (hd : isRunChar d = true)
    (h : z ++ n ++ s ++ b = c ++ m :: d :: r) : ∃ e, c ++ [m] = z ++ n ++ s ++ e := by
  have hnot : m ∉ z ++ n := by
    intro hmem
    rcases List.mem_append.1 hmem with hmem | hmem
    · rcases hz.mem hns hmem with hrun | hrun
      · rw [hm] at hrun
        cases hrun
      · exact hcolon hrun
    · rw [(isRun_of_isIdentifier hn).2 m hmem] at hm
      cases hm
  have hnot' : d ∉ s := by
    intro hmem
    rw [hs.2 d hmem] at hd
    cases hd
  have hsplit : z ++ n ++ s ++ b = (c ++ [m]) ++ d :: r := by rw [h]; simp
  rcases List.append_eq_append_iff.1 hsplit with ⟨e, he, -⟩ | ⟨e, he, hb⟩
  · exact ⟨e, he⟩
  · cases e with
    | nil => exact ⟨[], by simpa using he.symm⟩
    | cons d' e =>
      exfalso
      obtain ⟨rfl, -⟩ := List.cons.inj hb
      rw [List.append_assoc c] at he
      rcases List.append_eq_append_iff.1 he with ⟨x, rfl, rfl⟩ | ⟨x, hx, hxs⟩
      · exact hnot' (by simp)
      · cases x with
        | nil => exact hnot' (by rw [← (show [m] ++ d :: e = s by simpa using hxs)]; simp)
        | cons m' x =>
          obtain rfl : m = m' := (List.cons.inj hxs).1
          exact hnot (by rw [hx]; simp)

/-- A literal lies on one side of a qualifier, or its own mark is the mark of the qualifier. -/
theorem beside_or_aligned {k zk s : Text} {mk : Char} (hk : ∀ c ∈ k, isWordChar c = true)
    (hmk : isRunChar mk = false) (hcolonk : mk ≠ ':') (hzk : Qualifier ns zk) (hsk : s ≠ [] ∧ IsMarks s)
    (hn' : isIdentifier n' = true) {x z t a b : Text} {m m' : Char} (hm : isRunChar m = false) (hcolon : m ≠ ':')
    (hz : Qualifier ns z) (h : x ++ m :: (z ++ n ++ m' :: t) = a ++ (k ++ mk :: (zk ++ n' ++ s)) ++ b) :
    (∃ c, x ++ [m] = a ++ (k ++ mk :: (zk ++ n' ++ s)) ++ c) ∨
      (∃ c, n ++ m' :: t = c ++ (k ++ mk :: (zk ++ n' ++ s)) ++ b) ∨
        x = a ++ k ∧ m = mk ∧ z ++ n ++ m' :: t = zk ++ n' ++ (s ++ b) := by
  obtain ⟨ms, s, rfl⟩ := List.exists_cons_of_ne_nil hsk.1
  have hsplit : (x ++ [m]) ++ (z ++ n ++ m' :: t) = (a ++ k ++ [mk]) ++ (zk ++ n' ++ ms :: (s ++ b)) := by
    simpa using h
  rcases List.append_eq_append_iff.1 hsplit with ⟨c, hc, hrest⟩ | ⟨c, hc, hrest⟩
  · -- The literal has its mark behind the mark of the qualifier.
    rcases List.eq_nil_or_concat c with rfl | ⟨c, d, rfl⟩
    · rw [List.append_nil] at hc
      obtain ⟨hx, hmarks⟩ := List.append_inj' hc rfl
      exact Or.inr (Or.inr ⟨hx.symm, (List.cons.inj hmarks).1.symm, by simpa using hrest⟩)
    rw [List.concat_eq_append, ← List.append_assoc] at hc
    obtain ⟨hak, hd⟩ := List.append_inj' hc rfl
    obtain rfl := (List.cons.inj hd).1
    have hmk' : mk ∉ z := by
      intro hmem
      rcases hz.mem hns hmem with hrun | hrun
      · rw [hmk] at hrun
        cases hrun
      · exact hcolonk hrun
    rw [List.concat_eq_append, List.append_assoc z] at hrest
    rcases List.append_eq_append_iff.1 hrest with ⟨e, he, hbehind⟩ | ⟨e, rfl, -⟩
    · rcases List.eq_nil_or_concat e with rfl | ⟨e, d, rfl⟩
      · exact absurd (by rw [List.append_nil] at he; simp [← he]) hmk'
      rw [List.concat_eq_append, ← List.append_assoc] at he
      obtain ⟨rfl, hd⟩ := List.append_inj' he rfl
      obtain rfl := (List.cons.inj hd).1
      obtain ⟨w, d, hlast, hword⟩ := hz.exists_last hns hm
      have hxz : a ++ k = (x ++ w) ++ [d] ++ e := by
        rw [hak, List.append_assoc x w, ← hlast]
        simp
      obtain ⟨f, -, rfl⟩ := exists_of_letters hk hword hxz
      refine Or.inr (Or.inl ⟨f, ?_⟩)
      rw [hbehind]
      simp
    · exact absurd (by simp) hmk'
  · -- The literal has its mark before the mark of the qualifier.
    rcases List.eq_nil_or_concat c with rfl | ⟨c, d, rfl⟩
    · rw [List.append_nil] at hc
      obtain ⟨hx, hmarks⟩ := List.append_inj' hc rfl
      exact Or.inr (Or.inr ⟨hx, (List.cons.inj hmarks).1, by simpa using hrest.symm⟩)
    rw [List.concat_eq_append, ← List.append_assoc] at hc
    obtain ⟨hx, hd⟩ := List.append_inj' hc rfl
    obtain rfl := (List.cons.inj hd).1
    obtain ⟨d, r, hhead, hd⟩ := hz.exists_head hn (m' :: t)
    rw [hhead] at hrest
    obtain ⟨e, he⟩ := exists_behind_mark (b := b) (c := c) (r := r) hns hn' hzk hsk hm hcolon hd
      (by simpa using hrest)
    refine Or.inl ⟨e, ?_⟩
    rw [hx]
    simpa using he

theorem LiteralOf.beside (hp : LiteralOf ns n' p) (hn' : isIdentifier n' = true) (hne : n ≠ n')
    {x z t a b : Text} {m m' : Char} (hm : isRunChar m = false) (hcolon : m ≠ ':') (hz : Qualifier ns z)
    (hm' : isRunChar m' = false) (h : x ++ m :: (z ++ n ++ m' :: t) = a ++ p ++ b) :
    (∃ c, x ++ [m] = a ++ p ++ c) ∨ ∃ c, n ++ m' :: t = c ++ p ++ b := by
  obtain ⟨hk, hmk, hcolonk, hzk, hsk⟩ := hp
  rcases beside_or_aligned hns hn hk hmk hcolonk hzk hsk hn' hm hcolon hz h with hleft | hright | ⟨-, -, heq⟩
  · exact Or.inl hleft
  · exact Or.inr hright
  · obtain ⟨ms, s, rfl⟩ := List.exists_cons_of_ne_nil hsk.1
    exact absurd (hz.parts_inj hns hzk hn hn' hm' (hsk.2 ms List.mem_cons_self) heq).2.1 hne

omit hns hn

theorem LiteralOf.before_word (hns : ns.Accepted) (hp : LiteralOf ns n p) {w : Text} (hw : IsRun w)
    (hletters : ∀ c ∈ w, isWordChar c = true) (hend : ¬ w <:+ n) {x a e : Text}
    (h : x ++ w ++ [' '] = a ++ p ++ e) : ∃ f, x = a ++ p ++ f := by
  obtain ⟨hk, hm, -, hz, hs⟩ := hp
  rename_i k z s m
  obtain ⟨u, d, hlast, hword⟩ := hz.exists_last hns hm
  rcases List.eq_nil_or_concat s with rfl | ⟨s, ms, rfl⟩
  · exact absurd rfl hs.1
  rw [List.concat_eq_append] at hs h ⊢
  have hms : ms ∉ w := by
    intro hmem
    have := hs.2 ms (by simp)
    rw [hw.2 ms hmem] at this
    cases this
  rw [List.append_assoc x] at h
  rcases List.append_eq_append_iff.1 h with ⟨f, hf, hwf⟩ | ⟨f, hf, -⟩
  · rcases List.eq_nil_or_concat f with rfl | ⟨f, c, rfl⟩
    · exact ⟨[], by simpa using hf.symm⟩
    exfalso
    -- The last of the marks would have to be the blank, so the word would stand right before it.
    rw [List.concat_eq_append] at hf hwf
    have hsplit : (a ++ k ++ m :: (z ++ n ++ s)) ++ [ms] = (x ++ f) ++ [c] := by simpa using hf
    obtain ⟨hxf, hc⟩ := List.append_inj' hsplit rfl
    obtain rfl := (List.cons.inj hc).1
    obtain rfl : f = w := by
      rcases List.eq_nil_or_concat e with rfl | ⟨e, c, rfl⟩
      · rw [List.append_nil] at hwf
        exact (List.append_inj' hwf rfl).1.symm
      · rw [List.concat_eq_append, ← List.append_assoc] at hwf
        exact absurd (by rw [(List.append_inj' hwf rfl).1]; simp) hms
    have hxw : x ++ f = (a ++ k ++ u) ++ [d] ++ (n ++ s) := by
      rw [← hxf, List.append_assoc (a ++ k) u, ← hlast]
      simp
    obtain ⟨g, -, hg⟩ := exists_of_letters hletters hword hxw
    rcases List.eq_nil_or_concat s with rfl | ⟨s, c, rfl⟩
    · exact hend ⟨g, by simpa using hg.symm⟩
    · obtain ⟨v, c', rfl⟩ := (List.eq_nil_or_concat f).resolve_left hw.1
      rw [List.concat_eq_append, List.concat_eq_append, ← List.append_assoc, ← List.append_assoc] at hg
      obtain rfl := (List.cons.inj (List.append_inj' hg rfl).2).1
      have := hs.2 c (by simp)
      rw [hw.2 c (by simp)] at this
      cases this
  · exact ⟨f, hf⟩

end

/-- The edits that the renames of a name make: one puts a qualifier before the name, the others take it
away behind a keyword. -/
inductive EditOf (ns : Namespace) (n : Text) : Edit → Prop where
  | qualify {m : Char} {z s : Text} (hm : isRunChar m = false) (hcolon : m ≠ ':') (hz : Qualifier ns z)
      (hs : s ≠ [] ∧ IsMarks s) : EditOf ns n ⟨[m], [], z, n ++ s⟩
  | restoreClass {s : Text} (kind : ClassKind) (hs : s ≠ [] ∧ IsMarks s) :
      EditOf ns n ⟨kind.spelling ++ [' '], '\\' :: ns.root ++ ['\\'], [], n ++ s⟩
  | restoreFunction {z s : Text} (hz : Qualifier ns z) (hs : s ≠ [] ∧ IsMarks s) :
      EditOf ns n ⟨[], "function".toList ++ ' ' :: z, "static".toList ++ ' ' :: "function".toList ++ [' '],
        n ++ s⟩

structure NoKeywordEnd (n : Text) : Prop where
  static : ¬ "static".toList <:+ n
  function : ¬ "function".toList <:+ n

theorem ClassKind.letters_spelling (kind : ClassKind) : ∀ c ∈ kind.spelling, isWordChar c = true := by
  cases kind <;> decide

namespace EditOf

variable {ns : Namespace} {n n' : Text} {e e' : Edit}

theorem proper (h : EditOf ns n e) (hn : isIdentifier n = true) : e.Proper := by
  have hne := ne_nil_of_isIdentifier hn
  cases h with
  | qualify => exact ⟨by simp, by simp [hne]⟩
  | restoreClass => exact ⟨by simp, by simp⟩
  | restoreFunction => exact ⟨by simp, by simp⟩

theorem literalOf (h : EditOf ns n e) : LiteralOf ns n e.literal := by
  cases h with
  | @qualify m z s hm hcolon hz hs =>
    have : LiteralOf ns n ([] ++ m :: ([] ++ n ++ s)) := .intro (by simp) hm hcolon .bare hs
    simpa [Edit.literal] using this
  | @restoreClass s kind hs =>
    have : LiteralOf ns n (kind.spelling ++ ' ' :: ('\\' :: ns.root ++ ['\\'] ++ n ++ s)) :=
      .intro kind.letters_spelling (by decide) (by decide) .root hs
    simpa [Edit.literal] using this
  | @restoreFunction z s hz hs =>
    have : LiteralOf ns n ("function".toList ++ ' ' :: (z ++ n ++ s)) :=
      .intro (by decide) (by decide) (by decide) hz hs
    simpa only [Edit.literal, List.nil_append, List.append_assoc, List.cons_append] using this

theorem apart (hns : ns.Accepted) (h : EditOf ns n e) (h' : EditOf ns n' e') (hn : isIdentifier n = true)
    (hn' : isIdentifier n' = true) (hne : n ≠ n') (hend : NoKeywordEnd n') : Edit.Apart e e' := by
  have hblank : isRunChar ' ' = false := by decide
  have hcolon : ' ' ≠ ':' := by decide
  intro middle hmiddle x y a b hsplit
  have hp := h'.literalOf
  generalize e'.literal = p at hp hsplit ⊢
  -- Both the literal and its replacement have a mark, a qualifier and then the name.
  have hbeside : ∀ {x z s : Text} {m : Char}, isRunChar m = false → m ≠ ':' → Qualifier ns z →
      (s ≠ [] ∧ IsMarks s) → x ++ [m] ++ z ++ (n ++ s ++ y) = a ++ p ++ b →
      (∃ c, x ++ [m] = a ++ p ++ c) ∨ ∃ c, n ++ s ++ y = c ++ p ++ b := by
    intro x z s m hm hcolon hz hs hxy
    obtain ⟨m', s, rfl⟩ := List.exists_cons_of_ne_nil hs.1
    have := hp.beside hns hn hn' hne (t := s ++ y) hm hcolon hz (hs.2 m' List.mem_cons_self)
      (by simpa using hxy)
    simpa using this
  cases h with
  | qualify hm hcolon hz hs =>
    rcases List.mem_cons.1 hmiddle with rfl | hmiddle
    · exact hbeside hm hcolon .bare hs hsplit
    · obtain rfl := List.mem_singleton.1 hmiddle
      exact hbeside hm hcolon hz hs hsplit
  | restoreClass kind hs =>
    dsimp only at hmiddle hsplit ⊢
    rw [← List.append_assoc x] at hsplit ⊢
    rcases List.mem_cons.1 hmiddle with rfl | hmiddle
    · exact hbeside hblank hcolon .root hs hsplit
    · obtain rfl := List.mem_singleton.1 hmiddle
      exact hbeside hblank hcolon .bare hs hsplit
  | @restoreFunction z s hz hs =>
    have hfunction : ∀ {x c : Text}, x ++ "function".toList ++ [' '] = a ++ p ++ c →
        ∃ f, x = a ++ p ++ f :=
      hp.before_word hns (by decide) (by decide) hend.function
    have hstatic : ∀ {x c : Text}, x ++ "static".toList ++ [' '] = a ++ p ++ c → ∃ f, x = a ++ p ++ f :=
      hp.before_word hns (by decide) (by decide) hend.static
    dsimp only at hmiddle hsplit ⊢
    rw [List.append_nil] at hsplit ⊢
    rcases List.mem_cons.1 hmiddle with rfl | hmiddle
    · rcases hbeside (x := x ++ "function".toList) hblank hcolon hz hs
        (by simpa only [List.append_assoc, List.cons_append, List.nil_append] using hsplit) with ⟨c, hc⟩ | hc
      · exact Or.inl (hfunction hc)
      · exact Or.inr hc
    · obtain rfl := List.mem_singleton.1 hmiddle
      rcases hbeside (x := x ++ "static".toList ++ [' '] ++ "function".toList) hblank hcolon .bare hs
        (by simpa only [List.append_assoc, List.cons_append, List.nil_append] using hsplit) with ⟨c, hc⟩ | hc
      · obtain ⟨f, hf⟩ := hfunction hc
        exact Or.inl (hstatic hf)
      · exact Or.inr hc

end EditOf

namespace Symbols

variable {ns : Namespace} {σ τ : Symbols} {n n' : Text} {r r' : Rename}

theorem Rule.exists_edit (h : Rule ns σ r) (hc : ∀ c names, σ = .functions c names → isIdentifier c = true) :
    ∃ n e, n ∈ σ.names ∧ EditOf ns n e ∧ r = (e.literal, e.replacement) ∧
      (e.front = [] → ∃ c names, σ = .functions c names) := by
  cases h with
  | @qualify _ n₁ q _ p s hgives hp hs =>
    obtain ⟨m, rfl, hm, hcolon⟩ := Frame.exists_mark hp
    have hmarks := hgives.marks hs
    have hq : ∃ z, Qualifier ns z ∧ q = z ++ n₁ := by
      cases hgives with
      | global => exact ⟨_, .global, rfl⟩
      | classLike => exact ⟨_, .root, by simp [Namespace.qualifyClass]⟩
      | function => exact ⟨_, .container (hc _ _ rfl), by simp [Namespace.qualifyFunction_eq]⟩
    obtain ⟨z, hz, rfl⟩ := hq
    exact ⟨n₁, _, hgives.mem_names, .qualify hm hcolon hz hmarks, by simp [Edit.literal, Edit.replacement],
      by simp⟩
  | @restoreClass n₁ kind s hs =>
    refine ⟨n₁, _, List.mem_singleton.2 rfl, .restoreClass kind (Frame.behindClass_marks s hs), ?_, by simp⟩
    simp [Edit.literal, Edit.replacement, Namespace.qualifyClass]
  | @restoreFunction c names n₁ s hn hs =>
    have hz : Qualifier ns (ns.qualifyContainer c ++ "::".toList) := .container (hc c names rfl)
    refine ⟨n₁, _, hn, .restoreFunction hz (Frame.behindFunction_marks s hs), Prod.ext ?_ ?_,
      fun _ => ⟨c, names, rfl⟩⟩
    · rw [fst_functionDeclaration, Namespace.qualifyFunction_eq, Edit.literal]
      simp only [List.nil_append, List.append_assoc, List.cons_append]
      rfl
    · rw [snd_functionDeclaration, Edit.replacement]
      simp only [List.nil_append, List.append_assoc, List.cons_append]

def singles : Symbols → List Symbols
  | .globals names => names.map fun n => .globals [n]
  | .classLike n => [.classLike n]
  | .functions container names => names.map fun n => .functions container [n]

theorem Rule.exists_single (h : Rule ns σ r) : ∃ τ ∈ σ.singles, Rule ns τ r := by
  cases h with
  | qualify hgives hp hs =>
    cases hgives with
    | global hn =>
      exact ⟨_, List.mem_map.2 ⟨_, hn, rfl⟩, .qualify (.global List.mem_cons_self) hp hs⟩
    | classLike => exact ⟨_, List.mem_singleton.2 rfl, .qualify .classLike hp hs⟩
    | function hn =>
      exact ⟨_, List.mem_map.2 ⟨_, hn, rfl⟩, .qualify (.function List.mem_cons_self) hp hs⟩
  | restoreClass kind hs => exact ⟨_, List.mem_singleton.2 rfl, .restoreClass kind hs⟩
  | restoreFunction hn hs =>
    exact ⟨_, List.mem_map.2 ⟨_, hn, rfl⟩, .restoreFunction List.mem_cons_self hs⟩

structure Separable (symbols : List Symbols) : Prop where
  identifier : ∀ σ ∈ symbols, ∀ n ∈ σ.names, isIdentifier n = true
  container : ∀ c names, .functions c names ∈ symbols → isIdentifier c = true
  distinct : ∀ σ ∈ symbols, ∀ τ ∈ symbols, ∀ n ∈ σ.names, n ∈ τ.names → σ = τ
  keyword : ∀ σ ∈ symbols, ∀ n ∈ σ.names, NoKeywordEnd n

section

variable {symbols : List Symbols} (h : Separable (symbols.flatMap singles)) (hns : ns.Accepted)
  (hσ : σ ∈ symbols.flatMap singles)

include h hσ

theorem Separable.exists_edit (hr : Rule ns σ r) :
    ∃ n e, n ∈ σ.names ∧ EditOf ns n e ∧ r = (e.literal, e.replacement) := by
  obtain ⟨n, e, hn, he, hre, -⟩ := hr.exists_edit fun c names hc => h.container c names (hc ▸ hσ)
  exact ⟨n, e, hn, he, hre⟩

include hns

/-- The edits of two symbols do not see each other. -/
theorem Separable.exists_apart (hτ : τ ∈ symbols.flatMap singles) (hne : σ ≠ τ) (hr : Rule ns σ r)
    (hr' : Rule ns τ r') :
    ∃ e e' : Edit, (e.Proper ∧ e'.Proper) ∧ (Edit.Apart e e' ∧ Edit.Apart e' e) ∧
      r = (e.literal, e.replacement) ∧ r' = (e'.literal, e'.replacement) := by
  obtain ⟨n, e, hn, he, hre⟩ := h.exists_edit hσ hr
  obtain ⟨n', e', hn', he', hre'⟩ := h.exists_edit hτ hr'
  have hid := h.identifier σ hσ n hn
  have hid' := h.identifier τ hτ n' hn'
  have hnn : n ≠ n' := by
    rintro rfl
    exact hne (h.distinct σ hσ τ hτ n hn hn')
  exact ⟨e, e', ⟨he.proper hid, he'.proper hid'⟩,
    ⟨he.apart hns he' hid hid' hnn (h.keyword τ hτ n' hn'),
      he'.apart hns he hid' hid hnn.symm (h.keyword σ hσ n hn)⟩, hre, hre'⟩

theorem Separable.literal_ne (hτ : τ ∈ symbols.flatMap singles) (hne : σ ≠ τ) (hr : Rule ns σ r)
    (hr' : Rule ns τ r') : r.1 ≠ r'.1 := by
  obtain ⟨e, e', ⟨he, -⟩, ⟨hapart, -⟩, rfl, rfl⟩ := h.exists_apart hns hσ hτ hne hr hr'
  exact hapart.literal_ne he

theorem Separable.applyRename_comm (hτ : τ ∈ symbols.flatMap singles) (hne : σ ≠ τ)
    (hr : Rule ns σ r) (hr' : Rule ns τ r') (text : Text) :
    RenameTable.applyRename (RenameTable.applyRename text r) r' =
      RenameTable.applyRename (RenameTable.applyRename text r') r := by
  obtain ⟨e, e', ⟨he, he'⟩, ⟨hapart, hapart'⟩, rfl, rfl⟩ := h.exists_apart hns hσ hτ hne hr hr'
  simp only [RenameTable.applyRename_eq_replaceAll]
  exact Edit.apply_comm hapart hapart' he he' text

end

end Symbols

end Namespacing
