import Namespacing.Proofs.Path.Steps
import Namespacing.Proofs.RenameTable.Entries
set_option autoImplicit false

namespace Namespacing

open Text

namespace Text

def IsLetter (c : Char) : Prop :=
  'A' ≤ c ∧ c ≤ 'Z' ∨ 'a' ≤ c ∧ c ≤ 'z' ∨ c = '_'

inductive IsWord : Text → Prop where
  | mk {c : Char} {s : Text} (first : IsLetter c) (rest : ∀ d ∈ s, IsLetter d ∨ '0' ≤ d ∧ d ≤ '9') :
      IsWord (c :: s)

theorem isWordStart_iff {c : Char} : isWordStart c = true ↔ IsLetter c := by
  rw [isWordStart]
  delta Char.isAlpha Char.isUpper Char.isLower
  simp only [Bool.or_eq_true, Bool.and_eq_true, decide_eq_true_eq, beq_iff_eq, or_assoc]
  exact Iff.rfl

theorem isWordChar_iff {c : Char} : isWordChar c = true ↔ IsLetter c ∨ '0' ≤ c ∧ c ≤ '9' := by
  have hstart : isWordChar c = (isWordStart c || c.isDigit) := by
    rw [isWordChar, isWordStart, Char.isAlphanum, Bool.or_assoc, Bool.or_assoc, Bool.or_comm c.isDigit]
  rw [hstart, Bool.or_eq_true, isWordStart_iff]
  simp only [Char.isDigit, Bool.and_eq_true, decide_eq_true_eq]
  exact Iff.rfl

theorem isIdentifier_iff {s : Text} : isIdentifier s = true ↔ IsWord s := by
  cases s with
  | nil =>
    constructor
    · intro h
      cases h
    · intro h
      cases h
  | cons c s =>
    simp only [isIdentifier, Bool.and_eq_true, List.all_eq_true, isWordStart_iff, isWordChar_iff]
    constructor
    · intro h
      exact .mk h.1 h.2
    · rintro ⟨first, rest⟩
      exact ⟨first, rest⟩

end Text

structure Requirement where
  key : Text
  value? : Option Text
  problem : Text
  met : Prop

def Requirement.fault (requirement : Requirement) : Fault :=
  .invalidSetting requirement.key requirement.value? requirement.problem

/-- Requirements are looked at one after the other: the first one that is not met gives the fault. -/
inductive Judges : List Requirement → Except Fault Unit → Prop where
  | nil : Judges [] (.ok ())
  | unmet {r : Requirement} {rest : List Requirement} (h : ¬ r.met) : Judges (r :: rest) (.error r.fault)
  | met {r : Requirement} {rest : List Requirement} {outcome : Except Fault Unit} (h : r.met)
      (tail : Judges rest outcome) : Judges (r :: rest) outcome

theorem Judges.ok_iff {requirements : List Requirement} {outcome : Except Fault Unit}
    (h : Judges requirements outcome) : outcome = .ok () ↔ ∀ r ∈ requirements, r.met := by
  induction h with
  | nil => simp
  | unmet hr => exact iff_of_false (by simp) fun hall => hr (hall _ List.mem_cons_self)
  | met hr _ ih =>
    rw [ih, List.forall_mem_cons]
    exact (and_iff_right hr).symm

theorem Judges.error {requirements before after : List Requirement} {r : Requirement}
    {outcome : Except Fault Unit} (h : Judges requirements outcome) (hsplit : requirements = before ++ r :: after)
    (hbefore : ∀ r ∈ before, r.met) (hr : ¬ r.met) : outcome = .error r.fault := by
  induction h generalizing before with
  | nil => simp at hsplit
  | unmet hfirst =>
    cases before with
    | nil =>
      obtain ⟨rfl, -⟩ := List.cons.inj hsplit
      rfl
    | cons first before =>
      obtain ⟨rfl, -⟩ := List.cons.inj hsplit
      exact absurd (hbefore _ List.mem_cons_self) hfirst
  | met hfirst _ ih =>
    cases before with
    | nil =>
      obtain ⟨rfl, -⟩ := List.cons.inj hsplit
      exact absurd hfirst hr
    | cons first before =>
      exact ih (List.cons.inj hsplit).2 fun x hx => hbefore x (List.mem_cons_of_mem _ hx)

/-- The last requirement may be exchanged for one that is met in the same cases, where it is looked at. -/
theorem Judges.congr_last {earlier : List Requirement} {r r' : Requirement} {outcome : Except Fault Unit}
    (hfault : r.fault = r'.fault) (hmet : (∀ x ∈ earlier, x.met) → (r.met ↔ r'.met))
    (h : Judges (earlier ++ [r]) outcome) : Judges (earlier ++ [r']) outcome := by
  induction earlier with
  | nil =>
    have hmet := hmet (by simp)
    cases h with
    | unmet hr =>
      rw [hfault]
      exact .unmet fun hr' => hr (hmet.2 hr')
    | met hr tail =>
      cases tail
      exact .met (hmet.1 hr) .nil
  | cons x earlier ih =>
    cases h with
    | unmet hx => exact .unmet hx
    | met hx tail => exact .met hx (ih (fun hall => hmet (List.forall_mem_cons.2 ⟨hx, hall⟩)) tail)

structure Path.IsPlainName (name : Text) : Prop where
  ne_nil : name ≠ []
  no_slash : '/' ∉ name
  not_dot : name ≠ ['.']
  not_dots : name ≠ ['.', '.']

namespace Settings

def IsWords (root : Text) : Prop :=
  ∃ words : List Text, words ≠ [] ∧ root = joinWith ['\\'] words ∧ ∀ word ∈ words, IsWord word

def earlier (settings : Settings) : List Requirement :=
  [⟨"namespace".toList, some settings.root,
      "Expected backslash-separated PHP identifiers, e.g. Vendor\\Package".toList, IsWords settings.root⟩,
    ⟨"functions_segment".toList, some settings.functionsSegment, "Expected a single PHP identifier".toList,
      IsWord settings.functionsSegment⟩,
    ⟨"include".toList, none, "Include pattern cannot be empty".toList,
      ∃ c ∈ settings.filePattern, isBlankChar c = false⟩]

def manifest (settings : Settings) (accepted : Text → Prop) : Requirement :=
  ⟨"manifest_file".toList, some settings.manifestFile, "Expected a plain file name".toList,
    accepted settings.manifestFile⟩

def requirements (settings : Settings) : List Requirement :=
  settings.earlier ++ [settings.manifest Path.IsPlainName]

theorem manifest_mem (settings : Settings) : settings.manifest Path.IsPlainName ∈ settings.requirements := by
  simp [requirements]

/-- Settings are accepted exactly if they are what they have to be, and else the fault is the one of the first
requirement that they do not meet. -/
def Judged (settings : Settings) : Prop :=
  (settings.check = .ok () ↔ ∀ r ∈ settings.requirements, r.met) ∧
    ∀ before r after, settings.requirements = before ++ r :: after → (∀ r ∈ before, r.met) → ¬ r.met →
      settings.check = .error r.fault

theorem isRoot_iff {root : Text} : isRoot root = true ↔ IsWords root := by
  simp only [isRoot, List.all_eq_true, isIdentifier_iff]
  constructor
  · intro h
    exact ⟨splitOn '\\' root, splitOn_ne_nil _ _, (joinWith_splitOn '\\' root).symm, h⟩
  · rintro ⟨words, hne, rfl, hwords⟩
    rwa [splitOn_joinWith hne fun word hmem => backslash_not_mem (isIdentifier_iff.2 (hwords word hmem))]

theorem isBlank_iff {pattern : Text} : isBlank pattern = false ↔ ∃ c ∈ pattern, isBlankChar c = false := by
  simp [isBlank]

end Settings

namespace Path

/-- One component of a path that is not the name of a file. -/
structure IsNameless (name : Text) : Prop where
  ne_nil : name ≠ []
  idle : ∀ segment ∈ (segments name).tail, segment = [] ∨ segment = ['.']
  dressed : '/' ∈ name ∨ name = ['.'] ∨ name = ['.', '.']

theorem isIdle_iff {segment : Text} : isIdle segment = true ↔ segment = [] ∨ segment = ['.'] := by
  simp [isIdle]

theorem exists_segments_cons {c : Char} (hc : c ≠ '/') (rest : Path) :
    ∃ first body, segments (c :: rest) = (c :: first) :: body := by
  rw [segments, splitOn, if_neg hc]
  cases hs : splitOn '/' rest with
  | nil => exact absurd hs (splitOn_ne_nil _ _)
  | cons first body => exact ⟨first, body, rfl⟩

theorem componentCount_of_parts {path : Path} {root : Root} {body : List Text} (h : parts path = ⟨root, body⟩) :
    componentCount path =
      (if root = .nothing then 0 else 1) + (body.filter fun segment => !isIdle segment).length := by
  rw [componentCount, h]

/-- A path has one component if all its segments behind the first one are idle. -/
theorem componentCount_eq_one_iff {path : Path} (hne : path ≠ []) :
    componentCount path = 1 ↔ ∀ segment ∈ (segments path).tail, segment = [] ∨ segment = ['.'] := by
  have hidle : ∀ body : List Text, (body.filter fun segment => !isIdle segment).length = 0 ↔
      ∀ segment ∈ body, segment = [] ∨ segment = ['.'] := by
    intro body
    simp only [List.length_eq_zero_iff, List.filter_eq_nil_iff, Bool.not_eq_true', Bool.not_eq_false,
      isIdle_iff]
  -- A slash or a dot at the front is the one component, and so is any other first segment, which is not idle.
  obtain ⟨c, rest, rfl⟩ := List.exists_cons_of_ne_nil hne
  by_cases hc : c = '/'
  · subst hc
    have hparts : parts ('/' :: rest) = ⟨.slash, segments rest⟩ := rfl
    rw [segments_slash, List.tail_cons, ← hidle (segments rest), componentCount_of_parts hparts,
      if_neg (by decide)]
    omega
  · obtain ⟨first, body, hsegments⟩ := exists_segments_cons hc rest
    have habs : isAbsolute (c :: rest) = false := by simpa [isAbsolute] using hc
    have hparts := parts_eq_of_not_absolute habs
    rw [hsegments] at hparts ⊢
    rw [List.tail_cons, ← hidle body]
    by_cases hdot : c :: first = ['.']
    · obtain ⟨rfl, rfl⟩ := List.cons.inj hdot
      rw [componentCount_of_parts hparts, if_neg (by decide)]
      omega
    · have hparts : parts (c :: rest) = ⟨.nothing, (c :: first) :: body⟩ := by
        rw [hparts]
        split
        · rename_i heq
          exact absurd (List.cons.inj heq).1 hdot
        · rfl
      have hfirst : isIdle (c :: first) = false := by
        rw [Bool.eq_false_iff, ne_eq, isIdle_iff]
        rintro (h | h)
        · cases h
        · exact hdot h
      rw [componentCount_of_parts hparts, if_pos rfl, List.filter_cons_of_pos (by rw [hfirst]; rfl),
        List.length_cons]
      omega

theorem isManifestFile_iff {name : Text} :
    Settings.isManifestFile name = true ↔ IsPlainName name ∨ IsNameless name := by
  have hcount : Settings.isManifestFile name = true ↔ name ≠ [] ∧ componentCount name = 1 := by
    simp [Settings.isManifestFile]
  rw [hcount]
  constructor
  · rintro ⟨hne, hone⟩
    have hidle := (componentCount_eq_one_iff hne).1 hone
    by_cases hdressed : '/' ∈ name ∨ name = ['.'] ∨ name = ['.', '.']
    · exact Or.inr ⟨hne, hidle, hdressed⟩
    · simp only [not_or] at hdressed
      exact Or.inl ⟨hne, hdressed.1, hdressed.2.1, hdressed.2.2⟩
  · rintro (hplain | hnameless)
    · refine ⟨hplain.ne_nil, (componentCount_eq_one_iff hplain.ne_nil).2 ?_⟩
      rw [segments_of_not_mem hplain.no_slash]
      simp
    · exact ⟨hnameless.ne_nil, (componentCount_eq_one_iff hnameless.ne_nil).2 hnameless.idle⟩

theorem IsNameless.not_plain {name : Text} (h : IsNameless name) : ¬ IsPlainName name := by
  intro hplain
  rcases h.dressed with hslash | hdot | hdots
  · exact hplain.no_slash hslash
  · exact hplain.not_dot hdot
  · exact hplain.not_dots hdots

end Path

namespace Settings

theorem judges_check (settings : Settings) :
    Judges (settings.earlier ++ [settings.manifest fun name => Path.IsPlainName name ∨ Path.IsNameless name])
      settings.check := by
  unfold check defect?
  by_cases hroot : IsWords settings.root
  · rw [isRoot_iff.2 hroot]
    refine .met hroot ?_
    by_cases hsegment : IsWord settings.functionsSegment
    · rw [isIdentifier_iff.2 hsegment]
      refine .met hsegment ?_
      by_cases hpattern : ∃ c ∈ settings.filePattern, isBlankChar c = false
      · rw [isBlank_iff.2 hpattern]
        refine .met hpattern ?_
        by_cases hmanifest : Path.IsPlainName settings.manifestFile ∨ Path.IsNameless settings.manifestFile
        · rw [Path.isManifestFile_iff.2 hmanifest]
          exact .met hmanifest .nil
        · rw [Bool.eq_false_iff.2 fun h => hmanifest (Path.isManifestFile_iff.1 h)]
          exact .unmet hmanifest
      · rw [Bool.of_not_eq_false fun h => hpattern (isBlank_iff.1 h)]
        exact .unmet hpattern
    · rw [Bool.eq_false_iff.2 fun h => hsegment (isIdentifier_iff.1 h)]
      exact .unmet hsegment
  · rw [Bool.eq_false_iff.2 fun h => hroot (isRoot_iff.1 h)]
    exact .unmet hroot

/-- Settings are judged by their requirements, unless the earlier ones are met and the manifest file is one
component of a path that is not the name of a file: these are accepted. -/
theorem judged_iff (settings : Settings) :
    (settings.Judged ↔ ¬ ((∀ r ∈ settings.earlier, r.met) ∧ Path.IsNameless settings.manifestFile)) ∧
      ((∀ r ∈ settings.earlier, r.met) → Path.IsNameless settings.manifestFile → settings.check = .ok ()) := by
  have hcheck := judges_check settings
  have haccepted : (∀ r ∈ settings.earlier, r.met) → Path.IsNameless settings.manifestFile →
      settings.check = .ok () := by
    intro hearlier hnameless
    refine hcheck.ok_iff.2 fun r hr => ?_
    rcases List.mem_append.1 hr with hr | hr
    · exact hearlier r hr
    · rw [List.mem_singleton.1 hr]
      exact Or.inr hnameless
  refine ⟨⟨?_, ?_⟩, haccepted⟩
  · rintro ⟨hok, -⟩ ⟨hearlier, hnameless⟩
    exact hnameless.not_plain (hok.1 (haccepted hearlier hnameless) _ settings.manifest_mem)
  · intro hslip
    have hjudges : Judges settings.requirements settings.check := by
      refine hcheck.congr_last (by rfl) fun hearlier => or_iff_left fun hnameless => ?_
      exact hslip ⟨hearlier, hnameless⟩
    exact ⟨hjudges.ok_iff, fun _ _ _ => hjudges.error⟩

/-- Two dots lead to a directory, but they are accepted as a manifest file. -/
theorem check_accepts_dots :
    let settings : Settings := { default with manifestFile := "..".toList }
    settings.check = .ok () ∧ ¬ Path.IsPlainName settings.manifestFile ∧ ¬ settings.Judged := by
  intro settings
  have hplain : ¬ Path.IsPlainName settings.manifestFile := fun h => h.not_dots rfl
  have hcheck : settings.check = .ok () := by decide
  exact ⟨hcheck, hplain, fun h => hplain (h.1.1 hcheck _ settings.manifest_mem)⟩

end Settings

end Namespacing
