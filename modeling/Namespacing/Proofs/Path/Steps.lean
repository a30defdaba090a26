import Namespacing.Path
set_option autoImplicit false

namespace Namespacing

namespace Text

theorem splitOn_append (sep : Char) (s t : Text) :
    splitOn sep (s ++ sep :: t) = splitOn sep s ++ splitOn sep t := by
  induction s with
  | nil => simp [splitOn]
  | cons c s ih =>
    rw [List.cons_append, splitOn, splitOn, ih]
    by_cases hc : c = sep
    · simp [hc]
    · rw [if_neg hc, if_neg hc]
      cases h : splitOn sep s with
      | nil => exact absurd h (splitOn_ne_nil sep s)
      | cons piece pieces => rfl

theorem splitOn_of_not_mem {sep : Char} {s : Text} (h : sep ∉ s) : splitOn sep s = [s] := by
  induction s with
  | nil => rfl
  | cons c s ih =>
    rw [List.mem_cons, not_or] at h
    rw [splitOn, if_neg (Ne.symm h.1), ih h.2]

theorem not_mem_of_mem_splitOn {sep : Char} {s piece : Text} (h : piece ∈ splitOn sep s) :
    sep ∉ piece := by
  induction s generalizing piece with
  | nil =>
    rw [List.mem_singleton.1 h]
    exact List.not_mem_nil
  | cons c s ih =>
    rw [splitOn] at h
    by_cases hc : c = sep
    · rw [if_pos hc] at h
      rcases List.mem_cons.1 h with rfl | h
      · exact List.not_mem_nil
      · exact ih h
    · rw [if_neg hc] at h
      cases hs : splitOn sep s with
      | nil => exact absurd hs (splitOn_ne_nil sep s)
      | cons first rest =>
        rw [hs] at h
        rcases List.mem_cons.1 h with rfl | h
        · rw [List.mem_cons, not_or]
          exact ⟨Ne.symm hc, ih (by simp [hs])⟩
        · exact ih (by simp [hs, h])

theorem joinWith_cons_cons (sep s t : Text) (pieces : List Text) :
    joinWith sep (s :: t :: pieces) = s ++ sep ++ joinWith sep (t :: pieces) := by
  simp [joinWith, List.intercalate]

theorem splitOn_joinWith {sep : Char} {pieces : List Text} (hne : pieces ≠ [])
    (h : ∀ piece ∈ pieces, sep ∉ piece) : splitOn sep (joinWith [sep] pieces) = pieces := by
  induction pieces with
  | nil => exact absurd rfl hne
  | cons first rest ih =>
    have hfirst := splitOn_of_not_mem (h first List.mem_cons_self)
    cases rest with
    | nil => simpa [joinWith, List.intercalate] using hfirst
    | cons next rest =>
      rw [joinWith_cons_cons, List.append_assoc, List.singleton_append, splitOn_append, hfirst,
        ih (by simp) fun piece hp => h piece (List.mem_cons_of_mem _ hp)]
      rfl

end Text

open Text

namespace Path

def steps (path : Path) : List Text :=
  (segments path).filter fun segment => !isIdle segment

def IsDown (segment : Text) : Prop :=
  isIdle segment = false ∧ segment ≠ ['.', '.']

theorem steps_append (a b : Path) : steps (a ++ '/' :: b) = steps a ++ steps b := by
  rw [steps, segments, splitOn_append, List.filter_append]
  rfl

theorem segments_of_not_mem {name : Text} (h : '/' ∉ name) : segments name = [name] :=
  splitOn_of_not_mem h

theorem steps_of_not_mem {name : Text} (h : '/' ∉ name) (hidle : isIdle name = false) :
    steps name = [name] := by
  rw [steps, segments_of_not_mem h]
  simp [hidle]

theorem exists_append_slash {base : Path} (h : base.getLast? = some '/') : ∃ a, base = a ++ ['/'] := by
  obtain ⟨a, ha⟩ := List.getLast?_eq_some_iff.1 h
  exact ⟨a, ha⟩

theorem join_cases (base : Path) {path : Path} (h : isAbsolute path = false) :
    (base = [] ∧ join base path = path) ∨
    ∃ a, a ++ ['/'] = base ∧ join base path = a ++ '/' :: path ∨
      base ≠ [] ∧ a = base ∧ join base path = a ++ '/' :: path := by
  unfold join
  rw [if_neg (by simp [h])]
  by_cases hb : base = []
  · exact Or.inl ⟨hb, by simp [hb]⟩
  · right
    by_cases hl : base.getLast? = some '/'
    · obtain ⟨a, rfl⟩ := exists_append_slash hl
      exact ⟨a, Or.inl ⟨rfl, by simp⟩⟩
    · refine ⟨base, Or.inr ⟨hb, rfl, ?_⟩⟩
      rw [if_neg]
      simp [hb, hl]

theorem steps_join (base : Path) {path : Path} (h : isAbsolute path = false) :
    steps (join base path) = steps base ++ steps path := by
  rcases join_cases base h with ⟨rfl, hj⟩ | ⟨a, ⟨rfl, hj⟩ | ⟨-, rfl, hj⟩⟩
  · rw [hj]
    rfl
  · have hslash : steps (a ++ ['/']) = steps a := by
      rw [steps_append]
      simp [steps, segments, splitOn, isIdle]
    rw [hj, steps_append, hslash]
  · rw [hj, steps_append]

theorem isAbsolute_join (base : Path) {path : Path} (h : isAbsolute path = false) :
    isAbsolute (join base path) = isAbsolute base := by
  rcases join_cases base h with ⟨rfl, hj⟩ | ⟨a, ⟨rfl, hj⟩ | ⟨hne, rfl, hj⟩⟩
  · rw [hj, h]
    rfl
  · rw [hj]
    cases a <;> rfl
  · rw [hj]
    cases a with
    | nil => exact absurd rfl hne
    | cons c a => rfl

theorem isAbsolute_of_not_mem {name : Text} (h : '/' ∉ name) : isAbsolute name = false := by
  cases name with
  | nil => rfl
  | cons c name =>
    have : c ≠ '/' := fun hc => h (by simp [hc])
    simpa [isAbsolute] using this

theorem exists_segments_join (base : Path) {name : Text} (h : '/' ∉ name) :
    ∃ before, segments (join base name) = before ++ [name] ∧
      (before.filter fun segment => !isIdle segment) = steps base := by
  have habs := isAbsolute_of_not_mem h
  have hsegments : ∀ a : Path, segments (a ++ '/' :: name) = segments a ++ [name] := by
    intro a
    rw [segments, splitOn_append, splitOn_of_not_mem h]
    rfl
  rcases join_cases base habs with ⟨rfl, hj⟩ | ⟨a, ⟨rfl, hj⟩ | ⟨-, rfl, hj⟩⟩
  · exact ⟨[], by rw [hj, segments_of_not_mem h]; rfl, rfl⟩
  · refine ⟨segments a, by rw [hj, hsegments], ?_⟩
    rw [steps_append]
    simp [steps, segments, splitOn, isIdle]
  · exact ⟨segments a, by rw [hj, hsegments], rfl⟩

theorem ne_nil_of_segments {path : Path} {before : List Text} {x : Text}
    (h : segments path = before ++ [x]) (hx : isIdle x = false) : path ≠ [] := by
  rintro rfl
  have : [[]] = before ++ [x] := h
  cases before with
  | nil =>
    obtain ⟨rfl, -⟩ := List.cons.inj this
    cases hx
  | cons y before => simp at this

theorem steps_of_segments {path : Path} {before : List Text} {x : Text}
    (h : segments path = before ++ [x]) (hx : isIdle x = false) :
    steps path = before.filter (fun s => !isIdle s) ++ [x] := by
  rw [steps, h, List.filter_append]
  simp [hx]

/-- Behind a path that ends in a step, one slash stands before what is joined to it. -/
theorem join_eq_append {base path : Path} {before : List Text} {x : Text}
    (h : segments base = before ++ [x]) (hx : isIdle x = false) (hpath : isAbsolute path = false) :
    join base path = base ++ '/' :: path := by
  rcases join_cases base hpath with ⟨hbase, -⟩ | ⟨a, ⟨ha, -⟩ | ⟨-, rfl, hj⟩⟩
  · exact absurd hbase (ne_nil_of_segments h hx)
  · exfalso
    rw [← ha, segments, splitOn_append] at h
    have hlast := List.append_inj' h rfl
    obtain rfl : [] = x := (List.cons.inj hlast.2).1
    cases hx
  · exact hj

theorem exists_segments_join_path (base : Path) {path : Path} (h : isAbsolute path = false) :
    ∃ before, segments (join base path) = before ++ segments path := by
  rcases join_cases base h with ⟨-, hj⟩ | ⟨a, ⟨-, hj⟩ | ⟨-, -, hj⟩⟩
  · exact ⟨[], by rw [hj]; rfl⟩
  · exact ⟨segments a, by rw [hj, segments, splitOn_append]; rfl⟩
  · exact ⟨segments a, by rw [hj, segments, splitOn_append]; rfl⟩

section

variable {names : List Text} (h : ∀ name ∈ names, '/' ∉ name ∧ isIdle name = false)

include h

theorem steps_extend (base : Path) : steps (extend base names) = steps base ++ names := by
  induction names generalizing base with
  | nil => rw [List.append_nil]; rfl
  | cons name names ih =>
    obtain ⟨hslash, hidle⟩ := h name List.mem_cons_self
    change steps (extend (join base name) names) = _
    rw [ih fun n hn => h n (List.mem_cons_of_mem _ hn), steps_join base (isAbsolute_of_not_mem hslash),
      steps_of_not_mem hslash hidle, List.append_assoc]
    rfl

theorem isAbsolute_extend (base : Path) : isAbsolute (extend base names) = isAbsolute base := by
  induction names generalizing base with
  | nil => rfl
  | cons name names ih =>
    change isAbsolute (extend (join base name) names) = _
    rw [ih fun n hn => h n (List.mem_cons_of_mem _ hn),
      isAbsolute_join base (isAbsolute_of_not_mem (h name List.mem_cons_self).1)]

end

theorem segments_slash (rest : Path) : segments ('/' :: rest) = [] :: segments rest := by
  simp [segments, splitOn]

theorem toPath_parts (path : Path) : (parts path).toPath = path := by
  unfold parts
  split
  · rename_i rest
    exact congrArg ('/' :: ·) (joinWith_splitOn '/' rest)
  · split
    · rename_i body h
      have := joinWith_splitOn '/' path
      rw [segments] at h
      rwa [h] at this
    · exact joinWith_splitOn '/' path

theorem parts_eq_of_not_absolute {path : Path} (h : isAbsolute path = false) :
    parts path = match segments path with
      | ['.'] :: body => ⟨.dot, body⟩
      | body => ⟨.nothing, body⟩ := by
  unfold parts
  split
  · cases h
  · rfl

theorem parts_append {base : Path} (hne : base ≠ []) (path : Path) :
    parts (base ++ '/' :: path) = ⟨(parts base).root, (parts base).body ++ segments path⟩ := by
  cases base with
  | nil => exact absurd rfl hne
  | cons c base =>
    by_cases hc : c = '/'
    · subst hc
      simp only [parts, List.cons_append, segments, splitOn_append]
    · have hsegments : segments (c :: base ++ '/' :: path) = segments (c :: base) ++ segments path :=
        splitOn_append '/' (c :: base) path
      have habs : ∀ rest : Path, isAbsolute (c :: rest) = false := by
        intro rest
        simpa [isAbsolute] using hc
      rw [List.cons_append] at hsegments ⊢
      rw [parts_eq_of_not_absolute (habs _), parts_eq_of_not_absolute (habs _), hsegments]
      cases h : segments (c :: base) with
      | nil => exact absurd h (splitOn_ne_nil _ _)
      | cons first rest =>
        by_cases hfirst : first = ['.']
        · simp [hfirst]
        · simp [hfirst]

/-- Parts whose text has them as its parts, up to idle segments. -/
structure Parts.Clean (parts : Parts) : Prop where
  slash : ∀ segment ∈ parts.body, '/' ∉ segment
  front : parts.root = .nothing → ∀ rest, rest ≠ [] → parts.body ≠ [] :: rest

theorem clean_parts (path : Path) : (parts path).Clean := by
  unfold parts
  split
  · exact ⟨fun _ h => not_mem_of_mem_splitOn h, fun h => by cases h⟩
  · rename_i hslash
    split
    · rename_i body h
      refine ⟨fun segment hs => not_mem_of_mem_splitOn (s := path) ?_, fun h => by cases h⟩
      rw [segments] at h
      rw [h]
      exact List.mem_cons_of_mem _ hs
    · refine ⟨fun _ h => not_mem_of_mem_splitOn h, fun _ rest hrest h => ?_⟩
      cases path with
      | nil =>
        simp only [segments, splitOn, List.cons.injEq, true_and] at h
        exact hrest h.symm
      | cons c path =>
        have hc : c ≠ '/' := fun hc => hslash path (by rw [hc])
        change splitOn '/' (c :: path) = [] :: rest at h
        rw [splitOn, if_neg hc] at h
        split at h <;> cases h

theorem Parts.Clean.of_append {root : Root} {body rest : List Text}
    (h : Parts.Clean ⟨root, body ++ rest⟩) : Parts.Clean ⟨root, body⟩ where
  slash segment hs := h.slash segment (List.mem_append_left _ hs)
  front hroot tail htail hbody := by
    obtain rfl : body = [] :: tail := hbody
    exact h.front hroot (tail ++ rest) (by simp [htail]) rfl

theorem Parts.Clean.isAbsolute_toPath {root : Root} {body : List Text}
    (h : Parts.Clean ⟨root, body⟩) :
    isAbsolute (Parts.toPath ⟨root, body⟩) = decide (root = .slash) := by
  cases root with
  | slash => rfl
  | dot => cases body <;> rfl
  | nothing =>
    cases body with
    | nil => rfl
    | cons first rest =>
      cases first with
      | cons c first =>
        have hc : c ≠ '/' := fun hc => h.slash _ List.mem_cons_self (by simp [hc])
        cases rest <;> simp [toPath, joinWith, List.intercalate, isAbsolute, hc]
      | nil =>
        cases rest with
        | nil => rfl
        | cons next rest => exact absurd rfl (h.front rfl (next :: rest) (by simp))

theorem Parts.Clean.steps_toPath {root : Root} {body : List Text} (h : Parts.Clean ⟨root, body⟩) :
    steps (Parts.toPath ⟨root, body⟩) = body.filter fun segment => !isIdle segment := by
  have hjoin : ∀ pieces : List Text, (∀ piece ∈ pieces, '/' ∉ piece) →
      steps (joinWith ['/'] pieces) = pieces.filter fun segment => !isIdle segment := by
    intro pieces hp
    cases pieces with
    | nil => rfl
    | cons first rest => rw [steps, segments, splitOn_joinWith (by simp) hp]
  cases root with
  | slash =>
    have := hjoin body h.slash
    rw [toPath, steps, segments_slash, List.filter_cons_of_neg (by simp [isIdle])]
    exact this
  | dot =>
    have := hjoin (['.'] :: body) fun piece hp => by
      rcases List.mem_cons.1 hp with rfl | hp
      · decide
      · exact h.slash piece hp
    rw [toPath, this]
    simp [isIdle]
  | nothing => exact hjoin body h.slash

/-- The last part of a path is its last segment. -/
theorem Parts.Clean.exists_segments_toPath {root : Root} {body : List Text} {x : Text}
    (h : Parts.Clean ⟨root, body ++ [x]⟩) :
    ∃ before, segments (Parts.toPath ⟨root, body ++ [x]⟩) = before ++ [x] ∧
      (before.filter fun segment => !isIdle segment) = body.filter fun segment => !isIdle segment := by
  have hjoin : ∀ pieces : List Text, pieces ≠ [] → (∀ piece ∈ pieces, '/' ∉ piece) →
      segments (joinWith ['/'] pieces) = pieces := fun _ hne hp => splitOn_joinWith hne hp
  have hbody := hjoin (body ++ [x]) (by simp) h.slash
  cases root with
  | slash =>
    refine ⟨[] :: body, ?_, List.filter_cons_of_neg (by simp [isIdle])⟩
    rw [toPath, segments_slash, hbody]
    rfl
  | dot =>
    refine ⟨['.'] :: body, ?_, List.filter_cons_of_neg (by simp [isIdle])⟩
    refine hjoin (['.'] :: (body ++ [x])) (by simp) fun piece hp => ?_
    rcases List.mem_cons.1 hp with rfl | hp
    · decide
    · exact h.slash piece hp
  | nothing => exact ⟨body, hbody, rfl⟩

theorem isAbsolute_eq (path : Path) : isAbsolute path = decide ((parts path).root = .slash) := by
  have : isAbsolute (parts path).toPath = _ := (clean_parts path).isAbsolute_toPath
  rwa [toPath_parts] at this

theorem steps_eq (path : Path) :
    steps path = (parts path).body.filter fun segment => !isIdle segment := by
  have : steps (parts path).toPath = _ := (clean_parts path).steps_toPath
  rwa [toPath_parts] at this

theorem exists_body_of_segments {path : Path} {before : List Text} {x : Text}
    (h : segments path = before ++ [x]) (hx : isIdle x = false) :
    ∃ b, (parts path).body = b ++ [x] := by
  have hcons : ∀ {first : Text} {rest : List Text}, isIdle first = true →
      first :: rest = before ++ [x] → ∃ b, rest = b ++ [x] := by
    intro first rest hidle heq
    cases before with
    | nil =>
      obtain ⟨rfl, -⟩ := List.cons.inj heq
      rw [hidle] at hx
      cases hx
    | cons y before => exact ⟨before, (List.cons.inj heq).2⟩
  unfold parts
  split
  · rw [segments_slash] at h
    exact hcons rfl h
  · split
    · rename_i body hs
      rw [hs] at h
      exact hcons rfl h
    · exact ⟨before, h⟩

theorem trimIdle_reverse (rev : List Text) : trimIdle rev.reverse = (rev.dropWhile isIdle).reverse := by
  rw [trimIdle, List.reverse_reverse]

/-- A path and the ones above it, from the segments of the path in reverse. -/
def chain (root : Root) (rev : List Text) : List Path :=
  Parts.toPath ⟨root, trimIdle rev.reverse⟩ :: ancestorsFrom root rev

theorem chain_idle {root : Root} {segment : Text} {rest : List Text} (h : isIdle segment = true) :
    chain root (segment :: rest) = chain root rest := by
  rw [chain, chain, ancestorsFrom, if_pos h, trimIdle_reverse, trimIdle_reverse,
    List.dropWhile_cons_of_pos h]

theorem chain_step {root : Root} {segment : Text} {rest : List Text} (h : isIdle segment = false) :
    chain root (segment :: rest) =
      Parts.toPath ⟨root, (segment :: rest).reverse⟩ :: chain root rest := by
  rw [chain, chain, ancestorsFrom, if_neg (by simp [h]), trimIdle_reverse,
    List.dropWhile_cons_of_neg (by simp [h])]

theorem trimIdle_concat {body : List Text} {x : Text} (hx : isIdle x = false) :
    trimIdle (body ++ [x]) = body ++ [x] := by
  rw [trimIdle, List.reverse_append, List.reverse_singleton, List.singleton_append,
    List.dropWhile_cons_of_neg (by simp [hx]), List.reverse_cons, List.reverse_reverse]

theorem cons_ancestors {path : Path} {before : List Text} {x : Text}
    (h : segments path = before ++ [x]) (hx : isIdle x = false) :
    path :: ancestors path = chain (parts path).root (parts path).body.reverse := by
  obtain ⟨b, hb⟩ := exists_body_of_segments h hx
  have hpath : Parts.toPath ⟨(parts path).root, trimIdle (parts path).body⟩ = path := by
    rw [hb, trimIdle_concat hx, ← hb]
    exact toPath_parts path
  rw [chain, ancestors, List.reverse_reverse, hpath]

theorem parent?_append {base : Path} {before : List Text} {x name : Text}
    (h : segments base = before ++ [x]) (hx : isIdle x = false) (hname : '/' ∉ name)
    (hidle : isIdle name = false) : parent? (base ++ '/' :: name) = some base := by
  rw [parent?, ancestors, parts_append (ne_nil_of_segments h hx), segments_of_not_mem hname, List.reverse_append,
    List.reverse_singleton, List.singleton_append, ancestorsFrom, if_neg (by simp [hidle])]
  have := congrArg List.head? (cons_ancestors h hx)
  rw [List.head?_cons, chain, List.head?_cons] at this
  exact this.symm

theorem stem_of_segments {path : Path} {before : List Text} {x : Text}
    (h : segments path = before ++ [x]) (hx : IsDown x) : stem path = stemOfName x := by
  obtain ⟨b, hb⟩ := exists_body_of_segments h hx.1
  have hname : fileName? path = some x := by
    rw [fileName?, hb, trimIdle_concat hx.1, List.getLast?_concat]
    split
    · rename_i heq
      exact absurd (Option.some.inj heq) hx.2
    · rfl
  rw [stem, hname]

end Path

end Namespacing
