import Namespacing.Proofs.Path.Steps
import Namespacing.Proofs.RenameTable.Entries
import Namespacing.Proofs.Token.Heredoc
set_option autoImplicit false

namespace Namespacing

open Text

namespace Manifest

variable {ns : Namespace} {container name : Text} {m : Manifest}

def entry (ns : Namespace) (container name : Text) : ManifestEntry :=
  ⟨name, container, ns.qualifyFunction container name⟩

def bridge (ns : Namespace) : Text :=
  "()".toList ++ leader ++ '\\' :: ns.functionsRoot ++ ['\\']

theorem line_entry (ns : Namespace) (container name : Text) :
    line (entry ns container name) = name ++ bridge ns ++ (container ++ "::".toList ++ name) := by
  simp [line, entry, bridge, Namespace.qualifyFunction]

/-- A function whose name is a word, in a container whose name is on one line. -/
structure IsListed (ns : Namespace) (e : ManifestEntry) : Prop where
  isIdentifier : isIdentifier e.function = true
  newline : '\n' ∉ e.file
  eq_entry : e = entry ns e.file e.function

/-- Read the entry at the front of a text, and give what stands behind its newline. -/
def readEntry (ns : Namespace) (text : Text) : ManifestEntry × Text :=
  let name := text.takeWhile isWordChar
  let behind := text.drop (name.length + (bridge ns).length)
  let method := behind.takeWhile (· != '\n')
  (entry ns (method.take (method.length - (name.length + 2))) name, behind.drop (method.length + 1))

theorem length_readEntry_lt (ns : Namespace) {text : Text} (h : text ≠ []) :
    (readEntry ns text).2.length < text.length := by
  have := List.length_pos_of_ne_nil h
  simp only [readEntry, List.length_drop]
  omega

def read (ns : Namespace) : Text → Manifest
  | [] => []
  | c :: s => (readEntry ns (c :: s)).1 :: read ns (readEntry ns (c :: s)).2
termination_by text => text.length
decreasing_by exact length_readEntry_lt ns (List.cons_ne_nil c s)

theorem newline_not_mem (hname : isIdentifier name = true) : '\n' ∉ name := by
  intro h
  have := isWordChar_of_mem hname h
  revert this
  decide

theorem readEntry_line (hname : isIdentifier name = true) (hcontainer : '\n' ∉ container) (rest : Text) :
    readEntry ns (line (entry ns container name) ++ '\n' :: rest) = (entry ns container name, rest) := by
  -- The name at the front stops at its parenthesis. It stands again before the newline, so its length tells
  -- where the container ends, even if that holds colons itself.
  have hfirst : (line (entry ns container name) ++ '\n' :: rest).takeWhile isWordChar = name := by
    rw [line_entry, bridge]
    simp only [List.append_assoc]
    exact Lexeme.takeWhile_append_of_stop (fun c => isWordChar_of_mem hname) rfl
  have hbehind : (line (entry ns container name) ++ '\n' :: rest).drop (name.length + (bridge ns).length) =
      container ++ "::".toList ++ name ++ '\n' :: rest := by
    rw [line_entry, List.append_assoc (name ++ bridge ns)]
    exact List.drop_left' (List.length_append)
  have hmethod : (container ++ "::".toList ++ name ++ '\n' :: rest).takeWhile (· != '\n') =
      container ++ "::".toList ++ name := by
    refine Lexeme.takeWhile_append_of_stop (fun c hc => ?_) rfl
    rw [bne_iff_ne]
    rintro rfl
    simp [hcontainer, newline_not_mem hname] at hc
  have hlength : (container ++ "::".toList ++ name).length - (name.length + 2) = container.length := by
    have hcolons : "::".toList.length = 2 := rfl
    simp only [List.length_append, hcolons]
    omega
  have hcut : (container ++ "::".toList ++ name).take container.length = container := by
    rw [List.append_assoc]
    exact List.take_left
  have hrest : (container ++ "::".toList ++ name ++ '\n' :: rest).drop
      ((container ++ "::".toList ++ name).length + 1) = rest := by
    rw [← List.drop_drop, List.drop_left, List.drop_one, List.tail_cons]
  simp only [readEntry, hfirst, hbehind, hmethod, hlength, hcut, hrest]

theorem render_cons (e : ManifestEntry) (m : Manifest) : render (e :: m) = line e ++ '\n' :: render m := by
  rw [render, render, List.flatMap_cons, List.append_assoc]
  rfl

theorem read_render (h : ∀ e ∈ m, IsListed ns e) : read ns (render m) = m := by
  induction m with
  | nil => rw [render, List.flatMap_nil, read]
  | cons e m ih =>
    have he := h e List.mem_cons_self
    have hfirst := @readEntry_line ns e.file e.function he.isIdentifier he.newline (render m)
    rw [← he.eq_entry, ← render_cons] at hfirst
    obtain ⟨c, s, hcons⟩ : ∃ c s, render (e :: m) = c :: s :=
      List.exists_cons_of_ne_nil (by rw [render_cons]; simp)
    rw [hcons] at hfirst ⊢
    rw [read, hfirst, ih fun e' he' => h e' (List.mem_cons_of_mem _ he')]

/-- A manifest has one line for each entry if none of these goes over several lines. -/
theorem splitOn_render_iff : splitOn '\n' (render m) = m.map line ++ [[]] ↔ ∀ e ∈ m, '\n' ∉ line e := by
  constructor
  · intro hlines e he
    refine @not_mem_of_mem_splitOn '\n' (render m) (line e) ?_
    rw [hlines]
    exact List.mem_append_left _ (List.mem_map_of_mem he)
  · intro h
    induction m with
    | nil => rfl
    | cons e m ih =>
      rw [render_cons, splitOn_append, splitOn_of_not_mem (h e List.mem_cons_self),
        ih fun e' he' => h e' (List.mem_cons_of_mem _ he')]
      rfl

theorem IsListed.newline_mem_line_iff {e : ManifestEntry} (h : IsListed ns e) :
    '\n' ∈ line e ↔ '\n' ∈ ns.root ∨ '\n' ∈ ns.functionsSegment := by
  have hname := newline_not_mem h.isIdentifier
  have hleader : '\n' ∉ leader := by decide
  rw [h.eq_entry, line_entry, bridge]
  simp [hname, h.newline, hleader, Namespace.functionsRoot]

end Manifest

namespace Symbols

def Listable (symbols : List Symbols) : Prop :=
  ∀ container names, .functions container names ∈ symbols →
    '\n' ∉ container ∧ ∀ name ∈ names, isIdentifier name = true

theorem Listable.isListed {ns : Namespace} {symbols : List Symbols} (h : Listable symbols) {e : ManifestEntry}
    (he : e ∈ symbols.flatMap (manifest ns)) : Manifest.IsListed ns e := by
  obtain ⟨σ, hσ, he⟩ := List.mem_flatMap.1 he
  cases σ with
  | globals => cases he
  | classLike => cases he
  | functions container names =>
    obtain ⟨name, hname, rfl⟩ := List.mem_map.1 he
    obtain ⟨hcontainer, hnames⟩ := h container names hσ
    exact ⟨hnames name hname, hcontainer, rfl⟩

end Symbols

namespace Manifest

/-- The manifest of symbols is read back from its text, so no other symbols have a manifest of the same text
that is not the same manifest. It has one line for each entry, in order and each with its newline, exactly
if it is empty or the namespace is on one line. -/
theorem read_back (ns : Namespace) (symbols : List Symbols) (h : Symbols.Listable symbols) :
    let m : Manifest := symbols.flatMap (Symbols.manifest ns)
    read ns (render m) = m ∧
      (splitOn '\n' (render m) = m.map line ++ [[]] ↔ m = [] ∨ '\n' ∉ ns.root ∧ '\n' ∉ ns.functionsSegment) ∧
      ∀ other : List Symbols, Symbols.Listable other → render (other.flatMap (Symbols.manifest ns)) = render m →
        other.flatMap (Symbols.manifest ns) = m := by
  intro m
  have hread : read ns (render m) = m := read_render fun e => h.isListed
  refine ⟨hread, ?_, fun other hother hsame => ?_⟩
  · rw [splitOn_render_iff]
    constructor
    · intro hlines
      rcases List.eq_nil_or_concat m with hm | ⟨earlier, e, hm⟩
      · exact Or.inl hm
      · have he : e ∈ m := by simp [hm]
        have hnone := (h.isListed he).newline_mem_line_iff.not.1 (hlines e he)
        exact Or.inr (not_or.1 hnone)
    · rintro (hm | hns) e he
      · rw [hm] at he
        cases he
      · exact (h.isListed he).newline_mem_line_iff.not.2 (not_or.2 hns)
  · have hagain : read ns (render (other.flatMap (Symbols.manifest ns))) = other.flatMap (Symbols.manifest ns) :=
      read_render fun e => hother.isListed
    rw [hsame, hread] at hagain
    exact hagain.symm

/-- A container that looks like the line of a manifest, and a function that is added twice or in two calls. -/
theorem read_back_lookalike :
    let ns : Namespace := ⟨"Lib".toList, "Functions".toList⟩
    let symbols : List Symbols := [.functions "u::f() ....................... \\Lib\\Functions\\u".toList ["f".toList],
      .functions "u".toList ["f".toList, "f".toList]]
    let other : List Symbols := [.functions "u::f() ....................... \\Lib\\Functions\\u".toList ["f".toList],
      .classLike "Widget".toList, .functions "u".toList ["f".toList], .functions "u".toList ["f".toList]]
    (Symbols.Listable symbols ∧ Symbols.Listable other ∧ '\n' ∉ ns.root ∧ '\n' ∉ ns.functionsSegment) ∧
      read ns (render (symbols.flatMap (Symbols.manifest ns))) = symbols.flatMap (Symbols.manifest ns) ∧
      (splitOn '\n' (render (symbols.flatMap (Symbols.manifest ns)))).length = 4 ∧
      other.flatMap (Symbols.manifest ns) = symbols.flatMap (Symbols.manifest ns) := by
  intro ns symbols other
  have hsymbols : Symbols.Listable symbols := by
    intro container names hσ
    simp only [symbols, List.mem_cons, List.not_mem_nil, or_false, Symbols.functions.injEq] at hσ
    rcases hσ with ⟨rfl, rfl⟩ | ⟨rfl, rfl⟩
    · decide
    · decide
  have hother : Symbols.Listable other := by
    intro container names hσ
    simp only [other, List.mem_cons, List.not_mem_nil, or_false, Symbols.functions.injEq, reduceCtorEq,
      false_or] at hσ
    rcases hσ with ⟨rfl, rfl⟩ | ⟨rfl, rfl⟩ | ⟨rfl, rfl⟩
    · decide
    · decide
    · decide
  have hns : '\n' ∉ ns.root ∧ '\n' ∉ ns.functionsSegment := by decide
  obtain ⟨hread, hlines, hsame⟩ := read_back ns symbols hsymbols
  refine ⟨⟨hsymbols, hother, hns⟩, hread, ?_, hsame other hother (by decide +kernel)⟩
  rw [hlines.2 (Or.inr hns)]
  rfl

/-- A namespace on two lines makes two lines of one entry. -/
theorem render_splits_entry :
    let ns : Namespace := ⟨"A\nB".toList, "F".toList⟩
    let symbols : List Symbols := [.functions "u".toList ["f".toList]]
    let m : Manifest := symbols.flatMap (Symbols.manifest ns)
    (Symbols.Listable symbols ∧ m.length = 1) ∧
      splitOn '\n' (render m) = ["f() ....................... \\A".toList, "B\\F\\u::f".toList, []] ∧
      ¬ splitOn '\n' (render m) = m.map line ++ [[]] := by
  refine ⟨⟨fun container names hσ => ?_, rfl⟩, by decide, by decide⟩
  obtain ⟨rfl, rfl⟩ := Symbols.functions.inj (List.mem_singleton.1 hσ)
  decide

end Manifest

end Namespacing
