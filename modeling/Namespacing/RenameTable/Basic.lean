import Std.Data.HashMap
import Namespacing.Text.Basic
set_option autoImplicit false

/-!
# Rename tables

A rename table is a list of literals, each with its replacement, and no literal twice. Inserting a
literal again changes its replacement and keeps its place. `toList` is the view that every law is
stated through: `toList_insert` says that insertion is `upsert` on it. An index from literals to
places stands beside the list, and the type holds the proof that the two agree.
-/

namespace Namespacing

abbrev Rename := Text × Text

/-- Put a rename into a list: in place of the one with the same literal, or else at the end. -/
def upsert (renames : List Rename) (rename : Rename) : List Rename :=
  match renames with
  | [] => [rename]
  | r :: rs => if r.1 = rename.1 then rename :: rs else r :: upsert rs rename

/-- The renames in order, and the place of each literal. -/
structure RenameTable where
  entries : Array Rename
  index : Std.HashMap Text Nat
  index_eq : ∀ literal, index[literal]? = (entries.toList.map Prod.fst).idxOf? literal
  nodup : (entries.toList.map Prod.fst).Nodup

namespace RenameTable

def empty : RenameTable where
  entries := #[]
  index := ∅
  index_eq := by simp
  nodup := by simp

def toList (table : RenameTable) : List Rename := table.entries.toList

def size (table : RenameTable) : Nat := table.entries.size

def isEmpty (table : RenameTable) : Bool := table.entries.isEmpty

def literals (table : RenameTable) : List Text := table.toList.map Prod.fst

def position? (table : RenameTable) (literal : Text) : Option Nat := table.index[literal]?

def get? (table : RenameTable) (literal : Text) : Option Text :=
  match table.position? literal with
  | none => none
  | some i => (table.entries[i]?).map Prod.snd

theorem fst_set_of_idxOf? {renames : List Rename} {rename : Rename} {i : Nat}
    (h : (renames.map Prod.fst).idxOf? rename.1 = some i) :
    (renames.set i rename).map Prod.fst = renames.map Prod.fst := by
  induction renames generalizing i with
  | nil => simp at h
  | cons r rs ih =>
    rw [List.map_cons, List.idxOf?_cons] at h
    split at h
    · rename_i heq
      cases h
      simp_all
    · obtain ⟨j, hj, rfl⟩ := Option.map_eq_some_iff.1 h
      simp [ih hj]

theorem idxOf?_append_singleton {literals : List Text} {literal : Text} (other : Text)
    (h : literals.idxOf? literal = none) :
    (literals ++ [literal]).idxOf? other =
      if literal == other then some literals.length else literals.idxOf? other := by
  induction literals with
  | nil => by_cases h : literal = other <;> simp [List.idxOf?_cons, h]
  | cons a rest ih =>
    rw [List.idxOf?_cons] at h
    split at h
    · cases h
    · rename_i hne
      have hrest := ih (by simpa using h)
      by_cases ha : a = other
      · subst ha
        have hla : (literal == a) = false := by
          simp only [beq_eq_false_iff_ne, ne_eq]
          rintro rfl
          simp at hne
        simp [List.idxOf?_cons, hla]
      · by_cases hl : literal = other
        · simp_all [List.idxOf?_cons]
        · simp_all [List.idxOf?_cons]

def insert : RenameTable → Rename → RenameTable
  | ⟨entries, index, index_eq, nodup⟩, rename =>
    match h : index[rename.1]? with
    | some i =>
      { entries := entries.setIfInBounds i rename
        index
        index_eq := by
          rw [index_eq] at h
          simpa only [Array.toList_setIfInBounds, fst_set_of_idxOf? h] using index_eq
        nodup := by
          rw [index_eq] at h
          simpa only [Array.toList_setIfInBounds, fst_set_of_idxOf? h] using nodup }
    | none =>
      let place := entries.size
      { entries := entries.push rename
        index := index.insert rename.1 place
        index_eq := by
          intro literal
          rw [index_eq] at h
          simp only [Array.toList_push, List.map_append, List.map_cons, List.map_nil,
            idxOf?_append_singleton literal h, Std.HashMap.getElem?_insert, index_eq literal,
            List.length_map, Array.length_toList, place]
        nodup := by
          rw [index_eq] at h
          have hmem : rename.1 ∉ entries.toList.map Prod.fst := by simpa using h
          simp only [Array.toList_push, List.map_append, List.map_cons, List.map_nil]
          rw [List.nodup_append]
          refine ⟨nodup, by simp, ?_⟩
          intro a ha b hb
          simp only [List.mem_singleton] at hb
          rintro rfl
          exact hmem (hb ▸ ha) }

def insertAll (table : RenameTable) (renames : List Rename) : RenameTable :=
  renames.foldl insert table

theorem upsert_of_idxOf?_some {renames : List Rename} {rename : Rename} {i : Nat}
    (h : (renames.map Prod.fst).idxOf? rename.1 = some i) :
    upsert renames rename = renames.set i rename := by
  induction renames generalizing i with
  | nil => simp at h
  | cons r rs ih =>
    rw [List.map_cons, List.idxOf?_cons] at h
    split at h
    · rename_i heq
      cases h
      simp_all [upsert]
    · rename_i hne
      obtain ⟨j, hj, rfl⟩ := Option.map_eq_some_iff.1 h
      have hne : r.1 ≠ rename.1 := by simpa using hne
      simp [upsert, hne, ih hj]

theorem upsert_of_idxOf?_none {renames : List Rename} {rename : Rename}
    (h : (renames.map Prod.fst).idxOf? rename.1 = none) :
    upsert renames rename = renames ++ [rename] := by
  induction renames with
  | nil => rfl
  | cons r rs ih =>
    rw [List.map_cons, List.idxOf?_cons] at h
    split at h
    · cases h
    · rename_i hne
      have hne : r.1 ≠ rename.1 := by simpa using hne
      simp [upsert, hne, ih (by simpa using h)]

@[simp] theorem toList_empty : empty.toList = [] := rfl

@[simp] theorem toList_insert (table : RenameTable) (rename : Rename) :
    (table.insert rename).toList = upsert table.toList rename := by
  obtain ⟨entries, index, index_eq, nodup⟩ := table
  unfold insert toList
  dsimp only
  split
  · rename_i i h
    rw [index_eq] at h
    simp [upsert_of_idxOf?_some h]
  · rename_i h
    rw [index_eq] at h
    simp [upsert_of_idxOf?_none h]

theorem toList_insertAll (table : RenameTable) (renames : List Rename) :
    (table.insertAll renames).toList = renames.foldl upsert table.toList := by
  induction renames generalizing table with
  | nil => rfl
  | cons r rs ih => simpa [insertAll] using ih (table.insert r)

theorem size_eq_length (table : RenameTable) : table.size = table.toList.length := rfl

theorem position?_eq_idxOf? (table : RenameTable) (literal : Text) :
    table.position? literal = table.literals.idxOf? literal :=
  table.index_eq literal

theorem nodup_literals (table : RenameTable) : table.literals.Nodup := table.nodup

theorem snd_getElem?_of_idxOf? (renames : List Rename) (literal : Text) :
    (match (renames.map Prod.fst).idxOf? literal with
      | none => none
      | some i => (renames[i]?).map Prod.snd) = renames.lookup literal := by
  induction renames with
  | nil => rfl
  | cons r rs ih =>
    obtain ⟨p, q⟩ := r
    by_cases h : p = literal
    · subst h
      simp [List.idxOf?_cons]
    · have hlit : (literal == p) = false := by simpa using Ne.symm h
      have hp : (p == literal) = false := by simpa using h
      rw [List.map_cons, List.idxOf?_cons, List.lookup_cons, hlit, ← ih]
      simp only [hp]
      cases (rs.map Prod.fst).idxOf? literal <;> simp

theorem get?_eq_lookup (table : RenameTable) (literal : Text) :
    table.get? literal = table.toList.lookup literal := by
  rw [← snd_getElem?_of_idxOf?, get?, position?_eq_idxOf?]
  simp [literals, toList]

def applyRename (text : Text) (rename : Rename) : Text :=
  if Text.contains rename.1 text then Text.replaceAll rename.1 rename.2 text else text

theorem applyRename_eq_replaceAll (text : Text) (rename : Rename) :
    applyRename text rename = Text.replaceAll rename.1 rename.2 text := by
  unfold applyRename
  split
  · rfl
  · rename_i h
    exact (Text.replaceAll_of_not_contains (by simpa using h)).symm

/-- Apply every rename in order, each to what the ones before it left. -/
def substitute (table : RenameTable) (text : Text) : Text :=
  table.entries.foldl applyRename text

theorem substitute_eq_foldl (table : RenameTable) (text : Text) :
    table.substitute text = table.toList.foldl applyRename text := by
  simp [substitute, toList]

end RenameTable

end Namespacing
