import Namespacing.Proofs.FileSystem.Lookup
set_option autoImplicit false

open Namespacing.Path

namespace Namespacing

namespace FileSystem

variable {fs fs' : FileSystem}

structure Agrees (fs fs' : FileSystem) : Prop where
  workingDirectory : fs'.workingDirectory = fs.workingDirectory
  entry : ∀ place, fs'.get? place = fs.get? place

theorem Directory.at?_place (here : fs.Directory) : at? fs here.place = some here := by
  obtain ⟨there, hat, hplace⟩ := exists_at? here.isDirectory
  rw [hat, eq_of_place hplace]

theorem Directory.at?_eq_none {place : Location} (h : fs.isDirectory place = false) : at? fs place = none := by
  unfold at?
  split
  · rename_i children hnode
    have hthere : fs.isDirectory place = true := (⟨place, children, hnode⟩ : fs.Directory).isDirectory
    rw [h] at hthere
    cases hthere
  · rfl

theorem follow_entry {last : LastStep} {links : Nat} {here : fs.Directory} {x : Text} {rest : List Text}
    (hx : IsDown x) : follow last links here (x :: rest) =
      if stepOf last rest = .before then .ok (.named here.place x (!rest.isEmpty))
      else if maxNameSize < Text.utf8Size x then .error .nameTooLong
      else
        match fs.get? (x :: here.place) with
        | some (.link target) =>
          if stepOf last rest = .onto then .ok (.named here.place x (!rest.isEmpty))
          else
            match links with
            | 0 => .error .tooManyLinks
            | links + 1 => follow last links (here.behind target) (segments target ++ rest)
        | some .directory =>
          if rest.all List.isEmpty then .ok (.named here.place x (!rest.isEmpty))
          else follow last links ((Directory.at? fs (x :: here.place)).getD here) rest
        | some (.file _) =>
          if rest.all List.isEmpty then .ok (.named here.place x (!rest.isEmpty))
          else .error .notDirectory
        | none =>
          if rest.all List.isEmpty then .ok (.named here.place x (!rest.isEmpty))
          else .error .notFound := by
  rw [follow_down hx]
  congr 2
  have hentry := here.get?_cons x
  split <;> rename_i hlookup
  · rw [hentry.trans (congrArg _ hlookup)]
    rfl
  · have hat : Directory.at? fs (x :: here.place) = some (here.enter x hlookup) := (here.enter x hlookup).at?_place
    rw [hentry.trans (congrArg _ hlookup), hat]
    rfl
  · rw [hentry.trans (congrArg _ hlookup)]
    rfl
  · rw [hentry.trans (congrArg _ hlookup)]
    rfl

theorem Agrees.follow (h : Agrees fs fs') (last : LastStep) (links : Nat) (todo : List Text)
    (here : fs.Directory) (here' : fs'.Directory) (hplace : here'.place = here.place) :
    follow last links here' todo = follow last links here todo := by
  induction links using Nat.strongRecOn generalizing todo here here' with
  | ind links ihlinks =>
    induction todo generalizing here here' with
    | nil => rw [FileSystem.follow, FileSystem.follow, hplace]
    | cons x xs ih =>
      by_cases hidle : isIdle x = true
      · rw [follow_idle hidle, follow_idle hidle, ih here here' hplace]
      · by_cases hup : x = ['.', '.']
        · subst hup
          rw [follow_up, follow_up]
          exact ih _ _ (by rw [Directory.place_parent, Directory.place_parent, hplace])
        · have hx : IsDown x := ⟨by simpa using hidle, hup⟩
          rw [follow_entry hx, follow_entry hx, hplace, h.entry]
          congr 2
          split
          · congr 1
            cases links with
            | zero => rfl
            | succ links =>
              refine ihlinks links (Nat.lt_succ_self links) _ _ _ ?_
              rw [Directory.place_behind, Directory.place_behind, hplace]
          · rename_i hget
            congr 1
            obtain ⟨there, hat, hthere⟩ := exists_at? ((isDirectory_iff fs _).2 hget)
            obtain ⟨there', hat', hthere'⟩ := exists_at? ((isDirectory_iff fs' _).2 ((h.entry _).trans hget))
            rw [hat, hat']
            exact ih there there' (hthere'.trans hthere.symm)
          · rfl
          · rfl

theorem Agrees.isDirectory (h : Agrees fs fs') (place : Location) :
    fs'.isDirectory place = fs.isDirectory place := by
  rw [FileSystem.isDirectory, FileSystem.isDirectory, h.entry]

theorem Agrees.locate (h : Agrees fs fs') (last : LastStep) (path : Path) :
    fs'.locate last path = fs.locate last path := by
  unfold FileSystem.locate
  congr 3
  cases isAbsolute path with
  | true => exact h.follow _ _ _ _ _ rfl
  | false =>
    rw [if_neg Bool.false_ne_true, if_neg Bool.false_ne_true, h.workingDirectory]
    cases hthere : fs.isDirectory fs.workingDirectory with
    | true =>
      obtain ⟨start, hat, hstart⟩ := exists_at? hthere
      obtain ⟨start', hat', hstart'⟩ := exists_at? ((h.isDirectory _).trans hthere)
      rw [hat, hat']
      exact h.follow _ _ _ _ _ (hstart'.trans hstart.symm)
    | false => rw [Directory.at?_eq_none hthere, Directory.at?_eq_none ((h.isDirectory _).trans hthere)]

/-- Where a path leads does not depend on the order in which directories hold their entries. -/
theorem Agrees.stat (h : Agrees fs fs') (path : Path) : fs'.stat path = fs.stat path := by
  unfold FileSystem.stat
  rw [h.locate]
  cases fs.locate .target path with
  | error error => rfl
  | ok spot =>
    cases spot with
    | here place => rfl
    | named parent name slash => simp only [entryAt, h.entry]

end FileSystem

end Namespacing
