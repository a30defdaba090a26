import Namespacing.FileSystem.Operations
import Namespacing.Proofs.Path.Steps
set_option autoImplicit false

/-!
# Ways through a disk

`Walks` says that segments lead from one directory to another, through links, and how many links may
still be followed then. What `follow` answers on a path depends on the way to its last segment only
through the directory where that way ends.
-/

open Namespacing.Path

namespace Namespacing

namespace FileSystem

variable {fs : FileSystem}

theorem Directory.eq_of_place {a b : fs.Directory} (h : a.place = b.place) : a = b := by
  obtain ⟨p, c, hc⟩ := a
  obtain ⟨p', c', hc'⟩ := b
  obtain rfl : p = p' := h
  rw [hc] at hc'
  cases hc'
  rfl

theorem Directory.isDirectory (here : fs.Directory) : fs.isDirectory here.place = true := by
  rw [isDirectory_iff, get?, here.found]
  rfl

theorem exists_at? {place : Location} (h : fs.isDirectory place = true) :
    ∃ here : fs.Directory, Directory.at? fs place = some here ∧ here.place = place := by
  obtain ⟨children, hn⟩ := exists_node?_of_isDirectory h
  refine ⟨⟨place, children, hn⟩, ?_, rfl⟩
  unfold Directory.at?
  split
  · rename_i c hc
    rw [hn] at hc
    cases hc
    rfl
  · rename_i hno
    exact absurd hn (hno children)

theorem isDirectory_tail {place : Location} (h : fs.isDirectory place = true) :
    fs.isDirectory place.tail = true := by
  cases place with
  | nil => exact h
  | cons name parent => exact isDirectory_of_get?_cons ((isDirectory_iff fs _).1 h)

theorem Directory.place_parent (here : fs.Directory) : here.parent.place = here.place.tail := by
  obtain ⟨there, hat, hplace⟩ := exists_at? (isDirectory_tail here.isDirectory)
  rw [Directory.parent, hat]
  exact hplace

theorem Directory.get?_cons (here : fs.Directory) (name : Name) :
    fs.get? (name :: here.place) = (here.children.lookup name).map Node.entry := by
  rw [get?, here.lookup_children]

def Directory.behind (here : fs.Directory) (target : Path) : fs.Directory :=
  if isAbsolute target then root fs else here

theorem Directory.place_behind (here : fs.Directory) (target : Path) :
    (here.behind target).place = if isAbsolute target then [] else here.place := by
  rw [behind]
  split <;> rfl

section

variable {last : LastStep} {links : Nat} {here : fs.Directory} {x : Text} {rest : List Text}

theorem follow_idle (h : isIdle x = true) :
    follow last links here (x :: rest) = follow last links here rest := by
  rw [follow, if_pos h]

theorem follow_up :
    follow last links here (['.', '.'] :: rest) = follow last links here.parent rest := by
  rw [follow, if_neg (by decide), if_pos rfl]

/-- The way in which a name on a path is gone through. -/
def stepOf (last : LastStep) (rest : List Text) : Step :=
  if rest.all List.isEmpty then last.step (!rest.isEmpty) else .through

theorem follow_down (h : IsDown x) :
    follow last links here (x :: rest) =
      if stepOf last rest = .before then .ok (.named here.place x (!rest.isEmpty))
      else if maxNameSize < Text.utf8Size x then .error .nameTooLong
      else
        match h : here.children.lookup x with
        | some (.link target) =>
          if stepOf last rest = .onto then .ok (.named here.place x (!rest.isEmpty))
          else
            match links with
            | 0 => .error .tooManyLinks
            | links + 1 => follow last links (here.behind target) (segments target ++ rest)
        | some (.directory _) =>
          if rest.all List.isEmpty then .ok (.named here.place x (!rest.isEmpty))
          else follow last links (here.enter x h) rest
        | some (.file _) =>
          if rest.all List.isEmpty then .ok (.named here.place x (!rest.isEmpty))
          else .error .notDirectory
        | none =>
          if rest.all List.isEmpty then .ok (.named here.place x (!rest.isEmpty))
          else .error .notFound := by
  rw [follow, if_neg (by simp [h.1]), if_neg h.2]
  rfl

end

/-- What `follow` comes to when it does not fail. -/
inductive Follows (fs : FileSystem) (last : LastStep) : Nat → Location → List Text → Spot → Prop where
  | here {k : Nat} {p : Location} : Follows fs last k p [] (.here p)
  | idle {k : Nat} {p : Location} {x : Text} {xs : List Text} {spot : Spot} (h : isIdle x = true)
      (tail : Follows fs last k p xs spot) : Follows fs last k p (x :: xs) spot
  | up {k : Nat} {p : Location} {xs : List Text} {spot : Spot}
      (tail : Follows fs last k p.tail xs spot) : Follows fs last k p (['.', '.'] :: xs) spot
  | before {k : Nat} {p : Location} {x : Text} {xs : List Text} (hx : IsDown x)
      (h : stepOf last xs = .before) : Follows fs last k p (x :: xs) (.named p x (!xs.isEmpty))
  | stop {k : Nat} {p : Location} {x : Text} {xs : List Text} (hx : IsDown x)
      (hsize : Text.utf8Size x ≤ maxNameSize) (hlast : xs.all List.isEmpty = true)
      (h : ∀ target, fs.get? (x :: p) = some (.link target) → stepOf last xs = .onto) :
      Follows fs last k p (x :: xs) (.named p x (!xs.isEmpty))
  | enter {k : Nat} {p : Location} {x : Text} {xs : List Text} {spot : Spot} (hx : IsDown x)
      (hsize : Text.utf8Size x ≤ maxNameSize) (hrest : xs.all List.isEmpty = false)
      (h : fs.get? (x :: p) = some .directory) (tail : Follows fs last k (x :: p) xs spot) :
      Follows fs last k p (x :: xs) spot
  | link {k : Nat} {p : Location} {x : Text} {xs : List Text} {spot : Spot} {target : Path}
      (hx : IsDown x) (hsize : Text.utf8Size x ≤ maxNameSize) (hstep : stepOf last xs = .through)
      (h : fs.get? (x :: p) = some (.link target))
      (tail : Follows fs last k (if isAbsolute target then [] else p) (segments target ++ xs) spot) :
      Follows fs last (k + 1) p (x :: xs) spot

theorem stepOf_of_not_last {last : LastStep} {rest : List Text} (h : rest.all List.isEmpty = false) :
    stepOf last rest = .through := by
  simp [stepOf, h]

theorem stepOf_cases (last : LastStep) (rest : List Text) :
    stepOf last rest = .through ∨ rest.all List.isEmpty = true := by
  cases h : rest.all List.isEmpty with
  | false => exact Or.inl (stepOf_of_not_last h)
  | true => exact Or.inr rfl

theorem follows_of_follow_down {last : LastStep} {spot : Spot} {links : Nat} {here : fs.Directory}
    {x : Text} {xs : List Text} (hx : IsDown x)
    (hbelow : ∀ there : fs.Directory, follow last links there xs = .ok spot →
      Follows fs last links there.place xs spot)
    (hlinked : ∀ k, links = k + 1 → ∀ todo (there : fs.Directory), follow last k there todo = .ok spot →
      Follows fs last k there.place todo spot)
    (h : follow last links here (x :: xs) = .ok spot) :
    Follows fs last links here.place (x :: xs) spot := by
  rw [follow_down hx] at h
  split at h
  · rename_i hbefore
    cases h
    exact .before hx hbefore
  · rename_i hbefore
    split at h
    · cases h
    · rename_i hsize
      have hsize : Text.utf8Size x ≤ maxNameSize := Nat.le_of_not_lt hsize
      split at h
      · rename_i target hlookup
        have hget : fs.get? (x :: here.place) = some (.link target) := by
          rw [here.get?_cons, hlookup]
          rfl
        split at h
        · rename_i honto
          cases h
          refine .stop hx hsize ((stepOf_cases last xs).resolve_left ?_) fun _ _ => honto
          rw [honto]
          exact fun h => by cases h
        · rename_i honto
          have hstep : stepOf last xs = .through := by
            cases hs : stepOf last xs with
            | through => rfl
            | onto => exact absurd hs honto
            | before => exact absurd hs hbefore
          split at h
          · cases h
          · rename_i k
            have := hlinked k rfl _ _ h
            rw [here.place_behind] at this
            exact .link hx hsize hstep hget this
      · rename_i children hlookup
        have hget : fs.get? (x :: here.place) = some .directory := by
          rw [here.get?_cons, hlookup]
          rfl
        split at h
        · rename_i hlast
          cases h
          exact .stop hx hsize hlast fun t ht => by rw [hget] at ht; cases ht
        · rename_i hlast
          exact .enter hx hsize (by simpa using hlast) hget (hbelow _ h)
      · rename_i content hlookup
        have hget : fs.get? (x :: here.place) = some (.file content) := by
          rw [here.get?_cons, hlookup]
          rfl
        split at h
        · rename_i hlast
          cases h
          exact .stop hx hsize hlast fun t ht => by rw [hget] at ht; cases ht
        · cases h
      · rename_i hlookup
        have hget : fs.get? (x :: here.place) = none := by
          rw [here.get?_cons, hlookup]
          rfl
        split at h
        · rename_i hlast
          cases h
          exact .stop hx hsize hlast fun t ht => by rw [hget] at ht; cases ht
        · cases h

theorem follows_of_follow {last : LastStep} {spot : Spot} (links : Nat) (todo : List Text)
    (here : fs.Directory) (h : follow last links here todo = .ok spot) :
    Follows fs last links here.place todo spot := by
  -- Each link that is followed leaves one less, and each other step a shorter way.
  induction links using Nat.strongRecOn generalizing todo here with
  | ind links ihlinks =>
    induction todo generalizing here with
    | nil =>
      rw [follow] at h
      cases h
      exact .here
    | cons x xs ih =>
      by_cases hidle : isIdle x = true
      · rw [follow_idle hidle] at h
        exact .idle hidle (ih here h)
      · by_cases hup : x = ['.', '.']
        · subst hup
          rw [follow_up] at h
          have := ih here.parent h
          rw [here.place_parent] at this
          exact .up this
        · refine follows_of_follow_down ⟨by simpa using hidle, hup⟩ ih ?_ h
          rintro k rfl todo there
          exact ihlinks k (Nat.lt_succ_self k) todo there

theorem follow_of_follows {last : LastStep} {k : Nat} {p : Location} {todo : List Text} {spot : Spot}
    (h : Follows fs last k p todo spot) (here : fs.Directory) (hp : here.place = p) :
    follow last k here todo = .ok spot := by
  induction h generalizing here with
  | here => rw [follow, hp]
  | idle hidle _ ih => rw [follow_idle hidle, ih here hp]
  | up _ ih => rw [follow_up, ih here.parent (by rw [here.place_parent, hp])]
  | before hx hbefore => rw [follow_down hx, if_pos hbefore, hp]
  | @stop k p x xs hx hsize hlast hlink =>
    rw [follow_down hx, hp]
    split
    · rfl
    · rw [if_neg (Nat.not_lt.2 hsize)]
      split
      · rename_i target hlookup
        have hget : fs.get? (x :: p) = some (.link target) := by
          rw [← hp, here.get?_cons, hlookup]
          rfl
        rw [if_pos (hlink target hget)]
      all_goals rfl
  | @enter k p x xs spot hx hsize hrest hget _ ih =>
    have hstep : stepOf last xs = .through := stepOf_of_not_last hrest
    rw [follow_down hx, hstep, if_neg (by decide), if_neg (Nat.not_lt.2 hsize)]
    rw [← hp, here.get?_cons] at hget
    split
    · rename_i hlookup
      rw [hlookup] at hget
      cases hget
    · rename_i children hlookup
      rw [if_neg (by simp [hrest])]
      exact ih _ (by rw [← hp]; rfl)
    · rename_i hlookup
      rw [hlookup] at hget
      cases hget
    · rename_i hlookup
      rw [hlookup] at hget
      cases hget
  | @link k p x xs spot target hx hsize hstep hget _ ih =>
    rw [follow_down hx, hstep, if_neg (by decide), if_neg (Nat.not_lt.2 hsize)]
    rw [← hp, here.get?_cons] at hget
    split
    · rename_i t hlookup
      rw [hlookup] at hget
      cases hget
      rw [if_neg (by decide)]
      exact ih _ (by rw [here.place_behind, hp])
    all_goals
      rename_i hlookup
      rw [hlookup] at hget
      cases hget

/-- Segments lead from one directory to another; the numbers are those of the links that may be
followed before and behind. -/
inductive Walks (fs : FileSystem) : Nat → Location → List Text → Nat → Location → Prop where
  | nil {k : Nat} {p : Location} : Walks fs k p [] k p
  | idle {k k' : Nat} {p p' : Location} {x : Text} {xs : List Text} (h : isIdle x = true)
      (tail : Walks fs k p xs k' p') : Walks fs k p (x :: xs) k' p'
  | up {k k' : Nat} {p p' : Location} {xs : List Text} (tail : Walks fs k p.tail xs k' p') :
      Walks fs k p (['.', '.'] :: xs) k' p'
  | enter {k k' : Nat} {p p' : Location} {x : Text} {xs : List Text} (hx : IsDown x)
      (hsize : Text.utf8Size x ≤ maxNameSize) (h : fs.get? (x :: p) = some .directory)
      (tail : Walks fs k (x :: p) xs k' p') : Walks fs k p (x :: xs) k' p'
  | link {k k₁ k' : Nat} {p p₁ p' : Location} {x : Text} {xs : List Text} {target : Path}
      (hx : IsDown x) (hsize : Text.utf8Size x ≤ maxNameSize)
      (h : fs.get? (x :: p) = some (.link target))
      (head : Walks fs k (if isAbsolute target then [] else p) (segments target) k₁ p₁)
      (tail : Walks fs k₁ p₁ xs k' p') : Walks fs (k + 1) p (x :: xs) k' p'

section

variable {k k' k₁ k₂ : Nat} {p p' p₁ p₂ : Location} {xs ys : List Text}

theorem Walks.append (h : Walks fs k p xs k₁ p₁) (h' : Walks fs k₁ p₁ ys k' p') :
    Walks fs k p (xs ++ ys) k' p' := by
  induction h with
  | nil => exact h'
  | idle hidle _ ih => exact .idle hidle (ih h')
  | up _ ih => exact .up (ih h')
  | enter hx hsize hget _ ih => exact .enter hx hsize hget (ih h')
  | link hx hsize hget head _ _ ih => exact .link hx hsize hget head (ih h')

theorem Walks.split (h : Walks fs k p (xs ++ ys) k' p') :
    ∃ k₁ p₁, Walks fs k p xs k₁ p₁ ∧ Walks fs k₁ p₁ ys k' p' := by
  generalize hzs : xs ++ ys = zs at h
  induction h generalizing xs with
  | nil =>
    obtain ⟨rfl, rfl⟩ := List.append_eq_nil_iff.1 hzs
    exact ⟨_, _, .nil, .nil⟩
  | idle hidle tail ih =>
    cases xs with
    | nil => exact ⟨_, _, .nil, by rw [List.nil_append] at hzs; rw [hzs]; exact .idle hidle tail⟩
    | cons x xs =>
      obtain ⟨rfl, hrest⟩ := List.cons.inj hzs
      obtain ⟨k₁, p₁, h₁, h₂⟩ := ih hrest
      exact ⟨k₁, p₁, .idle hidle h₁, h₂⟩
  | up tail ih =>
    cases xs with
    | nil => exact ⟨_, _, .nil, by rw [List.nil_append] at hzs; rw [hzs]; exact .up tail⟩
    | cons x xs =>
      obtain ⟨rfl, hrest⟩ := List.cons.inj hzs
      obtain ⟨k₁, p₁, h₁, h₂⟩ := ih hrest
      exact ⟨k₁, p₁, .up h₁, h₂⟩
  | enter hx hsize hget tail ih =>
    cases xs with
    | nil =>
      exact ⟨_, _, .nil, by rw [List.nil_append] at hzs; rw [hzs]; exact .enter hx hsize hget tail⟩
    | cons x xs =>
      obtain ⟨rfl, hrest⟩ := List.cons.inj hzs
      obtain ⟨k₁, p₁, h₁, h₂⟩ := ih hrest
      exact ⟨k₁, p₁, .enter hx hsize hget h₁, h₂⟩
  | link hx hsize hget head tail _ ih =>
    cases xs with
    | nil =>
      refine ⟨_, _, .nil, ?_⟩
      rw [List.nil_append] at hzs
      rw [hzs]
      exact .link hx hsize hget head tail
    | cons x xs =>
      obtain ⟨rfl, hrest⟩ := List.cons.inj hzs
      obtain ⟨k₁, p₁, h₁, h₂⟩ := ih hrest
      exact ⟨k₁, p₁, .link hx hsize hget head h₁, h₂⟩

theorem not_isDown_of_isIdle {x : Text} (h : isIdle x = true) : ¬ IsDown x := by
  rintro ⟨hx, -⟩
  rw [h] at hx
  cases hx

theorem not_isDown_up : ¬ IsDown ['.', '.'] := fun h => h.2 rfl

theorem Walks.unique (h : Walks fs k p xs k₁ p₁) (h' : Walks fs k p xs k₂ p₂) : k₁ = k₂ ∧ p₁ = p₂ := by
  induction h generalizing k₂ p₂ with
  | nil =>
    cases h'
    exact ⟨rfl, rfl⟩
  | idle hidle _ ih =>
    cases h' with
    | idle _ tail => exact ih tail
    | up => cases hidle
    | enter hx => exact absurd hx (not_isDown_of_isIdle hidle)
    | link hx => exact absurd hx (not_isDown_of_isIdle hidle)
  | up _ ih =>
    cases h' with
    | idle hidle => cases hidle
    | up tail => exact ih tail
    | enter hx => exact absurd hx not_isDown_up
    | link hx => exact absurd hx not_isDown_up
  | enter hx _ hget _ ih =>
    cases h' with
    | idle hidle => exact absurd hx (not_isDown_of_isIdle hidle)
    | up => exact absurd hx not_isDown_up
    | enter _ _ _ tail => exact ih tail
    | link _ _ hget' =>
      rw [hget] at hget'
      cases hget'
  | link hx _ hget _ _ ihhead ih =>
    cases h' with
    | idle hidle => exact absurd hx (not_isDown_of_isIdle hidle)
    | up => exact absurd hx not_isDown_up
    | enter _ _ hget' =>
      rw [hget] at hget'
      cases hget'
    | link _ _ hget' head tail =>
      rw [hget] at hget'
      cases hget'
      obtain ⟨rfl, rfl⟩ := ihhead head
      exact ih tail

theorem Walks.isDirectory (h : Walks fs k p xs k' p') (hp : fs.isDirectory p = true) :
    fs.isDirectory p' = true := by
  induction h with
  | nil => exact hp
  | idle _ _ ih => exact ih hp
  | up _ ih => exact ih (isDirectory_tail hp)
  | enter _ _ hget _ ih => exact ih ((isDirectory_iff fs _).2 hget)
  | link _ _ _ _ _ ihhead ih =>
    apply ih
    apply ihhead
    split
    · rfl
    · exact hp

theorem walks_filter_iff :
    Walks fs k p (xs.filter fun x => !isIdle x) k' p' ↔ Walks fs k p xs k' p' := by
  constructor
  · intro h
    induction xs generalizing k p with
    | nil => exact h
    | cons x xs ih =>
      by_cases hidle : isIdle x = true
      · rw [List.filter_cons_of_neg (by simp [hidle])] at h
        exact .idle hidle (ih h)
      · rw [List.filter_cons_of_pos (by simp [hidle])] at h
        cases h with
        | idle hidle' => exact absurd hidle' hidle
        | up tail => exact .up (ih tail)
        | enter hx hsize hget tail => exact .enter hx hsize hget (ih tail)
        | link hx hsize hget head tail => exact .link hx hsize hget head (ih tail)
  · intro h
    induction h with
    | nil => exact .nil
    | idle hidle _ ih =>
      rw [List.filter_cons_of_neg (by simp [hidle])]
      exact ih
    | up _ ih => exact .up ih
    | enter hx hsize hget _ ih =>
      rw [List.filter_cons_of_pos (by simp [hx.1])]
      exact .enter hx hsize hget ih
    | link hx hsize hget head _ _ ih =>
      rw [List.filter_cons_of_pos (by simp [hx.1])]
      exact .link hx hsize hget head ih

/-- What stands behind a way is followed from the directory where the way ends. -/
theorem Walks.follow_append (h : Walks fs k p xs k' p') (here : fs.Directory) (hp : here.place = p)
    (hys : ys.all List.isEmpty = false) :
    ∃ there : fs.Directory, there.place = p' ∧
      ∀ last, follow last k here (xs ++ ys) = follow last k' there ys := by
  induction h generalizing here ys with
  | nil => exact ⟨here, hp, fun _ => rfl⟩
  | idle hidle _ ih =>
    obtain ⟨there, hplace, heq⟩ := ih here hp hys
    exact ⟨there, hplace, fun last => by rw [List.cons_append, follow_idle hidle, heq]⟩
  | up _ ih =>
    obtain ⟨there, hplace, heq⟩ := ih here.parent (by rw [here.place_parent, hp]) hys
    exact ⟨there, hplace, fun last => by rw [List.cons_append, follow_up, heq]⟩
  | @enter k k' p p' x xs hx hsize hget _ ih =>
    have hrest : (xs ++ ys).all List.isEmpty = false := by rw [List.all_append, hys, Bool.and_false]
    obtain ⟨next, -, hnext⟩ := exists_at? ((isDirectory_iff fs _).2 hget)
    obtain ⟨there, hplace, heq⟩ := ih next hnext hys
    refine ⟨there, hplace, fun last => ?_⟩
    rw [← heq, List.cons_append, follow_down hx, stepOf_of_not_last hrest, if_neg (by decide),
      if_neg (Nat.not_lt.2 hsize)]
    rw [← hp, here.get?_cons] at hget
    split
    · rename_i hlookup
      rw [hlookup] at hget
      cases hget
    · rw [if_neg (by simp [hrest])]
      rw [Directory.eq_of_place (a := here.enter x _) (b := next) (by rw [hnext, ← hp]; rfl)]
    all_goals
      rename_i hlookup
      rw [hlookup] at hget
      cases hget
  | @link k k₁ k' p p₁ p' x xs target hx hsize hget _ _ ihhead ih =>
    have hrest : (xs ++ ys).all List.isEmpty = false := by rw [List.all_append, hys, Bool.and_false]
    obtain ⟨middle, hmiddle, heq₁⟩ :=
      ihhead (here.behind target) (by rw [here.place_behind, hp]) hrest
    obtain ⟨there, hplace, heq₂⟩ := ih middle hmiddle hys
    refine ⟨there, hplace, fun last => ?_⟩
    rw [← heq₂, ← heq₁, List.cons_append, follow_down hx, stepOf_of_not_last hrest,
      if_neg (by decide), if_neg (Nat.not_lt.2 hsize)]
    rw [← hp, here.get?_cons] at hget
    split
    · rename_i t hlookup
      rw [hlookup] at hget
      cases hget
      rw [if_neg (by decide)]
    all_goals
      rename_i hlookup
      rw [hlookup] at hget
      cases hget

theorem Follows.split {last : LastStep} {spot : Spot} (h : Follows fs last k p (xs ++ ys) spot)
    (hys : ys.all List.isEmpty = false) :
    ∃ k₁ p₁, Walks fs k p xs k₁ p₁ ∧ Follows fs last k₁ p₁ ys spot := by
  have hall : ∀ zs : List Text, (zs ++ ys).all List.isEmpty = false := by
    intro zs
    rw [List.all_append, hys, Bool.and_false]
  generalize hzs : xs ++ ys = zs at h
  induction h generalizing xs with
  | here =>
    obtain ⟨-, rfl⟩ := List.append_eq_nil_iff.1 hzs
    cases hys
  | idle hidle tail ih =>
    cases xs with
    | nil =>
      obtain rfl : ys = _ := hzs
      exact ⟨_, _, .nil, .idle hidle tail⟩
    | cons y xs =>
      obtain ⟨rfl, hrest⟩ := List.cons.inj hzs
      obtain ⟨k₁, p₁, h₁, h₂⟩ := ih hrest
      exact ⟨k₁, p₁, .idle hidle h₁, h₂⟩
  | up tail ih =>
    cases xs with
    | nil =>
      obtain rfl : ys = _ := hzs
      exact ⟨_, _, .nil, .up tail⟩
    | cons y xs =>
      obtain ⟨rfl, hrest⟩ := List.cons.inj hzs
      obtain ⟨k₁, p₁, h₁, h₂⟩ := ih hrest
      exact ⟨k₁, p₁, .up h₁, h₂⟩
  | before hx hbefore =>
    cases xs with
    | nil =>
      obtain rfl : ys = _ := hzs
      exact ⟨_, _, .nil, .before hx hbefore⟩
    | cons y xs =>
      obtain ⟨rfl, rfl⟩ := List.cons.inj hzs
      have : stepOf last (xs.append ys) = .through := stepOf_of_not_last (hall xs)
      rw [hbefore] at this
      cases this
  | stop hx hsize hlast hlink =>
    cases xs with
    | nil =>
      obtain rfl : ys = _ := hzs
      exact ⟨_, _, .nil, .stop hx hsize hlast hlink⟩
    | cons y xs =>
      obtain ⟨rfl, rfl⟩ := List.cons.inj hzs
      have := hall xs
      change (xs.append ys).all List.isEmpty = false at this
      rw [hlast] at this
      cases this
  | enter hx hsize hrest hget tail ih =>
    cases xs with
    | nil =>
      obtain rfl : ys = _ := hzs
      exact ⟨_, _, .nil, .enter hx hsize hrest hget tail⟩
    | cons y xs =>
      obtain ⟨rfl, hrest⟩ := List.cons.inj hzs
      obtain ⟨k₁, p₁, h₁, h₂⟩ := ih hrest
      exact ⟨k₁, p₁, .enter hx hsize hget h₁, h₂⟩
  | @link k p x zs spot target hx hsize hstep hget tail ih =>
    cases xs with
    | nil =>
      obtain rfl : ys = _ := hzs
      exact ⟨_, _, .nil, .link hx hsize hstep hget tail⟩
    | cons y xs =>
      obtain ⟨rfl, hrest⟩ := List.cons.inj hzs
      have hrest' : (segments target ++ xs) ++ ys = segments target ++ zs := by
        rw [List.append_assoc]
        exact congrArg _ hrest
      obtain ⟨k₁, p₁, h₁, h₂⟩ := ih hrest'
      obtain ⟨k₂, p₂, hhead, htail⟩ := h₁.split
      exact ⟨k₁, p₁, .link hx hsize hget hhead htail, h₂⟩

theorem Walks.of_all_empty (h : xs.all List.isEmpty = true) : Walks fs k p xs k p := by
  induction xs with
  | nil => exact .nil
  | cons x xs ih =>
    rw [List.all_cons, Bool.and_eq_true] at h
    exact .idle (by simp [isIdle, h.1]) (ih h.2)

theorem stepOf_target (rest : List Text) : stepOf .target rest = .through := by
  unfold stepOf
  split <;> rfl

theorem Follows.walks {spot : Spot} (h : Follows fs .target k p xs spot)
    (hspot : fs.entryAt spot = .ok (p', .directory)) : ∃ k', Walks fs k p xs k' p' := by
  induction h with
  | here =>
    cases hspot
    exact ⟨_, .nil⟩
  | idle hidle _ ih => exact (ih hspot).imp fun _ h => .idle hidle h
  | up _ ih => exact (ih hspot).imp fun _ h => .up h
  | @before k p x zs hx hbefore =>
    rw [stepOf_target] at hbefore
    cases hbefore
  | @stop k p x zs hx hsize hlast hlink =>
    rw [entryAt] at hspot
    split at hspot
    · cases hspot
    · rename_i hget
      cases hspot
      exact ⟨k, .enter hx hsize hget (.of_all_empty hlast)⟩
    · rename_i entry hne hget
      split at hspot
      · cases hspot
      · cases hspot
        exact absurd rfl hne
  | enter hx hsize hrest hget _ ih => exact (ih hspot).imp fun _ h => .enter hx hsize hget h
  | link hx hsize hstep hget _ ih =>
    obtain ⟨k', h⟩ := ih hspot
    obtain ⟨k₁, p₁, hhead, htail⟩ := h.split
    exact ⟨k', .link hx hsize hget hhead htail⟩

theorem Walks.exists_follows (h : Walks fs k p xs k' p') :
    ∃ spot, Follows fs .target k p xs spot ∧ fs.entryAt spot = .ok (p', .directory) := by
  induction k using Nat.strongRecOn generalizing p xs with
  | ind k ihlinks =>
    induction xs generalizing p with
    | nil =>
      cases h
      exact ⟨_, .here, rfl⟩
    | cons x xs ih =>
      cases h with
      | idle hidle tail => exact (ih tail).imp fun _ h => ⟨.idle hidle h.1, h.2⟩
      | up tail => exact (ih tail).imp fun _ h => ⟨.up h.1, h.2⟩
      | enter hx hsize hget tail =>
        cases hrest : xs.all List.isEmpty with
        | false => exact (ih tail).imp fun _ h => ⟨.enter hx hsize hrest hget h.1, h.2⟩
        | true =>
          obtain ⟨-, rfl⟩ := tail.unique (.of_all_empty hrest)
          have hlink : ∀ t, fs.get? (x :: p) = some (.link t) → stepOf .target xs = .onto := by
            intro t ht
            rw [hget] at ht
            cases ht
          exact ⟨_, .stop hx hsize hrest hlink, by rw [entryAt, hget]⟩
      | @link j _ _ _ _ _ _ _ _ hx hsize hget head tail =>
        obtain ⟨spot, hfollows, hspot⟩ := ihlinks j (Nat.lt_succ_self j) (head.append tail)
        exact ⟨spot, .link hx hsize (stepOf_target xs) hget hfollows, hspot⟩

end

end FileSystem

end Namespacing
