import Namespacing.Path
set_option autoImplicit false

namespace Namespacing

abbrev Name := Text

/-- A name is a segment of a path that leads somewhere: it is not empty, has no slash, and is neither
one dot nor two. -/
def isName (name : Text) : Bool :=
  !name.isEmpty && !List.contains name '/' && name != ['.'] && name != ['.', '.']

inductive Entry where
  | directory
  | file (content : Bytes)
  | link (target : Path)
  deriving DecidableEq, Repr

inductive Node where
  | directory (children : List (Name × Node))
  | file (content : Bytes)
  | link (target : Path)

namespace Node

def entry : Node → Entry
  | .directory _ => .directory
  | .file content => .file content
  | .link target => .link target

def ofEntry : Entry → Node
  | .directory => .directory []
  | .file content => .file content
  | .link target => .link target

@[simp] theorem entry_ofEntry (entry : Entry) : (ofEntry entry).entry = entry := by
  cases entry <;> rfl

def eraseChild (name : Name) (children : List (Name × Node)) : List (Name × Node) :=
  children.filter fun child => child.1 != name

def setChild (name : Name) (node : Node) (children : List (Name × Node)) : List (Name × Node) :=
  (name, node) :: eraseChild name children

def descend? : Node → List Name → Option Node
  | node, [] => some node
  | .directory children, name :: rest =>
    match children.lookup name with
    | some node => node.descend? rest
    | none => none
  | .file _, _ :: _ => none
  | .link _, _ :: _ => none

/-- Change the children of the directory that names lead to; nothing changes if they lead to none. -/
def updateChildren (change : List (Name × Node) → List (Name × Node)) :
    List Name → List (Name × Node) → List (Name × Node)
  | [], children => change children
  | name :: rest, children =>
    match children.lookup name with
    | some (.directory below) => setChild name (.directory (updateChildren change rest below)) children
    | _ => children

mutual

def entriesBelow : Node → List (List Name × Entry)
  | .directory children => entriesOfEach children
  | .file _ => []
  | .link _ => []

def entriesOfEach : List (Name × Node) → List (List Name × Entry)
  | [] => []
  | (name, node) :: rest =>
    ([name], node.entry) :: (entriesBelow node).map (fun (names, entry) => (name :: names, entry)) ++
      entriesOfEach rest

end

theorem lookup_filter {α β : Type} [BEq α] [LawfulBEq α] (pairs : List (α × β)) (keep : α → Bool)
    (key : α) :
    (pairs.filter fun pair => keep pair.1).lookup key =
      if keep key then pairs.lookup key else none := by
  induction pairs with
  | nil => simp
  | cons pair rest ih =>
    obtain ⟨k, v⟩ := pair
    by_cases hl : key = k
    · subst hl
      by_cases hk : keep key = true
      · simp [hk]
      · have hk' : keep key = false := by simpa using hk
        simp [hk', ih]
    · have hb : (key == k) = false := by simpa using hl
      by_cases hk : keep k = true
      · simp [hk, hb, List.lookup_cons, ih]
      · have hk' : keep k = false := by simpa using hk
        simp [hk', hb, List.lookup_cons, ih]

theorem mem_of_lookup {α β : Type} [BEq α] [LawfulBEq α] {pairs : List (α × β)} {key : α} {value : β}
    (h : pairs.lookup key = some value) : (key, value) ∈ pairs := by
  induction pairs with
  | nil => simp at h
  | cons pair rest ih =>
    obtain ⟨k, v⟩ := pair
    rw [List.lookup_cons] at h
    split at h
    · rename_i heq
      cases h
      have : key = k := by simpa using heq
      simp [this]
    · exact List.mem_cons_of_mem _ (ih h)

@[simp] theorem lookup_eraseChild_self (name : Name) (children : List (Name × Node)) :
    (eraseChild name children).lookup name = none := by
  rw [eraseChild, lookup_filter children (fun n => n != name)]
  simp

theorem lookup_eraseChild_of_ne {name other : Name} (h : other ≠ name)
    (children : List (Name × Node)) :
    (eraseChild name children).lookup other = children.lookup other := by
  rw [eraseChild, lookup_filter children (fun n => n != name)]
  simp [h]

@[simp] theorem lookup_setChild_self (name : Name) (node : Node) (children : List (Name × Node)) :
    (setChild name node children).lookup name = some node := by
  simp [setChild]

theorem lookup_setChild_of_ne {name other : Name} (h : other ≠ name) (node : Node)
    (children : List (Name × Node)) :
    (setChild name node children).lookup other = children.lookup other := by
  have hb : (other == name) = false := by simpa using h
  rw [setChild, List.lookup_cons, hb]
  exact lookup_eraseChild_of_ne h children

theorem descend?_directory_cons (children : List (Name × Node)) (name : Name) (rest : List Name) :
    (directory children).descend? (name :: rest) =
      (children.lookup name).bind (descend? · rest) := by
  rw [descend?]
  cases children.lookup name <;> rfl

theorem descend?_append (node : Node) (first second : List Name) :
    node.descend? (first ++ second) = (node.descend? first).bind (descend? · second) := by
  induction first generalizing node with
  | nil => cases node <;> rfl
  | cons name rest ih =>
    cases node with
    | directory children =>
      rw [List.cons_append, descend?_directory_cons, descend?_directory_cons]
      cases children.lookup name with
      | none => rfl
      | some child => exact ih child
    | file content => rfl
    | link target => rfl

theorem descend?_append_cons_eq_none {node : Node} {names : List Name}
    (h : (node.descend? names).map entry ≠ some .directory) (name : Name) (rest : List Name) :
    node.descend? (names ++ name :: rest) = none := by
  rw [descend?_append]
  cases hd : node.descend? names with
  | none => rfl
  | some found =>
    cases found with
    | directory children => simp [hd, entry] at h
    | file content => rfl
    | link target => rfl

/-- A change of the children of a directory leaves everything that is not below it. -/
theorem entry_descend?_updateChildren (change : List (Name × Node) → List (Name × Node))
    {names other : List Name} (h : ∀ name rest, other ≠ names ++ name :: rest)
    (children : List (Name × Node)) :
    ((directory (updateChildren change names children)).descend? other).map entry =
      ((directory children).descend? other).map entry := by
  induction names generalizing other children with
  | nil =>
    cases other with
    | nil => rfl
    | cons name rest => exact absurd rfl (h name rest)
  | cons name rest ih =>
    cases other with
    | nil => rfl
    | cons name' rest' =>
      rw [updateChildren]
      split
      · rename_i below hl
        rw [descend?_directory_cons, descend?_directory_cons]
        by_cases hn : name' = name
        · subst hn
          rw [lookup_setChild_self, hl]
          refine ih (fun n r hr => h n r ?_) below
          rw [hr, List.cons_append]
        · rw [lookup_setChild_of_ne hn]
      · rfl

theorem descend?_updateChildren_append (change : List (Name × Node) → List (Name × Node))
    {names : List Name} {children below : List (Name × Node)}
    (h : (directory children).descend? names = some (directory below)) (name : Name)
    (rest : List Name) :
    (directory (updateChildren change names children)).descend? (names ++ name :: rest) =
      (directory (change below)).descend? (name :: rest) := by
  induction names generalizing children with
  | nil =>
    cases h
    rfl
  | cons first others ih =>
    rw [descend?_directory_cons] at h
    cases hl : children.lookup first with
    | none => simp [hl] at h
    | some child =>
      rw [hl, Option.bind_some] at h
      cases child with
      | directory inner =>
        rw [updateChildren, hl, List.cons_append, descend?_directory_cons]
        dsimp only
        rw [lookup_setChild_self, Option.bind_some]
        exact ih h
      | file content => cases others <;> simp [descend?] at h
      | link target => cases others <;> simp [descend?] at h

/-- Every directory at a node or below it has distinct proper names. -/
def Sound (node : Node) : Prop :=
  ∀ names children, node.descend? names = some (directory children) →
    (children.map Prod.fst).Nodup ∧ ∀ name ∈ children.map Prod.fst, isName name = true

theorem sound_directory_iff {children : List (Name × Node)} :
    (directory children).Sound ↔
      ((children.map Prod.fst).Nodup ∧ ∀ name ∈ children.map Prod.fst, isName name = true) ∧
      ∀ name node, children.lookup name = some node → node.Sound := by
  constructor
  · intro h
    refine ⟨h [] children rfl, ?_⟩
    intro name node hl names below hd
    refine h (name :: names) below ?_
    rw [descend?_directory_cons, hl]
    exact hd
  · rintro ⟨hc, hbelow⟩ names below hd
    cases names with
    | nil =>
      cases hd
      exact hc
    | cons name rest =>
      rw [descend?_directory_cons] at hd
      cases hl : children.lookup name with
      | none => simp [hl] at hd
      | some node =>
        rw [hl] at hd
        exact hbelow name node hl rest below hd

theorem sound_directory_nil : (directory []).Sound := by
  rw [sound_directory_iff]
  simp

theorem sound_ofEntry (entry : Entry) : (ofEntry entry).Sound := by
  cases entry with
  | directory => exact sound_directory_nil
  | file content => intro names children h; cases names <;> simp [ofEntry, descend?] at h
  | link target => intro names children h; cases names <;> simp [ofEntry, descend?] at h

theorem sound_eraseChild {children : List (Name × Node)} (name : Name)
    (h : (directory children).Sound) : (directory (eraseChild name children)).Sound := by
  rw [sound_directory_iff] at h ⊢
  obtain ⟨⟨hnodup, hnames⟩, hbelow⟩ := h
  have hsub : ((eraseChild name children).map Prod.fst).Sublist (children.map Prod.fst) :=
    List.filter_sublist.map _
  refine ⟨⟨hnodup.sublist hsub, fun n hn => hnames n (hsub.subset hn)⟩, ?_⟩
  intro other node hl
  by_cases ho : other = name
  · simp [ho] at hl
  · exact hbelow other node (by rw [← hl, lookup_eraseChild_of_ne ho])

theorem sound_setChild {children : List (Name × Node)} {name : Name} {node : Node}
    (hn : isName name = true) (hs : node.Sound) (h : (directory children).Sound) :
    (directory (setChild name node children)).Sound := by
  have he := sound_directory_iff.1 (sound_eraseChild name h)
  rw [sound_directory_iff]
  refine ⟨⟨?_, ?_⟩, ?_⟩
  · rw [setChild, List.map_cons, List.nodup_cons]
    refine ⟨?_, he.1.1⟩
    intro hmem
    obtain ⟨child, hc, heq⟩ := List.mem_map.1 hmem
    have := (List.mem_filter.1 hc).2
    simp [heq] at this
  · intro n hmem
    rw [setChild, List.map_cons, List.mem_cons] at hmem
    rcases hmem with rfl | hmem
    · exact hn
    · exact he.1.2 n hmem
  · intro other found hl
    by_cases ho : other = name
    · subst ho
      rw [lookup_setChild_self] at hl
      cases hl
      exact hs
    · rw [lookup_setChild_of_ne ho] at hl
      exact (sound_directory_iff.1 h).2 other found hl

theorem sound_updateChildren {change : List (Name × Node) → List (Name × Node)}
    (hc : ∀ children, (directory children).Sound → (directory (change children)).Sound)
    (names : List Name) {children : List (Name × Node)} (h : (directory children).Sound) :
    (directory (updateChildren change names children)).Sound := by
  induction names generalizing children with
  | nil => exact hc children h
  | cons name rest ih =>
    rw [updateChildren]
    split
    · rename_i below hl
      have hs := sound_directory_iff.1 h
      refine sound_setChild (hs.1.2 name ?_) (ih (hs.2 name _ hl)) h
      exact List.mem_map.2 ⟨_, mem_of_lookup hl, rfl⟩
    · exact h

end Node

end Namespacing
