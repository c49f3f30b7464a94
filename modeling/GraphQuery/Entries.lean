namespace GraphQuery

/-! Named entries in the order in which their names first appeared. A name that
is set again keeps its place and gets the new value. -/

abbrev Entries (α : Type) := List (String × α)

namespace Entries

variable {α : Type} {β : Type}

def get? (name : String) : Entries α → Option α
  | [] => none
  | (key, value) :: rest => if key = name then some value else get? name rest

def contains (name : String) (entries : Entries α) : Bool :=
  entries.any fun entry => entry.1 == name

def names (entries : Entries α) : List String := entries.map Prod.fst

def values (entries : Entries α) : List α := entries.map Prod.snd

def insert (name : String) (value : α) : Entries α → Entries α
  | [] => [(name, value)]
  | (key, old) :: rest =>
      if key = name then (name, value) :: rest else (key, old) :: insert name value rest

def ofList (entries : List (String × α)) : Entries α :=
  entries.foldl (fun collected entry => insert entry.1 entry.2 collected) []

theorem get?_nil (name : String) : get? name ([] : Entries α) = none := rfl

theorem get?_cons (name key : String) (value : α) (rest : Entries α) :
    get? name ((key, value) :: rest) = if key = name then some value else get? name rest :=
  rfl

theorem insert_nil (name : String) (value : α) : insert name value [] = [(name, value)] := rfl

theorem insert_cons (name key : String) (value old : α) (rest : Entries α) :
    insert name value ((key, old) :: rest) =
      if key = name then (name, value) :: rest else (key, old) :: insert name value rest :=
  rfl

theorem get?_insert_self (name : String) (value : α) (entries : Entries α) :
    get? name (insert name value entries) = some value := by
  induction entries with
  | nil => simp [insert_nil, get?_cons]
  | cons entry rest induction =>
      obtain ⟨key, old⟩ := entry
      by_cases same : key = name
      · simp [insert_cons, get?_cons, same]
      · simp [insert_cons, get?_cons, same, induction]

theorem get?_insert_of_ne {name other : String} (different : name ≠ other)
    (value : α) (entries : Entries α) :
    get? other (insert name value entries) = get? other entries := by
  induction entries with
  | nil => simp [insert_nil, get?_nil, get?_cons, different]
  | cons entry rest induction =>
      obtain ⟨key, old⟩ := entry
      by_cases same : key = name
      · subst same
        simp [insert_cons, get?_cons, different]
      · simp [insert_cons, get?_cons, same, induction]

theorem names_insert (name : String) (value : α) (entries : Entries α) :
    names (insert name value entries) =
      if name ∈ names entries then names entries else names entries ++ [name] := by
  induction entries with
  | nil => simp [insert_nil, names]
  | cons entry rest induction =>
      obtain ⟨key, old⟩ := entry
      by_cases same : key = name
      · simp [insert_cons, names, same]
      · simp only [names] at induction
        simp only [insert_cons, same, names, if_false, List.map_cons, induction, List.mem_cons]
        by_cases inside : name ∈ rest.map Prod.fst
        · simp [inside]
        · simp [inside, Ne.symm same]

theorem insert_of_not_mem {name : String} {value : α} {entries : Entries α}
    (fresh : name ∉ names entries) : insert name value entries = entries ++ [(name, value)] := by
  induction entries with
  | nil => rfl
  | cons entry rest induction =>
      obtain ⟨key, old⟩ := entry
      rw [names, List.map_cons, List.mem_cons, not_or] at fresh
      rw [insert_cons, if_neg (Ne.symm fresh.1), induction fresh.2, List.cons_append]

theorem mem_names_insert {name other : String} {value : α} {entries : Entries α} :
    other ∈ names (insert name value entries) ↔ other = name ∨ other ∈ names entries := by
  rw [names_insert]
  split
  · rename_i inside
    exact ⟨.inr, fun either => either.elim (fun same => same ▸ inside) id⟩
  · simp [or_comm]

theorem mem_of_get? {name : String} {value : α} {entries : Entries α}
    (found : get? name entries = some value) : (name, value) ∈ entries := by
  induction entries with
  | nil => cases found
  | cons entry rest induction =>
      rcases entry with ⟨key, other⟩
      by_cases same : key = name
      · simp only [get?_cons, same, if_true, Option.some.injEq] at found
        simp [same, found]
      · simp only [get?_cons, same, if_false] at found
        exact List.mem_cons_of_mem _ (induction found)

theorem mem_names_of_get? {name : String} {value : α} {entries : Entries α}
    (found : get? name entries = some value) : name ∈ names entries :=
  List.mem_map.mpr ⟨(name, value), mem_of_get? found, rfl⟩

theorem get?_of_mem {entries : Entries α} (distinct : (names entries).Nodup)
    {name : String} {value : α} (member : (name, value) ∈ entries) :
    get? name entries = some value := by
  induction entries with
  | nil => cases member
  | cons entry rest induction =>
      obtain ⟨key, other⟩ := entry
      rw [names, List.map_cons, List.nodup_cons] at distinct
      rcases List.mem_cons.mp member with same | member
      · cases same
        simp [get?_cons]
      · have different : key ≠ name := by
          rintro rfl
          exact distinct.1 (List.mem_map.mpr ⟨_, member, rfl⟩)
        rw [get?_cons, if_neg different]
        exact induction distinct.2 member

theorem nodup_insert {entries : Entries α} (distinct : (names entries).Nodup)
    (name : String) (value : α) : (names (insert name value entries)).Nodup := by
  rw [names_insert]
  split
  · exact distinct
  · rename_i fresh
    apply List.nodup_append.mpr
    refine ⟨distinct, List.pairwise_singleton _ _, ?_⟩
    intro other before last single
    rw [List.mem_singleton.mp single]
    rintro rfl
    exact fresh before

theorem get?_eq_none_iff {name : String} {entries : Entries α} :
    get? name entries = none ↔ name ∉ names entries := by
  induction entries with
  | nil => simp [get?_nil, names]
  | cons entry rest induction =>
      obtain ⟨key, value⟩ := entry
      simp only [names] at induction
      by_cases same : key = name
      · simp [get?_cons, names, same]
      · simp [get?_cons, names, same, induction, Ne.symm same]

theorem exists_get?_of_mem_names {name : String} {entries : Entries α}
    (member : name ∈ names entries) : ∃ value, get? name entries = some value :=
  Option.ne_none_iff_exists'.mp fun missing => get?_eq_none_iff.mp missing member

@[simp] theorem length_names (entries : Entries α) : (names entries).length = entries.length :=
  List.length_map _

theorem contains_iff {name : String} {entries : Entries α} :
    contains name entries = true ↔ name ∈ names entries := by
  simp [contains, names]

end Entries

end GraphQuery
