/-! # Tables keyed by names

A table gives each of finitely many names one entry. Its entries are kept in increasing order of
their names, so two tables that answer every lookup alike are listed alike.

`find?_insert` says what an insertion changes, `find?_insertNew` what a write-once insertion
changes.
-/

namespace CallByNeed
set_option autoImplicit false

/-- Names with one entry each, in increasing order of the names. -/
structure Table (α : Type) where
  entries : List (String × α) := []

namespace Table

variable {α : Type}

def empty : Table α := ⟨[]⟩

def findEntry (name : String) : List (String × α) → Option α
  | [] => none
  | (other, entry) :: rest => if name = other then some entry else findEntry name rest

def find? (table : Table α) (name : String) : Option α :=
  findEntry name table.entries

/-- Puts an entry at its place in an ordered list of entries, in place of an earlier entry of the
same name. -/
def insertEntry (name : String) (entry : α) : List (String × α) → List (String × α)
  | [] => [(name, entry)]
  | (other, old) :: rest =>
      if name = other then (name, entry) :: rest
      else if name < other then (name, entry) :: (other, old) :: rest
      else (other, old) :: insertEntry name entry rest

/-- Gives a name its entry, whatever it had before. -/
def insert (table : Table α) (name : String) (entry : α) : Table α :=
  ⟨insertEntry name entry table.entries⟩

/-- Gives a name its entry unless it has one already. -/
def insertNew (table : Table α) (name : String) (entry : α) : Table α :=
  match table.find? name with
  | some _ => table
  | none => table.insert name entry

/-- The table of a list of entries, where a later entry of a name replaces an earlier one. -/
def ofList (entries : List (String × α)) : Table α :=
  entries.foldl (fun table entry => table.insert entry.1 entry.2) empty

def size (table : Table α) : Nat :=
  table.entries.length

def names (table : Table α) : List String :=
  table.entries.map Prod.fst

@[simp] theorem find?_empty (name : String) : (empty : Table α).find? name = none := rfl

theorem findEntry_insertEntry (name other : String) (entry : α) (entries : List (String × α)) :
    findEntry other (insertEntry name entry entries) =
      if other = name then some entry else findEntry other entries := by
  induction entries with
  | nil => rfl
  | cons head rest ih =>
    obtain ⟨first, old⟩ := head
    rw [insertEntry]
    by_cases hf : name = first
    · rw [if_pos hf, findEntry, findEntry]
      by_cases ho : other = name
      · rw [if_pos ho, if_pos ho]
      · rw [if_neg ho, if_neg ho, if_neg (hf ▸ ho)]
    · rw [if_neg hf]
      by_cases hl : name < first
      · rw [if_pos hl]
        rfl
      · rw [if_neg hl, findEntry, findEntry, ih]
        by_cases ho : other = name
        · have hne : ¬other = first := ho ▸ hf
          rw [if_neg hne, if_pos ho, if_pos ho]
        · rw [if_neg ho, if_neg ho]

theorem find?_insert (table : Table α) (name other : String) (entry : α) :
    (table.insert name entry).find? other =
      if other = name then some entry else table.find? other :=
  findEntry_insertEntry name other entry table.entries

theorem find?_insertNew (table : Table α) (name other : String) (entry : α) :
    (table.insertNew name entry).find? other =
      if other = name then some ((table.find? name).getD entry) else table.find? other := by
  unfold insertNew
  cases h : table.find? name with
  | none => exact find?_insert table name other entry
  | some old =>
    by_cases ho : other = name
    · rw [if_pos ho, ho, h]
      rfl
    · rw [if_neg ho]

end Table
end CallByNeed
