/-
Finite tables keyed by numbers.  The rows are kept in strictly ascending key
order and that order is part of the type, so two tables that answer every
look-up alike are equal and a listing needs no sorting.
-/

namespace SessionRaft

/-- A finite table from numbers to values, listed by ascending key. -/
structure Table (α : Type) where
  rows : List (Nat × α)
  ascending : rows.Pairwise (fun left right => left.1 < right.1)

namespace Table

variable {α β : Type}

instance [DecidableEq α] : DecidableEq (Table α) := fun left right =>
  if hrows : left.rows = right.rows then
    isTrue (by cases left; cases right; cases hrows; rfl)
  else
    isFalse (fun heq => hrows (heq ▸ rfl))

def empty : Table α := ⟨[], List.Pairwise.nil⟩

instance : Inhabited (Table α) := ⟨empty⟩

instance : EmptyCollection (Table α) := ⟨empty⟩

/-- The value of the first row of `key`. -/
def findRow (key : Nat) : List (Nat × α) → Option α
  | [] => none
  | row :: rest => if key = row.1 then some row.2 else findRow key rest

def get? (table : Table α) (key : Nat) : Option α :=
  findRow key table.rows

def contains (table : Table α) (key : Nat) : Bool :=
  (table.get? key).isSome

/-- The keys in ascending order. -/
def keys (table : Table α) : List Nat := table.rows.map (·.1)

/-- The values in the order of their keys. -/
def values (table : Table α) : List α := table.rows.map (·.2)

def size (table : Table α) : Nat := table.rows.length

def isEmpty (table : Table α) : Bool := table.rows.isEmpty

/-- Put a row into its place among ascending rows, replacing one of its key. -/
def insertRow (key : Nat) (value : α) : List (Nat × α) → List (Nat × α)
  | [] => [(key, value)]
  | row :: rest =>
      if key < row.1 then (key, value) :: row :: rest
      else if key = row.1 then (key, value) :: rest
      else row :: insertRow key value rest

theorem mem_insertRow {key : Nat} {value : α} {row : Nat × α}
    {rows : List (Nat × α)} (hrow : row ∈ insertRow key value rows) :
    row = (key, value) ∨ row ∈ rows := by
  induction rows with
  | nil => simpa [insertRow] using hrow
  | cons head tail ih =>
      by_cases hlt : key < head.1
      · simpa [insertRow, hlt] using hrow
      · by_cases heq : key = head.1
        · simp only [insertRow, heq, Nat.lt_irrefl, ↓reduceIte,
            List.mem_cons] at hrow
          rcases hrow with hrow | hrow
          · exact Or.inl (heq ▸ hrow)
          · exact Or.inr (List.mem_cons_of_mem head hrow)
        · simp only [insertRow, hlt, heq, ↓reduceIte, List.mem_cons] at hrow
          rcases hrow with hrow | hrow
          · exact Or.inr (hrow ▸ List.mem_cons_self)
          · exact (ih hrow).imp id (List.mem_cons_of_mem head)

theorem insertRow_ascending (key : Nat) (value : α) {rows : List (Nat × α)}
    (hrows : rows.Pairwise (fun left right => left.1 < right.1)) :
    (insertRow key value rows).Pairwise
      (fun left right => left.1 < right.1) := by
  induction rows with
  | nil => simp [insertRow]
  | cons head tail ih =>
      rw [List.pairwise_cons] at hrows
      obtain ⟨hhead, htail⟩ := hrows
      by_cases hlt : key < head.1
      · simp only [insertRow, hlt, ↓reduceIte, List.pairwise_cons,
          List.mem_cons]
        refine ⟨?_, hhead, htail⟩
        rintro row (rfl | hrow)
        · exact hlt
        · exact Nat.lt_trans hlt (hhead row hrow)
      · by_cases heq : key = head.1
        · simp only [insertRow, heq, Nat.lt_irrefl, ↓reduceIte,
            List.pairwise_cons]
          exact ⟨hhead, htail⟩
        · simp only [insertRow, hlt, heq, ↓reduceIte, List.pairwise_cons]
          refine ⟨fun row hrow => ?_, ih htail⟩
          rcases mem_insertRow hrow with rfl | hmem
          · exact Nat.lt_of_le_of_ne (Nat.le_of_not_lt hlt) (Ne.symm heq)
          · exact hhead row hmem

/-- Store `value` under `key`, replacing what was there. -/
def insert (table : Table α) (key : Nat) (value : α) : Table α :=
  ⟨insertRow key value table.rows, insertRow_ascending key value table.ascending⟩

def filter (keep : Nat → α → Bool) (table : Table α) : Table α :=
  ⟨table.rows.filter (fun row => keep row.1 row.2),
    table.ascending.sublist List.filter_sublist⟩

def erase (table : Table α) (key : Nat) : Table α :=
  table.filter (fun other _ => other != key)

/-- Keep the rows whose key is greater than `key`. -/
def above (table : Table α) (key : Nat) : Table α :=
  table.filter (fun other _ => decide (key < other))

def map (f : α → β) (table : Table α) : Table β :=
  ⟨table.rows.map (fun row => (row.1, f row.2)), by
    rw [List.pairwise_map]
    exact table.ascending⟩

/-- Replace the value under `key`, if there is one. -/
def modify (table : Table α) (key : Nat) (f : α → α) : Table α :=
  match table.get? key with
  | some value => table.insert key (f value)
  | none => table

def getD (table : Table α) (key : Nat) (fallback : α) : α :=
  (table.get? key).getD fallback

/-- The table that gives every key of a list the same value. -/
def ofKeys (keys : List Nat) (value : α) : Table α :=
  keys.foldl (fun table key => table.insert key value) empty

theorem findRow_insertRow (key other : Nat) (value : α)
    (rows : List (Nat × α)) :
    findRow other (insertRow key value rows) =
      if other = key then some value else findRow other rows := by
  induction rows with
  | nil => simp [insertRow, findRow]
  | cons head tail ih =>
      by_cases hlt : key < head.1
      · simp [insertRow, hlt, findRow]
      · by_cases heq : key = head.1
        · by_cases hkey : other = head.1 <;> simp [insertRow, heq, findRow, hkey]
        · by_cases hhead : other = head.1
          · have hne : ¬head.1 = key := fun h => heq h.symm
            simp [insertRow, hlt, heq, findRow, hhead, hne]
          · simp [insertRow, hlt, heq, findRow, hhead, ih]

@[simp] theorem get?_empty (key : Nat) : (empty : Table α).get? key = none := rfl

theorem get?_insert (table : Table α) (key other : Nat) (value : α) :
    (table.insert key value).get? other =
      if other = key then some value else table.get? other :=
  findRow_insertRow key other value table.rows

theorem get?_ofKeys (keys : List Nat) (value : α) (key : Nat) :
    (ofKeys keys value).get? key = if key ∈ keys then some value else none := by
  have hfold : ∀ table : Table α,
      (keys.foldl (fun table key => table.insert key value) table).get? key =
        if key ∈ keys then some value else table.get? key := by
    induction keys with
    | nil => simp
    | cons head tail ih =>
        intro table
        rw [List.foldl_cons, ih, get?_insert]
        by_cases htail : key ∈ tail <;> by_cases hhead : key = head <;>
          simp [htail, hhead]
  exact hfold empty

theorem findRow_eq_none_of_forall_lt {key : Nat} {rows : List (Nat × α)}
    (hrows : ∀ row ∈ rows, key < row.1) : findRow key rows = none := by
  induction rows with
  | nil => rfl
  | cons head tail ih =>
      have hne : ¬key = head.1 := Nat.ne_of_lt (hrows head List.mem_cons_self)
      simp [findRow, hne,
        ih (fun row hrow => hrows row (List.mem_cons_of_mem head hrow))]

theorem findRow_filter (keep : Nat → α → Bool) (key : Nat)
    {rows : List (Nat × α)}
    (hrows : rows.Pairwise (fun left right => left.1 < right.1)) :
    findRow key (rows.filter (fun row => keep row.1 row.2)) =
      (findRow key rows).filter (keep key) := by
  induction rows with
  | nil => rfl
  | cons head tail ih =>
      rw [List.pairwise_cons] at hrows
      obtain ⟨hhead, htail⟩ := hrows
      by_cases hkey : key = head.1
      · cases hkeep : keep head.1 head.2 with
        | true => simp [findRow, hkeep, hkey, Option.filter]
        | false =>
            have hnone : findRow head.1 tail = none :=
              findRow_eq_none_of_forall_lt hhead
            simp only [hkey] at ih
            simp [findRow, hkeep, hkey, ih htail, hnone, Option.filter]
      · cases hkeep : keep head.1 head.2 <;>
          simp [findRow, hkey, hkeep, ih htail]

theorem get?_filter (keep : Nat → α → Bool) (table : Table α) (key : Nat) :
    (table.filter keep).get? key = (table.get? key).filter (keep key) :=
  findRow_filter keep key table.ascending

theorem get?_erase (table : Table α) (key other : Nat) :
    (table.erase key).get? other =
      if other = key then none else table.get? other := by
  rw [erase, get?_filter]
  cases table.get? other <;> by_cases hkey : other = key <;> simp [hkey]

theorem get?_above (table : Table α) (key other : Nat) :
    (table.above key).get? other =
      if key < other then table.get? other else none := by
  rw [above, get?_filter]
  cases table.get? other <;> by_cases hkey : key < other <;> simp [hkey]

theorem get?_map (f : α → β) (table : Table α) (key : Nat) :
    (table.map f).get? key = (table.get? key).map f := by
  obtain ⟨rows, ascending⟩ := table
  simp only [map, get?]
  clear ascending
  induction rows with
  | nil => rfl
  | cons head tail ih => by_cases hkey : key = head.1 <;> simp [findRow, hkey, ih]

theorem get?_modify (table : Table α) (key other : Nat) (f : α → α) :
    (table.modify key f).get? other =
      if other = key then (table.get? other).map f else table.get? other := by
  unfold modify
  cases hget : table.get? key with
  | none => by_cases hkey : other = key <;> simp [hkey, hget]
  | some value =>
      by_cases hkey : other = key <;> simp [get?_insert, hkey, hget]

theorem findRow_eq_some_iff_mem {key : Nat} {value : α} {rows : List (Nat × α)}
    (hrows : rows.Pairwise (fun left right => left.1 < right.1)) :
    findRow key rows = some value ↔ (key, value) ∈ rows := by
  induction rows with
  | nil => simp [findRow]
  | cons head tail ih =>
      rw [List.pairwise_cons] at hrows
      obtain ⟨hhead, htail⟩ := hrows
      by_cases hkey : key = head.1
      · have hnot : ∀ other, (head.1, other) ∉ tail := fun other hmem =>
          Nat.lt_irrefl head.1 (hhead (head.1, other) hmem)
        simp [findRow, hkey, hnot, Prod.ext_iff, eq_comm]
      · simp [findRow, hkey, ih htail, Prod.ext_iff]

theorem get?_eq_some_iff (table : Table α) (key : Nat) (value : α) :
    table.get? key = some value ↔ (key, value) ∈ table.rows :=
  findRow_eq_some_iff_mem table.ascending

/-- Tables are determined by their look-ups. -/
theorem ext {left right : Table α}
    (hget : ∀ key, left.get? key = right.get? key) : left = right := by
  obtain ⟨leftRows, hleft⟩ := left
  obtain ⟨rightRows, hright⟩ := right
  suffices hrows : leftRows = rightRows by cases hrows; rfl
  simp only [get?] at hget
  induction leftRows generalizing rightRows with
  | nil =>
      cases rightRows with
      | nil => rfl
      | cons head tail => simpa [findRow] using hget head.1
  | cons head tail ih =>
      cases rightRows with
      | nil => simpa [findRow] using hget head.1
      | cons head' tail' =>
          have hmem : ∀ row, row ∈ head :: tail ↔ row ∈ head' :: tail' := by
            intro row
            rw [← findRow_eq_some_iff_mem hleft,
              ← findRow_eq_some_iff_mem hright, hget]
          rw [List.pairwise_cons] at hleft hright
          have hhead : head = head' := by
            rcases List.mem_cons.1 ((hmem head).1 List.mem_cons_self) with
              heq | hin
            · exact heq
            · rcases List.mem_cons.1 ((hmem head').2 List.mem_cons_self) with
                heq | hin'
              · exact heq.symm
              · exact absurd (Nat.lt_trans (hleft.1 head' hin')
                  (hright.1 head hin)) (Nat.lt_irrefl _)
          subst hhead
          have hrest : ∀ key, findRow key tail = findRow key tail' := by
            intro key
            by_cases hkey : key = head.1
            · rw [hkey, findRow_eq_none_of_forall_lt hleft.1,
                findRow_eq_none_of_forall_lt hright.1]
            · simpa [findRow, hkey] using hget key
          rw [ih hleft.2 tail' hright.2 hrest]

end Table

end SessionRaft
