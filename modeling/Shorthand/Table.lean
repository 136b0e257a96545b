/-!
# Tables

A table maps names to values and remembers the order in which the names came in.  Putting a value
under a name that is already there replaces the value and leaves the name where it was.  Snippets,
the members of a JSON object and the documents of a session are tables.

* `Table.get?_put_self`, `Table.get?_put_of_ne` : what a name holds after a value was put.
* `Table.names_put` : the order of the names after a value was put.
* `Table.get?_merge` : in a merged table the later entry wins.
-/

set_option autoImplicit false

namespace Shorthand

/-- Values under names, in the order in which the names came in. -/
abbrev Table (α : Type) := List (String × α)

namespace Table

variable {α : Type}

/-- The names, in order. -/
def names (t : Table α) : List String := t.map (·.1)

/-- The value under a name. -/
def get? (t : Table α) (name : String) : Option α := List.lookup name t

/-- Does the table have an entry of this name? -/
def has (t : Table α) (name : String) : Bool := (t.get? name).isSome

/-- Puts a value under a name: in its place if the name is there, else at the end. -/
def put (t : Table α) (name : String) (value : α) : Table α :=
  match t with
  | [] => [(name, value)]
  | (other, old) :: rest =>
    if name == other then (other, value) :: rest else (other, old) :: put rest name value

/-- Puts the entries of one table into another, one after the other. -/
def merge (t later : Table α) : Table α := later.foldl (fun t entry ↦ t.put entry.1 entry.2) t

/-- The table that results when entries are put one after the other. -/
def ofEntries (entries : List (String × α)) : Table α := merge [] entries

/-- The table without a name. -/
def remove (t : Table α) (name : String) : Table α := t.filter fun entry ↦ entry.1 != name

/-! ## What a name holds -/

@[simp] theorem get?_nil (name : String) : get? ([] : Table α) name = none := rfl

theorem get?_cons (entry : String × α) (t : Table α) (name : String) :
    get? (entry :: t) name = if name == entry.1 then some entry.2 else get? t name := by
  obtain ⟨other, value⟩ := entry
  rw [get?, List.lookup_cons]
  cases h : name == other <;> simp [get?]

theorem get?_put_self (t : Table α) (name : String) (value : α) :
    (t.put name value).get? name = some value := by
  induction t with
  | nil => simp [put, get?_cons]
  | cons entry t ih =>
    obtain ⟨other, old⟩ := entry
    rw [put]
    by_cases h : name = other
    · simp [h, get?_cons]
    · simp [h, get?_cons, ih]

theorem get?_put_of_ne (t : Table α) {name other : String} (value : α) (h : other ≠ name) :
    (t.put name value).get? other = t.get? other := by
  induction t with
  | nil => simp [put, get?_cons, h]
  | cons entry t ih =>
    obtain ⟨first, old⟩ := entry
    rw [put]
    by_cases hf : name = first
    · subst hf; simp [get?_cons, h]
    · simp [hf, get?_cons, ih]

/-- A value put under a known name moves nothing; a new name comes last. -/
theorem names_put (t : Table α) (name : String) (value : α) :
    (t.put name value).names = if name ∈ t.names then t.names else t.names ++ [name] := by
  induction t with
  | nil => simp [put, names]
  | cons entry t ih =>
    obtain ⟨other, old⟩ := entry
    rw [put]
    by_cases h : name = other
    · simp [h, names]
    · simp only [names] at ih
      by_cases hm : name ∈ t.map (·.1) <;> simp [h, hm, names, ih]

theorem get?_merge_cons (t later : Table α) (entry : String × α) :
    t.merge (entry :: later) = (t.put entry.1 entry.2).merge later := rfl

/-- In a merged table the later entry of a name wins. -/
theorem get?_merge (t later : Table α) (name : String) :
    (t.merge later).get? name = (get? later.reverse name).or (t.get? name) := by
  have happ : ∀ xs ys : Table α, get? (xs ++ ys) name = (get? xs name).or (get? ys name) := by
    intro xs ys
    induction xs with
    | nil => simp
    | cons entry xs ih =>
      rw [List.cons_append, get?_cons, get?_cons]
      split <;> simp [ih]
  induction later generalizing t with
  | nil => simp [merge]
  | cons entry later ih =>
    rw [get?_merge_cons, ih, List.reverse_cons, happ, Option.or_assoc]
    congr 1
    by_cases h : name = entry.1
    · subst h; simp [get?_put_self, get?_cons]
    · simp [get?_put_of_ne _ _ h, get?_cons, h]

end Table

end Shorthand
