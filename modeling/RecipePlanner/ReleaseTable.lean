import RecipePlanner.Release

/-!
# Tables keyed by release

One value per release, listed in ascending order. A key is sought from the smallest entry on, and
the search stops at the first entry whose key is equal to the sought one or comes after it; a new
entry is put where the search stops.
-/

namespace RecipePlanner

/-- A table from releases to values, smallest release first. -/
structure ReleaseTable (α : Type) where
  entries : List (Release × α)
  deriving Repr

namespace ReleaseTable

variable {α : Type}

/-- The table without entries. -/
def empty : ReleaseTable α := ⟨[]⟩

/-- The value of `key` in a list of entries. -/
def findIn (key : Release) : List (Release × α) → Option α
  | [] => none
  | (k, v) :: rest =>
    match key.compare k with
    | .gt => findIn key rest
    | .eq => some v
    | .lt => none

/-- The entries with the value of `key` set to `value`. -/
def insertIn (key : Release) (value : α) : List (Release × α) → List (Release × α)
  | [] => [(key, value)]
  | (k, v) :: rest =>
    match key.compare k with
    | .gt => (k, v) :: insertIn key value rest
    | .eq => (k, value) :: rest
    | .lt => (key, value) :: (k, v) :: rest

/-- The value of `key` that setting it to `value` replaces, if any, and the entries that result, both
from one search. -/
def exchangeIn (key : Release) (value : α) :
    List (Release × α) → Option α × List (Release × α)
  | [] => (none, [(key, value)])
  | (k, v) :: rest =>
    match key.compare k with
    | .gt => ((exchangeIn key value rest).1, (k, v) :: (exchangeIn key value rest).2)
    | .eq => (some v, (k, value) :: rest)
    | .lt => (none, (key, value) :: (k, v) :: rest)

/-- The value of `key`, if the table has one. -/
def get? (t : ReleaseTable α) (key : Release) : Option α := findIn key t.entries

/-- The table with the value of `key` set to `value`. -/
def insert (t : ReleaseTable α) (key : Release) (value : α) : ReleaseTable α :=
  ⟨insertIn key value t.entries⟩

/-- The value of `key` that setting it to `value` replaces, if any, and the table that results. -/
def exchange (t : ReleaseTable α) (key : Release) (value : α) : Option α × ReleaseTable α :=
  ((exchangeIn key value t.entries).1, ⟨(exchangeIn key value t.entries).2⟩)

/-- The releases in ascending order. -/
def releases (t : ReleaseTable α) : List Release := t.entries.map (·.1)

/-- The last entry. -/
def latest? (t : ReleaseTable α) : Option (Release × α) := t.entries.getLast?

theorem exchangeIn_eq (key : Release) (value : α) (es : List (Release × α)) :
    exchangeIn key value es = (findIn key es, insertIn key value es) := by
  induction es with
  | nil => rfl
  | cons e rest ih =>
    obtain ⟨k, v⟩ := e
    rw [exchangeIn, findIn, insertIn, ih]
    cases key.compare k <;> rfl

/-- The value that is replaced is the one that a search finds beforehand. -/
theorem exchange_eq (t : ReleaseTable α) (key : Release) (value : α) :
    t.exchange key value = (t.get? key, t.insert key value) := by
  rw [exchange, exchangeIn_eq, get?, insert]

end ReleaseTable

end RecipePlanner
