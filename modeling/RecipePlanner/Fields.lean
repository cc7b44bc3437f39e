/-!
# The fields of a record

A record is written by name, as members of which those with other names are passed over and no
known name stands twice, or in order, as a list of the values of its fields of which the last ones
may be missing. Both forms give one entry per field, in the order of the fields, empty where
nothing is written.
-/

namespace RecipePlanner.Fields

variable {α : Type}

/-- The values of the fields from named members. -/
def byName? (names : List String) (members : List (String × α)) : Option (List (Option α)) :=
  if names.any fun name => (members.countP fun (k, _) => k = name) > 1 then none
  else some (names.map fun name => List.lookup name members)

/-- The values of the fields from a list, which has no more items than there are fields. -/
def inOrder? (names : List String) (items : List α) : Option (List (Option α)) :=
  if items.length > names.length then none
  else some (items.map some ++ List.replicate (names.length - items.length) none)

end RecipePlanner.Fields
