/-!
# Ordered dictionaries

A dictionary is the list of its entries. Setting a key that is there keeps its place, and a new key
goes to the end, so a dictionary keeps the order of first sight.
-/

namespace ChainGuard

/-- Entries in the order of first sight of their keys. -/
abbrev Dict (α : Type) := List (String × α)

namespace Dict

variable {α β : Type}

def get? (d : Dict α) (key : String) : Option α :=
  d.lookup key

def has (d : Dict α) (key : String) : Bool :=
  (d.get? key).isSome

def set : Dict α → String → α → Dict α
  | [], key, value => [(key, value)]
  | (k, v) :: rest, key, value =>
    if k = key then (k, value) :: rest else (k, v) :: set rest key value

/-- The dictionary with further entries set, one after the other. -/
def update (d : Dict α) (entries : List (String × α)) : Dict α :=
  entries.foldl (fun acc entry => acc.set entry.1 entry.2) d

/-- The dictionary of a list of entries: of two entries for a key the later one counts. -/
def ofPairs (entries : List (String × α)) : Dict α :=
  update [] entries

def keys (d : Dict α) : List String :=
  d.map Prod.fst

def mapValues (f : α → β) (d : Dict α) : Dict β :=
  d.map fun entry => (entry.1, f entry.2)

end Dict

end ChainGuard
