/-! # Tables in insertion order

A table is a list of keys with their values. A new key goes to the end; a key that is there keeps
its place. Keys are compared by `==`, which need not be equality. -/

namespace TypeInliner

abbrev Table (κ ν : Type) := List (κ × ν)

namespace Table

variable {κ ν : Type} [BEq κ]

def find? (key : κ) : Table κ ν → Option ν
  | [] => none
  | (k, v) :: rest => if k == key then some v else find? key rest

/-- Sets the value of a key; a key that is there keeps its place and its spelling. -/
def insert (key : κ) (value : ν) : Table κ ν → Table κ ν
  | [] => [(key, value)]
  | (k, v) :: rest => if k == key then (k, value) :: rest else (k, v) :: insert key value rest

def erase (key : κ) : Table κ ν → Table κ ν
  | [] => []
  | (k, v) :: rest => if k == key then rest else (k, v) :: erase key rest

def contains (key : κ) (table : Table κ ν) : Bool := (find? key table).isSome

/-- Sets the values of all keys of a second table, one after another. -/
def insertAll (table others : Table κ ν) : Table κ ν :=
  others.foldl (fun table entry => insert entry.1 entry.2 table) table

end Table

/-- Appends the members of a second list that are not there yet, one after another. -/
def addNew {α : Type} [BEq α] (xs ys : List α) : List α :=
  ys.foldl (fun xs y => if xs.contains y then xs else xs ++ [y]) xs

end TypeInliner
