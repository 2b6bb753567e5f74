/-!
# `Formula.Value.Properties`: named properties in order

The properties of an object are pairs of a name and a value with the
names in increasing order and no name twice, so that two property lists
with the same content are the same list.
-/

set_option autoImplicit false

namespace Formula.Properties

variable {α : Type}

/-- The value under a name. -/
def get? : List (String × α) → String → Option α
  | [], _ => none
  | (key, value) :: rest, name => if key = name then some value else get? rest name

/-- The properties with a value put under a name, in place of the one
that was there. -/
def put : List (String × α) → String → α → List (String × α)
  | [], name, value => [(name, value)]
  | (key, old) :: rest, name, value =>
    if key = name then (name, value) :: rest
    else if name < key then (name, value) :: (key, old) :: rest
    else (key, old) :: put rest name value

/-- The properties listed by pairs; a name listed twice keeps its last
value. -/
def ofPairs (pairs : List (String × α)) : List (String × α) :=
  pairs.foldl (fun ps p => put ps p.1 p.2) []

/-- The names, in order. -/
def names (properties : List (String × α)) : List String := properties.map Prod.fst

/-- A property that is put is the one that is found. -/
theorem get?_put_self (ps : List (String × α)) (name : String) (value : α) :
    get? (put ps name value) name = some value := by
  induction ps with
  | nil => simp [put, get?]
  | cons p rest ih =>
    obtain ⟨key, old⟩ := p
    unfold put
    split
    · simp [get?]
    · split
      · simp [get?]
      · rename_i hne _
        simp [get?, hne, ih]

/-- The other properties are found as before. -/
theorem get?_put_of_ne (ps : List (String × α)) {name other : String} (value : α)
    (h : name ≠ other) : get? (put ps name value) other = get? ps other := by
  induction ps with
  | nil => simp [put, get?, h]
  | cons p rest ih =>
    obtain ⟨key, old⟩ := p
    unfold put
    split
    · rename_i heq
      subst heq
      simp [get?, h]
    · split
      · simp [get?, h]
      · simp [get?, ih]

end Formula.Properties
