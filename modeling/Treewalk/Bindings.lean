namespace Treewalk

structure Bindings (α : Type) where
  entries : List (String × α)

namespace Bindings

variable {α : Type}

def empty : Bindings α := ⟨[]⟩

def getEntry? (name : String) : List (String × α) → Option α
  | [] => none
  | (k, x) :: es => if k = name then some x else getEntry? name es

def get? (b : Bindings α) (name : String) : Option α := getEntry? name b.entries

def contains (b : Bindings α) (name : String) : Bool := (b.get? name).isSome

def insertEntry (name : String) (a : α) : List (String × α) → List (String × α)
  | [] => [(name, a)]
  | (k, x) :: es => if k = name then (name, a) :: es else (k, x) :: insertEntry name a es

def insert (b : Bindings α) (name : String) (a : α) : Bindings α := ⟨insertEntry name a b.entries⟩

/-- Later entries of a name replace earlier ones. -/
def ofList (entries : List (String × α)) : Bindings α :=
  entries.foldl (fun b (name, a) => b.insert name a) empty

@[simp] theorem get?_empty (name : String) : (empty : Bindings α).get? name = none := rfl

theorem getEntry?_insertEntry (name other : String) (a : α) (es : List (String × α)) :
    getEntry? other (insertEntry name a es) = if name = other then some a else getEntry? other es := by
  induction es with
  | nil => rfl
  | cons e es ih =>
    by_cases hk : e.1 = name
    · by_cases hn : name = other <;> simp [insertEntry, getEntry?, hk, hn]
    · by_cases hn : name = other
      · subst hn
        simp [insertEntry, getEntry?, hk, ih]
      · simp [insertEntry, getEntry?, hk, hn, ih]

@[simp] theorem get?_insert (b : Bindings α) (name other : String) (a : α) :
    (b.insert name a).get? other = if name = other then some a else b.get? other :=
  getEntry?_insertEntry name other a b.entries

end Bindings

end Treewalk
