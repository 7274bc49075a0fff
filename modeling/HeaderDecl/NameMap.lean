/-!
Finite maps from names. A name that is inserted again loses its old value.
-/

namespace HeaderDecl

/-- A finite map from names, as pairs with the latest insertion first. -/
structure NameMap (α : Type) where
  pairs : List (String × α)
deriving Repr

namespace NameMap

variable {α : Type}

def empty : NameMap α := ⟨[]⟩

/-- The value of the first pair with the name. -/
def find (name : String) : List (String × α) → Option α
  | [] => none
  | p :: ps => if name = p.1 then some p.2 else find name ps

def get? (m : NameMap α) (name : String) : Option α := find name m.pairs

def contains (m : NameMap α) (name : String) : Bool := (m.get? name).isSome

def names (m : NameMap α) : List String := m.pairs.map (·.1)

def erase (m : NameMap α) (name : String) : NameMap α := ⟨m.pairs.filter (·.1 ≠ name)⟩

def insert (m : NameMap α) (name : String) (value : α) : NameMap α :=
  ⟨(name, value) :: (m.erase name).pairs⟩

@[simp] theorem get?_empty (name : String) : (empty : NameMap α).get? name = none := rfl

@[simp] theorem get?_erase (m : NameMap α) (a b : String) :
    (m.erase a).get? b = if b = a then none else m.get? b := by
  obtain ⟨ps⟩ := m
  simp only [get?, erase]
  induction ps with
  | nil => simp [find]
  | cons p ps ih =>
    by_cases h : p.1 = a
    · simp only [h, ne_eq, not_true_eq_false, decide_false, Bool.false_eq_true,
        not_false_eq_true, List.filter_cons_of_neg, ih, find]
      split <;> simp_all
    · simp only [ne_eq, h, not_false_eq_true, decide_true, List.filter_cons_of_pos, find]
      by_cases hb : b = p.1
      · subst hb
        simp [h]
      · simpa [hb] using ih

@[simp] theorem get?_insert (m : NameMap α) (a b : String) (v : α) :
    (m.insert a v).get? b = if b = a then some v else m.get? b := by
  have h := get?_erase m a b
  simp only [get?, insert, find] at *
  by_cases hb : b = a
  · simp [hb]
  · simpa [hb] using h

theorem mem_names_of_get? {m : NameMap α} {name : String} {v : α} (h : m.get? name = some v) :
    name ∈ m.names := by
  obtain ⟨ps⟩ := m
  simp only [get?, names] at *
  induction ps with
  | nil => simp [find] at h
  | cons p ps ih =>
    by_cases hp : name = p.1
    · simp [hp]
    · exact List.mem_cons_of_mem _ (ih (by simpa [hp, find] using h))

end NameMap

end HeaderDecl
