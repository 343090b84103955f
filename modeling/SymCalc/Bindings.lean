import SymCalc.Text.Distance

/-! # Values of variables

* `Bindings`: the variables that have a value;
* `Bindings.set`, `Bindings.get?`: giving a variable a value and looking it up;
* `Bindings.names`, `Bindings.similar`: all names, and those that look like a given one. -/

namespace SymCalc

/-- Variables with their values. No name occurs twice. -/
structure Bindings (β : Type) where
  entries : List (String × β)
deriving Repr

namespace Bindings

variable {β : Type}

/-- No variable has a value. -/
def empty : Bindings β := ⟨[]⟩

/-- Gives a variable a value, in place of the one it may have had. -/
def set (b : Bindings β) (name : String) (value : β) : Bindings β :=
  ⟨(name, value) :: b.entries.filter (·.1 ≠ name)⟩

/-- The value of a variable. -/
def get? (b : Bindings β) (name : String) : Option β := b.entries.lookup name

/-- Whether a variable has a value. -/
def isBound (b : Bindings β) (name : String) : Bool := (b.get? name).isSome

/-- How many variables have a value. -/
def size (b : Bindings β) : Nat := b.entries.length

/-- The variables that have a value, in order. -/
def names (b : Bindings β) : List String := (b.entries.map (·.1)).mergeSort (· ≤ ·)

/-- The variables with a value whose names are similar to `name`, in order. -/
def similar (b : Bindings β) (name : String) : List String := b.names.filter (isSimilar · name)

@[simp] theorem get?_empty (name : String) : (empty : Bindings β).get? name = none := rfl

theorem lookup_filter_ne {name name' : String} (h : name' ≠ name) (es : List (String × β)) :
    (es.filter (·.1 ≠ name)).lookup name' = es.lookup name' := by
  induction es with
  | nil => rfl
  | cons e es ih =>
    by_cases he : e.1 = name
    · have hne : (name' == e.1) = false := by simp [he, h]
      rw [List.filter_cons_of_neg (by simp [he]), ih, List.lookup_cons, hne]
    · rw [List.filter_cons_of_pos (by simp [he]), List.lookup_cons, List.lookup_cons, ih]

theorem get?_set (b : Bindings β) (name name' : String) (value : β) :
    (b.set name value).get? name' = if name' = name then some value else b.get? name' := by
  by_cases h : name' = name
  · simp [get?, set, h]
  · rw [if_neg h, get?, set, List.lookup_cons, beq_false_of_ne h]
    exact lookup_filter_ne h b.entries

end Bindings
end SymCalc
