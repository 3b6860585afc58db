/-!
# Layers of names

The names that one scope owns, each with what it stands for, in the order they were declared. A
second claim on a name is refused; whoever makes it decides what that means.
-/

namespace ScopeLowering

/-- Names in the order of their declaration, each with what it stands for. -/
structure Layer (α : Type) where
  entries : List (String × α) := []
  deriving Repr, Inhabited

namespace Layer

variable {α : Type}

/-- What a name stands for here. -/
def find? (layer : Layer α) (name : String) : Option α := layer.entries.lookup name

/-- Is the name declared here? -/
def contains (layer : Layer α) (name : String) : Bool := (layer.find? name).isSome

/-- The names declared here. -/
def names (layer : Layer α) : List String := layer.entries.map (·.1)

/-- The number of names declared here. -/
def size (layer : Layer α) : Nat := layer.entries.length

/-- The layer with one more name, if the name is free. -/
def define? (layer : Layer α) (name : String) (value : α) : Option (Layer α) :=
  if layer.contains name then none else some ⟨layer.entries ++ [(name, value)]⟩

end Layer

end ScopeLowering
