/-
# Automata by name

An application registers its automata once, each under a name of its own, and looks
them up from then on. What is registered is never replaced.

Key definitions: `Registry`, `Registry.register`, `Registry.get?`.
-/

namespace BottomUp

/-- Things by name, in the order of registration. -/
structure Registry (α : Type) where
  entries : List (String × α)

/-- Why a name cannot be registered. -/
inductive RegistryError where
  | duplicate (name : String)
  deriving DecidableEq

/-- The text of an error. -/
def RegistryError.message : RegistryError → String
  | .duplicate name => s!"an automaton named `{name}' is already registered"

namespace Registry

variable {α : Type}

/-- The registry in which nothing is registered. -/
def empty : Registry α := ⟨[]⟩

/-- The names in the order of registration. -/
def names (r : Registry α) : List String := r.entries.map (·.1)

/-- What is registered under a name. -/
def get? (r : Registry α) (name : String) : Option α := r.entries.lookup name

/-- Registers `a` under a name that is not taken. -/
def register (r : Registry α) (name : String) (a : α) : Except RegistryError (Registry α) :=
  if name ∈ r.names then .error (.duplicate name) else .ok ⟨r.entries ++ [(name, a)]⟩

end Registry

end BottomUp
