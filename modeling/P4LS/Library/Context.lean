import Mathlib.Data.List.Sigma

/-!
# Scoped contexts

A context is a chain of bindings, each of which points to the chain it was
derived from.  A lookup finds the innermost binding of its key.  Every key has
values of a type of its own.
-/

/-- The bindings of a context, the innermost first. -/
abbrev Context {κ : Type} (ν : κ → Type) := List (Sigma ν)

namespace Context

variable {κ : Type} [DecidableEq κ] {ν : κ → Type}

def getValue (key : κ) (context : Context ν) : Option (ν key) := context.dlookup key

def derive (key : κ) (value : ν key) (context : Context ν) : Context ν :=
  ⟨key, value⟩ :: context

@[simp] theorem getValue_derive_self (key : κ) (value : ν key) (context : Context ν) :
    getValue key (context.derive key value) = some value :=
  List.dlookup_cons_eq context key value

theorem getValue_derive_of_ne {key other : κ} (h : other ≠ key) (value : ν key)
    (context : Context ν) :
    getValue other (context.derive key value) = getValue other context :=
  List.dlookup_cons_ne context ⟨key, value⟩ h

end Context
