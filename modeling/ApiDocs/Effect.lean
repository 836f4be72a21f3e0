import ApiDocs.Error
/-!
# Effects

Computations that may fail and may change a state. A change that was made before a failure stays.
-/
namespace ApiDocs

/-- A computation that may fail and may change a state, before it fails too. -/
abbrev Effect (σ α : Type) := EStateM Error σ α

namespace Effect

variable {σ α : Type}

/-- A result that needs no state. -/
def ofExcept : Except Error α → Effect σ α
  | .ok a => pure a
  | .error e => throw e

instance : MonadLift (Except Error) (EStateM Error σ) where
  monadLift := ofExcept

/-- The result of a computation, whether or not it succeeds, and the state that it leaves. -/
def attempt (act : Effect σ α) (state : σ) : Except Error α × σ :=
  match act state with
  | .ok a state => (.ok a, state)
  | .error e state => (.error e, state)

end Effect
end ApiDocs
