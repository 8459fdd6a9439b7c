/-!
# Moves made one after another

A list of moves is followed when each is allowed in the state in which it is made. What allowed moves keep, they keep one after
another.
-/

namespace Wu

universe u v

variable {S : Type u} {M : Type v}

/-- Each move is allowed in the state in which it is made. -/
def Follows (apply : S → M → S) (allowed : S → M → Prop) : S → List M → Prop
  | _, [] => True
  | state, move :: moves => allowed state move ∧ Follows apply allowed (apply state move) moves

namespace Follows

variable {apply : S → M → S} {allowed : S → M → Prop}

/-- What each allowed move keeps holds after moves that are followed. -/
theorem keeps {P : S → Prop} (hstep : ∀ state move, P state → allowed state move → P (apply state move)) {state : S}
    (h : P state) {moves : List M} (hmove : Follows apply allowed state moves) : P (moves.foldl apply state) := by
  induction moves generalizing state with
  | nil => exact h
  | cons move moves ih => exact ih (hstep _ move h hmove.1) hmove.2

/-- What is allowed by one rule is allowed by a weaker one. -/
theorem weaken {allowed' : S → M → Prop} (halw : ∀ state move, allowed state move → allowed' state move) {state : S}
    {moves : List M} (h : Follows apply allowed state moves) : Follows apply allowed' state moves := by
  induction moves generalizing state with
  | nil => trivial
  | cons move moves ih => exact ⟨halw _ move h.1, ih h.2⟩

end Follows

end Wu
