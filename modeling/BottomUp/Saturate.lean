/-
# Repeating a step until it changes nothing

The sets of nullable symbols, of first terminals and of lookaheads are least
solutions: start small, and apply one step that only ever adds until it adds
nothing. A count that every change raises, and that has a bound, bounds the
number of rounds.

Key definitions: `saturate`, `Settles`.
Key theorems: `saturate_fixed`, `saturate_induction`, `settles_saturate`.
-/

namespace BottomUp

variable {α : Type} [DecidableEq α]

/-- Applies `step` until nothing changes, for at most `rounds` rounds. -/
def saturate (step : α → α) : (rounds : Nat) → α → α
  | 0, x => x
  | rounds + 1, x =>
    let y := step x
    if y = x then x else saturate step rounds y

/-- What the start has and a step keeps, the result has. -/
theorem saturate_induction {step : α → α} {P : α → Prop} (hstep : ∀ x, P x → P (step x)) :
    ∀ {rounds : Nat} {x : α}, P x → P (saturate step rounds x)
  | 0, _, h => h
  | rounds + 1, x, h => by
    unfold saturate
    dsimp only
    split
    · exact h
    · exact saturate_induction hstep (hstep x h)

/-- If every change raises a count that stays within a bound, the bound less the
count at the start is rounds enough: the result is unchanged by a further step. -/
theorem saturate_fixed {step : α → α} (P : α → Prop) (count : α → Nat) (bound : Nat)
    (hstep : ∀ x, P x → P (step x)) (hbound : ∀ x, P x → count x ≤ bound)
    (hgrow : ∀ x, P x → step x ≠ x → count x < count (step x)) :
    ∀ {rounds : Nat} {x : α}, P x → bound < count x + rounds →
      step (saturate step rounds x) = saturate step rounds x
  | 0, x, h, hr => absurd (hbound x h) (by omega)
  | rounds + 1, x, h, hr => by
    unfold saturate
    dsimp only
    split
    · next hx => exact hx
    · next hx =>
      exact saturate_fixed P count bound hstep hbound hgrow (hstep x h) (by have := hgrow x h hx; omega)

/-- Repeated without a bound for as long as it changes something, the step comes to an end, from
the first value at the second. -/
inductive Settles (step : α → α) : α → α → Prop
  | done {x : α} : step x = x → Settles step x x
  | again {x y : α} : step x ≠ x → Settles step (step x) y → Settles step x y

/-- If a further step changes nothing, the bound on the rounds was none. -/
theorem settles_saturate {step : α → α} : ∀ {rounds : Nat} {x : α},
    step (saturate step rounds x) = saturate step rounds x →
      Settles step x (saturate step rounds x)
  | 0, _, h => .done h
  | rounds + 1, x, h => by
    unfold saturate at h ⊢
    dsimp only at h ⊢
    by_cases hx : step x = x
    · rw [if_pos hx]
      exact .done hx
    · rw [if_neg hx] at h ⊢
      exact .again hx (settles_saturate h)

end BottomUp
