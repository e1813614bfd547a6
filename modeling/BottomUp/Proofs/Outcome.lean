/-
# Computations that may fail

A computation that gave a result is taken apart step by step: each step gave a
result, and the rest went on from there. One that may run out of something gives a result
or stops for that reason, and so do two of them, one after the other. Two that end alike can
go on alike.

Key definitions: `Gives`, `Alike`.
Key theorems: `bind_eq_ok`, `Gives.bind`, `Alike.bind`.
-/
import BottomUp.Fault

namespace BottomUp

variable {ε α β : Type}

@[simp] theorem ok_bind (a : α) (f : α → Except ε β) : (Except.ok a >>= f) = f a := rfl

@[simp] theorem error_bind (e : ε) (f : α → Except ε β) : (Except.error e >>= f) = .error e := rfl

/-- Two computations, one after the other, give a result if and only if both do. -/
theorem bind_eq_ok {x : Except ε α} {f : α → Except ε β} {b : β} :
    (x >>= f) = .ok b ↔ ∃ a, x = .ok a ∧ f a = .ok b := by
  cases x with
  | error e => simp
  | ok a => simp

@[simp] theorem pure_eq_ok {a b : α} : (pure a : Except ε α) = .ok b ↔ a = b := by
  simp [pure, Except.pure]

/-- The computation gives a result as wanted, or it stops with that error, which it may. -/
def Gives (may : Prop) (e : ε) (post : α → Prop) (x : Except ε α) : Prop :=
  (∃ a, x = .ok a ∧ post a) ∨ may ∧ x = .error e

namespace Gives

variable {may may' : Prop} {e : ε} {post : α → Prop} {x : Except ε α}

theorem ok {a : α} (h : post a) : Gives may e post (.ok a) := .inl ⟨a, rfl, h⟩

theorem bind {post' : β → Prop} {f : α → Except ε β} (hx : Gives may e post x)
    (hf : ∀ a, x = .ok a → post a → Gives may e post' (f a)) : Gives may e post' (x >>= f) := by
  rcases hx with ⟨a, rfl, ha⟩ | ⟨hmay, rfl⟩
  · exact hf a rfl ha
  · exact .inr ⟨hmay, rfl⟩

theorem mono {post' : α → Prop} (hx : Gives may e post x) (h : ∀ a, post a → post' a) :
    Gives may e post' x := by
  rcases hx with ⟨a, hok, ha⟩ | hstop
  · exact .inl ⟨a, hok, h a ha⟩
  · exact .inr hstop

theorem weaken (hx : Gives may e post x) (h : may → may') : Gives may' e post x := by
  rcases hx with hok | ⟨hmay, herror⟩
  · exact .inl hok
  · exact .inr ⟨h hmay, herror⟩

/-- What is known of a result, if there is one. -/
theorem of_ok (hx : Gives may e post x) {a : α} (h : x = .ok a) : post a := by
  rcases hx with ⟨b, hok, hb⟩ | ⟨-, herror⟩
  · obtain rfl : b = a := Except.ok.inj (hok.symm.trans h)
    exact hb
  · rw [h] at herror
    cases herror

end Gives

/-- Two computations give results that belong together, or they stop with the same error. -/
inductive Alike (rel : α → β → Prop) : Except ε α → Except ε β → Prop
  | ok {a : α} {b : β} : rel a b → Alike rel (.ok a) (.ok b)
  | error (e : ε) : Alike rel (.error e) (.error e)

theorem Alike.bind {α' β' : Type} {rel : α → β → Prop} {rel' : α' → β' → Prop} {x : Except ε α}
    {y : Except ε β} {f : α → Except ε α'} {f' : β → Except ε β'} (h : Alike rel x y)
    (hf : ∀ a b, rel a b → Alike rel' (f a) (f' b)) : Alike rel' (x >>= f) (y >>= f') := by
  cases h with
  | ok hab => exact hf _ _ hab
  | error e => exact .error e

theorem Alike.mono {rel rel' : α → β → Prop} {x : Except ε α} {y : Except ε β}
    (h : Alike rel x y) (hrel : ∀ a b, rel a b → rel' a b) : Alike rel' x y := by
  cases h with
  | ok hab => exact .ok (hrel _ _ hab)
  | error e => exact .error e

theorem toOption_eq_some {x : Except ε α} {a : α} : x.toOption = some a ↔ x = .ok a := by
  cases x <;> simp [Except.toOption]

theorem Fault.orElse_eq_ok {fault : Fault} {o : Option α} {a : α} :
    fault.orElse o = .ok a ↔ o = some a := by
  cases o <;> simp [Fault.orElse]

end BottomUp
