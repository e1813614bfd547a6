/-
# Families of sets that grow

First terminals and lookaheads are families of sets, one set per symbol, and
the steps that find them only ever add members. Families of one length are ordered
by inclusion, place by place; a family that grows and changes has more members
in all, and a family over `n` symbols has at most `n * n`. So a step that adds is
saturated after `n * n + 1` rounds, and a fold of steps that changes nothing is
made of steps that each change nothing.

Key definitions: `Family.Grows`, `Family.Within`, `Family.total`.
Key theorems: `Family.saturate_fixed`, `Family.mem_modify_union`, `foldl_fixed`.
-/
import BottomUp.FirstSets
import Mathlib.Algebra.Order.BigOperators.Group.Finset
import Mathlib.Data.Finset.Card
import Mathlib.Order.RelClasses

namespace BottomUp

/-! ### The size of a set -/

namespace OrdSet

variable {α : Type} [Ord α] [Std.LawfulEqOrd α]

theorem nodup_toList (s : OrdSet α) : s.toList.Nodup :=
  s.ascending.imp fun {a b} h e => by subst e; simp at h

theorem size_le_length {s : OrdSet α} {l : List α} (h : ∀ x ∈ s, x ∈ l) : s.size ≤ l.length :=
  (List.subperm_of_subset s.nodup_toList h).length_le

theorem size_le_of_subset {s t : OrdSet α} (h : ∀ x ∈ s, x ∈ t) : s.size ≤ t.size :=
  size_le_length h

variable [Std.TransOrd α]

/-- A set within another of no more members is that other set. -/
theorem eq_of_subset_of_size_le {s t : OrdSet α} (h : ∀ x ∈ s, x ∈ t) (hle : t.size ≤ s.size) :
    s = t := by
  have hperm : s.toList.Perm t.toList :=
    (List.subperm_of_subset s.nodup_toList h).perm_of_length_le hle
  exact ext fun x => hperm.mem_iff

theorem size_lt_of_subset {s t : OrdSet α} (h : ∀ x ∈ s, x ∈ t) (hne : s ≠ t) : s.size < t.size :=
  lt_of_not_ge fun hle => hne (eq_of_subset_of_size_le h hle)

end OrdSet

namespace OrdSet

variable {α : Type} [Ord α]

/-- Sets are ordered by inclusion. -/
instance : HasSubset (OrdSet α) := ⟨fun s t => ∀ x ∈ s, x ∈ t⟩

instance [Std.TransOrd α] [Std.LawfulEqOrd α] : IsPartialOrder (OrdSet α) (· ⊆ ·) where
  refl _ _ h := h
  trans _ _ _ h h' x hx := h' x (h x hx)
  antisymm _ _ h h' := ext fun x => ⟨h x, h' x⟩

end OrdSet

/-! ### Folds of steps that add -/

/-- What a fold of steps that only add gives is above where it starts. -/
theorem le_foldl {α β : Type} (le : α → α → Prop) [IsPartialOrder α le] {f : α → β → α}
    (grows : ∀ s b, le s (f s b)) : ∀ (l : List β) (s : α), le s (l.foldl f s)
  | [], s => refl_of le s
  | b :: l, s => trans_of le (grows s b) (le_foldl le grows l (f s b))

/-- If each step of a fold only adds and the whole fold changes nothing, then no
step changes anything. -/
theorem foldl_fixed {α β : Type} (le : α → α → Prop) [IsPartialOrder α le] {f : α → β → α}
    (grows : ∀ s b, le s (f s b)) : ∀ {l : List β} {s : α}, l.foldl f s = s → ∀ b ∈ l, f s b = s
  | [], _, _, _, hb => absurd hb List.not_mem_nil
  | b :: l, s, h, b', hb' => by
    rw [List.foldl_cons] at h
    -- the rest of the fold leads back to `s`, so the first step did not leave it
    have hback : le (f s b) s := by
      have := le_foldl le grows l (f s b)
      rwa [h] at this
    have hb : f s b = s := antisymm_of le hback (grows s b)
    rcases List.mem_cons.1 hb' with rfl | hb'
    · exact hb
    · exact foldl_fixed le grows (by rwa [hb] at h) b' hb'

namespace Family

/-- Two families of one length, the second with all members of the first. -/
structure Grows (s t : Array TerminalSet) : Prop where
  size_eq : s.size = t.size
  mem : ∀ i a, a ∈ s.getD i ∅ → a ∈ t.getD i ∅

/-- The family has `n` sets, and the members are below `n`. -/
structure Within (n : Nat) (s : Array TerminalSet) : Prop where
  size_eq : s.size = n
  lt : ∀ i a, a ∈ s.getD i ∅ → a < n

/-- The number of members of all the sets. -/
def total (s : Array TerminalSet) : Nat := ∑ i ∈ Finset.range s.size, (s.getD i ∅).size

theorem ext {s t : Array TerminalSet} (hsize : s.size = t.size)
    (h : ∀ i a, a ∈ s.getD i ∅ ↔ a ∈ t.getD i ∅) : s = t := by
  refine Array.ext hsize fun i hs ht => ?_
  have hi := OrdSet.ext (h i)
  rwa [Array.getD_eq_getD_getElem?, Array.getD_eq_getD_getElem?, Array.getElem?_eq_getElem hs,
    Array.getElem?_eq_getElem ht] at hi

instance : IsPartialOrder (Array TerminalSet) Grows where
  refl _ := ⟨rfl, fun _ _ h => h⟩
  trans _ _ _ h h' := ⟨h.size_eq.trans h'.size_eq, fun i a ha => h'.mem i a (h.mem i a ha)⟩
  antisymm _ _ h h' := ext h.size_eq fun i a => ⟨h.mem i a, h'.mem i a⟩

/-- A family that grows and changes gets more members. -/
theorem Grows.total_lt {s t : Array TerminalSet} (h : Grows s t) (hne : s ≠ t) :
    total s < total t := by
  have hplace : ∃ i ∈ Finset.range s.size, (s.getD i ∅).size < (t.getD i ∅).size := by
    by_contra hno
    push Not at hno
    refine hne (ext h.size_eq fun i a => ?_)
    by_cases hi : i < s.size
    · rw [OrdSet.eq_of_subset_of_size_le (h.mem i) (hno i (Finset.mem_range.2 hi))]
    · have hi' : ¬ i < t.size := h.size_eq ▸ hi
      simp [Array.getD_eq_getD_getElem?, hi, hi']
  unfold total
  rw [← h.size_eq]
  exact Finset.sum_lt_sum (fun i _ => OrdSet.size_le_of_subset (h.mem i)) hplace

theorem Within.total_le {n : Nat} {s : Array TerminalSet} (h : Within n s) : total s ≤ n * n := by
  have hset : ∀ i ∈ Finset.range s.size, (s.getD i ∅).size ≤ n := fun i _ => by
    simpa using OrdSet.size_le_length (l := List.range n) fun a ha => List.mem_range.2 (h.lt i a ha)
  calc total s ≤ (Finset.range s.size).card • n := Finset.sum_le_card_nsmul _ _ _ hset
    _ = n * n := by rw [Finset.card_range, h.size_eq]; rfl

/-- A step that adds has nothing more to add to what `n * n + 1` rounds of it give. -/
theorem saturate_fixed {n : Nat} {step : Array TerminalSet → Array TerminalSet}
    (grows : ∀ s, Within n s → Grows s (step s)) (within : ∀ s, Within n s → Within n (step s))
    {s : Array TerminalSet} (h : Within n s) :
    step (saturate step (n * n + 1) s) = saturate step (n * n + 1) s :=
  BottomUp.saturate_fixed (Within n) total (n * n) within (fun _ => Within.total_le)
    (fun s hs hne => (grows s hs).total_lt (Ne.symm hne)) h (by omega)

/-! ### Adding to one of the sets -/

theorem mem_modify_union {s : Array TerminalSet} {u : TerminalSet} {x i : Nat} {a : SymbolId} :
    a ∈ (s.modify x fun t => t.union u).getD i ∅ ↔
      a ∈ s.getD i ∅ ∨ (i = x ∧ x < s.size ∧ a ∈ u) := by
  simp only [Array.getD_eq_getD_getElem?, Array.getElem?_modify]
  by_cases hx : x = i
  · subst hx
    by_cases hlt : x < s.size
    · simp [hlt, OrdSet.mem_union]
    · simp [hlt]
  · simp [hx, Ne.symm hx]

theorem grows_modify_union (s : Array TerminalSet) (u : TerminalSet) (x : Nat) :
    Grows s (s.modify x fun t => t.union u) :=
  ⟨by simp, fun _ _ h => mem_modify_union.2 (.inl h)⟩

end Family

end BottomUp
