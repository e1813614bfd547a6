/-
# Looking things up by key

Rows, transitions and reductions are lists of pairs, each key once. In such a list a
look-up finds what stands there, and a list made from keys without repetition says
of each key what it was made to say.

Key theorems: `nodup_map_snoc`, `mem_of_lookup_eq_some`, `lookup_eq_some_iff_mem`,
`lookup_map_key`.
-/
import Mathlib.Data.List.Basic
import Mathlib.Data.List.Nodup

namespace BottomUp

variable {α β : Type}

/-- An element with a new key may be put behind the others. -/
theorem nodup_map_snoc {key : α → β} {l : List α} {y : α} (hl : (l.map key).Nodup)
    (hnew : ∀ x ∈ l, key x ≠ key y) : ((l ++ [y]).map key).Nodup := by
  rw [List.map_append, List.map_singleton]
  refine List.nodup_append.2 ⟨hl, List.nodup_singleton _, fun k hk k' hk' heq => ?_⟩
  obtain ⟨x, hx, rfl⟩ := List.mem_map.1 hk
  exact hnew x hx (heq.trans (List.mem_singleton.1 hk'))

/-- All there is in a list of one element at most. -/
theorem eq_singleton_of_mem : ∀ {l : List α} {x : α}, l.length ≤ 1 → x ∈ l → l = [x]
  | [y], x, _, hx => by rw [List.mem_singleton.1 hx]
  | _ :: _ :: _, _, hlen, _ => by simp at hlen

variable [BEq α] [LawfulBEq α]

theorem nodup_eraseDups : ∀ l : List α, l.eraseDups.Nodup
  | [] => by simp
  | b :: l => by
    rw [List.eraseDups_cons, List.nodup_cons, List.mem_eraseDups, List.mem_filter]
    exact ⟨by simp, nodup_eraseDups (l.filter _)⟩
termination_by l => l.length
decreasing_by
  simp only [List.length_cons]
  exact Nat.lt_succ_of_le (List.length_filter_le _ _)

/-- What a look-up finds stands in the list. -/
theorem mem_of_lookup_eq_some {k : α} {v : β} {l : List (α × β)} (h : l.lookup k = some v) :
    (k, v) ∈ l := by
  obtain ⟨l₁, l₂, rfl, -⟩ := List.lookup_eq_some_iff.1 h
  exact List.mem_append_right _ List.mem_cons_self

/-- In a list that has each key once, a look-up finds exactly what stands there. -/
theorem lookup_eq_some_iff_mem {k : α} {v : β} : ∀ {l : List (α × β)}, (l.map (·.1)).Nodup →
    (l.lookup k = some v ↔ (k, v) ∈ l)
  | [], _ => by simp
  | (k', v') :: l, h => by
    rw [List.map_cons, List.nodup_cons] at h
    have ih := lookup_eq_some_iff_mem (k := k) (v := v) h.2
    rw [List.lookup_cons, List.mem_cons, Prod.mk.injEq]
    by_cases hk : k = k'
    · subst hk
      have hout : (k, v) ∉ l := fun hm => h.1 (List.mem_map.2 ⟨_, hm, rfl⟩)
      simp [hout, eq_comm]
    · have hne : (k == k') = false := by simpa using hk
      simp [hne, hk, ih]

/-- A look-up in a list that was made from keys. -/
theorem lookup_map_key [DecidableEq α] {k : α} {f : α → β} : ∀ {keys : List α},
    (keys.map fun x => (x, f x)).lookup k = if k ∈ keys then some (f k) else none
  | [] => by simp
  | x :: keys => by
    rw [List.map_cons, List.lookup_cons, lookup_map_key]
    by_cases hk : k = x
    · simp [hk]
    · have hne : (k == x) = false := by simpa using hk
      simp [hne, hk]

end BottomUp
