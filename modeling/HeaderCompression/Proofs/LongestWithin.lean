import Mathlib.Data.List.Infix

/-!
# Longest first parts within a bound

A table keeps its newest entries as far as they fit, and a budget lets the first headers of a block
through. Both leave of a list the longest first part whose total is within a bound.
-/

namespace HeaderCompression

variable {α : Type} {total : List α → Nat} {bound : Nat} {items kept : List α}

/-- Among the first parts of the items whose total is within the bound, no one is longer. -/
structure IsLongestWithin (total : List α → Nat) (bound : Nat) (items kept : List α) : Prop where
  isPrefix : kept <+: items
  within : total kept ≤ bound
  longest (part : List α) : part <+: items → total part ≤ bound → part.length ≤ kept.length

/-- The first parts of the longest one are all that are within the bound. -/
theorem isLongestWithin_of_isPrefix_iff
    (hparts : ∀ part, part <+: kept ↔ part <+: items ∧ total part ≤ bound) :
    IsLongestWithin total bound items kept := by
  have hself : kept <+: items ∧ total kept ≤ bound := (hparts kept).1 List.prefix_rfl
  refine ⟨hself.1, hself.2, ?_⟩
  intro part hpart hbound
  exact ((hparts part).2 ⟨hpart, hbound⟩).length_le

theorem isLongestWithin_self (hbound : total items ≤ bound) :
    IsLongestWithin total bound items items where
  isPrefix := List.prefix_rfl
  within := hbound
  longest _ hpart _ := hpart.length_le

end HeaderCompression
