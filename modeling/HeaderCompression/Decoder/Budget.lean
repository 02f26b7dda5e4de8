import HeaderCompression.Size

/-!
# Header list budgets

A budget bounds the lengths of the names and values that one header block may deliver. A header
beyond the budget is dropped, not refused, and from then on the budget stands just above its limit,
so that nothing that follows in the block is delivered either. The largest limit is no limit.
-/

namespace HeaderCompression

structure Budget where
  limit : Nat
  used : Nat := 0
  deriving DecidableEq, Repr, Inhabited

namespace Budget

/-- Whether `length` more octets stay within the limit. -/
def admits (budget : Budget) (length : Nat) : Bool :=
  Size.saturatingAdd budget.used length ≤ budget.limit

def spend (budget : Budget) (length : Nat) : Budget :=
  { budget with used := Size.saturatingAdd budget.used length }

/-- Put the budget just above its limit. -/
def exhaust (budget : Budget) : Budget :=
  { budget with used := Size.saturatingAdd budget.limit 1 }

def isExceeded (budget : Budget) : Bool :=
  budget.limit < budget.used

def reset (budget : Budget) : Budget :=
  { budget with used := 0 }

theorem isExceeded_exhaust {budget : Budget} (hlimit : budget.limit < Size.largest) :
    budget.exhaust.isExceeded = true := by
  refine decide_eq_true ?_
  simp only [exhaust, Size.saturatingAdd]
  omega

end Budget

end HeaderCompression
