/-!
# Saturating sizes

Header list budgets are counted in 64-bit words that stick at the largest word instead of wrapping
around. All other sizes are plain natural numbers, since the octets they count are in memory.
-/

namespace HeaderCompression.Size

/-- The largest 64-bit size. -/
def largest : Nat := 0xFFFFFFFFFFFFFFFF

def saturatingAdd (first second : Nat) : Nat :=
  min (first + second) largest

def saturatingMul (first second : Nat) : Nat :=
  min (first * second) largest

end HeaderCompression.Size
