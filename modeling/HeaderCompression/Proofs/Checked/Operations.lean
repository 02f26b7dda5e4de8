import HeaderCompression.Octets.Bits
import HeaderCompression.Size

/-!
# Operations that can fail

On a machine a sum can leave its word, a difference can fall below zero, a divisor can be zero, a
shift can reach the width of its word, and a range can reach beyond its array. Here an operation has
no result in that case. A computation made of such operations is called checked: if it has a result,
then nothing in it has failed.
-/

namespace HeaderCompression.Checked

/-- The largest small word. -/
def largestShort : Nat := 0xFFFFFFFF

theorem largest_eq : Size.largest = 18446744073709551615 := rfl

/-- Half of what a word counts. -/
theorem values_half : Bits.values 63 = 9223372036854775808 := rfl

theorem values_sixty : Bits.values 60 = 1152921504606846976 := rfl

def sum (largest first second : Nat) : Option Nat :=
  if first + second ≤ largest then some (first + second) else none

def product (largest first second : Nat) : Option Nat :=
  if first * second ≤ largest then some (first * second) else none

def difference (first second : Nat) : Option Nat :=
  if second ≤ first then some (first - second) else none

def quotient (dividend divisor : Nat) : Option Nat :=
  if divisor = 0 then none else some (dividend / divisor)

def remainder (dividend divisor : Nat) : Option Nat :=
  if divisor = 0 then none else some (dividend % divisor)

/-- Bits that leave the word are lost. -/
def shiftLeft (width value count : Nat) : Option Nat :=
  if count < width then some (value * Bits.values count % Bits.values width) else none

def shiftRight (width value count : Nat) : Option Nat :=
  if count < width then some (value / Bits.values count) else none

/-- The elements from `first` on and before `last`. -/
def range {α : Type} (elements : Array α) (first last : Nat) : Option (Array α) :=
  if first ≤ last ∧ last ≤ elements.size then some (elements.extract first last) else none

/-- A computation goes on with the result of its first part. -/
theorem bind_of_eq_some {α β : Type} {checked : Option α} {value : α}
    (hvalue : checked = some value) (next : α → Option β) : (checked >>= next) = next value := by
  rw [hvalue]
  rfl

variable {largest first second : Nat}

theorem sum_of_le (hsum : first + second ≤ largest) :
    sum largest first second = some (first + second) :=
  if_pos hsum

theorem product_of_le (hproduct : first * second ≤ largest) :
    product largest first second = some (first * second) :=
  if_pos hproduct

theorem difference_of_le (hdifference : second ≤ first) :
    difference first second = some (first - second) :=
  if_pos hdifference

theorem quotient_of_pos {dividend divisor : Nat} (hdivisor : 0 < divisor) :
    quotient dividend divisor = some (dividend / divisor) :=
  if_neg (Nat.ne_of_gt hdivisor)

theorem remainder_of_pos {dividend divisor : Nat} (hdivisor : 0 < divisor) :
    remainder dividend divisor = some (dividend % divisor) :=
  if_neg (Nat.ne_of_gt hdivisor)

theorem shiftLeft_of_lt {width value count : Nat} (hcount : count < width) :
    shiftLeft width value count = some (value * Bits.values count % Bits.values width) :=
  if_pos hcount

theorem shiftRight_of_lt {width value count : Nat} (hcount : count < width) :
    shiftRight width value count = some (value / Bits.values count) :=
  if_pos hcount

theorem range_of_le {α : Type} {elements : Array α} (hfirst : first ≤ second)
    (hsecond : second ≤ elements.size) :
    range elements first second = some (elements.extract first second) :=
  if_pos ⟨hfirst, hsecond⟩

/-- Bits that stand in different places are put together by addition. -/
theorem or_mul_values {width low : Nat} (high : Nat) (hlow : low < Bits.values width) :
    low ||| high * Bits.values width = low + high * Bits.values width := by
  have hsum := Nat.two_pow_add_eq_or_of_lt hlow high
  rw [Nat.or_comm, Nat.add_comm, Nat.mul_comm]
  exact hsum.symm

theorem mul_values_or {width low : Nat} (high : Nat) (hlow : low < Bits.values width) :
    high * Bits.values width ||| low = high * Bits.values width + low := by
  rw [Nat.or_comm, or_mul_values high hlow, Nat.add_comm]

/-- Ones select the low bits. -/
theorem and_ones (value width : Nat) : value &&& Bits.ones width = value % Bits.values width :=
  Nat.and_two_pow_sub_one_eq_mod value width

end HeaderCompression.Checked
