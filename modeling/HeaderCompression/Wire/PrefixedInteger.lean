import HeaderCompression.Octets.Bits
import HeaderCompression.Octets.Reading

/-!
# Prefixed integers

An integer begins in the low bits of an octet whose high bits say what is being sent. A value that
does not fit there fills the low bits with ones and goes on in groups of seven bits, the lowest
group first, every octet but the last with its high bit set.

Readers accept a continuation of 31 bits: five groups, of which the fifth holds three bits.
-/

namespace HeaderCompression.Wire.PrefixedInteger

open Octets

/-! ## Writing -/

/-- The groups of a continuation. -/
def continuation (value : Nat) : Octets :=
  if value < 128 then [UInt8.ofNat value]
  else UInt8.ofNat (value % 128 + 128) :: continuation (value / 128)

/-- The octets of an integer in the `width` low bits of an octet with the high bits of `mask`. -/
def encode (mask : UInt8) (width value : Nat) : Octets :=
  if value < Bits.ones width then [mask ||| UInt8.ofNat value]
  else (mask ||| UInt8.ofNat (Bits.ones width)) :: continuation (value - Bits.ones width)

/-! ## Reading -/

/-- Read the groups from number `group` on, when the groups before it amount to `value`. -/
def readGroups : (group value : Nat) → Octets → Reading Nat
  | _, _, [] => .incomplete
  | group, value, octet :: rest =>
    if group = 4 ∧ 8 ≤ octet.toNat then .failed .integerOverflow rest
    else
      let value := value + octet.toNat % 128 * Bits.values (7 * group)
      if octet.toNat < 128 then .complete value rest
      else readGroups (group + 1) value rest

/-- Read a continuation. -/
def readContinuation (octets : Octets) : Reading Nat :=
  readGroups 0 0 octets

/-- The integer in the `width` low bits of an octet, unless they are all ones and a continuation
follows. -/
def lowBits? (width : Nat) (octet : UInt8) : Option Nat :=
  let low := octet.toNat % Bits.values width
  if low < Bits.ones width then some low else none

/-- Read an integer from the `width` low bits of the first octet on. -/
def read (width : Nat) : Octets → Reading Nat
  | [] => .incomplete
  | octet :: rest =>
    match lowBits? width octet with
    | some value => .complete value rest
    | none => (readContinuation rest).map (Bits.ones width + ·)

end HeaderCompression.Wire.PrefixedInteger
