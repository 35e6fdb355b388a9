import TreeEnsemble.Binary32

/-!
The written form of a bit pattern: eight hexadecimal digits in lower case, the highest first.
-/

namespace TreeEnsemble.Binary32

def hexDigit (n : Nat) : Char :=
  Char.ofNat (if n < 10 then 48 + n else 87 + n)

def hexDigitValue? (c : Char) : Option Nat :=
  if '0' ≤ c ∧ c ≤ '9' then some (c.toNat - 48)
  else if 'a' ≤ c ∧ c ≤ 'f' then some (c.toNat - 87)
  else none

/-- The last `k` digits of `n`, the highest first. -/
def hexDigits (n : Nat) : Nat → List Char
  | 0 => []
  | k + 1 => hexDigits (n / 16) k ++ [hexDigit (n % 16)]

/-- The number that digits write, after `n` has been read. -/
def readHexDigits (n : Nat) : List Char → Option Nat
  | [] => some n
  | c :: cs => do
    let d ← hexDigitValue? c
    readHexDigits (16 * n + d) cs

def toHex (x : Binary32) : String := String.ofList (hexDigits x.bits.toNat 8)

/-- Reads exactly eight digits. -/
def ofHex? (s : String) : Option Binary32 :=
  if s.toList.length = 8 then
    (readHexDigits 0 s.toList).map fun n => ⟨UInt32.ofNat n⟩
  else none

end TreeEnsemble.Binary32
