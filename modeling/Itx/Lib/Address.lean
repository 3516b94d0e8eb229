import Mathlib

/-!
# Internet addresses

Addresses of versions 4 and 6, and how they are read from text: a dotted quad of decimal
numbers without zeros in front (`readIpv4Addr`); up to eight hexadecimal groups, of which the
last two may be written as a dotted quad, and one run of zeros may be left out (`readIpv6Addr`).
Text is the bytes of its UTF-8 encoding, and has to be read to its end.
-/

namespace Itx

structure Ipv4Addr where
  a : UInt8
  b : UInt8
  c : UInt8
  d : UInt8
  deriving DecidableEq, Repr

structure Ipv6Addr where
  segments : List UInt16
  length_eq : segments.length = 8
  deriving DecidableEq, Repr

/-- An address has eight segments: zeros after those there are. -/
def Ipv6Addr.ofSegments (segments : List UInt16) : Ipv6Addr :=
  ⟨segments.takeD 8 0, List.takeD_length 8 segments 0⟩

inductive IpAddr
  | v4 (address : Ipv4Addr)
  | v6 (address : Ipv6Addr)
  deriving DecidableEq, Repr

/-- The two bytes of a segment. -/
def segmentBytes (s : UInt16) : UInt8 × UInt8 := ((s >>> 8).toUInt8, s.toUInt8)

/-- An address of version 4 that is written as one of version 6 is taken for what it is. -/
def IpAddr.toCanonical : IpAddr → IpAddr
  | .v4 address => .v4 address
  | .v6 address =>
    match address.segments with
    | [0, 0, 0, 0, 0, 0xffff, ab, cd] =>
      let (a, b) := segmentBytes ab
      let (c, d) := segmentBytes cd
      .v4 ⟨a, b, c, d⟩
    | _ => .v6 address

/-! ## Reading -/

/-- The value of a digit. -/
def toDigit (radix : ℕ) (c : UInt8) : Option ℕ :=
  let value :=
    if 48 ≤ c ∧ c ≤ 57 then some (c.toNat - 48)
    else if 65 ≤ c ∧ c ≤ 90 then some (c.toNat - 65 + 10)
    else if 97 ≤ c ∧ c ≤ 122 then some (c.toNat - 97 + 10)
    else none
  value.filter (· < radix)

/-- A number below the bound, of one to `maxDigits` digits: all there are. -/
def readNumber (radix maxDigits bound : ℕ) (allowZeroPrefix : Bool) (input : List UInt8) :
    Option (ℕ × List UInt8) :=
  let digits := input.takeWhile fun c => (toDigit radix c).isSome
  let value := digits.foldl (fun value c => value * radix + (toDigit radix c).getD 0) 0
  if digits.length = 0 ∨ maxDigits < digits.length ∨
      allowZeroPrefix = false ∧ digits.head? = some 48 ∧ 1 < digits.length ∨ bound ≤ value then none
  else some (value, input.drop digits.length)

def readGivenChar (target : UInt8) : List UInt8 → Option (List UInt8)
  | [] => none
  | c :: input => if c = target then some input else none

/-- What is read, after a separator if it is not the first. -/
def readSeparator {α : Type*} (sep : UInt8) (index : ℕ) (inner : List UInt8 → Option α)
    (input : List UInt8) : Option α :=
  if 0 < index then (readGivenChar sep input).bind inner else inner input

def readOctet (index : ℕ) (input : List UInt8) : Option (UInt8 × List UInt8) :=
  (readSeparator 46 index (readNumber 10 3 256 false) input).map fun (n, rest) => (n.toUInt8, rest)

def readIpv4Addr (input : List UInt8) : Option (Ipv4Addr × List UInt8) := do
  let (a, input) ← readOctet 0 input
  let (b, input) ← readOctet 1 input
  let (c, input) ← readOctet 2 input
  let (d, input) ← readOctet 3 input
  some (⟨a, b, c, d⟩, input)

/-- A segment of two bytes. -/
def ofBytes (a b : UInt8) : UInt16 := a.toUInt16 <<< 8 ||| b.toUInt16

/-- The groups from the `index`-th on, at most `n`, and whether they end in a dotted quad. -/
def readGroups : (n index : ℕ) → List UInt8 → List UInt16 × Bool × List UInt8
  | 0, _, input => ([], false, input)
  | n + 1, index, input =>
    -- There have to be two groups left for a dotted quad.
    match if 0 < n then readSeparator 58 index readIpv4Addr input else none with
    | some (quad, rest) => ([ofBytes quad.a quad.b, ofBytes quad.c quad.d], true, rest)
    | none =>
      match readSeparator 58 index (readNumber 16 4 (2 ^ 16) true) input with
      | none => ([], false, input)
      | some (group, rest) =>
        let (groups, quad, rest) := readGroups n (index + 1) rest
        (group.toUInt16 :: groups, quad, rest)

def readIpv6Addr (input : List UInt8) : Option (Ipv6Addr × List UInt8) :=
  let (head, headIpv4, input) := readGroups 8 0 input
  if head.length = 8 then some (.ofSegments head, input)
  else if headIpv4 then none
  else do
    let input ← readGivenChar 58 input
    let input ← readGivenChar 58 input
    let (tail, _, input) := readGroups (8 - (head.length + 1)) 0 input
    some (.ofSegments (head ++ List.replicate (8 - head.length - tail.length) 0 ++ tail), input)

/-- Reads an address, and nothing after it. What begins as one of version 4 is not one of
    version 6. -/
def IpAddr.parse (input : List UInt8) : Option IpAddr :=
  let read : Option (IpAddr × List UInt8) := match readIpv4Addr input with
    | some (address, rest) => some (.v4 address, rest)
    | none => (readIpv6Addr input).map fun (address, rest) => (.v6 address, rest)
  match read with
  | some (address, []) => some address
  | _ => none

end Itx
