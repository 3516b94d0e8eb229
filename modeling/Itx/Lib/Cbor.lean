import Mathlib

/-!
# CBOR

Encoders of the items of CBOR that a program writes. An item starts with a head, which has
its major type and an argument: a number, a count or a length, in as few bytes as it fits
in (`head`). The encoders take the bytes of what they contain, so that a type is encoded by
composing them; a structure is a map from the names of its fields (`struct`), and a variant
of an enumeration a map of one entry (`variant`).

What is proved of an encoding is its length, item by item (`length_array`, `length_struct`),
a head taking from one byte to nine.
-/

namespace Itx.Cbor

/-- The `n` low bytes of a number, the highest first. -/
def bigEndian (n x : ℕ) : List UInt8 := ((List.range n).map fun i => UInt8.ofNat (x / 256 ^ i)).reverse

/-- The head of an item, in its shortest form. -/
def head (major n : ℕ) : List UInt8 :=
  if n < 24 then [UInt8.ofNat (32 * major + n)]
  else if n < 2 ^ 8 then UInt8.ofNat (32 * major + 24) :: bigEndian 1 n
  else if n < 2 ^ 16 then UInt8.ofNat (32 * major + 25) :: bigEndian 2 n
  else if n < 2 ^ 32 then UInt8.ofNat (32 * major + 26) :: bigEndian 4 n
  else UInt8.ofNat (32 * major + 27) :: bigEndian 8 n

/-- How many bytes the head of an item takes. -/
def headSize (n : ℕ) : ℕ :=
  if n < 24 then 1 else if n < 2 ^ 8 then 2 else if n < 2 ^ 16 then 3 else if n < 2 ^ 32 then 5 else 9

def uint (n : ℕ) : List UInt8 := head 0 n

def bytes (b : List UInt8) : List UInt8 := head 2 b.length ++ b

/-- A text, given by its bytes. -/
def text (s : List UInt8) : List UInt8 := head 3 s.length ++ s

def array (items : List (List UInt8)) : List UInt8 := head 4 items.length ++ items.flatten

/-- Bytes written one by one, as an array of numbers. -/
def numbers (b : List UInt8) : List UInt8 := array (b.map fun x => uint x.toNat)

def map (entries : List (List UInt8 × List UInt8)) : List UInt8 :=
  head 5 entries.length ++ entries.flatMap fun entry => entry.1 ++ entry.2

def bool (b : Bool) : List UInt8 := [if b then 0xf5 else 0xf4]

/-- The name of a field or of a variant. -/
def name (s : String) : List UInt8 := text s.toUTF8.data.toList

/-- A structure: a map from the names of its fields. -/
def struct (fields : List (String × List UInt8)) : List UInt8 :=
  map (fields.map fun field => (name field.1, field.2))

/-- A variant of an enumeration: its name, and its value. -/
def variant (s : String) (value : List UInt8) : List UInt8 := map [(name s, value)]

/-! ## Lengths -/

@[simp]
theorem length_bigEndian (n x : ℕ) : (bigEndian n x).length = n := by simp [bigEndian]

@[simp]
theorem length_head (major n : ℕ) : (head major n).length = headSize n := by
  rw [head, headSize]
  split_ifs <;> simp

@[simp]
theorem length_uint (n : ℕ) : (uint n).length = headSize n := length_head 0 n

@[simp]
theorem length_bytes (b : List UInt8) : (bytes b).length = headSize b.length + b.length := by
  simp [bytes]

@[simp]
theorem length_text (s : List UInt8) : (text s).length = headSize s.length + s.length := by
  simp [text]

@[simp]
theorem length_name (s : String) : (name s).length = headSize s.utf8ByteSize + s.utf8ByteSize :=
  length_text _

@[simp]
theorem length_bool (b : Bool) : (bool b).length = 1 := rfl

theorem length_array (items : List (List UInt8)) :
    (array items).length = headSize items.length + (items.map List.length).sum := by
  simp [array, List.length_flatten]

theorem length_numbers (b : List UInt8) :
    (numbers b).length = headSize b.length + (b.map fun x => headSize x.toNat).sum := by
  rw [numbers, length_array, List.length_map, List.map_map]
  simp only [Function.comp_def, length_uint]

theorem length_map (entries : List (List UInt8 × List UInt8)) :
    (map entries).length =
      headSize entries.length + (entries.map fun entry => entry.1.length + entry.2.length).sum := by
  simp [map, List.length_flatMap]

/-- A structure whose names take `n` bytes together. -/
theorem length_struct {fields : List (String × List UInt8)} {n : ℕ}
    (h : (fields.map fun field => (name field.1).length).sum = n) :
    (struct fields).length = headSize fields.length + n + (fields.map fun field => field.2.length).sum := by
  rw [struct, length_map, List.length_map, List.map_map, ← h, add_assoc, ← List.sum_map_add]
  rfl

theorem length_variant {s : String} {n : ℕ} (h : (name s).length = n) (value : List UInt8) :
    (variant s value).length = 1 + n + value.length := by
  simp [variant, length_map, headSize, ← h, add_assoc]

/-! ## The size of a head -/

theorem one_le_headSize (n : ℕ) : 1 ≤ headSize n := by
  rw [headSize]
  split_ifs <;> omega

theorem headSize_le (n : ℕ) : headSize n ≤ 9 := by
  rw [headSize]
  split_ifs <;> omega

theorem headSize_of_lt {n : ℕ} (h : n < 24) : headSize n = 1 := if_pos h

end Itx.Cbor
