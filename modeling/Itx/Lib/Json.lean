import Itx.Lib.Text

/-!
# JSON in two languages

A value, and its compact form as two writers make it: the `json.dumps` of Python, on the
characters of strings, with `separators=(",", ":")` and `ensure_ascii=False`
(`Json.dumps`); and the `serde_json::to_string` of Rust, on the bytes of their UTF-8 encoding
(`Json.serialize`). Both escape the quote, the backslash and the control characters, each by a
table of its own, and leave the others as they are. They write the same bytes
(`utf8_dumps`).
-/

namespace Itx

/-- A value, with objects as their members in order. -/
inductive Json
  | null
  | bool (b : Bool)
  | int (n : ℤ)
  | str (s : List Char)
  | list (elements : List Json)
  | object (members : List (List Char × Json))

namespace Json

/-! ## The writer of Python -/

/-- A character by its code. -/
abbrev char (n : ℕ) : Char := Char.ofNat n

/-- An entry of `ESCAPE_DCT`, or the character itself. -/
def escapeChar (c : Char) : List Char :=
  if c = char 92 then [char 92, char 92]
  else if c = char 34 then [char 92, char 34]
  else if c = char 8 then [char 92, 'b']
  else if c = char 12 then [char 92, 'f']
  else if c = char 10 then [char 92, 'n']
  else if c = char 13 then [char 92, 'r']
  else if c = char 9 then [char 92, 't']
  else if c.toNat < 32 then char 92 :: 'u' :: padded 16 4 c.toNat
  else [c]

/-- `encode_basestring`. -/
def encodeBasestring (s : List Char) : List Char := char 34 :: (s.flatMap escapeChar ++ [char 34])

/-- `int.__repr__`. -/
def intRepr : ℤ → List Char
  | .ofNat n => Nat.toDigits 10 n
  | .negSucc n => '-' :: Nat.toDigits 10 (n + 1)

mutual

/-- `json.dumps(value, separators=(",", ":"), ensure_ascii=False)`. -/
def dumps : Json → List Char
  | null => "null".toList
  | bool true => "true".toList
  | bool false => "false".toList
  | int n => intRepr n
  | str s => encodeBasestring s
  | list elements => '[' :: ([','].intercalate (dumpsElements elements) ++ [']'])
  | object members => char 123 :: ([','].intercalate (dumpsMembers members) ++ [char 125])

def dumpsElements : List Json → List (List Char)
  | [] => []
  | value :: rest => dumps value :: dumpsElements rest

def dumpsMembers : List (List Char × Json) → List (List Char)
  | [] => []
  | (key, value) :: rest => (encodeBasestring key ++ ':' :: dumps value) :: dumpsMembers rest

end

/-! ## The writer of Rust -/

/-- `HEX_DIGITS`. -/
def hexDigit (n : ℕ) : UInt8 := if n < 10 then UInt8.ofNat (48 + n) else UInt8.ofNat (87 + n)

/-- A byte as `ESCAPE` and `write_char_escape` say. -/
def escapeByte (b : UInt8) : List UInt8 :=
  match b.toNat with
  | 8 => [92, 98]
  | 9 => [92, 116]
  | 10 => [92, 110]
  | 12 => [92, 102]
  | 13 => [92, 114]
  | 34 => [92, 34]
  | 92 => [92, 92]
  | n => if n < 32 then [92, 117, 48, 48, hexDigit (n / 16), hexDigit (n % 16)] else [b]

/-- `format_escaped_str`. -/
def formatEscapedStr (bytes : List UInt8) : List UInt8 := 34 :: (bytes.flatMap escapeByte ++ [34])

/-- The digits of `itoa`. -/
def itoa (n : ℤ) : List UInt8 := (if n < 0 then [45] else []) ++ utf8 (Nat.toDigits 10 n.natAbs)

mutual

/-- `serde_json::to_string`, by the `CompactFormatter`. -/
def serialize : Json → List UInt8
  | null => [110, 117, 108, 108]
  | bool true => [116, 114, 117, 101]
  | bool false => [102, 97, 108, 115, 101]
  | int n => itoa n
  | str s => formatEscapedStr (utf8 s)
  | list elements => 91 :: (serializeElements true elements ++ [93])
  | object members => 123 :: (serializeMembers true members ++ [125])

/-- The elements, each but the first after a comma. -/
def serializeElements (first : Bool) : List Json → List UInt8
  | [] => []
  | value :: rest => (if first then [] else [44]) ++ serialize value ++ serializeElements false rest

def serializeMembers (first : Bool) : List (List Char × Json) → List UInt8
  | [] => []
  | (key, value) :: rest => (if first then [] else [44]) ++ formatEscapedStr (utf8 key) ++ 58 ::
      serialize value ++ serializeMembers false rest

end

/-! ## They agree -/

/-- The tables agree: on ASCII one by one, and beyond it nothing is escaped. -/
theorem utf8_escapeChar (c : Char) : utf8 (escapeChar c) = (String.utf8EncodeChar c).flatMap escapeByte := by
  by_cases hc : c.toNat < 128
  · have htable : ∀ n < 128, utf8 (escapeChar (Char.ofNat n)) =
        (String.utf8EncodeChar (Char.ofNat n)).flatMap escapeByte := by decide +kernel
    have h := htable c.toNat hc
    rwa [Char.ofNat_toNat] at h
  · have hchar : escapeChar c = [c] := by
      have hne : ∀ n < 128, c ≠ char n := by
        rintro n hn rfl
        refine hc ?_
        have hvalid : ∀ n < 128, (Char.ofNat n).toNat < 128 := by decide +kernel
        exact hvalid n hn
      simp only [escapeChar, hne 92 (by decide), hne 34 (by decide), hne 8 (by decide), hne 12 (by decide),
        hne 10 (by decide), hne 13 (by decide), hne 9 (by decide), if_false]
      exact if_neg (by omega)
    have hbytes : ∀ b ∈ String.utf8EncodeChar c, escapeByte b = [b] := by
      intro b hb
      have hb := le_of_mem_utf8EncodeChar (not_lt.1 hc) hb
      rw [escapeByte]
      split
      all_goals first | omega | rw [if_neg (by omega)]
    rw [hchar, utf8_cons, utf8_nil, List.append_nil, List.flatMap_congr hbytes]
    exact (List.flatMap_singleton' _).symm

theorem utf8_encodeBasestring (s : List Char) : utf8 (encodeBasestring s) = formatEscapedStr (utf8 s) := by
  rw [encodeBasestring, formatEscapedStr, utf8_cons, utf8_append, utf8_flatMap utf8_escapeChar]
  rfl

theorem utf8_intRepr (n : ℤ) : utf8 (intRepr n) = itoa n := by
  cases n with
  | ofNat n => rfl
  | negSucc n =>
    rw [itoa, if_pos (Int.negSucc_lt_zero n), intRepr, utf8_cons]
    rfl

/-- What a comma is put between, and what one is put in front of. -/
theorem utf8_intercalate_comma (first : List Char) (rest : List (List Char)) :
    utf8 ([','].intercalate (first :: rest)) = utf8 first ++ rest.flatMap fun s => 44 :: utf8 s := by
  induction rest generalizing first with
  | nil => simp [List.intercalate]
  | cons second rest ih =>
    have hcons : [','].intercalate (first :: second :: rest) =
        first ++ ',' :: [','].intercalate (second :: rest) := by
      simp [List.intercalate]
    rw [hcons, utf8_append, utf8_cons, ih, List.flatMap_cons]
    rfl

theorem utf8EncodeChar_colon : String.utf8EncodeChar ':' = [58] := rfl

mutual

/-- **The two writers agree.** -/
theorem utf8_dumps : ∀ value : Json, utf8 value.dumps = value.serialize
  | null => by decide
  | bool true => by decide
  | bool false => by decide
  | int n => by rw [dumps, serialize, utf8_intRepr]
  | str s => by rw [dumps, serialize, utf8_encodeBasestring]
  | list [] => rfl
  | list (value :: rest) => by
    rw [dumps, serialize, dumpsElements, serializeElements, utf8_cons, utf8_append, utf8_intercalate_comma,
      utf8_dumps value, utf8_dumpsElements rest]
    rfl
  | object [] => rfl
  | object ((key, value) :: rest) => by
    rw [dumps, serialize, dumpsMembers, serializeMembers, utf8_cons, utf8_append, utf8_intercalate_comma,
      utf8_append, utf8_cons, utf8_encodeBasestring, utf8_dumps value, utf8_dumpsMembers rest]
    exact congrArg (123 :: ·) (by simp [utf8EncodeChar_colon]; rfl)

theorem utf8_dumpsElements : ∀ elements : List Json,
    ((dumpsElements elements).flatMap fun s => 44 :: utf8 s) = serializeElements false elements
  | [] => rfl
  | value :: rest => by
    rw [dumpsElements, serializeElements, List.flatMap_cons, utf8_dumps value, utf8_dumpsElements rest]
    rfl

theorem utf8_dumpsMembers : ∀ members : List (List Char × Json),
    ((dumpsMembers members).flatMap fun s => 44 :: utf8 s) = serializeMembers false members
  | [] => rfl
  | (key, value) :: rest => by
    rw [dumpsMembers, serializeMembers, List.flatMap_cons, utf8_append, utf8_cons, utf8_encodeBasestring,
      utf8_dumps value, utf8_dumpsMembers rest, utf8EncodeChar_colon]
    simp

end

end Json

end Itx
