import Mathlib

/-!
# Text

Text as characters and as the bytes of its UTF-8 encoding (`utf8`), and numbers in text, with
zeros in front to a least width (`padded`).

* `utf8_flatMap`: what is done to each character can be done to the bytes of each;
* `ascii_utf8`, `ofDigitChars_padded`: ASCII text and numbers are read back;
* `padded_append_inj`: a number ends where there is no digit.
-/

namespace Itx

/-- The UTF-8 encoding. -/
def utf8 (s : List Char) : List UInt8 := s.flatMap String.utf8EncodeChar

@[simp] theorem utf8_nil : utf8 [] = [] := rfl

@[simp] theorem utf8_append (s t : List Char) : utf8 (s ++ t) = utf8 s ++ utf8 t := List.flatMap_append

@[simp] theorem utf8_cons (c : Char) (s : List Char) : utf8 (c :: s) = String.utf8EncodeChar c ++ utf8 s :=
  List.flatMap_cons

/-- What is done to each character, and to each of its bytes. -/
theorem utf8_flatMap {f : Char → List Char} {g : UInt8 → List UInt8}
    (h : ∀ c, utf8 (f c) = (String.utf8EncodeChar c).flatMap g) (s : List Char) :
    utf8 (s.flatMap f) = (utf8 s).flatMap g := by
  induction s with
  | nil => rfl
  | cons c s ih => rw [List.flatMap_cons, utf8_append, h, ih, utf8_cons, List.flatMap_append]

theorem utf8EncodeChar_ascii {c : Char} (h : c.toNat < 128) :
    String.utf8EncodeChar c = [UInt8.ofNat c.toNat] := by
  rw [String.utf8EncodeChar]
  exact if_pos (Nat.le_of_lt_succ h)

/-- The bytes of a character beyond ASCII are beyond ASCII. -/
theorem le_of_mem_utf8EncodeChar {c : Char} (h : 128 ≤ c.toNat) {b : UInt8}
    (hb : b ∈ String.utf8EncodeChar c) : 128 ≤ b.toNat := by
  have hc : ¬ c.val.toNat ≤ 127 := not_le.2 h
  simp only [String.utf8EncodeChar, if_neg hc] at hb
  split_ifs at hb
  all_goals
    simp only [List.mem_cons, List.not_mem_nil, or_false] at hb
    rcases hb with rfl | rfl | rfl | rfl <;> rw [UInt8.toNat_ofNat'] <;> omega

/-- ASCII text, read from its bytes. -/
def ascii (bytes : List UInt8) : List Char := bytes.map fun b => Char.ofNat b.toNat

theorem ascii_utf8 {s : List Char} (h : ∀ c ∈ s, c.toNat < 128) : ascii (utf8 s) = s := by
  induction s with
  | nil => rfl
  | cons c s ih =>
    have hc := h c List.mem_cons_self
    rw [utf8_cons, utf8EncodeChar_ascii hc, List.singleton_append, ascii, List.map_cons, ← ascii,
      ih fun d hd => h d (List.mem_cons_of_mem _ hd), UInt8.toNat_ofNat', Nat.mod_eq_of_lt (by omega),
      Char.ofNat_toNat]

/-! ## Numbers -/

/-- A number to a base, with zeros in front to a width at least. -/
def padded (base width n : ℕ) : List Char :=
  List.replicate (width - (Nat.toDigits base n).length) (Char.ofNat 48) ++ Nat.toDigits base n

/-- A number that is as long needs no zeros. -/
theorem padded_of_le {base width n : ℕ} (hbase : 1 < base) (hwidth : 0 < width) (h : base ^ width ≤ n) :
    padded base (width + 1) n = Nat.toDigits base n := by
  have hlength : ¬ (Nat.toDigits base n).length ≤ width := by
    rw [Nat.length_toDigits_le_iff hbase hwidth]
    omega
  rw [padded, Nat.sub_eq_zero_of_le (by omega)]
  rfl

theorem length_padded {base width n : ℕ} (hbase : 1 < base) (hwidth : 0 < width) (h : n < base ^ width) :
    (padded base width n).length = width := by
  have hlength := (Nat.length_toDigits_le_iff hbase hwidth).2 h
  rw [padded, List.length_append, List.length_replicate]
  omega

theorem ofDigitChars_padded (width n : ℕ) : Nat.ofDigitChars 10 (padded 10 width n) 0 = n := by
  have hzero :
      Nat.ofDigitChars 10 (List.replicate (width - (Nat.toDigits 10 n).length) (Char.ofNat 48)) 0 = 0 :=
    Nat.ofDigitChars_replicate_zero
  rw [padded, Nat.ofDigitChars_append, hzero, Nat.ofDigitChars_toDigits (by decide) (by decide)]

theorem isDigit_of_mem_padded {width n : ℕ} {c : Char} (h : c ∈ padded 10 width n) : c.isDigit := by
  rcases List.mem_append.1 h with h | h
  · rw [List.eq_of_mem_replicate h]
    rfl
  · exact Nat.isDigit_of_mem_toDigits (by decide) (by decide) h

theorem toNat_lt_of_isDigit {c : Char} (h : c.isDigit) : c.toNat < 128 := by
  have hc := (Char.isDigit_iff_toNat.1 h).2
  have hnine : ('9' : Char).toNat = 57 := rfl
  omega

/-- What consists of characters of a kind ends where there is none of it. -/
theorem run_append_inj {p : Char → Bool} {l l' r r' : List Char} (hl : ∀ c ∈ l, p c) (hl' : ∀ c ∈ l', p c)
    (hr : ∀ c ∈ r.head?, ¬p c) (hr' : ∀ c ∈ r'.head?, ¬p c) (h : l ++ r = l' ++ r') : l = l' ∧ r = r' := by
  have htake : ∀ {l r : List Char}, (∀ c ∈ l, p c) → (∀ c ∈ r.head?, ¬p c) → (l ++ r).takeWhile p = l := by
    intro l r hl hr
    rw [List.takeWhile_append_of_pos hl]
    cases r with
    | nil => rw [List.takeWhile_nil, List.append_nil]
    | cons c r => rw [List.takeWhile_cons_of_neg (hr c rfl), List.append_nil]
  obtain rfl : l = l' := by rw [← htake hl hr, h, htake hl' hr']
  exact ⟨rfl, List.append_cancel_left h⟩

/-- Digits end where there is none. -/
theorem digits_append_inj {l l' r r' : List Char} (hl : ∀ c ∈ l, c.isDigit) (hl' : ∀ c ∈ l', c.isDigit)
    (hr : ∀ c ∈ r.head?, ¬c.isDigit) (hr' : ∀ c ∈ r'.head?, ¬c.isDigit) (h : l ++ r = l' ++ r') :
    l = l' ∧ r = r' :=
  run_append_inj hl hl' hr hr' h

/-- A number ends where there is no digit. -/
theorem padded_append_inj {width n n' : ℕ} {r r' : List Char} (hr : ∀ c ∈ r.head?, ¬c.isDigit)
    (hr' : ∀ c ∈ r'.head?, ¬c.isDigit) (h : padded 10 width n ++ r = padded 10 width n' ++ r') :
    n = n' ∧ r = r' := by
  obtain ⟨hdigits, hrest⟩ :=
    digits_append_inj (fun _ => isDigit_of_mem_padded) (fun _ => isDigit_of_mem_padded) hr hr' h
  refine ⟨?_, hrest⟩
  rw [← ofDigitChars_padded width n, hdigits, ofDigitChars_padded]

end Itx
