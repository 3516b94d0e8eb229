import Mathlib

/-!
# Write-back

A map is changed in memory, and what changed is written to a store afterwards. A writer
reads an entry, lets go of the map, and saves the copy it took; in between the entry may
change again, and the copy of another writer may reach the store first.

Changes, reads and saves are dated, by a clock that ticks at every change. As long as each
entry is still to be read by some writer, or was read after its last change by one whose
copy is under way or in the store (`Covers`), the store catches up with the map: an entry
that no writer is to read, and of which no copy is under way, is stored as it is
(`Covers.rest`). A save keeps this if it does not put an earlier read in the place of a
later one (`Covers.save`).
-/

namespace Itx

/-- An entry, as it was read. -/
structure Copy (K V : Type*) where
  key : K
  value : V
  readAt : ℕ
  deriving DecidableEq, Repr

/-- A store, the copies on their way to it, and the times of the last change of each entry
    and of the read that is stored. -/
structure WriteBack (K V : Type*) where
  stored : K → Option V
  copies : List (Copy K V)
  now : ℕ
  changedAt : K → ℕ
  storedAt : K → ℕ

namespace WriteBack

variable {K V : Type*}

/-- A store that has everything, before anything changes. -/
def start (live : K → Option V) : WriteBack K V where
  stored := live
  copies := []
  now := 0
  changedAt _ := 0
  storedAt _ := 0

/-- A copy is taken. -/
def read (key : K) (value : V) (w : WriteBack K V) : WriteBack K V :=
  { w with copies := ⟨key, value, w.now⟩ :: w.copies }

variable [DecidableEq K]

/-- Some entries change. -/
def change (keys : List K) (w : WriteBack K V) : WriteBack K V :=
  { w with now := w.now + 1, changedAt := fun k => if k ∈ keys then w.now + 1 else w.changedAt k }

@[simp] theorem changedAt_change (keys : List K) (w : WriteBack K V) (k : K) :
    (w.change keys).changedAt k = if k ∈ keys then w.now + 1 else w.changedAt k := rfl

/-- A copy is saved. -/
def save (index : ℕ) (w : WriteBack K V) : WriteBack K V :=
  match w.copies[index]? with
  | none => w
  | some c =>
    { w with
      stored := Function.update w.stored c.key (some c.value)
      storedAt := Function.update w.storedAt c.key c.readAt
      copies := w.copies.eraseIdx index }

/-- Saving this copy puts no earlier read in the place of a later one. -/
def InOrder (index : ℕ) (w : WriteBack K V) : Prop :=
  ∀ c ∈ w.copies[index]?, w.storedAt c.key ≤ c.readAt

/-- Copies and stored entries read after the last change are as they are in the map, and
    every entry has one, unless it is among those yet to be read. -/
structure Covers (live : K → Option V) (owed : Set K) (w : WriteBack K V) : Prop where
  copied : ∀ c ∈ w.copies, w.changedAt c.key ≤ c.readAt → live c.key = some c.value
  stored : ∀ k, w.changedAt k ≤ w.storedAt k → w.stored k = live k
  covered : ∀ k v, live k = some v → k ∉ owed → w.changedAt k ≤ w.storedAt k ∨
    ∃ c ∈ w.copies, c.key = k ∧ w.changedAt k ≤ c.readAt
  readAt : ∀ c ∈ w.copies, c.readAt ≤ w.now
  changedAt : ∀ k, w.changedAt k ≤ w.now
  storedAt : ∀ k, w.storedAt k ≤ w.now

/-- What is left when another item is taken out. -/
theorem mem_eraseIdx_of_ne {α : Type*} {l : List α} {i : ℕ} {a b : α} (ha : l[i]? = some a)
    (hb : b ∈ l) (hne : b ≠ a) : b ∈ l.eraseIdx i := by
  obtain ⟨j, hj⟩ := List.mem_iff_getElem?.1 hb
  refine List.mem_eraseIdx_iff_getElem?.2 ⟨j, ?_, hj⟩
  rintro rfl
  exact hne (Option.some.inj (hj.symm.trans ha))

namespace Covers

variable {live live' : K → Option V} {owed owed' : Set K} {w : WriteBack K V} {key : K} {value : V}

omit [DecidableEq K] in
theorem start : Covers live ∅ (WriteBack.start live) where
  copied _ hc := absurd hc List.not_mem_nil
  stored _ _ := rfl
  covered _ _ _ _ := .inl le_rfl
  readAt _ hc := absurd hc List.not_mem_nil
  changedAt _ := le_rfl
  storedAt _ := le_rfl

omit [DecidableEq K] in
/-- More may be owed. -/
theorem mono (h : Covers live owed w) (howed : owed ⊆ owed') : Covers live owed' w :=
  { h with covered := fun k v hk hnot => h.covered k v hk fun hin => hnot (howed hin) }

omit [DecidableEq K] in
/-- What is not there need not be read. -/
theorem drop (h : Covers live owed w) (hkey : live key = none) : Covers live (owed \ {key}) w := by
  refine { h with covered := fun k v hk hnot => h.covered k v hk fun hin => hnot ⟨hin, ?_⟩ }
  rintro rfl
  rw [hkey] at hk
  cases hk

/-- Entries that change are to be read again. -/
theorem change {keys : List K} (h : Covers live owed w) (hlive : ∀ k, k ∉ keys → live' k = live k) :
    Covers live' (owed ∪ {k | k ∈ keys}) (w.change keys) where
  copied c hc hle := by
    rw [changedAt_change] at hle
    split_ifs at hle with hkey
    · -- The copy was read before the change.
      exact absurd (h.readAt c hc) (by omega)
    · rw [hlive c.key hkey]
      exact h.copied c hc hle
  stored k hle := by
    rw [changedAt_change] at hle
    split_ifs at hle with hkey
    · have hstored : w.now + 1 ≤ w.storedAt k := hle
      exact absurd (h.storedAt k) (by omega)
    · rw [hlive k hkey]
      exact h.stored k hle
  covered k v hk hnot := by
    obtain ⟨howed, hkey⟩ := not_or.1 hnot
    rw [hlive k hkey] at hk
    rw [changedAt_change, if_neg (show k ∉ keys from hkey)]
    exact h.covered k v hk howed
  readAt c hc := Nat.le_succ_of_le (h.readAt c hc)
  changedAt k := by
    rw [changedAt_change]
    split_ifs
    · exact le_rfl
    · exact Nat.le_succ_of_le (h.changedAt k)
  storedAt k := Nat.le_succ_of_le (h.storedAt k)

omit [DecidableEq K] in
/-- An entry is read. -/
theorem read (h : Covers live owed w) (hkey : live key = some value) :
    Covers live (owed \ {key}) (w.read key value) where
  copied c hc hle := by
    rcases List.mem_cons.1 hc with rfl | hc
    · exact hkey
    · exact h.copied c hc hle
  stored := h.stored
  covered k v hk hnot := by
    by_cases he : k = key
    · exact .inr ⟨_, List.mem_cons_self, he.symm, h.changedAt k⟩
    · rcases h.covered k v hk fun hin => hnot ⟨hin, he⟩ with hle | ⟨c, hc, hck⟩
      · exact .inl hle
      · exact .inr ⟨c, List.mem_cons_of_mem _ hc, hck⟩
  readAt c hc := by
    rcases List.mem_cons.1 hc with rfl | hc
    · exact le_rfl
    · exact h.readAt c hc
  changedAt := h.changedAt
  storedAt := h.storedAt

/-- A copy is saved, in order. -/
theorem save {index : ℕ} (h : Covers live owed w) (horder : w.InOrder index) :
    Covers live owed (w.save index) := by
  rw [WriteBack.save]
  split
  · exact h
  · next c hc =>
    have hmem : c ∈ w.copies := List.mem_of_getElem? hc
    have hle : w.storedAt c.key ≤ c.readAt := horder c hc
    refine ⟨fun c' hc' => h.copied c' (List.mem_of_mem_eraseIdx hc'), fun k hk => ?_,
      fun k v hk hnot => ?_, fun c' hc' => h.readAt c' (List.mem_of_mem_eraseIdx hc'), h.changedAt,
      fun k => ?_⟩
    · dsimp only at hk ⊢
      rcases eq_or_ne k c.key with rfl | hne
      · rw [Function.update_self] at hk ⊢
        exact (h.copied c hmem hk).symm
      · rw [Function.update_of_ne hne] at hk ⊢
        exact h.stored k hk
    · dsimp only
      rcases eq_or_ne k c.key with rfl | hne
      · rw [Function.update_self]
        rcases h.covered c.key v hk hnot with hstored | ⟨c', hc', hkey, hread⟩
        · exact .inl (hstored.trans hle)
        · -- Another copy is still under way, or this was the one.
          by_cases he : c' = c
          · exact .inl (he ▸ hread)
          · exact .inr ⟨c', mem_eraseIdx_of_ne hc hc' he, hkey, hread⟩
      · rw [Function.update_of_ne hne]
        rcases h.covered k v hk hnot with hstored | ⟨c', hc', hkey, hread⟩
        · exact .inl hstored
        · exact .inr ⟨c', mem_eraseIdx_of_ne hc hc' (fun he => hne (he ▸ hkey.symm)), hkey, hread⟩
    · dsimp only
      rcases eq_or_ne k c.key with rfl | hne
      · rw [Function.update_self]
        exact h.readAt c hmem
      · rw [Function.update_of_ne hne]
        exact h.storedAt k

/-- An entry is read, and saved before anything else happens. -/
theorem hold (h : Covers live owed w) (hkey : live key = some value) :
    Covers live (owed \ {key}) ((w.read key value).save 0) := by
  refine (h.read hkey).save fun c hc => ?_
  obtain rfl : (⟨key, value, w.now⟩ : Copy K V) = c := Option.some.inj hc
  exact h.storedAt key

omit [DecidableEq K] in
/-- An entry with nothing under way is stored as it is. -/
theorem rest (h : Covers live owed w) (hkey : live key = some value) (howed : key ∉ owed)
    (hcopies : ∀ c ∈ w.copies, c.key ≠ key) : w.stored key = some value := by
  rcases h.covered key value hkey howed with hle | ⟨c, hc, hck, -⟩
  · rw [h.stored key hle, hkey]
  · exact absurd hck (hcopies c hc)

end Covers

end WriteBack

end Itx
