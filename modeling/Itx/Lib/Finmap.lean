import Mathlib

/-!
# Finite maps: updates and totals

What is used of Mathlib's `Finmap` with values of a single type: how its updates
read back, one lookup lemma for each (`lookup_insert_eq`, `lookup_erase_eq`,
`lookup_modify`, `lookup_eraseAll`), its values by ascending keys (`values`), and
the *total* of a weight over the entries of a map (`total`), with what an update
adds to it and what it takes away.
-/

/-- The elements of a finite set, in ascending order. -/
def Finset.ascending {α : Type*} [LinearOrder α] (s : Finset α) : List α :=
  Quot.liftOn s.1 (List.insertionSort (· ≤ ·)) fun l l' h =>
    List.Perm.eq_of_pairwise' (List.pairwise_insertionSort _ l) (List.pairwise_insertionSort _ l')
      ((List.perm_insertionSort _ l).trans (h.trans (List.perm_insertionSort _ l').symm))

theorem Finset.mem_ascending {α : Type*} [LinearOrder α] {s : Finset α} {a : α} :
    a ∈ s.ascending ↔ a ∈ s := by
  obtain ⟨m, hm⟩ := s
  induction m using Quot.inductionOn with
  | _ l => exact List.mem_insertionSort _

theorem Finset.nodup_ascending {α : Type*} [LinearOrder α] (s : Finset α) : s.ascending.Nodup := by
  obtain ⟨m, hm⟩ := s
  induction m using Quot.inductionOn with
  | _ l => exact (List.perm_insertionSort _ l).nodup_iff.2 hm

namespace Finmap

variable {α β : Type*} [DecidableEq α]

theorem lookup_insert_eq (m : Finmap fun _ : α => β) (a x : α) (b : β) :
    (m.insert a b).lookup x = if x = a then some b else m.lookup x := by
  split_ifs with h
  · rw [h, lookup_insert]
  · rw [lookup_insert_of_ne _ h]

theorem lookup_erase_eq (m : Finmap fun _ : α => β) (a x : α) :
    (m.erase a).lookup x = if x = a then none else m.lookup x := by
  split_ifs with h
  · rw [h, lookup_erase]
  · rw [lookup_erase_ne h]

/-- Updating the value of `a`, if there is one (`entry(a).and_modify(f)`). -/
def modify (a : α) (f : β → β) (m : Finmap fun _ : α => β) : Finmap fun _ : α => β :=
  match m.lookup a with
  | some b => m.insert a (f b)
  | none => m

theorem lookup_modify (m : Finmap fun _ : α => β) (a x : α) (f : β → β) :
    (m.modify a f).lookup x = if x = a then (m.lookup x).map f else m.lookup x := by
  unfold modify
  split
  · next b hb =>
    rw [lookup_insert_eq]
    split_ifs with h
    · rw [h, hb, Option.map_some]
    · rfl
  · next hb =>
    split_ifs with h
    · rw [h, hb, Option.map_none]
    · rfl

/-- Writing what is there already. -/
theorem insert_of_lookup {m : Finmap fun _ : α => β} {a : α} {b : β} (h : m.lookup a = some b) :
    m.insert a b = m := by
  refine ext_lookup fun x => ?_
  rw [lookup_insert_eq]
  split_ifs with hx
  · rw [hx, h]
  · rfl

theorem keys_insert (m : Finmap fun _ : α => β) (a : α) (b : β) :
    (m.insert a b).keys = Insert.insert a m.keys := by
  ext x
  rw [mem_keys, mem_insert, Finset.mem_insert, mem_keys]

/-- Writing an entry again adds no key. -/
theorem keys_insert_of_lookup {m : Finmap fun _ : α => β} {a : α} {b b' : β}
    (h : m.lookup a = some b) : (m.insert a b').keys = m.keys := by
  rw [keys_insert, Finset.insert_eq_of_mem]
  exact mem_keys.2 (mem_iff.2 ⟨b, h⟩)

/-- Erasing keys one after the other. -/
def eraseAll (m : Finmap fun _ : α => β) (l : List α) : Finmap fun _ : α => β :=
  l.foldl (fun m a => m.erase a) m

theorem eraseAll_append (m : Finmap fun _ : α => β) (l l' : List α) :
    m.eraseAll (l ++ l') = (m.eraseAll l).eraseAll l' := List.foldl_append

theorem lookup_eraseAll (m : Finmap fun _ : α => β) (l : List α) (x : α) :
    (m.eraseAll l).lookup x = if x ∈ l then none else m.lookup x := by
  induction l generalizing m with
  | nil => rfl
  | cons a l ih =>
    rw [eraseAll, List.foldl_cons, ← eraseAll, ih, lookup_erase_eq]
    by_cases hx : x = a <;> by_cases hxs : x ∈ l <;> simp [hx, hxs]

/-- The values of a map by ascending keys (`BTreeMap::values`). -/
def values {α β : Type*} [LinearOrder α] (m : Finmap fun _ : α => β) : List β :=
  m.keys.ascending.filterMap m.lookup

theorem mem_values {α β : Type*} [LinearOrder α] {m : Finmap fun _ : α => β} {b : β} :
    b ∈ m.values ↔ ∃ a, m.lookup a = some b := by
  rw [values, List.mem_filterMap]
  refine exists_congr fun a => and_iff_right_of_imp fun h => ?_
  rw [Finset.mem_ascending, mem_keys]
  exact mem_iff.2 ⟨b, h⟩

/-- What is read off the values, by what is read off the entries. -/
theorem map_values {α β γ : Type*} [LinearOrder α] (m : Finmap fun _ : α => β) (g : β → γ) :
    m.values.map g = m.keys.ascending.filterMap fun a => (m.lookup a).map g := by
  rw [values, List.map_filterMap]

theorem keys_congr {α β γ : Type*} [DecidableEq α] {m m' : Finmap fun _ : α => β} {g : β → γ}
    (h : ∀ a, (m'.lookup a).map g = (m.lookup a).map g) : m'.keys = m.keys := by
  ext a
  have hsome := congrArg Option.isSome (h a)
  rw [Option.isSome_map, Option.isSome_map] at hsome
  rw [mem_keys, mem_keys, ← lookup_isSome, ← lookup_isSome, hsome]

/-- Maps of which the same is read, key by key. -/
theorem map_values_congr {α β γ : Type*} [LinearOrder α] {m m' : Finmap fun _ : α => β} {g : β → γ}
    (h : ∀ a, (m'.lookup a).map g = (m.lookup a).map g) : m'.values.map g = m.values.map g := by
  rw [map_values, map_values, keys_congr h]
  exact List.filterMap_congr fun a _ => h a

/-- Mapping entries keeps the order of the keys that remain. -/
theorem sublist_filterMap_keys {α β γ : Type*} (f : α → β → Option γ) (l : List (Σ _ : α, β)) :
    ((l.filterMap fun e => (f e.1 e.2).map (Sigma.mk (β := fun _ => γ) e.1)).map Sigma.fst).Sublist
      (l.map Sigma.fst) := by
  induction l with
  | nil => exact List.Sublist.refl _
  | cons e l ih =>
    rw [List.filterMap_cons, List.map_cons]
    cases f e.1 e.2 with
    | none => exact ih.cons _
    | some b => exact ih.cons_cons _

/-- The entries that `f` maps to a value, with that value (`Iterator::filter_map`). -/
def filterMap {α β γ : Type*} (f : α → β → Option γ) (m : Finmap fun _ : α => β) :
    Finmap fun _ : α => γ where
  entries := m.entries.filterMap fun e => (f e.1 e.2).map (Sigma.mk e.1)
  nodupKeys := by
    obtain ⟨⟨l⟩, hl⟩ := m
    exact (sublist_filterMap_keys f l).nodup (hl : (l.map Sigma.fst).Nodup)

theorem lookup_filterMap {γ : Type*} (f : α → β → Option γ) (m : Finmap fun _ : α => β) (x : α) :
    (m.filterMap f).lookup x = (m.lookup x).bind (f x) := by
  ext c
  rw [← Option.mem_def, mem_lookup_iff, filterMap, Multiset.mem_filterMap]
  constructor
  · rintro ⟨⟨a, b⟩, hmem, he⟩
    obtain ⟨c', hc, he⟩ := Option.map_eq_some_iff.1 he
    cases he
    rw [Option.mem_def.1 (mem_lookup_iff.2 hmem)]
    exact hc
  · intro h
    obtain ⟨b, hb, hc⟩ := Option.bind_eq_some_iff.1 h
    refine ⟨⟨x, b⟩, mem_lookup_iff.1 hb, ?_⟩
    rw [hc]
    rfl

theorem keys_filterMap {γ : Type*} {f : α → β → Option γ} (hf : ∀ a b, (f a b).isSome)
    (m : Finmap fun _ : α => β) : (m.filterMap f).keys = m.keys := by
  ext x
  rw [mem_keys, mem_keys, ← lookup_isSome, ← lookup_isSome, lookup_filterMap]
  cases m.lookup x with
  | none => rfl
  | some b => rw [Option.bind_some, hf x b, Option.isSome_some]

/-! ## Totals -/

/-- The total of the weight `f` over the entries of a map. -/
def total (f : α → β → ℕ) (m : Finmap fun _ : α => β) : ℕ :=
  (m.entries.map fun e => f e.1 e.2).sum

/-- The weight of the entry of `a`: `0` if there is none. -/
def weight (f : α → β → ℕ) (m : Finmap fun _ : α => β) (a : α) : ℕ :=
  (m.lookup a).elim 0 (f a)

variable {f : α → β → ℕ} {m : Finmap fun _ : α => β} {a x : α} {b : β}

omit [DecidableEq α] in
@[simp] theorem total_empty : total f (∅ : Finmap fun _ : α => β) = 0 := rfl

theorem weight_of_lookup (h : m.lookup a = some b) : m.weight f a = f a b := by
  rw [weight, h, Option.elim_some]

theorem weight_of_notMem (h : a ∉ m) : m.weight f a = 0 := by
  rw [weight, lookup_eq_none.2 h, Option.elim_none]

theorem weight_erase_of_ne (h : x ≠ a) : (m.erase a).weight f x = m.weight f x := by
  rw [weight, lookup_erase_ne h, weight]

theorem total_insert_of_notMem (h : a ∉ m) : total f (m.insert a b) = f a b + total f m := by
  rw [total, entries_insert_of_notMem h, Multiset.map_cons, Multiset.sum_cons, total]

/-- Erasing a key takes away the weight of its entry. -/
theorem total_erase : total f (m.erase a) + m.weight f a = total f m := by
  by_cases ha : a ∈ m
  · obtain ⟨b, hb⟩ := mem_iff.1 ha
    have hm : (m.erase a).insert a b = m := by
      refine ext_lookup fun x => ?_
      rw [lookup_insert_eq, lookup_erase_eq]
      split_ifs with h
      · rw [h, hb]
      · rfl
    have := total_insert_of_notMem (f := f) (b := b) (notMem_erase_self (a := a) (s := m))
    rw [hm] at this
    rw [this, weight_of_lookup hb, add_comm]
  · have hm : m.erase a = m := by
      refine ext_lookup fun x => ?_
      rw [lookup_erase_eq]
      split_ifs with h
      · rw [h, lookup_eq_none.2 ha]
      · rfl
    rw [hm, weight_of_notMem ha, add_zero]

/-- Inserting an entry adds its weight, and takes away that of the entry it
    replaces. -/
theorem total_insert : total f (m.insert a b) + m.weight f a = total f m + f a b := by
  have hm : m.insert a b = (m.erase a).insert a b := by
    refine ext_lookup fun x => ?_
    rw [lookup_insert_eq, lookup_insert_eq, lookup_erase_eq]
    split_ifs <;> rfl
  rw [hm, total_insert_of_notMem notMem_erase_self, ← total_erase (f := f) (m := m) (a := a)]
  omega

theorem weight_le_total : m.weight f a ≤ total f m := by
  rw [← total_erase (f := f) (m := m) (a := a)]
  exact Nat.le_add_left _ _

/-- Erasing distinct keys takes away the weights of their entries. -/
theorem total_eraseAll {l : List α} (hl : l.Nodup) :
    total f (m.eraseAll l) + (l.map (m.weight f)).sum = total f m := by
  induction l generalizing m with
  | nil => simp [eraseAll]
  | cons a l ih =>
    rw [List.nodup_cons] at hl
    have hw : l.map (m.weight f) = l.map ((m.erase a).weight f) :=
      List.map_congr_left fun x hx =>
        (weight_erase_of_ne fun (e : x = a) => hl.1 (e ▸ hx)).symm
    have := ih (m := m.erase a) hl.2
    rw [eraseAll, List.foldl_cons, ← eraseAll, List.map_cons, List.sum_cons, hw,
      ← total_erase (f := f) (m := m) (a := a)]
    omega

/-- Distinct entries weigh no more than the whole map. -/
theorem sum_weight_le_total {l : List α} (hl : l.Nodup) : (l.map (m.weight f)).sum ≤ total f m := by
  rw [← total_eraseAll (f := f) (m := m) hl]
  exact Nat.le_add_left _ _

/-- The total is the sum of the weights of the keys. -/
theorem total_eq_sum : total f m = ∑ a ∈ m.keys, m.weight f a := by
  induction hk : m.keys using Finset.induction_on generalizing m with
  | empty =>
    have hm : m = ∅ := ext_lookup fun x => by
      rw [lookup_empty, lookup_eq_none, ← mem_keys, hk]
      exact Finset.notMem_empty x
    rw [hm, total_empty, Finset.sum_empty]
  | insert a s ha ih =>
    have hs : (m.erase a).keys = s := by rw [keys_erase, hk, Finset.erase_insert ha]
    have hw : ∑ x ∈ s, m.weight f x = ∑ x ∈ s, (m.erase a).weight f x :=
      Finset.sum_congr rfl fun x hx => (weight_erase_of_ne fun (e : x = a) => ha (e ▸ hx)).symm
    rw [Finset.sum_insert ha, hw, ← ih hs, add_comm, total_erase]

/-- The sum over the values that are kept by a filter. -/
theorem sum_filter_values {α β : Type*} [LinearOrder α] {m : Finmap fun _ : α => β} (p : β → Bool)
    (g : β → ℕ) :
    ((m.values.filter p).map g).sum = m.total fun _ b => if p b then g b else 0 := by
  have hlist : ∀ l : List α, (((l.filterMap m.lookup).filter p).map g).sum =
      (l.map (m.weight fun _ b => if p b then g b else 0)).sum := by
    intro l
    induction l with
    | nil => rfl
    | cons a l ih =>
      rw [List.filterMap_cons, List.map_cons, List.sum_cons, weight, ← ih]
      cases m.lookup a with
      | none => rw [Option.elim_none, Nat.zero_add]
      | some b =>
        rw [Option.elim_some]
        cases hp : p b <;> simp [hp]
  have hkeys : m.keys.ascending.toFinset = m.keys := by
    ext a
    rw [List.mem_toFinset, Finset.mem_ascending]
  rw [values, hlist, total_eq_sum, ← List.sum_toFinset _ (Finset.nodup_ascending _), hkeys]

/-- The sum over the values. -/
theorem sum_values {α β : Type*} [LinearOrder α] {m : Finmap fun _ : α => β} (g : β → ℕ) :
    (m.values.map g).sum = m.total fun _ b => g b := by
  have h := sum_filter_values (m := m) (fun _ => true) g
  simpa using h

/-- Totals compare if the weights of all keys do. -/
theorem total_le_total {m' : Finmap fun _ : α => β} (h : ∀ a, m'.weight f a ≤ m.weight f a) :
    total f m' ≤ total f m := by
  have hzero : ∀ a ∈ m.keys ∪ m'.keys, a ∉ m'.keys → m'.weight f a = 0 := fun a _ ha =>
    weight_of_notMem fun hmem => ha (mem_keys.2 hmem)
  have hzero' : ∀ a ∈ m.keys ∪ m'.keys, a ∉ m.keys → m.weight f a = 0 := fun a _ ha =>
    weight_of_notMem fun hmem => ha (mem_keys.2 hmem)
  calc total f m' = ∑ a ∈ m.keys ∪ m'.keys, m'.weight f a := by
        rw [total_eq_sum, Finset.sum_subset Finset.subset_union_right hzero]
    _ ≤ ∑ a ∈ m.keys ∪ m'.keys, m.weight f a := Finset.sum_le_sum fun a _ => h a
    _ = total f m := by
        rw [total_eq_sum, Finset.sum_subset Finset.subset_union_left hzero']

/-- Totals of weights that compare are equal only if the weights are. -/
theorem total_eq_iff {g : α → β → ℕ} (h : ∀ a b, m.lookup a = some b → f a b ≤ g a b) :
    total f m = total g m ↔ ∀ a b, m.lookup a = some b → f a b = g a b := by
  have hle : ∀ a ∈ m.keys, m.weight f a ≤ m.weight g a := fun a _ => by
    rw [weight, weight]
    cases hb : m.lookup a with
    | none => rfl
    | some b => exact h a b hb
  rw [total_eq_sum, total_eq_sum, Finset.sum_eq_sum_iff_of_le hle]
  refine ⟨fun heq a b hb => ?_, fun heq a _ => ?_⟩
  · have := heq a (mem_keys.2 (mem_iff.2 ⟨b, hb⟩))
    rwa [weight_of_lookup hb, weight_of_lookup hb] at this
  · rw [weight, weight]
    cases hb : m.lookup a with
    | none => rfl
    | some b => exact heq a b hb

end Finmap
