import Itx.Lib.Call
import Itx.Lib.Finmap

/-!
# Two calls side by side

`Simulates R x y Q`: from states related by `R`, the calls `x` and `y` have the same
outcome, and if they return `a` the states they leave are related by `Q a`. There is
one rule for each construct of a call, as for the triples.

A call may also be run on a *working copy* of a part of the state (`Call.onCopy`),
what it touched there being written back afterwards. `Finmap.Overlays` says that a
map is another one with some of its entries replaced by those of a third, which is
what writing back achieves (`overlays_foldl_insert`).
-/

namespace Itx.Call

universe u

variable {σ τ ε α β : Type u}

/-- Running a call on a working copy: the state is left as it stands, and the copy
    is returned as the call left it. -/
def onCopy (copy : σ → τ) (x : Call τ ε α) : Call σ ε (τ × α) := fun s =>
  match x (copy s) with
  | (t, .ok a) => (s, .ok (t, a))
  | (_, .err e) => (s, .err e)
  | (_, .panic) => (s, .panic)

/-- The calls end with the same outcome, and in related states if they return. -/
def EndAlike (Q : α → σ → τ → Prop) (r : σ × Outcome ε α) (r' : τ × Outcome ε α) : Prop :=
  r.2 = r'.2 ∧ ∀ a, r.2 = .ok a → Q a r.1 r'.1

/-- From states related by `R`, the calls have the same outcome, and leave states
    related by `Q` if they return. -/
def Simulates (R : σ → τ → Prop) (x : Call σ ε α) (y : Call τ ε α) (Q : α → σ → τ → Prop) : Prop :=
  ∀ s t, R s t → EndAlike Q (x s) (y t)

namespace Simulates

variable {R : σ → τ → Prop} {Q : α → σ → τ → Prop}

theorem bind {S : β → σ → τ → Prop} {x : Call σ ε α} {y : Call τ ε α} {f : α → Call σ ε β}
    {g : α → Call τ ε β} (hxy : Simulates R x y Q) (hfg : ∀ a, Simulates (Q a) (f a) (g a) S) :
    Simulates R (x >>= f) (y >>= g) S := by
  intro s t hR
  obtain ⟨hsame, hQ⟩ := hxy s t hR
  change EndAlike S (Call.bind x f s) (Call.bind y g t)
  rw [Call.bind, Call.bind]
  generalize x s = r at hsame hQ
  generalize y t = r' at hsame hQ
  obtain ⟨s', o⟩ := r
  obtain ⟨t', o'⟩ := r'
  obtain rfl : o = o' := hsame
  cases o with
  | ok a => exact hfg a s' t' (hQ a rfl)
  | err e => exact ⟨rfl, by simp⟩
  | panic => exact ⟨rfl, by simp⟩

theorem pure {a : α} (h : ∀ s t, R s t → Q a s t) :
    Simulates R (pure a : Call σ ε α) (pure a) Q := by
  intro s t hR
  refine ⟨rfl, fun b hb => ?_⟩
  obtain rfl : a = b := Outcome.ok.inj hb
  exact h s t hR

/-- The same computation, on neither state. -/
theorem lift_bind {S : β → σ → τ → Prop} {o : Outcome ε α} {f : α → Call σ ε β} {g : α → Call τ ε β}
    (h : ∀ a, o = .ok a → Simulates R (f a) (g a) S) :
    Simulates R (Call.lift o >>= f) (Call.lift o >>= g) S := by
  intro s t hR
  cases o with
  | ok a => exact h a rfl s t hR
  | err e => exact ⟨rfl, nofun⟩
  | panic => exact ⟨rfl, nofun⟩

/-- After reading the states, the rest runs from these very states. -/
theorem get_bind {S : β → σ → τ → Prop} {f : σ → Call σ ε β} {g : τ → Call τ ε β}
    (h : ∀ s t, R s t → Simulates (fun s' t' => s' = s ∧ t' = t) (f s) (g t) S) :
    Simulates R (Call.get >>= f) (Call.get >>= g) S :=
  fun s t hR => h s t hR s t ⟨rfl, rfl⟩

theorem modify {f : σ → σ} {g : τ → τ} {Q : PUnit → σ → τ → Prop}
    (h : ∀ s t, R s t → Q ⟨⟩ (f s) (g t)) :
    Simulates R (Call.modify f : Call σ ε PUnit) (Call.modify g) Q :=
  fun s t hR => ⟨rfl, fun _ _ => h s t hR⟩

theorem conseq {R' : σ → τ → Prop} {Q' : α → σ → τ → Prop} {x : Call σ ε α} {y : Call τ ε α}
    (h : Simulates R' x y Q') (hR : ∀ s t, R s t → R' s t) (hQ : ∀ a s t, Q' a s t → Q a s t) :
    Simulates R x y Q := by
  intro s t hst
  obtain ⟨hsame, hend⟩ := h s t (hR s t hst)
  exact ⟨hsame, fun a ha => hQ a _ _ (hend a ha)⟩

theorem ite {p : Prop} [Decidable p] {x x' : Call σ ε α} {y y' : Call τ ε α}
    (hpos : p → Simulates R x y Q) (hneg : ¬ p → Simulates R x' y' Q) :
    Simulates R (if p then x else x') (if p then y else y') Q := by
  split_ifs with h
  exacts [hpos h, hneg h]

end Simulates

end Itx.Call

namespace Finmap

variable {α β : Type*} [DecidableEq α]

/-- The map `m` is `m₀` with the entries of the keys `T` replaced by those of `m'`. -/
def Overlays (m₀ : Finmap fun _ : α => β) (T : Finset α) (m' m : Finmap fun _ : α => β) : Prop :=
  ∀ x, m.lookup x = if x ∈ T then m'.lookup x else m₀.lookup x

namespace Overlays

variable {m₀ m m' m₁ : Finmap fun _ : α => β} {T : Finset α}

theorem empty (m₀ m' : Finmap fun _ : α => β) : Overlays m₀ ∅ m' m₀ := fun _ => rfl

/-- The same entry written to both maps. -/
theorem insert (h : Overlays m₀ T m' m) (a : α) (b : β) :
    Overlays m₀ (Insert.insert a T) (m'.insert a b) (m.insert a b) := by
  intro x
  rw [lookup_insert_eq, lookup_insert_eq, h x]
  by_cases hx : x = a
  · simp [hx]
  · simp [hx]

/-- There is but one such map. -/
theorem unique (h : Overlays m₀ T m' m) (h₁ : Overlays m₀ T m' m₁) : m = m₁ :=
  ext_lookup fun x => by rw [h x, h₁ x]

end Overlays

/-- Writing entries of `m'` one after the other. -/
theorem overlays_foldl_insert (m' : Finmap fun _ : α => β) (l : List (α × β))
    (h : ∀ e ∈ l, m'.lookup e.1 = some e.2) (m₀ : Finmap fun _ : α => β) :
    Overlays m₀ (l.map Prod.fst).toFinset m' (l.foldl (fun m e => m.insert e.1 e.2) m₀) := by
  induction l generalizing m₀ with
  | nil => exact .empty m₀ m'
  | cons e l ih =>
    intro x
    rw [List.foldl_cons, ih (fun e' he' => h e' (List.mem_cons_of_mem _ he')) _ x, lookup_insert_eq]
    have he := h e List.mem_cons_self
    by_cases hx : x = e.1
    · subst hx
      simp [he]
    · simp only [List.mem_toFinset, List.map_cons, List.mem_cons, hx, false_or, if_false]

variable {γ : Type*} [LinearOrder γ]

/-- The keys of a subset, in ascending order, are those of the whole that are in it. -/
theorem filter_ascending (s : Finset γ) (p : γ → Prop) [DecidablePred p] :
    s.ascending.filter p = (s.filter p).ascending := by
  have hsorted : ∀ s : Finset γ, s.ascending.Pairwise (· ≤ ·) := by
    rintro ⟨m, hm⟩
    induction m using Quot.inductionOn with
    | _ l => exact List.pairwise_insertionSort _ l
  refine List.Perm.eq_of_pairwise' ((hsorted s).filter _) (hsorted _) ?_
  refine (List.perm_ext_iff_of_nodup (s.nodup_ascending.filter _) (Finset.nodup_ascending _)).2
    fun x => ?_
  rw [List.mem_filter, Finset.mem_ascending, Finset.mem_ascending, Finset.mem_filter,
    decide_eq_true_iff]

/-- Maps with the same entries satisfying `p` have the same values satisfying `p`, in
    the same order. -/
theorem filter_values_congr {p : β → Bool} {m m' : Finmap fun _ : γ => β}
    (h : ∀ x, (m.lookup x).filter p = (m'.lookup x).filter p) :
    m.values.filter p = m'.values.filter p := by
  -- Only the keys whose entry satisfies `p` matter.
  have key : ∀ m : Finmap fun _ : γ => β, m.values.filter p =
      (m.keys.filter fun x => ((m.lookup x).filter p).isSome).ascending.filterMap
        fun x => (m.lookup x).filter p := by
    intro m
    rw [values, List.filter_filterMap, ← filter_ascending, List.filterMap_filter]
    refine List.filterMap_congr fun x _ => ?_
    cases hx : (m.lookup x).filter p with
    | none => simp
    | some b => simp
  have hkeys : (m.keys.filter fun x => ((m.lookup x).filter p).isSome) =
      m'.keys.filter fun x => ((m'.lookup x).filter p).isSome := by
    ext x
    rw [Finset.mem_filter, Finset.mem_filter, h x, mem_keys, mem_keys, ← lookup_isSome,
      ← lookup_isSome]
    have hx := h x
    cases hm : m.lookup x <;> cases hm' : m'.lookup x <;> simp_all
  rw [key m, key m', hkeys]
  exact List.filterMap_congr fun x _ => h x

end Finmap
