import Itx.Lib.Outcome

/-!
# Calls on a mutable state

A method taking `&mut self` is a function of the state it is called in, to the
state it leaves and the outcome of the call (`Call`). The state is left as it
stands whatever the outcome: an error returned half-way does not undo what was
done before it, and neither does a panic.

`Triple P x Q E N`: from a state satisfying `P`, the call `x` leaves one
satisfying `Q a` if it returns `a`, `E e` if it returns the error `e`, and `N`
if it panics. There is one rule for each construct of a call, and `Preserves I`
is the triple of an invariant, which holds whatever the outcome.
-/

namespace Itx

universe u v

/-- A call on a state of type `σ`. -/
def Call (σ : Type u) (ε : Type u) (α : Type u) : Type u := σ → σ × Outcome ε α

namespace Call

variable {σ ε α β : Type u}

/-- Chaining a call and the rest of the computation. -/
protected def bind (x : Call σ ε α) (f : α → Call σ ε β) : Call σ ε β := fun s =>
  match x s with
  | (s, .ok a) => f a s
  | (s, .err e) => (s, .err e)
  | (s, .panic) => (s, .panic)

instance : Monad (Call σ ε) where
  pure a s := (s, .ok a)
  bind := Call.bind

/-- A computation that does not touch the state. -/
def lift (o : Outcome ε α) : Call σ ε α := fun s => (s, o)

/-- Reading the state. -/
def get : Call σ ε σ := fun s => (s, .ok s)

/-- Updating the state. -/
def modify (f : σ → σ) : Call σ ε PUnit := fun s => (f s, .ok ⟨⟩)

/-- `let _ = x`: an error is ignored, a panic is not. -/
def ignore (x : Call σ ε α) : Call σ ε PUnit := fun s =>
  match x s with
  | (s, .panic) => (s, .panic)
  | (s, _) => (s, .ok ⟨⟩)

/-- `x.map_err(f)`. -/
def mapErr {ε' : Type u} (f : ε → ε') (x : Call σ ε α) : Call σ ε' α := fun s =>
  match x s with
  | (s, .ok a) => (s, .ok a)
  | (s, .err e) => (s, .err (f e))
  | (s, .panic) => (s, .panic)

/-- `x.expect(..)`: an error panics. -/
def unwrap {ε' : Type u} (x : Call σ ε α) : Call σ ε' α := fun s =>
  match x s with
  | (s, .ok a) => (s, .ok a)
  | (s, _) => (s, .panic)

/-- `if p { x }`. -/
def when (p : Prop) [Decidable p] (x : Call σ ε PUnit) : Call σ ε PUnit :=
  if p then x else pure ⟨⟩

/-- `for a in l`. -/
def forEach {ι : Type v} : List ι → (ι → Call σ ε PUnit) → Call σ ε PUnit
  | [], _ => pure ⟨⟩
  | a :: l, f => do f a; forEach l f

/-- Along the loop over `l`, each item meets `R` in the state its turn comes in. -/
def Along {ι : Type v} (R : ι → σ → Prop) (f : ι → Call σ ε PUnit) : List ι → σ → Prop
  | [], _ => True
  | a :: l, s => R a s ∧ Along R f l (f a s).1

theorem along_of_forall {ι : Type v} {R : ι → σ → Prop} {f : ι → Call σ ε PUnit} {l : List ι}
    (h : ∀ a s, R a s) (s : σ) : Along R f l s := by
  induction l generalizing s with
  | nil => trivial
  | cons a l ih => exact ⟨h a s, ih _⟩

theorem Along.mono {ι : Type v} {R R' : ι → σ → Prop} {f : ι → Call σ ε PUnit} {l : List ι} {s : σ}
    (h : ∀ a s, R a s → R' a s) (hl : Along R f l s) : Along R' f l s := by
  induction l generalizing s with
  | nil => trivial
  | cons a l ih => exact ⟨h a s hl.1, ih hl.2⟩

/-- The state after a call on a working copy of it, which is thrown away if the call
    panics. -/
def kept (x : Call σ ε α) (s : σ) : σ :=
  match x s with
  | (_, .panic) => s
  | (s', _) => s'

theorem ignore_eq_panic {x : Call σ ε α} {s : σ} : (ignore x s).2 = .panic ↔ (x s).2 = .panic := by
  rw [ignore]
  generalize x s = r
  obtain ⟨s', a | e | _⟩ := r <;> simp

theorem ignore_ne_err (x : Call σ ε α) (s : σ) (e : ε) : (ignore x s).2 ≠ .err e := by
  rw [ignore]
  generalize x s = r
  obtain ⟨s', a | e' | _⟩ := r <;> simp

/-! ## Triples -/

/-- The end of a call satisfies `Q`, `E` or `N`, according to its outcome. -/
def Ends (Q : α → σ → Prop) (E : ε → σ → Prop) (N : σ → Prop) (r : σ × Outcome ε α) : Prop :=
  match r.2 with
  | .ok a => Q a r.1
  | .err e => E e r.1
  | .panic => N r.1

/-- From a state satisfying `P`, the call leaves a state satisfying `Q`, `E` or
    `N`, according to its outcome. -/
def Triple (P : σ → Prop) (x : Call σ ε α) (Q : α → σ → Prop) (E : ε → σ → Prop)
    (N : σ → Prop) : Prop :=
  ∀ s, P s → Ends Q E N (x s)

/-- The call preserves `I`, whatever its outcome. -/
def Preserves (I : σ → Prop) (x : Call σ ε α) : Prop :=
  Triple I x (fun _ => I) (fun _ => I) I

theorem Ends.imp {Q Q' : α → σ → Prop} {E E' : ε → σ → Prop} {N N' : σ → Prop}
    {r : σ × Outcome ε α} (h : Ends Q E N r) (hQ : ∀ a s, Q a s → Q' a s)
    (hE : ∀ e s, E e s → E' e s) (hN : ∀ s, N s → N' s) : Ends Q' E' N' r := by
  obtain ⟨s, a | e | _⟩ := r
  exacts [hQ a s h, hE e s h, hN s h]

namespace Triple

variable {P : σ → Prop} {Q : α → σ → Prop} {E : ε → σ → Prop} {N : σ → Prop}

theorem bind {R : α → σ → Prop} {Q : β → σ → Prop} {x : Call σ ε α} {f : α → Call σ ε β}
    (hx : Triple P x R E N) (hf : ∀ a, Triple (R a) (f a) Q E N) : Triple P (x >>= f) Q E N := by
  intro s hs
  have hR := hx s hs
  change Ends Q E N (Call.bind x f s)
  rw [Call.bind]
  generalize x s = r at hR
  obtain ⟨s', a | e | _⟩ := r
  exacts [hf a s' hR, hR, hR]

theorem pure {a : α} (h : ∀ s, P s → Q a s) : Triple P (pure a : Call σ ε α) Q E N :=
  fun s hs => h s hs

theorem lift {o : Outcome ε α} (hok : ∀ a s, P s → o = .ok a → Q a s)
    (herr : ∀ e s, P s → o = .err e → E e s) (hpanic : ∀ s, P s → o = .panic → N s) :
    Triple P (lift o) Q E N := by
  intro s hs
  cases o with
  | ok a => exact hok a s hs rfl
  | err e => exact herr e s hs rfl
  | panic => exact hpanic s hs rfl

/-- A triple from each state satisfying `P`. -/
theorem of_state {x : Call σ ε α} (h : ∀ s, P s → Triple (· = s) x Q E N) : Triple P x Q E N :=
  fun s hs => h s hs s rfl

/-- After reading the state, the rest runs from that very state. -/
theorem get_bind {Q : β → σ → Prop} {f : σ → Call σ ε β}
    (h : ∀ s, P s → Triple (· = s) (f s) Q E N) : Triple P (get >>= f) Q E N :=
  fun s hs => h s hs s rfl

theorem modify {f : σ → σ} {Q : PUnit → σ → Prop} (h : ∀ s, P s → Q ⟨⟩ (f s)) :
    Triple P (modify f) Q E N :=
  fun s hs => h s hs

/-- A computation known to return `a` goes on with it. -/
theorem lift_bind {Q : β → σ → Prop} {o : Outcome ε α} {a : α} {f : α → Call σ ε β}
    (ho : o = .ok a) (h : Triple P (f a) Q E N) : Triple P (Call.lift o >>= f) Q E N := by
  subst ho
  exact h

/-- After updating a known state, the rest runs from the updated state. -/
theorem modify_bind {Q : β → σ → Prop} {s : σ} {f : σ → σ} {g : PUnit → Call σ ε β}
    (h : Triple (· = f s) (g ⟨⟩) Q E N) : Triple (· = s) (Call.modify f >>= g) Q E N := by
  rintro _ rfl
  exact h _ rfl

theorem conseq {P' : σ → Prop} {Q' : α → σ → Prop} {E' : ε → σ → Prop} {N' : σ → Prop}
    {x : Call σ ε α} (hx : Triple P' x Q' E' N') (hP : ∀ s, P s → P' s)
    (hQ : ∀ a s, Q' a s → Q a s) (hE : ∀ e s, E' e s → E e s) (hN : ∀ s, N' s → N s) :
    Triple P x Q E N :=
  fun s hs => (hx s (hP s hs)).imp hQ hE hN

/-- However a call ends, what holds everywhere holds there. -/
theorem of_forall {x : Call σ ε α} (hok : ∀ a s, Q a s) (herr : ∀ e s, E e s) (hpanic : ∀ s, N s) :
    Triple P x Q E N := by
  intro s _
  generalize x s = r
  obtain ⟨s', a | e | _⟩ := r
  exacts [hok a s', herr e s', hpanic s']

/-- What is known of a call that returns an error. -/
theorem err {x : Call σ ε α} (hx : Triple P x Q E N) {s s' : σ} {e : ε} (hs : P s)
    (h : x s = (s', .err e)) : E e s' := by
  have hend := hx s hs
  rw [h] at hend
  exact hend

/-- Two triples of one call hold together. -/
theorem and {P' : σ → Prop} {Q' : α → σ → Prop} {E' : ε → σ → Prop} {N' : σ → Prop}
    {x : Call σ ε α} (h : Triple P x Q E N) (h' : Triple P' x Q' E' N') :
    Triple (fun s => P s ∧ P' s) x (fun a s => Q a s ∧ Q' a s) (fun e s => E e s ∧ E' e s)
      fun s => N s ∧ N' s := by
  intro s hs
  have h₁ := h s hs.1
  have h₂ := h' s hs.2
  generalize x s = r at h₁ h₂
  obtain ⟨s', a | e | _⟩ := r
  exacts [⟨h₁, h₂⟩, ⟨h₁, h₂⟩, ⟨h₁, h₂⟩]

/-- A computation read off the state before: what it returns is known, and the
    rest runs from that state. -/
theorem lift_known {Q : β → σ → Prop} {s : σ} {o : Outcome ε α} {f : α → Call σ ε β}
    (hok : ∀ a, o = .ok a → Triple (· = s) (f a) Q E N) (herr : ∀ e, o = .err e → E e s)
    (hpanic : o = .panic → N s) : Triple (· = s) (Call.lift o >>= f) Q E N := by
  cases o with
  | ok a => exact hok a rfl
  | err e =>
    rintro _ rfl
    exact herr e rfl
  | panic =>
    rintro _ rfl
    exact hpanic rfl

/-- A value that is expected to be there. -/
theorem expect_bind {Q : β → σ → Prop} {x : Option α} {f : α → Call σ ε β}
    (hsome : ∀ a, x = some a → Triple P (f a) Q E N) (hnone : x = none → ∀ s, P s → N s) :
    Triple P (Call.lift (.expect x) >>= f) Q E N := by
  cases x with
  | none => exact hnone rfl
  | some a => exact hsome a rfl

/-- An error mapped to another leaves the state it was returned in. -/
theorem mapErr {ε' : Type u} {E : ε' → σ → Prop} {x : Call σ ε α} {f : ε → ε'}
    (hx : Triple P x Q (fun e => E (f e)) N) : Triple P (mapErr f x) Q E N := by
  intro s hs
  have h := hx s hs
  rw [Call.mapErr]
  generalize x s = r at h
  obtain ⟨s', a | e | _⟩ := r
  exacts [h, h, h]

/-- A call that returns no error goes on. -/
theorem unwrap {ε' : Type u} {E : ε' → σ → Prop} {x : Call σ ε α}
    (hx : Triple P x Q (fun _ => N) N) : Triple P (unwrap x) Q E N := by
  intro s hs
  have h := hx s hs
  rw [Call.unwrap]
  generalize x s = r at h
  obtain ⟨s', a | e | _⟩ := r
  exacts [h, h, h]

theorem when {p : Prop} [Decidable p] {x : Call σ ε PUnit} {Q : PUnit → σ → Prop}
    (hx : Triple P x Q E N) (hP : ∀ s, P s → Q ⟨⟩ s) : Triple P (when p x) Q E N := by
  rw [Call.when]
  split_ifs
  exacts [hx, Triple.pure hP]

/-- An ignored error leaves the state it was returned in. -/
theorem ignore {x : Call σ ε α} {R : σ → Prop} {E' : ε → σ → Prop}
    (hx : Triple P x (fun _ => R) (fun _ => R) N) :
    Triple P (ignore x) (fun _ => R) E' N := by
  intro s hs
  have h := hx s hs
  rw [Call.ignore]
  generalize x s = r at h
  obtain ⟨s', a | e | _⟩ := r
  exacts [h, h, h]

/-- The rule of loops: an invariant of the body is an invariant of the loop. -/
theorem forEach {ι : Type v} {I : σ → Prop} {l : List ι} {f : ι → Call σ ε PUnit}
    (h : ∀ a ∈ l, Triple I (f a) (fun _ => I) E N) : Triple I (forEach l f) (fun _ => I) E N := by
  induction l with
  | nil => exact Triple.pure fun _ hs => hs
  | cons a l ih =>
    exact (h a List.mem_cons_self).bind fun _ => ih fun b hb => h b (List.mem_cons_of_mem _ hb)

/-- The rule of loops whose items meet `R` when their turn comes. -/
theorem forEach_along {ι : Type v} {I : σ → Prop} {R : ι → σ → Prop} {l : List ι}
    {f : ι → Call σ ε PUnit}
    (h : ∀ a ∈ l, Triple (fun s => I s ∧ R a s) (f a) (fun _ => I) E N) :
    Triple (fun s => I s ∧ Along R f l s) (Call.forEach l f) (fun _ => I) E N := by
  induction l with
  | nil => exact Triple.pure fun _ hs => hs.1
  | cons a l ih =>
    rintro s ⟨hs, hR, hl⟩
    have ha := h a List.mem_cons_self s ⟨hs, hR⟩
    change Ends _ E N (Call.bind (f a) (fun _ => Call.forEach l f) s)
    rw [Call.bind]
    generalize f a s = r at ha hl
    obtain ⟨s', b | e | _⟩ := r
    exacts [ih (fun b hb => h b (List.mem_cons_of_mem _ hb)) s' ⟨ha, hl⟩, ha, ha]

/-- The call ends as it ends. -/
theorem self (s : σ) (x : Call σ ε α) :
    Triple (· = s) x (fun a s' => x s = (s', .ok a)) (fun e s' => x s = (s', .err e))
      fun s' => x s = (s', .panic) := by
  rintro _ rfl
  generalize x _ = r
  obtain ⟨s', a | e | _⟩ := r
  exacts [rfl, rfl, rfl]

/-- What is kept of a call. -/
theorem kept {I : σ → Prop} {x : Call σ ε α} {s : σ} (hs : I s)
    (h : Triple (· = s) x (fun _ => I) (fun _ => I) fun _ => True) : I (Call.kept x s) := by
  have h := h s rfl
  rw [Call.kept]
  generalize x s = r at h
  obtain ⟨s', a | e | _⟩ := r
  exacts [h, h, hs]

/-- The end of a call that does not panic. -/
theorem apply {I : σ → Prop} {x : Call σ ε α} {s : σ}
    (h : Triple P x (fun _ => I) (fun _ => I) fun _ => False) (hs : P s) :
    I (x s).1 ∧ (x s).2 ≠ .panic := by
  have h := h s hs
  generalize x s = r at h
  obtain ⟨s', a | e | _⟩ := r
  exacts [⟨h, nofun⟩, ⟨h, nofun⟩, h.elim]

end Triple

/-! ## Invariants -/

namespace Preserves

variable {I : σ → Prop} {x : Call σ ε α}

theorem bind {f : α → Call σ ε β} (hx : Preserves I x) (hf : ∀ a, Preserves I (f a)) :
    Preserves I (x >>= f) :=
  Triple.bind hx hf

theorem pure (a : α) : Preserves I (pure a : Call σ ε α) := Triple.pure fun _ hs => hs

theorem lift (o : Outcome ε α) : Preserves I (lift o) :=
  Triple.lift (fun _ _ hs _ => hs) (fun _ _ hs _ => hs) fun _ hs _ => hs

theorem get : Preserves I (get : Call σ ε σ) := fun _ hs => hs

theorem modify {f : σ → σ} (h : ∀ s, I s → I (f s)) : Preserves I (modify f : Call σ ε PUnit) :=
  Triple.modify h

theorem ignore (hx : Preserves I x) : Preserves I (ignore x) := Triple.ignore hx

theorem forEach {ι : Type v} {l : List ι} {f : ι → Call σ ε PUnit}
    (h : ∀ a ∈ l, Preserves I (f a)) : Preserves I (forEach l f) :=
  Triple.forEach h

end Preserves

/-- A loop panics when one of its items does in the state its turn comes in, the
    items before it not failing otherwise. -/
theorem forEach_eq_panic {ι : Type v} {I : σ → Prop} {R : ι → σ → Prop} {l : List ι}
    {f : ι → Call σ ε PUnit} (hI : ∀ a ∈ l, Preserves I (f a))
    (herr : ∀ a ∈ l, ∀ s e, (f a s).2 ≠ .err e)
    (hpanic : ∀ a ∈ l, ∀ s, I s → ¬ R a s → (f a s).2 = .panic) {s : σ} (hs : I s)
    (h : ¬ Along R f l s) : (forEach l f s).2 = .panic := by
  induction l generalizing s with
  | nil => exact absurd trivial h
  | cons a l ih =>
    change (Call.bind (f a) (fun _ => forEach l f) s).2 = _
    have hI' := hI a List.mem_cons_self s hs
    have herr' := herr a List.mem_cons_self s
    have hpanic' := hpanic a List.mem_cons_self s hs
    rw [Along, not_and_or] at h
    rw [Call.bind]
    generalize f a s = r at hI' herr' hpanic' h
    obtain ⟨s', _ | e | _⟩ := r
    · refine ih (fun b hb => hI b (List.mem_cons_of_mem _ hb))
        (fun b hb => herr b (List.mem_cons_of_mem _ hb))
        (fun b hb => hpanic b (List.mem_cons_of_mem _ hb)) hI' (h.resolve_left fun hR => ?_)
      cases hpanic' hR
    · exact absurd rfl (herr' e)
    · rfl

/-- An invariant of the state a call leaves, however it ends. -/
theorem Preserves.of_fst {I : σ → Prop} {x : Call σ ε α} (h : ∀ s, I s → I (x s).1) : Preserves I x := by
  intro s hs
  have h := h s hs
  generalize x s = r at h
  obtain ⟨s', a | e | _⟩ := r
  exacts [h, h, h]

/-- What a preserving call leaves, from a state satisfying the invariant. -/
theorem Preserves.apply {I : σ → Prop} {x : Call σ ε α} (h : Preserves I x) {s : σ} (hs : I s) :
    I (x s).1 := by
  have h := h s hs
  generalize x s = r at h
  obtain ⟨s', a | e | _⟩ := r
  exacts [h, h, h]

/-- Along a loop whose body preserves `I`, the items meet what `I` implies. -/
theorem along_of_preserves {ι : Type v} {I : σ → Prop} {R : ι → σ → Prop} {f : ι → Call σ ε PUnit}
    {l : List ι} (hf : ∀ a ∈ l, Preserves I (f a)) (hR : ∀ a ∈ l, ∀ s, I s → R a s) {s : σ}
    (hs : I s) : Along R f l s := by
  induction l generalizing s with
  | nil => trivial
  | cons a l ih =>
    exact ⟨hR a List.mem_cons_self s hs, ih (fun b hb => hf b (List.mem_cons_of_mem _ hb))
      (fun b hb => hR b (List.mem_cons_of_mem _ hb)) ((hf a List.mem_cons_self).apply hs)⟩

/-! ## Calls without errors -/

/-- The call returns no error. -/
def Infallible (x : Call σ ε α) : Prop := ∀ s e, (x s).2 ≠ .err e

namespace Infallible

variable {x : Call σ ε α}

theorem bind {f : α → Call σ ε β} (hx : Infallible x) (hf : ∀ a, Infallible (f a)) :
    Infallible (x >>= f) := by
  intro s e
  have h := hx s e
  change (Call.bind x f s).2 ≠ _
  rw [Call.bind]
  generalize x s = r at h
  obtain ⟨s', a | e' | _⟩ := r
  exacts [hf a s' e, fun he => h (by rw [Outcome.err.inj he]), nofun]

theorem pure (a : α) : Infallible (pure a : Call σ ε α) := fun _ _ => nofun

theorem get : Infallible (get : Call σ ε σ) := fun _ _ => nofun

theorem modify (f : σ → σ) : Infallible (modify f : Call σ ε PUnit) := fun _ _ => nofun

theorem lift {o : Outcome ε α} (ho : ∀ e, o ≠ .err e) : Infallible (lift o : Call σ ε α) :=
  fun _ e => ho e

theorem expect (a : Option α) : Infallible (Call.lift (.expect a) : Call σ ε α) :=
  lift fun _ => Outcome.expect_ne_err

theorem ignore (x : Call σ ε α) : Infallible (ignore x) := ignore_ne_err x

theorem forEach {ι : Type v} {l : List ι} {f : ι → Call σ ε PUnit} (h : ∀ a ∈ l, Infallible (f a)) :
    Infallible (forEach l f) := by
  induction l with
  | nil => exact .pure _
  | cons a l ih =>
    exact .bind (h a List.mem_cons_self) fun _ => ih fun b hb => h b (List.mem_cons_of_mem _ hb)

/-- What an infallible call preserves, it leaves when it returns or panics. -/
theorem triple {I : σ → Prop} (hx : Infallible x) (h : Preserves I x) :
    Triple I x (fun _ => I) (fun _ _ => False) I := by
  intro s hs
  have h := h s hs
  have hx := hx s
  generalize x s = r at h hx
  obtain ⟨s', a | e | _⟩ := r
  exacts [h, hx e rfl, h]

/-- If the rest is infallible, the error of a chain is that of its first call. -/
theorem bind_eq_err {f : α → Call σ ε β} (hf : ∀ a, Infallible (f a)) {s s' : σ} {e : ε}
    (h : (x >>= f) s = (s', .err e)) : x s = (s', .err e) := by
  change Call.bind x f s = _ at h
  rw [Call.bind] at h
  generalize x s = r at h ⊢
  obtain ⟨s'', a | e' | _⟩ := r
  · exact absurd (congrArg Prod.snd h) (hf a s'' e)
  · obtain ⟨rfl, he⟩ := Prod.mk.inj h
    rw [Outcome.err.inj he]
  · cases (Prod.mk.inj h).2

end Infallible

end Call

end Itx
