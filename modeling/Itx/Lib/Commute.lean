import Itx.Lib.Call

/-!
# Calls that pass a change by

A change `f` of the state passes a call by (`Commutes f x`) when making it before the call
or after it comes to the same, and the outcome does not tell which. It is the case of a
change of what the call does not read, and only adds to.

There is one rule for each construct of a call. What follows a reading of the state may
depend on all of it, so that rule asks that it does not on what is changed (`get_bind`).
-/

namespace Itx.Call

universe u v

variable {σ ε α β : Type u} {f : σ → σ}

/-- The change may as well be made after the call. -/
def Commutes (f : σ → σ) (x : Call σ ε α) : Prop :=
  ∀ s, x (f s) = (f (x s).1, (x s).2)

namespace Commutes

theorem pure (a : α) : Commutes f (pure a : Call σ ε α) := fun _ => rfl

theorem lift (o : Outcome ε α) : Commutes f (Call.lift o) := fun _ => rfl

theorem modify {g : σ → σ} (h : ∀ s, g (f s) = f (g s)) : Commutes f (Call.modify g : Call σ ε PUnit) :=
  fun s => Prod.ext (h s) rfl

theorem bind {x : Call σ ε α} {k : α → Call σ ε β} (hx : Commutes f x) (hk : ∀ a, Commutes f (k a)) :
    Commutes f (x >>= k) := by
  intro s
  change Call.bind x k (f s) = (f (Call.bind x k s).1, (Call.bind x k s).2)
  rw [Call.bind, Call.bind, hx s]
  generalize x s = r
  obtain ⟨s', a | e | _⟩ := r
  exacts [hk a s', rfl, rfl]

/-- What follows a reading of the state does not depend on the change. -/
theorem get_bind {k : σ → Call σ ε β} (h : ∀ s, k (f s) = k s) (hk : ∀ s, Commutes f (k s)) :
    Commutes f (Call.get >>= k) := by
  intro s
  change k (f s) (f s) = (f (k s s).1, (k s s).2)
  rw [h, hk]

theorem lift_bind {o : Outcome ε α} {k : α → Call σ ε β} (hk : ∀ a, Commutes f (k a)) :
    Commutes f (Call.lift o >>= k) := (lift o).bind hk

theorem modify_bind {g : σ → σ} {k : PUnit → Call σ ε β} (h : ∀ s, g (f s) = f (g s))
    (hk : Commutes f (k ⟨⟩)) : Commutes f (Call.modify g >>= k) :=
  (modify h).bind fun _ => hk

theorem ite {p : Prop} [Decidable p] {x y : Call σ ε α} (hpos : Commutes f x) (hneg : Commutes f y) :
    Commutes f (if p then x else y) := by
  split_ifs
  exacts [hpos, hneg]

theorem ignore {x : Call σ ε α} (hx : Commutes f x) : Commutes f (Call.ignore x) := by
  intro s
  rw [Call.ignore, Call.ignore, hx s]
  generalize x s = r
  obtain ⟨s', a | e | _⟩ := r <;> rfl

theorem forEach {ι : Type v} {g : ι → Call σ ε PUnit} (h : ∀ i, Commutes f (g i)) (l : List ι) :
    Commutes f (Call.forEach l g) := by
  induction l with
  | nil => exact pure _
  | cons i l ih => exact (h i).bind fun _ => ih

end Commutes

end Itx.Call
