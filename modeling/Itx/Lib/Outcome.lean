import Mathlib

/-!
# Outcomes of a call

A call of a fallible function that may also panic ends in one of three ways:
it returns a value, it returns an error, or it panics (an `expect` on a missing
value, an index out of range, an arithmetic overflow with the checks on). A
computation (`Outcome ε α`) chains calls, stopping at the first error or panic.

* `bind_eq_ok`: a chain returns when each of its calls does;
* `bind_ne_panic`: a chain does not panic when its first call does not, nor the
  rest from any value that call returns.
-/

namespace Itx

universe u v

/-- The end of a call: a value, an error, or a panic. -/
inductive Outcome (ε α : Type*) where
  | ok (a : α)
  | err (e : ε)
  | panic
  deriving DecidableEq, Repr

namespace Outcome

variable {ε : Type u} {α β : Type v}

/-- Chaining a call and the rest of the computation, from the value it returns. -/
protected def bind (x : Outcome ε α) (f : α → Outcome ε β) : Outcome ε β :=
  match x with
  | ok a => f a
  | err e => err e
  | panic => panic

instance : Monad (Outcome ε) where
  pure := ok
  bind := Outcome.bind

/-- `Option::expect`: a missing value panics. -/
def expect : Option α → Outcome ε α
  | some a => ok a
  | none => panic

/-- `Option::ok_or`: a missing value is an error. -/
def okOr (e : ε) : Option α → Outcome ε α
  | some a => ok a
  | none => err e

/-- A check of the form `if !p { return Err(e) }`. -/
def ensure (p : Prop) [Decidable p] (e : ε) : Outcome ε Unit :=
  if p then ok () else err e

/-- `Result::map_err`. -/
def mapErr {ε' : Type*} (f : ε → ε') : Outcome ε α → Outcome ε' α
  | ok a => ok a
  | err e => err (f e)
  | panic => panic

/-- `Result::expect`: an error panics. -/
def unwrap {ε' : Type*} : Outcome ε α → Outcome ε' α
  | ok a => ok a
  | _ => panic

@[simp] theorem pure_eq (a : α) : (pure a : Outcome ε α) = ok a := rfl

@[simp] theorem ok_bind (a : α) (f : α → Outcome ε β) : (ok a >>= f) = f a := rfl

@[simp] theorem err_bind (e : ε) (f : α → Outcome ε β) : (err e >>= f) = err e := rfl

@[simp] theorem panic_bind (f : α → Outcome ε β) : (panic >>= f) = panic := rfl

/-- A chain returns `b` exactly when its first call returns some `a`, and the
    rest returns `b` from it. -/
theorem bind_eq_ok {x : Outcome ε α} {f : α → Outcome ε β} {b : β} :
    (x >>= f) = ok b ↔ ∃ a, x = ok a ∧ f a = ok b := by
  cases x <;> simp

/-- A check returns nothing but that it passes. -/
@[simp] theorem exists_eq_ok_unit {x : Outcome ε Unit} : (∃ a, x = ok a) ↔ x = ok () :=
  ⟨fun ⟨_, h⟩ => h, fun h => ⟨(), h⟩⟩

/-- A chain panics exactly when its first call does, or the rest does from the
    value it returns. -/
theorem bind_eq_panic {x : Outcome ε α} {f : α → Outcome ε β} :
    (x >>= f) = panic ↔ x = panic ∨ ∃ a, x = ok a ∧ f a = panic := by
  cases x <;> simp

/-- After a check that does not panic, a chain panics exactly when the check passes
    and the rest panics. -/
theorem check_bind_eq_panic {β : Type} {x : Outcome ε Unit} {f : Unit → Outcome ε β} (hx : x ≠ panic) :
    (x >>= f) = panic ↔ x = ok () ∧ f () = panic := by
  cases x with
  | ok a => simp
  | err e => simp
  | panic => exact absurd rfl hx

instance : LawfulMonad (Outcome ε) :=
  LawfulMonad.mk' _ (fun x => by cases x <;> rfl) (fun _ _ => rfl) fun x _ _ => by cases x <;> rfl

/-- A list is mapped when each of its elements is. -/
theorem mapM_eq_ok {f : α → Outcome ε β} {l : List α} {l' : List β} :
    l.mapM f = ok l' ↔ List.Forall₂ (fun a b => f a = ok b) l l' := by
  induction l generalizing l' with
  | nil => rw [List.mapM_nil, pure_eq, ok.injEq, List.forall₂_nil_left_iff, eq_comm]
  | cons a l ih =>
    rw [List.mapM_cons, bind_eq_ok, List.forall₂_cons_left_iff]
    refine ⟨?_, ?_⟩
    · rintro ⟨b, hb, h⟩
      obtain ⟨bs, hbs, h⟩ := bind_eq_ok.1 h
      exact ⟨b, bs, hb, ih.1 hbs, (ok.inj h).symm⟩
    · rintro ⟨b, bs, hb, hbs, rfl⟩
      exact ⟨b, hb, bind_eq_ok.2 ⟨bs, ih.2 hbs, rfl⟩⟩

theorem bind_ne_panic {x : Outcome ε α} {f : α → Outcome ε β} (hx : x ≠ panic)
    (hf : ∀ a, x = ok a → f a ≠ panic) : (x >>= f) ≠ panic := by
  rw [Ne, bind_eq_panic]
  rintro (h | ⟨a, ha, h⟩)
  exacts [hx h, hf a ha h]

@[simp] theorem expect_eq_ok {x : Option α} {a : α} :
    (expect x : Outcome ε α) = ok a ↔ x = some a := by
  cases x <;> simp [expect]

@[simp] theorem expect_eq_panic {x : Option α} :
    (expect x : Outcome ε α) = panic ↔ x = none := by
  cases x <;> simp [expect]

@[simp] theorem expect_ne_err {x : Option α} {e : ε} : (expect x : Outcome ε α) ≠ err e := by
  cases x <;> simp [expect]

/-- A chain does not fail where neither its first call nor the rest does. -/
theorem bind_ne_err {x : Outcome ε α} {f : α → Outcome ε β} {e : ε} (hx : x ≠ err e) (hf : ∀ a, f a ≠ err e) :
    (x >>= f) ≠ err e := by
  cases x with
  | ok a => exact hf a
  | err e' => exact fun h => hx (congrArg err (err.inj h))
  | panic => exact fun h => by cases h

theorem expect_bind_ne_err {x : Option α} {f : α → Outcome ε β} {e : ε} (hf : ∀ a, f a ≠ err e) :
    (expect x >>= f) ≠ err e := bind_ne_err expect_ne_err hf

@[simp] theorem okOr_eq_ok {x : Option α} {e : ε} {a : α} : okOr e x = ok a ↔ x = some a := by
  cases x <;> simp [okOr]

@[simp] theorem okOr_ne_panic {x : Option α} {e : ε} : okOr e x ≠ panic := by
  cases x <;> simp [okOr]

@[simp] theorem mapErr_eq_ok {ε' : Type*} {f : ε → ε'} {x : Outcome ε α} {a : α} :
    x.mapErr f = ok a ↔ x = ok a := by
  cases x <;> simp [mapErr]

@[simp] theorem unwrap_eq_ok {ε' : Type*} {x : Outcome ε α} {a : α} :
    (x.unwrap : Outcome ε' α) = ok a ↔ x = ok a := by
  cases x <;> simp [unwrap]

@[simp] theorem ensure_eq_ok {p : Prop} [Decidable p] {e : ε} {u : Unit} :
    ensure p e = ok u ↔ p := by
  by_cases h : p <;> simp [ensure, h]

theorem ensure_of {p : Prop} [Decidable p] {e : ε} (h : p) : ensure p e = ok () := if_pos h

@[simp] theorem ensure_ne_panic {p : Prop} [Decidable p] {e : ε} : ensure p e ≠ panic := by
  by_cases h : p <;> simp [ensure, h]

end Outcome

end Itx
