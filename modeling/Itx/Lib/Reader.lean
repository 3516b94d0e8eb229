import Mathlib

/-!
# Reading items off a stream

What is written to a stream arrives in pieces, cut anywhere. A *reader* finds an item at the
front of what has arrived, or that more has to arrive first, or that no item comes of it
whatever arrives (`Reading`). More arriving does not change an item found, nor a refusal
(`Reader`).

* `Reads bs as rest`: the items `as` have been read off `bs`, one after the other, and `rest`
  is left. More may have arrived meanwhile (`Reads.more`).
* `Writes a bs`: the bytes of an item, whatever follows them. Items written one after the
  other are read as they were written (`reads_flatMap`).
* `Reads.split`: what has been read of a stream is the first of all the items there are to
  read, and the others can be read from what is left. So it does not depend on how the stream
  was cut.

A stream with what of it is on its way is a `Line`; what has been read off a line (`Heard`)
stays so as more is written to it and more arrives.
-/

namespace Itx

/-- What comes of trying to read an item. -/
inductive Reading (β α : Type*)
  | item (a : α) (rest : List β)
  /-- More has to arrive. -/
  | waiting
  | refused

/-- A reader of the items of a stream. -/
structure Reader (β α : Type*) where
  read : List β → Reading β α
  read_nil : read [] = .waiting
  item_append : ∀ {bs a rest} (more), read bs = .item a rest → read (bs ++ more) = .item a (rest ++ more)
  refused_append : ∀ {bs} (more), read bs = .refused → read (bs ++ more) = .refused

namespace Reader

variable {β α : Type*} (r : Reader β α)

/-- Some items are read off a stream, and some of it is left. -/
inductive Reads : List β → List α → List β → Prop
  | nil (bs : List β) : Reads bs [] bs
  | cons {bs rest rest' : List β} {a : α} {as : List α} :
      r.read bs = .item a rest → Reads rest as rest' → Reads bs (a :: as) rest'

/-- No item is at the front. -/
def Stuck (bs : List β) : Prop := ∀ a rest, r.read bs ≠ .item a rest

/-- These are the bytes of an item. -/
def Writes (a : α) (bs : List β) : Prop := ∀ more, r.read (bs ++ more) = .item a more

variable {r} {bs rest rest' tail : List β} {a : α} {as all : List α}

theorem stuck_nil : r.Stuck [] := fun a rest h => by simp [r.read_nil] at h

theorem stuck_of_refused (h : r.read bs = .refused) : r.Stuck bs := fun a rest h' => by simp [h] at h'

namespace Reads

/-- More arrives. -/
theorem more (h : r.Reads bs as rest) (more : List β) : r.Reads (bs ++ more) as (rest ++ more) := by
  induction h with
  | nil bs => exact .nil _
  | cons hread _ ih => exact .cons (r.item_append more hread) ih

/-- One more item is read. -/
theorem concat (h : r.Reads bs as rest) (hread : r.read rest = .item a rest') :
    r.Reads bs (as ++ [a]) rest' := by
  induction h with
  | nil bs => exact .cons hread (.nil _)
  | cons hfirst _ ih => exact .cons hfirst (ih hread)

/-- What has been read is the first of what there is to read, and the others are left. -/
theorem split (h : r.Reads bs as rest) (hall : r.Reads bs all rest') (hstuck : r.Stuck rest') :
    ∃ others, all = as ++ others ∧ r.Reads rest others rest' := by
  induction h generalizing all with
  | nil bs => exact ⟨all, rfl, hall⟩
  | cons hread _ ih =>
    cases hall with
    | nil => exact absurd hread (hstuck _ _)
    | cons hread' hall =>
      obtain ⟨rfl, rfl⟩ := Reading.item.inj (hread.symm.trans hread')
      obtain ⟨others, rfl, hothers⟩ := ih hall
      exact ⟨others, rfl, hothers⟩

/-- A stream that can be read to its end has an item at its front, or is at its end. -/
theorem front (h : r.Reads bs as []) : bs = [] ∧ as = [] ∨ ∃ a rest, r.read bs = .item a rest := by
  cases h with
  | nil => exact .inl ⟨rfl, rfl⟩
  | cons hread _ => exact .inr ⟨_, _, hread⟩

end Reads

/-- Items written one after the other. -/
theorem reads_flatMap {write : α → List β} (h : ∀ a ∈ as, r.Writes a (write a)) (rest : List β) :
    r.Reads (as.flatMap write ++ rest) as rest := by
  induction as with
  | nil => exact .nil rest
  | cons a as ih =>
    rw [List.flatMap_cons, List.append_assoc]
    exact .cons (h a List.mem_cons_self _) (ih fun b hb => h b (List.mem_cons_of_mem a hb))

end Reader

/-! ## Lines -/

/-- A stream from one place to another: all that has been written, what of it is on its way,
    and what has arrived and is not read. -/
structure Line (β : Type*) where
  written : List β
  flying : List β
  arrived : List β

namespace Line

variable {β : Type*}

def idle : Line β := ⟨[], [], []⟩

def write (bs : List β) (l : Line β) : Line β :=
  { l with written := l.written ++ bs, flying := l.flying ++ bs }

/-- Some of it arrives. -/
def carry (n : ℕ) (l : Line β) : Line β :=
  { l with flying := l.flying.drop n, arrived := l.arrived ++ l.flying.take n }

end Line

namespace Reader

variable {β α : Type*} {r : Reader β α} {l : Line β} {rest tail : List β} {a : α} {as all : List α}

variable (r) in
/-- These items have been read off a line. -/
def Heard (l : Line β) (as : List α) : Prop :=
  ∃ front, l.written = front ++ l.flying ∧ r.Reads front as l.arrived

theorem heard_idle : r.Heard .idle [] := ⟨[], rfl, .nil []⟩

namespace Heard

theorem write (h : r.Heard l as) (bs : List β) : r.Heard (l.write bs) as := by
  obtain ⟨front, hwritten, hreads⟩ := h
  refine ⟨front, ?_, hreads⟩
  rw [Line.write, hwritten, List.append_assoc]

theorem carry (h : r.Heard l as) (n : ℕ) : r.Heard (l.carry n) as := by
  obtain ⟨front, hwritten, hreads⟩ := h
  refine ⟨front ++ l.flying.take n, ?_, hreads.more _⟩
  rw [Line.carry, List.append_assoc, List.take_append_drop]
  exact hwritten

theorem read (h : r.Heard l as) (hread : r.read l.arrived = .item a rest) :
    r.Heard { l with arrived := rest } (as ++ [a]) := by
  obtain ⟨front, hwritten, hreads⟩ := h
  exact ⟨front, hwritten, hreads.concat hread⟩

/-- What is written can be read up to somewhere: of that the first has been read, and the
    others are left. -/
theorem split (h : r.Heard l as) (hall : r.Reads (l.written ++ tail) all rest) (hstuck : r.Stuck rest) :
    ∃ others, all = as ++ others ∧ r.Reads (l.arrived ++ (l.flying ++ tail)) others rest := by
  obtain ⟨front, hwritten, hreads⟩ := h
  rw [hwritten, List.append_assoc] at hall
  exact (hreads.more _).split hall hstuck

end Heard

/-- What begins a stream that can be read to its end is not refused. -/
theorem Reads.read_ne_refused {bs : List β} (h : r.Reads (bs ++ tail) as []) : r.read bs ≠ .refused := by
  intro hrefused
  rcases h.front with ⟨hnil, -⟩ | ⟨a, rest, hread⟩
  · rw [(List.append_eq_nil_iff.1 hnil).1, r.read_nil] at hrefused
    cases hrefused
  · exact stuck_of_refused (r.refused_append tail hrefused) a rest hread

end Reader

end Itx
