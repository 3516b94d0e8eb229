import Itx.Lib.System
import Itx.Chain.Steps

/-!
# Runs of the blockchain

A blockchain as a transition system (`chainSystem`): it starts as
`Blockchain::new` makes it, and steps by calls of its methods, with any
arguments, in any order. A step leaves the state its call leaves, whatever the
outcome, an error or a panic included.

A result about the runs in which the blocks taken up meet a condition is about
the states reachable by the steps `Taking` it; the condition is on the block and
on the state it is taken up in, for the block of the call and for the orphans
attached after it alike. An invariant of the steps of an acceptance (`Moves`) is
an invariant of these runs (`invariant_of_moves`).
-/

namespace Itx

open Call

namespace Blockchain

/-- A call on the blockchain, with what it reads of its surroundings. -/
inductive Op
  | addBlock (amb : Ambient) (block : Block)
  | addToMempool (now : DateTime) (tx : Transaction)
  | cleanupMempool (now : DateTime)
  | setTimeOffset (offset : Duration)

/-- The call made by an operation. -/
def Op.call (c : Crypto) : Op → ChainCall Unit
  | .addBlock amb block => Blockchain.addBlock c amb block
  | .addToMempool now tx => Blockchain.addToMempool c now tx
  | .cleanupMempool now => Call.modify (Blockchain.cleanupMempool now)
  | .setTimeOffset offset => Call.modify (Blockchain.setTimeOffset offset)

/-- The blockchain as a transition system. -/
def chainSystem (c : Crypto) : System Blockchain Op where
  init := {new}
  step s op s' := s' = (op.call c s).1

/-- The steps whose blocks, when they are taken up, meet `P`. The condition may
    depend on what the call reads of its surroundings. -/
def Taking (c : Crypto) (P : Ambient → Blockchain → Block → Prop) : Blockchain → Op → Prop
  | s, .addBlock amb block => TakesUp c amb (P amb) block s
  | _, _ => True

theorem taking_of_forall {c : Crypto} {P : Ambient → Blockchain → Block → Prop}
    (h : ∀ amb s block, P amb s block) (s : Blockchain) (op : Op) : Taking c P s op := by
  cases op with
  | addBlock amb block => exact takes_of_forall (h amb) _ _ _
  | _ => trivial

/-- The state after a list of operations. -/
def run (c : Crypto) (ops : List Op) : Blockchain :=
  ops.foldl (fun s op => (op.call c s).1) new

variable {c : Crypto} {P : Ambient → Blockchain → Block → Prop} {I : Blockchain → Prop}

theorem run_concat (ops : List Op) (op : Op) : run c (ops ++ [op]) = (op.call c (run c ops)).1 :=
  List.foldl_append

theorem reachableBy_run_nil {C : Blockchain → Op → Prop} : (chainSystem c).ReachableBy C (run c []) :=
  .init rfl

/-- One more operation meeting the condition. -/
theorem reachableBy_run_concat {C : Blockchain → Op → Prop} (ops : List Op) {op : Op}
    (h : (chainSystem c).ReachableBy C (run c ops)) (hC : C (run c ops) op) :
    (chainSystem c).ReachableBy C (run c (ops ++ [op])) :=
  .step h hC (run_concat ops op)

/-- Operations that always meet the condition. -/
theorem reachableBy_run {C : Blockchain → Op → Prop} {ops : List Op} (h : ∀ op ∈ ops, ∀ s, C s op) :
    (chainSystem c).ReachableBy C (run c ops) :=
  reachableBy_run_nil.foldl fun op hop s => ⟨h op hop s, rfl⟩

theorem reachable_run (ops : List Op) : (chainSystem c).Reachable (run c ops) :=
  reachableBy_run fun _ _ _ => trivial

/-- Without orphans, only the block of the call is taken up. -/
theorem takesUp_of_orphans_eq_empty {amb : Ambient} {P : Blockchain → Block → Prop} {block : Block}
    {s : Blockchain} (ho : s.orphans = ∅) (hP : P s block) : TakesUp c amb P block s := by
  refine ⟨hP, fun s' hash he => ?_⟩
  have hframe := orphans_acceptBlock (c := c) amb block ∅ s ho
  rw [he] at hframe
  have hnone : readyOrphans amb.order s' hash = [] := by
    rw [readyOrphans, show s'.orphans = ∅ from hframe]
    simp
  rw [hnone]
  trivial

/-- What one call preserves. The transactions offered by the call are those of `hpool`. -/
theorem preserves_of_moves (h : ∀ amb, Moves c amb (P amb) I I) (hk : ∀ s, I s → Keyed c s)
    (hclean : ∀ now s, I s → I (s.cleanupMempool now))
    (htime : ∀ offset s, I s → I (s.setTimeOffset offset)) {s : Blockchain} {op : Op}
    (hpool : ∀ now tx, op = .addToMempool now tx → Preserves I (addToMempool c now tx)) (hs : I s)
    (hop : Taking c P s op) : I (op.call c s).1 := by
  cases op with
  | addBlock amb block =>
    -- The invariant holds wherever the call stops.
    have hend := triple_addBlock (h amb) hk (.of_imp fun _ => id) block s ⟨hs, hop⟩
    rw [Op.call]
    generalize Blockchain.addBlock c amb block s = r at hend
    obtain ⟨s', a | e | _⟩ := r
    exacts [hend, hend, hend]
  | addToMempool now tx => exact (hpool now tx rfl).apply hs
  | cleanupMempool now => exact hclean now s hs
  | setTimeOffset offset => exact htime offset s hs

/-- An invariant of the steps holds in every state reached. -/
theorem invariant_of_moves (h₀ : I new) (h : ∀ amb, Moves c amb (P amb) I I)
    (hk : ∀ s, I s → Keyed c s)
    (hpool : ∀ now tx, Preserves I (addToMempool c now tx))
    (hclean : ∀ now s, I s → I (s.cleanupMempool now))
    (htime : ∀ offset s, I s → I (s.setTimeOffset offset)) {s : Blockchain}
    (hs : (chainSystem c).ReachableBy (Taking c P) s) : I s := by
  refine hs.invariant (fun s hs => ?_) fun s op s' hI hop hst => ?_
  · rw [Set.mem_singleton_iff.1 hs]
    exact h₀
  · rw [show s' = (op.call c s).1 from hst]
    exact preserves_of_moves h hk hclean htime (fun now tx _ => hpool now tx) hI hop

/-! ## Invariants of the chain -/

/-- What depends on the chain only: not on the mempool, the marks or the clock. -/
def OfChain (I : Blockchain → Prop) : Prop :=
  (∀ s₀ s, SameChain s₀ s → I s₀ → I s) ∧ ∀ s offset, I s → I (s.setTimeOffset offset)

namespace OfChain

theorem addToMempool (h : OfChain I) (now : DateTime) (tx : Transaction) :
    Preserves I (addToMempool c now tx) := by
  intro s hs
  refine (sameChain_addToMempool s tx s (.refl s)).imp ?_ ?_ ?_
  exacts [fun _ s' h' => h.1 s s' h' hs, fun _ s' h' => h.1 s s' h' hs, fun s' h' => h.1 s s' h' hs]

theorem and {J : Blockchain → Prop} (h : OfChain I) (h' : OfChain J) :
    OfChain fun s => I s ∧ J s :=
  ⟨fun s₀ s hs hI => ⟨h.1 s₀ s hs hI.1, h'.1 s₀ s hs hI.2⟩,
    fun s offset hI => ⟨h.2 s offset hI.1, h'.2 s offset hI.2⟩⟩

/-- An invariant of the chain holds in every state reached. -/
theorem invariant (h : OfChain I) (h₀ : I new) (hm : ∀ amb, Moves c amb (P amb) I I)
    (hk : ∀ s, I s → Keyed c s) {s : Blockchain} (hs : (chainSystem c).ReachableBy (Taking c P) s) : I s :=
  invariant_of_moves h₀ hm hk h.addToMempool
    (fun now s => h.1 _ _ ((SameChain.refl s).cleanupMempool now)) (fun offset s => h.2 s offset) hs

end OfChain

end Blockchain

end Itx
