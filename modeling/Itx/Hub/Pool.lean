import Itx.Lib.System

/-!
# The connections of the hub to its nodes

The hub keeps idle connections to a node for reuse (`hub/src/node_client.rs`): a request
takes one if there is one, and dials otherwise, or when the one it took fails; a send always
dials. Whoever is done with a connection puts it back, unless the pool points to another
node by then. An operation has one of a fixed number of permits from its start to its end.

The permits bound the operations. They bound the connections too as long as only requests
are made: a request dials when nothing is idle, or in place of the connection it took. But a
send dials beside the idle connections, and adds one to them each time (`sends_pile_up`). The
bound holds in the runs where a send finds a connection less than there are permits
(`connections_bounded`). The idle connections always go to the node the pool points to
(`Kept.addressed`).
-/

namespace Itx.NodeClient

/-! ## The pool -/

/-- A connection, with the address it was dialled to. -/
structure Connection where
  dialledTo : String
  deriving DecidableEq, Repr

/-- `PoolState`. -/
structure PoolState where
  address : Option String
  connections : List Connection
  deriving DecidableEq, Repr

namespace PoolState

/-- `Pool::take`. -/
def take (pool : PoolState) : Option (String × Connection) × PoolState :=
  match pool.connections.getLast? with
  | none => (none, pool)
  | some stream =>
    (pool.address.map fun address => (address, stream), { pool with connections := pool.connections.dropLast })

/-- `Pool::put`. -/
def put (address : String) (stream : Connection) (pool : PoolState) : PoolState :=
  if pool.address = some address then { pool with connections := pool.connections ++ [stream] } else pool

/-- `Pool::adopt`. -/
def adopt (address : String) (pool : PoolState) : PoolState :=
  if pool.address ≠ some address then { address := some address, connections := [] } else pool

end PoolState

/-! ## Operations -/

/-- `NodeClient::request` and `NodeClient::send`. -/
inductive Kind
  | request
  | send
  deriving DecidableEq, Repr

/-- How far an operation has come. -/
inductive Phase
  /-- It waits for a permit. -/
  | queued (kind : Kind)
  | permitted (kind : Kind)
  /-- It dials, with these addresses left to try (`connect`). -/
  | dialling (addresses : List String)
  /-- The dial went through, and the pool is not told yet. -/
  | dialled (address : String)
  /-- It uses a connection, to the address as it was told. -/
  | exchanging (pooled : Bool) (address : String) (stream : Connection)
  /-- The exchange went through, and the connection is not back yet. -/
  | exchanged (address : String) (stream : Connection)
  /-- It has returned, and its permit is not back yet. -/
  | ended
  | done
  deriving DecidableEq, Repr

namespace Phase

/-- The permits an operation holds. -/
def permits : Phase → ℕ
  | queued _ => 0
  | done => 0
  | _ => 1

/-- The connections an operation uses. -/
def inUse : Phase → ℕ
  | dialled _ => 1
  | exchanging .. => 1
  | exchanged .. => 1
  | _ => 0

/-- The connections an operation uses or dials. -/
def engaged : Phase → ℕ
  | dialling _ => 1
  | p => p.inUse

/-- The address an operation was told is that of its connection. -/
def Labelled : Phase → Prop
  | exchanging _ address stream => address = stream.dialledTo
  | exchanged address stream => address = stream.dialledTo
  | _ => True

end Phase

/-- The next step of an operation, if it can make one: what it leaves of the pool and of the
    free permits. A dial, an exchange or a send of it ends as `ok` says. -/
def advance (addresses : List String) (ok : Bool) (pool : PoolState) (free : ℕ) :
    Phase → Option (PoolState × ℕ × Phase)
  | .queued kind => if 0 < free then some (pool, free - 1, .permitted kind) else none
  | .permitted .request =>
    match pool.take with
    | (some (address, stream), pool) => some (pool, free, .exchanging true address stream)
    | (none, pool) => some (pool, free, .dialling addresses)
  | .permitted .send => some (pool, free, .dialling addresses)
  | .dialling [] => some (pool, free, .ended)
  | .dialling (address :: rest) => some (pool, free, if ok then .dialled address else .dialling rest)
  | .dialled address => some (pool.adopt address, free, .exchanging false address ⟨address⟩)
  | .exchanging pooled address stream =>
    -- The connection is dropped when the exchange fails, and a pooled one is replaced.
    some (pool, free, if ok then .exchanged address stream
      else if pooled then .dialling addresses else .ended)
  | .exchanged address stream => some (pool.put address stream, free, .ended)
  | .ended => some (pool, free + 1, .done)
  | .done => none

/-! ## The client -/

/-- The pool of a client, its free permits, and the operations made so far. -/
structure Client where
  pool : PoolState
  free : ℕ
  ops : List Phase
  deriving DecidableEq, Repr

inductive Label
  /-- An operation is made. -/
  | start (kind : Kind)
  /-- It makes its next step. -/
  | advance (i : ℕ) (ok : Bool)
  /-- It is dropped where it is, with what it holds. -/
  | cancel (i : ℕ)

namespace Client

/-- `NodeClient::with_pool_size`. -/
def withPoolSize (size : ℕ) : Client where
  pool := { address := none, connections := [] }
  free := max size 1
  ops := []

/-- One step of a client. -/
def step (addresses : List String) (s : Client) : Label → Option Client
  | .start kind => some { s with ops := s.ops ++ [.queued kind] }
  | .advance i ok => do
    let p ← s.ops[i]?
    let (pool, free, p) ← NodeClient.advance addresses ok s.pool s.free p
    some { pool, free, ops := s.ops.set i p }
  | .cancel i => do
    let p ← s.ops[i]?
    some { s with free := s.free + p.permits, ops := s.ops.set i .done }

/-- The connections in use. -/
def inUse (s : Client) : ℕ := (s.ops.map Phase.inUse).sum

/-- The connections in use, and those being dialled. -/
def engaged (s : Client) : ℕ := (s.ops.map Phase.engaged).sum

end Client

/-- The client as a transition system. -/
def clientSystem (addresses : List String) (size : ℕ) : System Client Label where
  init := {.withPoolSize size}
  step s l s' := s.step addresses l = some s'

variable {addresses : List String} {size : ℕ} {s s' : Client} {pool pool' : PoolState} {p p' : Phase}

/-! ## What a step of an operation does -/

/-- The idle connections go to the node the pool points to. -/
def PoolState.Addressed (pool : PoolState) : Prop :=
  ∀ stream ∈ pool.connections, pool.address = some stream.dialledTo

/-- A connection is put back under the address it was dialled to. -/
theorem PoolState.Addressed.put {address : String} {stream : Connection} (h : pool.Addressed)
    (hstream : address = stream.dialledTo) : (pool.put address stream).Addressed := by
  rw [PoolState.put]
  split_ifs with hadopted
  · intro x hx
    rcases List.mem_append.1 hx with hx | hx
    · exact h x hx
    · rw [List.mem_singleton.1 hx, ← hstream]
      exact hadopted
  · exact h

/-- Connections to other addresses are dropped, and none is added. -/
theorem PoolState.Addressed.adopt {address : String} (h : pool.Addressed) : (pool.adopt address).Addressed := by
  rw [PoolState.adopt]
  split_ifs
  · simp [PoolState.Addressed]
  · exact h

/-- A connection taken is one to the address that comes with it. -/
theorem PoolState.Addressed.take (h : pool.Addressed) :
    pool.take.2.Addressed ∧
      ∀ address stream, pool.take.1 = some (address, stream) → address = stream.dialledTo := by
  rw [PoolState.take]
  cases hlast : pool.connections.getLast? with
  | none =>
    refine ⟨h, fun address stream he => ?_⟩
    cases he
  | some last =>
    refine ⟨fun x hx => h x (List.mem_of_mem_dropLast hx), fun address stream he => ?_⟩
    obtain ⟨a, ha, he⟩ := Option.map_eq_some_iff.1 he
    obtain ⟨rfl, rfl⟩ := Prod.mk.inj he
    exact Option.some.inj (ha.symm.trans (h _ (List.mem_of_getLast? hlast)))

/-- One connection more is idle, at most. -/
theorem PoolState.length_put_le (address : String) (stream : Connection) (pool : PoolState) :
    (pool.put address stream).connections.length ≤ pool.connections.length + 1 := by
  rw [PoolState.put]
  split_ifs <;> simp

/-- None is added when an address is adopted. -/
theorem PoolState.length_adopt_le (address : String) (pool : PoolState) :
    (pool.adopt address).connections.length ≤ pool.connections.length := by
  rw [PoolState.adopt]
  split_ifs <;> simp

/-- Taking from the pool leaves one connection less, if there is one. -/
theorem PoolState.length_take (pool : PoolState) :
    pool.take.2.connections.length = pool.connections.length - 1 := by
  rw [PoolState.take]
  cases hlast : pool.connections.getLast? with
  | none => simp [List.getLast?_eq_none_iff.1 hlast]
  | some last => exact List.length_dropLast

/-- A connection in use takes a place. -/
theorem inUse_le_engaged (p : Phase) : p.inUse ≤ p.engaged := by
  cases p <;> simp [Phase.engaged, Phase.inUse]

/-- And a place takes a permit. -/
theorem engaged_le_permits (p : Phase) : p.engaged ≤ p.permits := by
  cases p <;> simp [Phase.engaged, Phase.inUse, Phase.permits]

/-- What a step of an operation keeps. -/
structure Advances (pool : PoolState) (free : ℕ) (p : Phase) (pool' : PoolState) (free' : ℕ) (p' : Phase) :
    Prop where
  /-- Permits are neither lost nor made. -/
  permits : free' + p'.permits = free + p.permits
  addressed : pool.Addressed → p.Labelled → pool'.Addressed ∧ p'.Labelled
  /-- Only an operation that has not touched the pool adds a connection: a send, or a request
      that finds none. -/
  engaged : pool'.connections.length + p'.engaged ≤ pool.connections.length + p.engaged ∨
    (p = .permitted .send ∨ p = .permitted .request ∧ pool.connections = []) ∧
      pool'.connections.length + p'.engaged = pool.connections.length + 1

/-- A request takes a connection, or goes on to dial. -/
theorem advances_take {pool' : PoolState} {taken : Option (String × Connection)}
    (h : pool.take = (taken, pool')) (addresses : List String) (free : ℕ) :
    Advances pool free (.permitted .request) pool' free
      (taken.elim (.dialling addresses) fun t => .exchanging true t.1 t.2) := by
  have hpool : pool.take.2 = pool' := congrArg Prod.snd h
  have htaken : pool.take.1 = taken := congrArg Prod.fst h
  have hlength := pool.length_take
  rw [hpool] at hlength
  have hone : (taken.elim (.dialling addresses) fun t => Phase.exchanging true t.1 t.2).engaged = 1 ∧
      (taken.elim (.dialling addresses) fun t => Phase.exchanging true t.1 t.2).permits = 1 := by
    cases taken <;> simp [Phase.engaged, Phase.inUse, Phase.permits]
  refine ⟨by rw [hone.2]; rfl, fun haddr _ => ?_, ?_⟩
  · obtain ⟨hpool', hlabel⟩ := haddr.take
    rw [hpool] at hpool'
    refine ⟨hpool', ?_⟩
    cases taken with
    | none => trivial
    | some t => exact hlabel t.1 t.2 htaken
  · rw [hone.1]
    by_cases hempty : pool.connections = []
    · right
      refine ⟨.inr ⟨rfl, hempty⟩, ?_⟩
      rw [hlength, hempty]
      rfl
    · left
      have hpos := List.length_pos_iff.2 hempty
      change _ ≤ _ + 0
      omega

/-- What a step of an operation does to the pool and the permits. -/
theorem advances {ok : Bool} {free free' : ℕ} (h : advance addresses ok pool free p = some (pool', free', p')) :
    Advances pool free p pool' free' p' := by
  cases p with
  | queued kind =>
    rw [advance] at h
    split_ifs at h with hfree
    obtain ⟨rfl, rfl, rfl⟩ := Option.some.inj h
    exact ⟨by simp [Phase.permits]; omega, fun haddr _ => ⟨haddr, trivial⟩, .inl le_rfl⟩
  | permitted kind =>
    cases kind with
    | request =>
      cases htake : pool.take with
      | mk taken rest =>
        have hadvances := advances_take htake addresses free
        rw [advance, htake] at h
        cases taken with
        | none =>
          obtain ⟨rfl, rfl, rfl⟩ := Option.some.inj h
          exact hadvances
        | some t =>
          obtain ⟨rfl, rfl, rfl⟩ := Option.some.inj h
          exact hadvances
    | send =>
      obtain ⟨rfl, rfl, rfl⟩ := Option.some.inj h
      exact ⟨rfl, fun haddr _ => ⟨haddr, trivial⟩, .inr ⟨.inl rfl, rfl⟩⟩
  -- Each address is dialled in turn, and the operation ends when none is left.
  | dialling rest =>
    cases rest with
    | nil =>
      obtain ⟨rfl, rfl, rfl⟩ := Option.some.inj h
      exact ⟨rfl, fun haddr _ => ⟨haddr, trivial⟩, .inl (Nat.le_succ _)⟩
    | cons address rest =>
      obtain ⟨rfl, rfl, rfl⟩ := Option.some.inj h
      cases ok
      · exact ⟨rfl, fun haddr _ => ⟨haddr, trivial⟩, .inl le_rfl⟩
      · exact ⟨rfl, fun haddr _ => ⟨haddr, trivial⟩, .inl le_rfl⟩
  | dialled address =>
    obtain ⟨rfl, rfl, rfl⟩ := Option.some.inj h
    exact ⟨rfl, fun haddr _ => ⟨haddr.adopt, rfl⟩,
      .inl (Nat.add_le_add_right (pool.length_adopt_le address) 1)⟩
  -- A stream from the pool may be dead, and is replaced; a new one is not.
  | exchanging pooled address stream =>
    obtain ⟨rfl, rfl, rfl⟩ := Option.some.inj h
    cases ok
    · cases pooled
      · exact ⟨rfl, fun haddr _ => ⟨haddr, trivial⟩, .inl (Nat.le_succ _)⟩
      · exact ⟨rfl, fun haddr _ => ⟨haddr, trivial⟩, .inl le_rfl⟩
    · exact ⟨rfl, fun haddr hlabel => ⟨haddr, hlabel⟩, .inl le_rfl⟩
  | exchanged address stream =>
    obtain ⟨rfl, rfl, rfl⟩ := Option.some.inj h
    exact ⟨rfl, fun haddr hlabel => ⟨haddr.put hlabel, trivial⟩, .inl (pool.length_put_le address stream)⟩
  | ended =>
    obtain ⟨rfl, rfl, rfl⟩ := Option.some.inj h
    exact ⟨rfl, fun haddr _ => ⟨haddr, trivial⟩, .inl le_rfl⟩
  | done => cases h

/-! ## Sums over the operations -/

section

variable {α : Type*} {l : List α} {a : α} {i : ℕ}

/-- One of the summands is replaced. -/
theorem sum_map_set (f : α → ℕ) (h : l[i]? = some a) (b : α) :
    ((l.set i b).map f).sum + f a = (l.map f).sum + f b := by
  induction l generalizing i with
  | nil => cases h
  | cons x l ih =>
    cases i with
    | zero =>
      obtain rfl := Option.some.inj h
      simp only [List.set_cons_zero, List.map_cons, List.sum_cons]
      omega
    | succ i =>
      have := ih h
      simp only [List.set_cons_succ, List.map_cons, List.sum_cons]
      omega

/-- A sum that is smaller in each summand is so by what it is in one. -/
theorem sum_map_add_le {f g : α → ℕ} (h : ∀ a, f a ≤ g a) (ha : a ∈ l) :
    (l.map f).sum + g a ≤ (l.map g).sum + f a := by
  induction l with
  | nil => cases ha
  | cons x l ih =>
    simp only [List.map_cons, List.sum_cons]
    rcases List.mem_cons.1 ha with rfl | ha
    · have := List.sum_le_sum fun a (_ : a ∈ l) => h a
      omega
    · have := ih ha
      have := h x
      omega

end

/-! ## Runs -/

/-- What holds in every run: the permits are all there, and the idle connections go to the
    node the pool points to. -/
structure Kept (size : ℕ) (s : Client) : Prop where
  permits : s.free + (s.ops.map Phase.permits).sum = max size 1
  addressed : s.pool.Addressed
  labelled : ∀ p ∈ s.ops, p.Labelled

/-- A new client has all its permits. -/
theorem kept_withPoolSize : Kept size (.withPoolSize size) where
  permits := rfl
  addressed stream hs := by cases hs
  labelled p hp := by cases hp

/-- A step takes a permit, passes one on or gives one back. -/
theorem Kept.step {l : Label} (h : Kept size s) (hstep : s.step addresses l = some s') : Kept size s' := by
  cases l with
  | start kind =>
    obtain rfl := Option.some.inj hstep
    refine ⟨?_, h.addressed, fun p hp => ?_⟩
    · simpa [Phase.permits] using h.permits
    · rcases List.mem_append.1 hp with hp | hp
      · exact h.labelled p hp
      · rw [List.mem_singleton.1 hp]
        trivial
  | advance i ok =>
    obtain ⟨p, hp, hstep⟩ := Option.bind_eq_some_iff.1 hstep
    obtain ⟨⟨pool, free, p'⟩, hadvance, hstep⟩ := Option.bind_eq_some_iff.1 hstep
    obtain rfl := Option.some.inj hstep
    have had := advances hadvance
    obtain ⟨hpool, hlabel⟩ := had.addressed h.addressed (h.labelled p (List.mem_of_getElem? hp))
    refine ⟨?_, hpool, fun q hq => ?_⟩
    · have hsum := sum_map_set Phase.permits hp p'
      have := had.permits
      have := h.permits
      dsimp only
      omega
    · rcases List.mem_or_eq_of_mem_set hq with hq | rfl
      · exact h.labelled q hq
      · exact hlabel
  | cancel i =>
    obtain ⟨p, hp, hstep⟩ := Option.bind_eq_some_iff.1 hstep
    obtain rfl := Option.some.inj hstep
    refine ⟨?_, h.addressed, fun q hq => ?_⟩
    · have hsum := sum_map_set Phase.permits hp .done
      have hdone : Phase.done.permits = 0 := rfl
      have := h.permits
      dsimp only
      omega
    · rcases List.mem_or_eq_of_mem_set hq with hq | rfl
      · exact h.labelled q hq
      · trivial

/-- So they add up over every run. -/
theorem kept_of_reachable (hs : (clientSystem addresses size).Reachable s) : Kept size s := by
  refine hs.invariant (fun s hs => ?_) fun s l s' h _ hstep => h.step hstep
  rw [Set.mem_singleton_iff.1 hs]
  exact kept_withPoolSize

/-- The steps in which a send that starts to dial finds fewer connections, idle, in use or
    being dialled, than there are permits. -/
def Reserving (size : ℕ) (s : Client) : Label → Prop
  | .advance i _ => s.ops[i]? = some (.permitted .send) →
      s.pool.connections.length + s.engaged < max size 1
  | _ => True

/-- A request that finds nothing idle is not among the operations that have or dial a
    connection, so these are fewer than the permits. -/
theorem Kept.engaged_lt (h : Kept size s) {kind : Kind} {i : ℕ} (hi : s.ops[i]? = some (.permitted kind)) :
    s.engaged < max size 1 := by
  have hle := sum_map_add_le engaged_le_permits (List.mem_of_getElem? hi)
  have hone : (Phase.permitted kind).permits = 1 ∧ (Phase.permitted kind).engaged = 0 := ⟨rfl, rfl⟩
  have := h.permits
  rw [Client.engaged]
  omega

/-- Whoever holds a permit has one place, so there is room for what is put back. -/
theorem step_bounded {l : Label} (hk : Kept size s) (h : s.pool.connections.length + s.engaged ≤ max size 1)
    (hC : Reserving size s l) (hstep : s.step addresses l = some s') :
    s'.pool.connections.length + s'.engaged ≤ max size 1 := by
  cases l with
  | start kind =>
    obtain rfl := Option.some.inj hstep
    simpa [Client.engaged, Phase.engaged, Phase.inUse] using h
  | advance i ok =>
    obtain ⟨p, hp, hstep⟩ := Option.bind_eq_some_iff.1 hstep
    obtain ⟨⟨pool, free, p'⟩, hadvance, hstep⟩ := Option.bind_eq_some_iff.1 hstep
    obtain rfl := Option.some.inj hstep
    have hsum := sum_map_set Phase.engaged hp p'
    rw [Client.engaged] at h
    rw [Client.engaged]
    dsimp only
    rcases (advances hadvance).engaged with hle | ⟨hcase, heq⟩
    · omega
    · have hroom : s.pool.connections.length + s.engaged < max size 1 ∧ p.engaged = 0 := by
        rcases hcase with rfl | ⟨rfl, hempty⟩
        · exact ⟨hC hp, rfl⟩
        · rw [hempty]
          exact ⟨(Nat.zero_add _).trans_lt (hk.engaged_lt hp), rfl⟩
      rw [Client.engaged] at hroom
      omega
  | cancel i =>
    obtain ⟨p, hp, hstep⟩ := Option.bind_eq_some_iff.1 hstep
    obtain rfl := Option.some.inj hstep
    have hsum := sum_map_set Phase.engaged hp .done
    have hdone : Phase.done.engaged = 0 := rfl
    rw [Client.engaged] at h
    rw [Client.engaged]
    dsimp only
    omega

/-- Where a send that starts to dial always finds fewer connections than there are permits,
    the connections are never more than these, and the idle ones go to the node the pool
    points to. -/
theorem connections_bounded (hs : (clientSystem addresses size).ReachableBy (Reserving size) s) :
    s.pool.connections.length + s.inUse ≤ max size 1 ∧
      ∀ stream ∈ s.pool.connections, s.pool.address = some stream.dialledTo := by
  have hbound : s.pool.connections.length + s.engaged ≤ max size 1 := by
    refine hs.invariant_of (fun _ hs => kept_of_reachable hs.reachable) (fun s hs => ?_)
      fun s l s' hk h hC hstep => step_bounded hk h hC hstep
    rw [Set.mem_singleton_iff.1 hs]
    exact Nat.zero_le _
  have hle : s.inUse ≤ s.engaged := List.sum_le_sum fun p _ => inUse_le_engaged p
  exact ⟨(Nat.add_le_add_left hle _).trans hbound, (kept_of_reachable hs.reachable).addressed⟩

/-! ## Runs step by step -/

instance (size : ℕ) (s : Client) (l : Label) : Decidable (Reserving size s l) :=
  match l with
  | .start _ => inferInstanceAs (Decidable True)
  | .advance i _ => inferInstanceAs (Decidable (s.ops[i]? = some (.permitted .send) → _ < _))
  | .cancel _ => inferInstanceAs (Decidable True)

/-- The state after some steps, if each can be made and meets the condition. -/
def follow (C : Client → Label → Prop) [∀ s l, Decidable (C s l)] (addresses : List String) (s : Client)
    (labels : List Label) : Option Client :=
  labels.foldlM (fun s l => if C s l then s.step addresses l else none) s

/-- A run follows the labels. -/
theorem reachableBy_follow {C : Client → Label → Prop} [∀ s l, Decidable (C s l)] {labels : List Label}
    (hs : (clientSystem addresses size).ReachableBy C s) (h : follow C addresses s labels = some s') :
    (clientSystem addresses size).ReachableBy C s' := by
  refine hs.foldlM (fun l _ s s' hl => ?_) h
  split_ifs at hl with hC
  exact ⟨hC, hl⟩

/-- The steps of an operation that goes through: it gets its permit, starts to dial, dials,
    points the pool to its node, sends, puts its connection back and gives back its permit. -/
def sending (i : ℕ) : List Label := .start .send :: List.replicate 7 (.advance i true)

/-- A send finds room in an empty pool. -/
theorem connections_bounded_sending : ∃ s,
    (clientSystem ["node"] 1).ReachableBy (Reserving 1) s ∧ s.pool.connections = [⟨"node"⟩] ∧
      s.pool.connections.length + s.inUse ≤ 1 ∧ s.pool.address = some "node" := by
  have hrun : (follow (Reserving 1) ["node"] (.withPoolSize 1) (sending 0)).map Client.pool =
      some { address := some "node", connections := [⟨"node"⟩] } := by decide
  obtain ⟨s, hs, hpool⟩ := Option.map_eq_some_iff.1 hrun
  have hreach : (clientSystem ["node"] 1).ReachableBy (Reserving 1) s := reachableBy_follow (.init rfl) hs
  exact ⟨s, hreach, by rw [hpool], (connections_bounded hreach).1, by rw [hpool]⟩

/-- Two sends, one after the other, leave two idle connections in a pool of one. -/
theorem sends_pile_up : ∃ s, (clientSystem ["node"] 1).Reachable s ∧ s.inUse = 0 ∧
    s.pool.connections = [⟨"node"⟩, ⟨"node"⟩] ∧ ¬ s.pool.connections.length + s.inUse ≤ max 1 1 := by
  have hrun : (follow (fun _ _ => True) ["node"] (.withPoolSize 1) (sending 0 ++ sending 1)).map
      (fun s => (s.pool.connections, s.inUse)) = some ([⟨"node"⟩, ⟨"node"⟩], 0) := by decide
  obtain ⟨s, hs, hpool⟩ := Option.map_eq_some_iff.1 hrun
  obtain ⟨hconnections, hinUse⟩ := Prod.mk.inj hpool
  refine ⟨s, reachableBy_follow (.init rfl) hs, hinUse, hconnections, ?_⟩
  rw [hconnections, hinUse]
  decide

end Itx.NodeClient
