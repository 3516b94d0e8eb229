import Itx.Lib.Finmap
import Itx.Lib.System
import Itx.Lib.Text
import Itx.Hub.Types

/-!
# Names of agents

The hub gives each agent a name to be shown under, a descriptor and a subject glued together
(`hub/src/names.rs`). It draws at random among the pairs whose name is not taken, and once
some draws have failed goes through all of them from a random place.

A name is given in memory and saved after the lock is released (`ensure_named`,
`hub/src/main.rs`): the save may fail, and the hub may crash before it. At a start the saved
names are restored, whatever the words are by then, and the agents known to the board that
have none are named, in one transaction that must succeed.

* two agents never have the same name, in memory or on disk, and a saved name is never
  changed, across any restarts (`names_last`);
* as long as some names are left, each further agent gets one, whatever is drawn
  (`names_remaining`).
-/

namespace Itx

/-! ## Words -/

/-- `MAX_NAME_LEN`. -/
def maxNameLen : ℕ := 15

/-- `RANDOM_PROBES`. -/
def randomProbes : ℕ := 32

/-- The words the hub is compiled with, one a line: they are of lowercase ASCII letters. -/
structure Wordlist where
  descriptors : List (List Char)
  subjects : List (List Char)
  lowercase : ∀ word ∈ descriptors ++ subjects, ∀ c ∈ word, c.isLower

/-- `words`: each word of some lines once, in order. -/
def words (lines : List (List Char)) : List (List Char) :=
  (lines.filter fun word => word ≠ []).toFinset.ascending

/-- `pool`: the pairs that fit. -/
def Wordlist.pool (w : Wordlist) : List (List Char × List Char) :=
  (words w.descriptors).flatMap fun descriptor =>
    ((words w.subjects).filter fun subject =>
      (utf8 descriptor).length + (utf8 subject).length ≤ maxNameLen).map fun subject =>
        (descriptor, subject)

/-- A word with its first letter in upper case. -/
def capitalized : List Char → List Char
  | [] => []
  | first :: rest => first.toUpper :: rest

/-- `render`. -/
def render (pair : List Char × List Char) : List Char := capitalized pair.1 ++ capitalized pair.2

/-! ## The registry -/

structure NameRegistry where
  byPubkey : Finmap fun _ : PublicKey => List Char
  taken : Finset (List Char)
  candidates : List (List Char × List Char)

namespace NameRegistry

/-- `NameRegistry::new`. -/
def new (w : Wordlist) : NameRegistry := ⟨∅, ∅, w.pool⟩

/-- `NameRegistry::restore`. -/
def restore (r : NameRegistry) (pubkey : PublicKey) (name : List Char) : NameRegistry :=
  { r with taken := insert name r.taken, byPubkey := r.byPubkey.insert pubkey name }

/-- `NameRegistry::get`. -/
def get (r : NameRegistry) (pubkey : PublicKey) : Option (List Char) := r.byPubkey.lookup pubkey

/-- The name of the candidate at a place, modulo their number, unless it is taken. -/
def nameAt (r : NameRegistry) (i : ℕ) : Option (List Char) := do
  let pair ← r.candidates[i % r.candidates.length]?
  if render pair ∈ r.taken then none else some (render pair)

/-- `NameRegistry::draw`. The random numbers of a call are those of `rng`, modulo the number
    of candidates. -/
def draw (rng : ℕ → ℕ) (r : NameRegistry) : Option (List Char) :=
  if r.candidates = [] then none
  else
    match (List.range randomProbes).findSome? fun k => r.nameAt (rng k) with
    | some name => some name
    | none =>
      let start := rng randomProbes % r.candidates.length
      (List.range r.candidates.length).findSome? fun offset => r.nameAt (start + offset)

/-- `NameRegistry::assign`: the name, and whether it is new. -/
def assign (rng : ℕ → ℕ) (pubkey : PublicKey) (r : NameRegistry) :
    NameRegistry × Option (List Char × Bool) :=
  match r.get pubkey with
  | some name => (r, some (name, false))
  | none =>
    match r.draw rng with
    | some name => (r.restore pubkey name, some (name, true))
    | none => (r, none)

/-- `NameRegistry::remaining`. -/
def remaining (r : NameRegistry) : ℕ := r.candidates.length - r.taken.card

/-- The assignments of `ensure_named`, each with random numbers of its own: those that are
    named, with their names and whether these are new. -/
def assignAll (rng : ℕ → ℕ → ℕ) : List PublicKey → NameRegistry →
    NameRegistry × List (PublicKey × List Char × Bool)
  | [], r => (r, [])
  | pubkey :: pubkeys, r =>
    match r.assign (rng 0) pubkey with
    | (r, some (name, isNew)) =>
      let (r, named) := assignAll (fun k => rng (k + 1)) pubkeys r
      (r, (pubkey, name, isNew) :: named)
    | (r, none) => assignAll (fun k => rng (k + 1)) pubkeys r

/-- Restoring names read back from the store. -/
def restoreAll (r : NameRegistry) (entries : List (PublicKey × List Char)) : NameRegistry :=
  entries.foldl (fun r e => r.restore e.1 e.2) r

end NameRegistry

/-- `save_agent_name_batch`. -/
def saveAgentNameBatch (entries : List (PublicKey × List Char)) (disk : Finmap fun _ : PublicKey => List Char) :
    Finmap fun _ : PublicKey => List Char :=
  entries.foldl (fun disk e => disk.insert e.1 e.2) disk

/-- `load_all_agent_names`. -/
def loadAllAgentNames (disk : Finmap fun _ : PublicKey => List Char) : List (PublicKey × List Char) :=
  disk.keys.ascending.filterMap fun pubkey => (disk.lookup pubkey).map (pubkey, ·)

/-! ## Runs -/

/-- The names in memory, if the hub is up, those on disk, and the batches on their way there. -/
structure Naming where
  names : Option NameRegistry
  disk : Finmap fun _ : PublicKey => List Char
  saving : List (List (PublicKey × List Char))

inductive NamingOp
  /-- `ensure_named`, until it releases the names. -/
  | ensureNamed (pubkeys : List PublicKey) (rng : ℕ → ℕ → ℕ)
  /-- The save of a batch, which may fail. -/
  | save (index : ℕ) (commits : Bool)
  | crash
  /-- A start, with the agents of the board. -/
  | boot (wordlist : Wordlist) (known : List PublicKey) (rng : ℕ → ℕ → ℕ) (commits : Bool)

/-- The state after a step. -/
def NamingOp.after (s : Naming) : NamingOp → Naming
  | ensureNamed pubkeys rng =>
    match s.names with
    | some names =>
      let (names, named) := names.assignAll rng pubkeys
      let fresh := (named.filter fun n => n.2.2).map fun n => (n.1, n.2.1)
      { s with names := some names, saving := if fresh = [] then s.saving else fresh :: s.saving }
    | none => s
  | save index commits =>
    match s.saving[index]? with
    | some entries =>
      { s with
        disk := if commits then saveAgentNameBatch entries s.disk else s.disk
        saving := s.saving.eraseIdx index }
    | none => s
  | crash => { s with names := none, saving := [] }
  | boot wordlist known rng commits =>
    match s.names with
    | some _ => s
    | none =>
      let names := (NameRegistry.new wordlist).restoreAll (loadAllAgentNames s.disk)
      let unnamed := known.filter fun pubkey => names.get pubkey = none
      let (names, named) := names.assignAll rng unnamed
      let backfilled := named.map fun n => (n.1, n.2.1)
      if backfilled = [] ∨ commits then
        { s with names := some names, disk := saveAgentNameBatch backfilled s.disk }
      -- The start fails, and with it the process.
      else s

/-- The names of different agents are different. -/
def UniqueNames (names : PublicKey → Option (List Char)) : Prop :=
  ∀ pk pk' name, names pk = some name → names pk' = some name → pk = pk'

/-- What one says of the names the other says too. -/
def Agree (names names' : PublicKey → Option (List Char)) : Prop :=
  ∀ pk name, names pk = some name → names' pk = some name

/-- The runs from a state. -/
def namingRunsFrom (s : Naming) : System Naming NamingOp where
  init := {s}
  step s op s' := s' = op.after s

/-- The runs of a hub that is not up yet, on a store whose names are different. -/
def namingRuns : System Naming NamingOp where
  init := { s | s.names = none ∧ s.saving = [] ∧ UniqueNames s.disk.lookup }
  step s op s' := s' = op.after s

/-! ## The names of the pairs -/

/-- A letter is in lower case when its code is that of `a` to `z`. -/
theorem isLower_iff {c : Char} : c.isLower = true ↔ 97 ≤ c.toNat ∧ c.toNat ≤ 122 := by
  simp [Char.isLower, UInt32.le_iff_toNat_le, ← Char.toNat_val]

/-- What holds of the letters from `a` to `z` holds of a lowercase letter. -/
theorem of_isLower {P : Char → Prop} {c : Char} (hc : c.isLower) (h : ∀ n : Fin 26, P (.ofNat (97 + n))) :
    P c := by
  obtain ⟨hle, hlt⟩ := isLower_iff.1 hc
  have := h ⟨c.toNat - 97, by omega⟩
  rwa [Nat.add_sub_cancel' hle, Char.ofNat_toNat] at this

/-- In upper case a letter is not in lower case any more. -/
theorem not_isLower_toUpper {c : Char} (hc : c.isLower) : ¬ c.toUpper.isLower :=
  of_isLower (P := fun c => ¬ c.toUpper.isLower) hc (by decide)

/-- In upper case a letter is still a letter. -/
theorem isAlpha_toUpper {c : Char} (hc : c.isLower) : c.toUpper.isAlpha :=
  of_isLower (P := fun c => c.toUpper.isAlpha) hc (by decide)

/-- A lowercase letter comes back from upper case. -/
theorem toLower_toUpper {c : Char} (hc : c.isLower) : c.toUpper.toLower = c :=
  of_isLower (P := fun c => c.toUpper.toLower = c) hc (by decide)

/-- A word of lowercase ASCII letters has as many bytes as letters. -/
theorem length_utf8_of_lower {word : List Char} (h : ∀ c ∈ word, c.isLower) :
    (utf8 word).length = word.length := by
  induction word with
  | nil => rfl
  | cons c word ih =>
    have hc : c.toNat < 128 := by
      have := (isLower_iff.1 (h c List.mem_cons_self)).2
      omega
    rw [utf8_cons, utf8EncodeChar_ascii hc, List.length_append, ih fun d hd => h d (List.mem_cons_of_mem _ hd),
      List.length_singleton, List.length_cons, Nat.add_comm]

/-- A capital changes no length. -/
theorem length_capitalized (word : List Char) : (capitalized word).length = word.length := by
  cases word <;> rfl

/-- A word to be shown: it has letters, all of them lowercase. -/
def Spelled (word : List Char) : Prop := word ≠ [] ∧ ∀ c ∈ word, c.isLower

/-- A pair is read off its name: the second word begins at the second capital. -/
theorem render_inj {a b : List Char × List Char} (ha : Spelled a.1 ∧ Spelled a.2)
    (hb : Spelled b.1 ∧ Spelled b.2) (h : render a = render b) : a = b := by
  have hfirst : ∀ {x y : Char}, x.isLower → y.isLower → x.toUpper = y.toUpper → x = y := fun hx hy he => by
    rw [← toLower_toUpper hx, he, toLower_toUpper hy]
  obtain ⟨_ | ⟨c, d⟩, _ | ⟨e, f⟩⟩ := a
  · exact absurd rfl ha.1.1
  · exact absurd rfl ha.1.1
  · exact absurd rfl ha.2.1
  obtain ⟨_ | ⟨c', d'⟩, _ | ⟨e', f'⟩⟩ := b
  · exact absurd rfl hb.1.1
  · exact absurd rfl hb.1.1
  · exact absurd rfl hb.2.1
  obtain ⟨⟨-, ha₁⟩, -, ha₂⟩ := ha
  obtain ⟨⟨-, hb₁⟩, -, hb₂⟩ := hb
  rw [List.forall_mem_cons] at ha₁ ha₂ hb₁ hb₂
  obtain ⟨hc, h⟩ := List.cons.inj h
  have hstop : ∀ {x : Char} {l : List Char}, x.isLower → ∀ y ∈ (x.toUpper :: l).head?, ¬ y.isLower :=
    fun hx y hy => Option.some.inj hy ▸ not_isLower_toUpper hx
  obtain ⟨rfl, hrest⟩ : d = d' ∧ e.toUpper :: f = e'.toUpper :: f' :=
    run_append_inj ha₁.2 hb₁.2 (hstop ha₂.1) (hstop hb₂.1) h
  obtain ⟨he, rfl⟩ := List.cons.inj hrest
  rw [hfirst ha₁.1 hb₁.1 hc, hfirst ha₂.1 hb₂.1 he]

/-- The words of some lines are the lines that are not empty. -/
theorem mem_words {lines : List (List Char)} {word : List Char} :
    word ∈ words lines ↔ word ∈ lines ∧ word ≠ [] := by
  rw [words, Finset.mem_ascending, List.mem_toFinset, List.mem_filter, decide_eq_true_iff]

namespace Wordlist

variable {w : Wordlist} {pair : List Char × List Char}

/-- A pair is in the pool when its parts are words of the lists and fit together. -/
theorem mem_pool : pair ∈ w.pool ↔ pair.1 ∈ words w.descriptors ∧ pair.2 ∈ words w.subjects ∧
    (utf8 pair.1).length + (utf8 pair.2).length ≤ maxNameLen := by
  rw [pool, List.mem_flatMap]
  constructor
  · rintro ⟨descriptor, hd, hmem⟩
    obtain ⟨subject, hs, rfl⟩ := List.mem_map.1 hmem
    obtain ⟨hs, hfits⟩ := List.mem_filter.1 hs
    exact ⟨hd, hs, of_decide_eq_true hfits⟩
  · rintro ⟨hd, hs, hfits⟩
    exact ⟨pair.1, hd, List.mem_map.2 ⟨pair.2, List.mem_filter.2 ⟨hs, decide_eq_true hfits⟩, rfl⟩⟩

/-- The parts of a pair are not empty and in lower case. -/
theorem spelled_of_mem_pool (h : pair ∈ w.pool) : Spelled pair.1 ∧ Spelled pair.2 := by
  obtain ⟨h₁, h₂, -⟩ := mem_pool.1 h
  obtain ⟨h₁, hne₁⟩ := mem_words.1 h₁
  obtain ⟨h₂, hne₂⟩ := mem_words.1 h₂
  exact ⟨⟨hne₁, w.lowercase _ (List.mem_append_left _ h₁)⟩, hne₂, w.lowercase _ (List.mem_append_right _ h₂)⟩

/-- Each pair is in the pool once. -/
theorem nodup_pool (w : Wordlist) : w.pool.Nodup := by
  refine List.nodup_flatMap.2 ⟨fun descriptor _ => ?_, ?_⟩
  · exact ((Finset.nodup_ascending _).filter _).map fun _ _ h => (Prod.mk.inj h).2
  · refine (Finset.nodup_ascending _).imp fun hne => ?_
    intro pair h h'
    obtain ⟨_, -, rfl⟩ := List.mem_map.1 h
    obtain ⟨_, -, he⟩ := List.mem_map.1 h'
    exact hne (Prod.mk.inj he).1.symm

/-- Different pairs have different names. -/
theorem nodup_names (w : Wordlist) : (w.pool.map render).Nodup :=
  w.nodup_pool.map_on fun _ ha _ hb h => render_inj (spelled_of_mem_pool ha) (spelled_of_mem_pool hb) h

/-- A name fits. -/
theorem length_render_le (h : pair ∈ w.pool) : (render pair).length ≤ maxNameLen := by
  obtain ⟨h₁, h₂⟩ := spelled_of_mem_pool h
  have hfits := (mem_pool.1 h).2.2
  rw [length_utf8_of_lower h₁.2, length_utf8_of_lower h₂.2] at hfits
  rwa [render, List.length_append, length_capitalized, length_capitalized]

/-- With its capital a word is still of letters. -/
theorem isAlpha_of_mem_capitalized {word : List Char} (h : ∀ c ∈ word, c.isLower) {c : Char}
    (hc : c ∈ capitalized word) : c.isAlpha := by
  cases word with
  | nil => cases hc
  | cons first rest =>
    rcases List.mem_cons.1 hc with rfl | hc
    · exact isAlpha_toUpper (h first List.mem_cons_self)
    · rw [Char.isAlpha, h c (List.mem_cons_of_mem _ hc), Bool.or_true]

/-- A name is of letters. -/
theorem isAlpha_of_mem_render (h : pair ∈ w.pool) {c : Char} (hc : c ∈ render pair) : c.isAlpha := by
  obtain ⟨h₁, h₂⟩ := spelled_of_mem_pool h
  rcases List.mem_append.1 hc with hc | hc
  · exact isAlpha_of_mem_capitalized h₁.2 hc
  · exact isAlpha_of_mem_capitalized h₂.2 hc

end Wordlist

/-! ## Drawing -/

namespace NameRegistry

variable {r r' : NameRegistry} {pk : PublicKey} {pks : List PublicKey} {name : List Char}

/-- A name found at a place is that of a candidate and is not taken. -/
theorem nameAt_eq_some {i : ℕ} (h : r.nameAt i = some name) :
    name ∉ r.taken ∧ ∃ pair ∈ r.candidates, render pair = name := by
  obtain ⟨pair, hpair, h⟩ := Option.bind_eq_some_iff.1 h
  split_ifs at h with htaken
  obtain rfl := Option.some.inj h
  exact ⟨htaken, pair, List.mem_of_getElem? hpair, rfl⟩

/-- A drawn name is that of a candidate, and is not taken. -/
theorem draw_eq_some {rng : ℕ → ℕ} (h : r.draw rng = some name) :
    name ∉ r.taken ∧ ∃ pair ∈ r.candidates, render pair = name := by
  rw [draw] at h
  split_ifs at h with hempty
  split at h
  · rename_i drawn hdrawn
    obtain rfl := Option.some.inj h
    obtain ⟨k, -, hk⟩ := List.exists_of_findSome?_eq_some hdrawn
    exact nameAt_eq_some hk
  · obtain ⟨k, -, hk⟩ := List.exists_of_findSome?_eq_some h
    exact nameAt_eq_some hk

/-- Nothing is drawn only if there is nothing left: the last search goes through all the
    candidates, wherever it begins. -/
theorem draw_eq_none (r : NameRegistry) (rng : ℕ → ℕ) :
    r.draw rng = none ↔ ∀ pair ∈ r.candidates, render pair ∈ r.taken := by
  constructor
  · intro h pair hpair
    rw [draw] at h
    split_ifs at h with hempty
    · rw [hempty] at hpair
      cases hpair
    split at h
    · cases h
    -- The pair has a place among the candidates.
    obtain ⟨i, hi, rfl⟩ := List.mem_iff_getElem.1 hpair
    -- Its place, counted from where the search begins.
    have hstart : rng randomProbes % r.candidates.length < r.candidates.length := Nat.mod_lt _ (by omega)
    generalize rng randomProbes % r.candidates.length = start at h hstart
    have hoffset : (i + (r.candidates.length - start)) % r.candidates.length < r.candidates.length :=
      Nat.mod_lt _ (by omega)
    have hplace :
        (start + (i + (r.candidates.length - start)) % r.candidates.length) % r.candidates.length = i := by
      rw [Nat.add_mod_mod, show start + (i + (r.candidates.length - start)) = i + r.candidates.length by omega,
        Nat.add_mod_right, Nat.mod_eq_of_lt hi]
    -- The search came to that place and found nothing free.
    have hnone := List.findSome?_eq_none_iff.1 h _ (List.mem_range.2 hoffset)
    rw [nameAt, hplace, List.getElem?_eq_getElem hi] at hnone
    by_contra hfree
    rw [Option.bind_eq_bind, Option.bind_some, if_neg hfree] at hnone
    cases hnone
  · intro h
    have hnone : ∀ i, r.nameAt i = none := fun i => by
      rw [Option.eq_none_iff_forall_ne_some]
      rintro name hname
      obtain ⟨hfree, pair, hpair, rfl⟩ := nameAt_eq_some hname
      exact hfree (h pair hpair)
    rw [draw]
    -- Neither the draws nor the search find a name that is free.
    have hscan : ∀ (f : ℕ → ℕ) (l : List ℕ), l.findSome? (fun k => r.nameAt (f k)) = none :=
      fun f l => List.findSome?_eq_none_iff.2 fun k _ => hnone (f k)
    split_ifs
    · rfl
    · rw [hscan, hscan]

/-! ## Assigning -/

/-- Different agents have different names, all of them taken. -/
structure Sound (r : NameRegistry) : Prop where
  unique : UniqueNames r.get
  taken : ∀ pk name, r.get pk = some name → name ∈ r.taken

/-- Restoring a name gives it to its key and leaves the others. -/
theorem get_restore (r : NameRegistry) (pk x : PublicKey) (name : List Char) :
    (r.restore pk name).get x = if x = pk then some name else r.get x := Finmap.lookup_insert_eq _ _ _ _

/-- A name that is not taken is safe to restore. -/
theorem Sound.restore (h : r.Sound) (hfree : name ∉ r.taken) : (r.restore pk name).Sound where
  unique x y n hx hy := by
    have hnew : ∀ {z}, r.get z = some name → False := fun hz => hfree (h.taken _ _ hz)
    rw [get_restore] at hx hy
    split_ifs at hx hy with hxp hyp hyp
    · rw [hxp, hyp]
    · obtain rfl := Option.some.inj hx
      exact (hnew hy).elim
    · obtain rfl := Option.some.inj hy
      exact (hnew hx).elim
    · exact h.unique x y n hx hy
  taken x n hx := by
    rw [get_restore] at hx
    split_ifs at hx
    · obtain rfl := Option.some.inj hx
      exact Finset.mem_insert_self _ _
    · exact Finset.mem_insert_of_mem (h.taken x n hx)

/-- What an assignment does. -/
theorem assign_cases (rng : ℕ → ℕ) (pk : PublicKey) (r : NameRegistry) :
    (∃ name, r.get pk = some name ∧ r.assign rng pk = (r, some (name, false))) ∨
      (r.get pk = none ∧ ∃ name, name ∉ r.taken ∧ (∃ pair ∈ r.candidates, render pair = name) ∧
        r.assign rng pk = (r.restore pk name, some (name, true))) ∨
      (r.get pk = none ∧ (∀ pair ∈ r.candidates, render pair ∈ r.taken) ∧ r.assign rng pk = (r, none)) := by
  rw [assign]
  cases hget : r.get pk with
  | some name => exact .inl ⟨name, rfl, rfl⟩
  | none =>
    right
    cases hdraw : r.draw rng with
    | some name =>
      obtain ⟨hfree, hpair⟩ := draw_eq_some hdraw
      exact .inl ⟨rfl, name, hfree, hpair, rfl⟩
    | none => exact .inr ⟨rfl, (draw_eq_none r rng).1 hdraw, rfl⟩

/-- What assignments leave of a registry. -/
structure Follows (r r' : NameRegistry) : Prop where
  sound : r.Sound → r'.Sound
  kept : Agree r.get r'.get
  candidates : r'.candidates = r.candidates

/-- A registry follows itself. -/
theorem Follows.refl (r : NameRegistry) : r.Follows r := ⟨fun h => h, fun _ _ h => h, rfl⟩

/-- Following is transitive. -/
theorem Follows.trans {r'' : NameRegistry} (h : r.Follows r') (h' : r'.Follows r'') : r.Follows r'' :=
  ⟨fun hr => h'.sound (h.sound hr), fun pk name hn => h'.kept pk name (h.kept pk name hn),
    h'.candidates.trans h.candidates⟩

/-- A registry is followed by what it is with a further name. -/
theorem follows_restore (hget : r.get pk = none) (hfree : name ∉ r.taken) : r.Follows (r.restore pk name) where
  sound h := h.restore hfree
  kept x n hx := by
    rw [get_restore]
    split_ifs with he
    · rw [he, hget] at hx
      cases hx
    · exact hx
  candidates := rfl

/-- An assignment keeps the names there are, and the one it returns is that of the key. -/
theorem follows_assign (rng : ℕ → ℕ) (pk : PublicKey) (r : NameRegistry) :
    r.Follows (r.assign rng pk).1 ∧ ∀ name isNew, (r.assign rng pk).2 = some (name, isNew) →
      (r.assign rng pk).1.get pk = some name := by
  rcases assign_cases rng pk r with ⟨name, hget, heq⟩ | ⟨hget, name, hfree, -, heq⟩ | ⟨-, -, heq⟩
  · rw [heq]
    refine ⟨.refl r, ?_⟩
    rintro name' isNew h
    obtain ⟨rfl, -⟩ := Prod.mk.inj (Option.some.inj h)
    exact hget
  · rw [heq]
    refine ⟨follows_restore hget hfree, ?_⟩
    rintro name' isNew h
    obtain ⟨rfl, -⟩ := Prod.mk.inj (Option.some.inj h)
    rw [get_restore, if_pos rfl]
  · rw [heq]
    exact ⟨.refl r, by rintro _ _ ⟨⟩⟩

/-- Assignments one after the other: those returned are the names in the registry. -/
theorem follows_assignAll (rng : ℕ → ℕ → ℕ) (pks : List PublicKey) (r : NameRegistry) :
    r.Follows (r.assignAll rng pks).1 ∧
      ∀ n ∈ (r.assignAll rng pks).2, (r.assignAll rng pks).1.get n.1 = some n.2.1 := by
  induction pks generalizing r rng with
  | nil => exact ⟨.refl r, by rintro _ ⟨⟩⟩
  | cons pk pks ih =>
    obtain ⟨hfirst, hname⟩ := follows_assign (rng 0) pk r
    rw [assignAll]
    generalize r.assign (rng 0) pk = p at hfirst hname
    obtain ⟨r₁, _ | ⟨name, isNew⟩⟩ := p
    · obtain ⟨hrest, hnamed⟩ := ih (fun k => rng (k + 1)) r₁
      exact ⟨hfirst.trans hrest, hnamed⟩
    · obtain ⟨hrest, hnamed⟩ := ih (fun k => rng (k + 1)) r₁
      refine ⟨hfirst.trans hrest, fun n hn => ?_⟩
      rcases List.mem_cons.1 hn with rfl | hn
      · exact hrest.kept _ _ (hname name isNew rfl)
      · exact hnamed n hn

end NameRegistry

/-! ## Saving and restoring -/

section

variable {disk : Finmap fun _ : PublicKey => List Char} {names : PublicKey → Option (List Char)}
  {entries : List (PublicKey × List Char)}

/-- A batch of what the names say, saved on a disk that says the same. -/
theorem agree_saveAgentNameBatch (hdisk : Agree disk.lookup names)
    (hentries : ∀ e ∈ entries, names e.1 = some e.2) :
    Agree (saveAgentNameBatch entries disk).lookup names ∧
      Agree disk.lookup (saveAgentNameBatch entries disk).lookup ∧
      ∀ e ∈ entries, (saveAgentNameBatch entries disk).lookup e.1 = some e.2 := by
  induction entries generalizing disk with
  | nil => exact ⟨hdisk, fun _ _ h => h, by rintro _ ⟨⟩⟩
  | cons e entries ih =>
    rw [List.forall_mem_cons] at hentries
    -- The first entry is one of the names.
    have hinsert : Agree (disk.insert e.1 e.2).lookup names := fun pk name h => by
      change Finmap.lookup pk (disk.insert e.1 e.2) = some name at h
      rw [Finmap.lookup_insert_eq] at h
      split_ifs at h with he
      · rw [he, ← Option.some.inj h]
        exact hentries.1
      · exact hdisk pk name h
    -- It overwrites nothing but itself.
    have hkept : Agree disk.lookup (disk.insert e.1 e.2).lookup := fun pk name h => by
      change Finmap.lookup pk (disk.insert e.1 e.2) = some name
      rw [Finmap.lookup_insert_eq]
      split_ifs with he
      · have hsame := hdisk pk name h
        rw [he, hentries.1] at hsame
        exact hsame
      · exact h
    obtain ⟨hall, hmono, hsaved⟩ := ih hinsert hentries.2
    refine ⟨hall, fun pk name h => hmono pk name (hkept pk name h), List.forall_mem_cons.2 ⟨?_, hsaved⟩⟩
    exact hmono e.1 e.2 (Finmap.lookup_insert _)

/-- The names read back are those on disk. -/
theorem mem_loadAllAgentNames {e : PublicKey × List Char} :
    e ∈ loadAllAgentNames disk ↔ disk.lookup e.1 = some e.2 := by
  rw [loadAllAgentNames, List.mem_filterMap]
  constructor
  · rintro ⟨pk, -, h⟩
    obtain ⟨name, hname, rfl⟩ := Option.map_eq_some_iff.1 h
    exact hname
  · intro h
    refine ⟨e.1, ?_, by rw [h]; rfl⟩
    rw [Finset.mem_ascending, Finmap.mem_keys]
    exact Finmap.mem_iff.2 ⟨e.2, h⟩

/-- Restoring the names of a disk is one batch, and they are all taken. -/
theorem restoreAll_eq (r : NameRegistry) (entries : List (PublicKey × List Char)) :
    r.restoreAll entries = { r with
      byPubkey := saveAgentNameBatch entries r.byPubkey
      taken := r.taken ∪ (entries.map Prod.snd).toFinset } := by
  induction entries generalizing r with
  | nil => simp [NameRegistry.restoreAll, saveAgentNameBatch]
  | cons e entries ih =>
    rw [NameRegistry.restoreAll, List.foldl_cons, ← NameRegistry.restoreAll, ih]
    simp [NameRegistry.restore, saveAgentNameBatch, Finset.insert_union]

/-- The registry a hub starts with has the names on disk. -/
theorem get_restoreAll (w : Wordlist) (disk : Finmap fun _ : PublicKey => List Char) :
    ((NameRegistry.new w).restoreAll (loadAllAgentNames disk)).get = disk.lookup := by
  have hempty : Agree (∅ : Finmap fun _ : PublicKey => List Char).lookup disk.lookup := fun pk name h => by
    change Finmap.lookup pk (∅ : Finmap fun _ : PublicKey => List Char) = some name at h
    rw [Finmap.lookup_empty] at h
    cases h
  obtain ⟨hagree, -, hsaved⟩ := agree_saveAgentNameBatch hempty fun e he => mem_loadAllAgentNames.1 he
  rw [restoreAll_eq]
  funext pk
  refine Option.ext fun name => ⟨hagree pk name, fun h => ?_⟩
  exact hsaved (pk, name) (mem_loadAllAgentNames.2 h)

/-- Names that differ on disk give a sound registry, whatever the words are. -/
theorem sound_restoreAll (w : Wordlist) (h : UniqueNames disk.lookup) :
    ((NameRegistry.new w).restoreAll (loadAllAgentNames disk)).Sound where
  unique := by
    rw [get_restoreAll]
    exact h
  taken pk name hname := by
    rw [get_restoreAll] at hname
    rw [restoreAll_eq, Finset.mem_union, List.mem_toFinset]
    exact .inr (List.mem_map.2 ⟨(pk, name), mem_loadAllAgentNames.2 hname, rfl⟩)

/-- Fewer names differ too. -/
theorem UniqueNames.of_agree {names' : PublicKey → Option (List Char)} (h : UniqueNames names')
    (hagree : Agree names names') : UniqueNames names :=
  fun pk pk' name hpk hpk' => h pk pk' name (hagree pk name hpk) (hagree pk' name hpk')

end

/-! ## What runs keep -/

/-- The names on disk and those being saved are in the registry, and those of different
    agents are different. -/
structure Naming.Sound (s : Naming) : Prop where
  disk : UniqueNames s.disk.lookup
  up : ∀ r, s.names = some r →
    r.Sound ∧ Agree s.disk.lookup r.get ∧ ∃ w : Wordlist, r.candidates = w.pool
  saving : ∀ batch ∈ s.saving, ∃ r, s.names = some r ∧ ∀ e ∈ batch, r.get e.1 = some e.2

section

variable {s s' : Naming}

/-- Naming some keys keeps the state sound. -/
theorem Naming.Sound.ensureNamed (h : s.Sound) (pks : List PublicKey) (rng : ℕ → ℕ → ℕ) :
    ((NamingOp.ensureNamed pks rng).after s).Sound := by
  cases hup : s.names with
  | none =>
    rw [NamingOp.after]
    simp only [hup]
    exact h
  | some r =>
    obtain ⟨hr, hdisk, w, hw⟩ := h.up r hup
    obtain ⟨hfollows, hnamed⟩ := r.follows_assignAll rng pks
    rw [NamingOp.after]
    simp only [hup]
    generalize r.assignAll rng pks = p at hfollows hnamed
    obtain ⟨r', named⟩ := p
    refine ⟨h.disk, ?_, fun batch hbatch => ⟨r', rfl, ?_⟩⟩
    · rintro _ ⟨⟩
      exact ⟨hfollows.sound hr, fun pk name hn => hfollows.kept pk name (hdisk pk name hn), w,
        hfollows.candidates.trans hw⟩
    · -- A batch that was on its way says what the names said, and they are kept.
      have hold : batch ∈ s.saving → ∀ e ∈ batch, r'.get e.1 = some e.2 := fun hmem e he => by
        obtain ⟨r₀, hr₀, hentries⟩ := h.saving batch hmem
        obtain rfl := Option.some.inj (hup.symm.trans hr₀)
        exact hfollows.kept _ _ (hentries e he)
      dsimp only at hbatch
      -- A batch is sent only if somebody is new.
      split_ifs at hbatch with hfresh
      · exact hold hbatch
      · rcases List.mem_cons.1 hbatch with rfl | hbatch
        · intro e he
          obtain ⟨n, hn, rfl⟩ := List.mem_map.1 he
          exact hnamed n (List.mem_filter.1 hn).1
        · exact hold hbatch

/-- A save, done or failed, keeps the state sound and every saved name. -/
theorem Naming.Sound.save (h : s.Sound) (index : ℕ) (commits : Bool) :
    ((NamingOp.save index commits).after s).Sound ∧
      Agree s.disk.lookup ((NamingOp.save index commits).after s).disk.lookup := by
  cases hbatch : s.saving[index]? with
  | none =>
    rw [NamingOp.after]
    simp only [hbatch]
    exact ⟨h, fun _ _ h => h⟩
  | some batch =>
    obtain ⟨r, hup, hentries⟩ := h.saving batch (List.mem_of_getElem? hbatch)
    obtain ⟨hr, hdisk, hw⟩ := h.up r hup
    obtain ⟨hagree, hkept, -⟩ := agree_saveAgentNameBatch hdisk hentries
    have hrest : ∀ b ∈ s.saving.eraseIdx index, ∃ r, s.names = some r ∧ ∀ e ∈ b, r.get e.1 = some e.2 :=
      fun b hb => h.saving b (List.mem_of_mem_eraseIdx hb)
    rw [NamingOp.after]
    simp only [hbatch]
    cases commits with
    | false => exact ⟨⟨h.disk, h.up, hrest⟩, fun _ _ h => h⟩
    | true =>
      refine ⟨⟨hr.unique.of_agree hagree, fun r' hup' => ?_, hrest⟩, hkept⟩
      obtain rfl := Option.some.inj (hup.symm.trans hup')
      exact ⟨hr, hagree, hw⟩

/-- A start keeps the state sound and every saved name, whatever the words and the board are. -/
theorem Naming.Sound.boot (h : s.Sound) (w : Wordlist) (known : List PublicKey) (rng : ℕ → ℕ → ℕ)
    (commits : Bool) : ((NamingOp.boot w known rng commits).after s).Sound ∧
      Agree s.disk.lookup ((NamingOp.boot w known rng commits).after s).disk.lookup := by
  cases hup : s.names with
  | some r =>
    rw [NamingOp.after]
    simp only [hup]
    exact ⟨h, fun _ _ h => h⟩
  | none =>
    -- A hub that is down has no batch on its way.
    have hnone : ∀ batch, batch ∉ s.saving := fun batch hb => by
      obtain ⟨r, hr, -⟩ := h.saving batch hb
      cases hup.symm.trans hr
    rw [NamingOp.after]
    simp only [hup]
    have hrestored := sound_restoreAll w h.disk
    have hget := get_restoreAll w s.disk
    have hcandidates : ((NameRegistry.new w).restoreAll (loadAllAgentNames s.disk)).candidates = w.pool := by
      rw [restoreAll_eq]
      rfl
    generalize (NameRegistry.new w).restoreAll (loadAllAgentNames s.disk) = r at hrestored hget hcandidates
    obtain ⟨hfollows, hnamed⟩ := r.follows_assignAll rng (known.filter fun pk => r.get pk = none)
    generalize r.assignAll rng (known.filter fun pk => r.get pk = none) = p at hfollows hnamed
    obtain ⟨r', named⟩ := p
    dsimp only
    split_ifs with hstarts
    · -- What was saved is restored, and the agents named now are added to it.
      have hdisk : Agree s.disk.lookup r'.get := hget ▸ hfollows.kept
      have hentries : ∀ e ∈ named.map fun n => (n.1, n.2.1), r'.get e.1 = some e.2 := fun e he => by
        obtain ⟨n, hn, rfl⟩ := List.mem_map.1 he
        exact hnamed n hn
      obtain ⟨hagree, hkept, -⟩ := agree_saveAgentNameBatch hdisk hentries
      have hr' := hfollows.sound hrestored
      refine ⟨⟨hr'.unique.of_agree hagree, ?_, fun b hb => (hnone b hb).elim⟩, hkept⟩
      rintro _ ⟨⟩
      exact ⟨hr', hagree, w, hfollows.candidates.trans hcandidates⟩
    · -- The batch could not be saved, and the hub does not start.
      exact ⟨h, fun _ _ h => h⟩

/-- A step keeps the names on disk. -/
theorem Naming.Sound.after (h : s.Sound) (op : NamingOp) :
    (op.after s).Sound ∧ Agree s.disk.lookup (op.after s).disk.lookup := by
  cases op with
  | ensureNamed pks rng =>
    refine ⟨h.ensureNamed pks rng, ?_⟩
    rw [NamingOp.after]
    split
    · exact fun _ _ h => h
    · exact fun _ _ h => h
  | save index commits => exact h.save index commits
  | crash => exact ⟨⟨h.disk, by rintro _ ⟨⟩, by rintro _ ⟨⟩⟩, fun _ _ h => h⟩
  | boot w known rng commits => exact h.boot w known rng commits

/-- Every state of a run is sound. -/
theorem sound_of_namingRuns (hr : namingRuns.Reachable s) : s.Sound := by
  refine hr.invariant (I := Naming.Sound) ?_ ?_
  · rintro s ⟨hdown, hsaving, hunique⟩
    refine ⟨hunique, fun r hr => ?_, fun b hb => ?_⟩
    · cases hdown.symm.trans hr
    · rw [hsaving] at hb
      cases hb
  · rintro s op _ h - rfl
    exact (h.after op).1

/-- From a sound state on, no run loses or changes a saved name. -/
theorem agree_of_namingRunsFrom (h : s.Sound) (hr : (namingRunsFrom s).Reachable s') :
    s'.Sound ∧ Agree s.disk.lookup s'.disk.lookup := by
  refine hr.invariant (I := fun s' => s'.Sound ∧ Agree s.disk.lookup s'.disk.lookup) ?_ ?_
  · rintro _ rfl
    exact ⟨h, fun _ _ h => h⟩
  · rintro s₁ op _ ⟨h₁, hagree⟩ - rfl
    obtain ⟨h₂, hagree'⟩ := h₁.after op
    exact ⟨h₂, fun pk name hn => hagree' pk name (hagree pk name hn)⟩

/-- While the hub is up, names are only added. -/
theorem agree_after {r : NameRegistry} (hup : s.names = some r) (op : NamingOp) (hop : op ≠ .crash) :
    ∃ r', (op.after s).names = some r' ∧ Agree r.get r'.get := by
  cases op with
  | ensureNamed pks rng =>
    have hfollows := (r.follows_assignAll rng pks).1
    rw [NamingOp.after]
    simp only [hup]
    exact ⟨_, rfl, hfollows.kept⟩
  | save index commits =>
    rw [NamingOp.after]
    split
    · exact ⟨r, hup, fun _ _ h => h⟩
    · exact ⟨r, hup, fun _ _ h => h⟩
  | crash => exact absurd rfl hop
  | boot w known rng commits =>
    rw [NamingOp.after]
    simp only [hup]
    exact ⟨r, rfl, fun _ _ h => h⟩

/-- Names last. In every run, with saves that fail, crashes at any point, and starts on any
    words and any board, the names of different agents are different, on disk and in memory;
    while the hub is up no name changes; and a name on disk stays there, and is the one in
    memory whenever the hub is up. -/
theorem names_last (hr : namingRuns.Reachable s) (hr' : (namingRunsFrom s).Reachable s') :
    UniqueNames s.disk.lookup ∧ (∀ r, s.names = some r → UniqueNames r.get) ∧
    (∀ (r : NameRegistry) (op : NamingOp), s.names = some r → op ≠ .crash →
      ∃ r', (op.after s).names = some r' ∧ Agree r.get r'.get) ∧
    Agree s.disk.lookup s'.disk.lookup ∧ ∀ r, s'.names = some r → Agree s.disk.lookup r.get := by
  have h := sound_of_namingRuns hr
  obtain ⟨h', hagree⟩ := agree_of_namingRunsFrom h hr'
  refine ⟨h.disk, fun r hup => (h.up r hup).1.unique, fun r op hup hop => agree_after hup op hop, hagree,
    fun r hup pk name hn => ?_⟩
  exact (h'.up r hup).2.1 pk name (hagree pk name hn)

/-! A hub with two words names an agent, saves the name and crashes; it starts again on other
words, and names another agent. -/

def sampleWords : Wordlist where
  descriptors := ["swift".toList, "amber".toList]
  subjects := ["owl".toList]
  lowercase := by simp

def otherWords : Wordlist where
  descriptors := ["calm".toList]
  subjects := ["otter".toList]
  lowercase := by simp

def sampleNaming : List NamingOp :=
  [.boot sampleWords [] (fun _ _ => 0) true, .ensureNamed [1] (fun _ _ => 1), .save 0 true]

def laterNaming : List NamingOp :=
  [.crash, .boot otherWords [1, 2] (fun _ _ => 0) true]

theorem names_last_sample :
    let s := sampleNaming.foldl NamingOp.after ⟨none, ∅, []⟩
    let s' := laterNaming.foldl NamingOp.after s
    s.disk.lookup 1 = some "SwiftOwl".toList ∧ s'.disk.lookup 2 = some "CalmOtter".toList ∧
      ∀ r, s'.names = some r → r.get 1 = some "SwiftOwl".toList := by
  intro s s'
  have hstart : namingRuns.Reachable ⟨none, ∅, []⟩ := .init ⟨rfl, rfl, by rintro _ _ _ ⟨⟩⟩
  have hr : namingRuns.Reachable s := hstart.foldl fun _ _ _ => ⟨trivial, rfl⟩
  have hlater : (namingRunsFrom s).Reachable s := .init rfl
  have hr' : (namingRunsFrom s).Reachable s' := hlater.foldl fun _ _ _ => ⟨trivial, rfl⟩
  have hdisk : s.disk.lookup 1 = some "SwiftOwl".toList := by decide +kernel
  refine ⟨hdisk, by decide +kernel, fun r hup => ?_⟩
  exact (names_last hr hr').2.2.2.2 r hup 1 _ hdisk

end

/-! ## What is left -/

namespace NameRegistry

variable {r : NameRegistry} {w : Wordlist} {pk : PublicKey} {pks : List PublicKey}

/-- As long as some names are left, one of a candidate is free. -/
theorem exists_free (hr : r.candidates = w.pool) (h : 0 < r.remaining) :
    ∃ pair ∈ r.candidates, render pair ∉ r.taken := by
  have hcard : r.taken.card < (r.candidates.map render).toFinset.card := by
    rw [List.toFinset_card_of_nodup (hr ▸ w.nodup_names), List.length_map]
    exact Nat.lt_of_sub_pos h
  obtain ⟨name, hname, hfree⟩ := Finset.exists_mem_notMem_of_card_lt_card hcard
  obtain ⟨pair, hpair, rfl⟩ := List.mem_map.1 (List.mem_toFinset.1 hname)
  exact ⟨pair, hpair, hfree⟩

/-- The names given to agents that had none. -/
structure Names (r r' : NameRegistry) (pks : List PublicKey)
    (named : List (PublicKey × List Char × Bool)) : Prop where
  agents : named.map Prod.fst = pks
  isNew : ∀ n ∈ named, n.2.2 = true
  free : ∀ n ∈ named, n.2.1 ∉ r.taken
  nodup : (named.map fun n => n.2.1).Nodup
  fits : ∀ n ∈ named, n.2.1.length ≤ maxNameLen ∧ ∀ c ∈ n.2.1, c.isAlpha
  remaining : r'.remaining + pks.length = r.remaining

/-- As many keys as there are names left all get one. -/
theorem names_assignAll (rng : ℕ → ℕ → ℕ) (hr : r.candidates = w.pool) (hnodup : pks.Nodup)
    (hnew : ∀ pk ∈ pks, r.get pk = none) (hleft : pks.length ≤ r.remaining) :
    Names r (r.assignAll rng pks).1 pks (r.assignAll rng pks).2 := by
  induction pks generalizing r rng with
  | nil => exact ⟨rfl, by rintro _ ⟨⟩, by rintro _ ⟨⟩, List.nodup_nil, by rintro _ ⟨⟩, rfl⟩
  | cons pk pks ih =>
    obtain ⟨hpk, hnodup⟩ := List.nodup_cons.1 hnodup
    rw [List.forall_mem_cons] at hnew
    rw [List.length_cons] at hleft
    obtain ⟨pair, hpair, hfree⟩ := exists_free hr (by omega)
    rcases assign_cases (rng 0) pk r with ⟨name, hget, -⟩ | ⟨-, name, hname, ⟨pair', hpair', rfl⟩, heq⟩ |
      ⟨-, htaken, -⟩
    · -- The agent is new, so it is not already named.
      rw [hnew.1] at hget
      cases hget
    · have hcard : (r.restore pk (render pair')).taken.card = r.taken.card + 1 :=
        Finset.card_insert_of_notMem hname
      -- One name fewer is left for the others.
      have hremaining : (r.restore pk (render pair')).remaining + 1 = r.remaining := by
        rw [NameRegistry.remaining, NameRegistry.remaining, hcard] at *
        change r.candidates.length - (r.taken.card + 1) + 1 = _
        omega
      have hstill : ∀ x ∈ pks, (r.restore pk (render pair')).get x = none := fun x hx => by
        have hne : x ≠ pk := fun he => hpk (he ▸ hx)
        rw [get_restore, if_neg hne]
        exact hnew.2 x hx
      have hrest := ih (fun k => rng (k + 1)) (r := r.restore pk (render pair')) hr hnodup hstill (by omega)
      rw [assignAll, heq]
      have hnew' : ∀ n ∈ (assignAll (fun k => rng (k + 1)) pks (r.restore pk (render pair'))).2,
          n.2.1 ≠ render pair' ∧ n.2.1 ∉ r.taken := fun n hn =>
        ⟨fun he => hrest.free n hn (he ▸ Finset.mem_insert_self _ _),
          fun hmem => hrest.free n hn (Finset.mem_insert_of_mem hmem)⟩
      exact {
        agents := congrArg (pk :: ·) hrest.agents
        isNew := List.forall_mem_cons.2 ⟨rfl, hrest.isNew⟩
        free := List.forall_mem_cons.2 ⟨hname, fun n hn => (hnew' n hn).2⟩
        nodup := by
          refine List.nodup_cons.2 ⟨fun hmem => ?_, hrest.nodup⟩
          obtain ⟨n, hn, he⟩ := List.mem_map.1 hmem
          exact (hnew' n hn).1 he
        fits := List.forall_mem_cons.2 ⟨⟨Wordlist.length_render_le (hr ▸ hpair'),
          fun c hc => Wordlist.isAlpha_of_mem_render (hr ▸ hpair') hc⟩, hrest.fits⟩
        remaining := (congrArg (· + 1) hrest.remaining).trans hremaining }
    · -- A name is left, so the draw cannot fail.
      exact absurd (htaken pair hpair) hfree

end NameRegistry

section

variable {s : Naming} {r : NameRegistry}

/-- As many agents as the registry says are left to name get names, whatever is drawn:
    different ones that nobody has, of at most fifteen letters; and that many fewer are left.
    An agent goes unnamed only when the names of all the candidates are taken. -/
theorem names_remaining (hr : namingRuns.Reachable s) (hup : s.names = some r) :
    (∀ (rng : ℕ → ℕ → ℕ) (pks : List PublicKey), pks.Nodup → (∀ pk ∈ pks, r.get pk = none) →
      pks.length ≤ r.remaining → r.Names (r.assignAll rng pks).1 pks (r.assignAll rng pks).2) ∧
    ∀ (rng : ℕ → ℕ) (pk : PublicKey), (r.assign rng pk).2 = none ↔
      r.get pk = none ∧ ∀ pair ∈ r.candidates, render pair ∈ r.taken := by
  obtain ⟨-, -, w, hw⟩ := (sound_of_namingRuns hr).up r hup
  refine ⟨fun rng pks => NameRegistry.names_assignAll rng hw, fun rng pk => ?_⟩
  rcases r.assign_cases rng pk with ⟨name, hget, heq⟩ | ⟨hget, name, hfree, ⟨pair, hpair, rfl⟩, heq⟩ |
    ⟨hget, htaken, heq⟩
  · rw [heq, hget]
    simp
  · rw [heq]
    refine ⟨by rintro ⟨⟩, fun h => absurd (h.2 pair hpair) hfree⟩
  · rw [heq]
    exact ⟨fun _ => ⟨hget, htaken⟩, fun _ => rfl⟩

/-- After the sample run one name is left, and the next agent gets it. -/
theorem names_remaining_sample :
    ∃ r, (sampleNaming.foldl NamingOp.after ⟨none, ∅, []⟩).names = some r ∧ r.remaining = 1 ∧
      (r.assignAll (fun _ _ => 5) [2]).2.map Prod.fst = [2] ∧
      (r.assignAll (fun _ _ => 5) [2]).1.remaining = 0 := by
  have hstart : namingRuns.Reachable ⟨none, ∅, []⟩ := .init ⟨rfl, rfl, by rintro _ _ _ ⟨⟩⟩
  have hr : namingRuns.Reachable (sampleNaming.foldl NamingOp.after ⟨none, ∅, []⟩) :=
    hstart.foldl fun _ _ _ => ⟨trivial, rfl⟩
  have hleft : (sampleNaming.foldl NamingOp.after ⟨none, ∅, []⟩).names.map NameRegistry.remaining = some 1 := by
    decide +kernel
  have hnew : (sampleNaming.foldl NamingOp.after ⟨none, ∅, []⟩).names.map (fun r => r.get 2) = some none := by
    decide +kernel
  generalize sampleNaming.foldl NamingOp.after ⟨none, ∅, []⟩ = s at hr hleft hnew
  obtain ⟨r, hup, hleft⟩ := Option.map_eq_some_iff.1 hleft
  rw [hup] at hnew
  have hnamed := (names_remaining hr hup).1 (fun _ _ => 5) [2] (List.nodup_singleton 2)
    (List.forall_mem_singleton.2 (Option.some.inj hnew)) hleft.ge
  exact ⟨r, hup, hleft, hnamed.agents, Nat.add_right_cancel (hnamed.remaining.trans hleft)⟩

end

end Itx
