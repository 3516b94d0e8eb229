import Mathlib

/-!
# Hash trees

The root of a list is found layer by layer: the elements of a layer are paired, the last one with
itself if it has no partner, until one is left. So the last elements of a list may be repeated
without a change of the root, and it does not determine the list, even if pairs never collide.

What it determines is proved here, for pairs that never collide, with each other or with what is in
the list (`Root.comparable`): of two lists with the same root, one is a prefix of the other, with the
same elements. So the root determines a list among those of its length (`Root.eq_iff_length_eq`).
-/

namespace Itx.Merkle

variable {α : Type*} (pair : α → α → α)

/-- A pass over a layer. -/
def layer : List α → List α
  | [] => []
  | [left] => [pair left left]
  | left :: right :: l => pair left right :: layer l

/-- The root of a list, after some passes. -/
inductive Root : ℕ → List α → α → Prop
  | single (x : α) : Root 0 [x] x
  | pass {d : ℕ} {l : List α} {x : α} (hlong : 1 < l.length) (h : Root d (layer pair l) x) : Root (d + 1) l x

/-- What is some passes above the leaves. -/
def NodeAt (leaf : α → Prop) : ℕ → α → Prop
  | 0, x => leaf x
  | h + 1, x => ∃ a b, x = pair a b ∧ NodeAt leaf h a ∧ NodeAt leaf h b

variable {pair} {leaf : α → Prop} {l l' : List α} {x : α} {d d' h h' : ℕ}

theorem length_layer (l : List α) : (layer pair l).length = (l.length + 1) / 2 := by
  induction l using layer.induct with
  | case1 => simp [layer]
  | case2 => simp [layer]
  | case3 left right l ih =>
    rw [layer, List.length_cons, ih, List.length_cons, List.length_cons]
    omega

/-! ## Heights -/

/-- Leaves and pairs at each height are different from those at the others. -/
theorem NodeAt.unique (hinj : Function.Injective2 pair) (hleaf : ∀ a b, ¬ leaf (pair a b))
    (hx : NodeAt pair leaf h x) (hx' : NodeAt pair leaf h' x) : h = h' := by
  induction h generalizing h' x with
  | zero =>
    cases h' with
    | zero => rfl
    | succ h' =>
      obtain ⟨a, b, rfl, -⟩ := hx'
      exact absurd hx (hleaf a b)
  | succ h ih =>
    obtain ⟨a, b, rfl, ha, -⟩ := hx
    cases h' with
    | zero => exact absurd hx' (hleaf a b)
    | succ h' =>
      -- A pair determines its two halves, which are one pass lower.
      obtain ⟨a', b', he, ha', -⟩ := hx'
      obtain ⟨rfl, -⟩ := hinj he
      rw [ih ha ha']

theorem nodeAt_layer (hl : ∀ x ∈ l, NodeAt pair leaf h x) : ∀ x ∈ layer pair l, NodeAt pair leaf (h + 1) x := by
  induction l using layer.induct with
  | case1 => simp [layer]
  | case2 left =>
    have hleft := hl left List.mem_cons_self
    rw [layer]
    exact List.forall_mem_singleton.2 ⟨left, left, rfl, hleft, hleft⟩
  | case3 left right l ih =>
    obtain ⟨hleft, hl⟩ := List.forall_mem_cons.1 hl
    obtain ⟨hright, hl⟩ := List.forall_mem_cons.1 hl
    rw [layer]
    exact List.forall_mem_cons.2 ⟨⟨left, right, rfl, hleft, hright⟩, ih hl⟩

theorem Root.nodeAt (hroot : Root pair d l x) (hl : ∀ a ∈ l, NodeAt pair leaf h a) :
    NodeAt pair leaf (h + d) x := by
  induction hroot generalizing h with
  | single x => exact hl x List.mem_cons_self
  | pass _ _ ih =>
    rw [Nat.add_comm _ 1, ← Nat.add_assoc]
    exact ih (nodeAt_layer hl)

/-! ## One pass -/

/-- What is in a list is what is paired. -/
theorem mem_iff_paired (hinj : Function.Injective2 pair) {a : α} :
    a ∈ l ↔ ∃ b, pair a b ∈ layer pair l ∨ pair b a ∈ layer pair l := by
  induction l using layer.induct with
  | case1 => simp [layer]
  | case2 left =>
    simp only [layer, List.mem_singleton]
    constructor
    · rintro rfl
      exact ⟨a, .inl rfl⟩
    · rintro ⟨b, he | he⟩
      · exact (hinj he).1
      · exact (hinj he).2
  | case3 left right l ih =>
    simp only [layer, List.mem_cons, ih]
    constructor
    · rintro (rfl | rfl | ⟨b, hb | hb⟩)
      · exact ⟨right, .inl (.inl rfl)⟩
      · exact ⟨left, .inr (.inl rfl)⟩
      · exact ⟨b, .inl (.inr hb)⟩
      · exact ⟨b, .inr (.inr hb)⟩
    · rintro ⟨b, (he | hb) | he | hb⟩
      · exact .inl (hinj he).1
      · exact .inr (.inr ⟨b, .inl hb⟩)
      · exact .inr (.inl (hinj he).2)
      · exact .inr (.inr ⟨b, .inr hb⟩)

/-- Of two lists whose layers are one a prefix of the other, so is one of the lists. -/
theorem isPrefix_of_layer (hinj : Function.Injective2 pair) (hl : layer pair l <+: layer pair l') :
    l <+: l' ∨ l' <+: l := by
  induction l using layer.induct generalizing l' with
  | case1 => exact .inl List.nil_prefix
  | case2 left =>
    rcases l' with _ | ⟨left', _ | ⟨right', l'⟩⟩
    · exact .inr List.nil_prefix
    · rw [layer, layer, List.cons_prefix_cons] at hl
      obtain ⟨rfl, -⟩ := hinj hl.1
      exact .inl List.prefix_rfl
    · rw [layer, layer, List.cons_prefix_cons] at hl
      obtain ⟨rfl, -⟩ := hinj hl.1
      exact .inl (List.cons_prefix_cons.2 ⟨rfl, List.nil_prefix⟩)
  | case3 left right l ih =>
    rcases l' with _ | ⟨left', _ | ⟨right', l'⟩⟩
    · exact .inr List.nil_prefix
    · rw [layer, layer, List.cons_prefix_cons] at hl
      obtain ⟨rfl, -⟩ := hinj hl.1
      exact .inr (List.cons_prefix_cons.2 ⟨rfl, List.nil_prefix⟩)
    · rw [layer, layer, List.cons_prefix_cons] at hl
      obtain ⟨he, hl⟩ := hl
      obtain ⟨rfl, rfl⟩ := hinj he
      refine (ih hl).imp (fun hl => ?_) fun hl => ?_
      all_goals exact List.cons_prefix_cons.2 ⟨rfl, List.cons_prefix_cons.2 ⟨rfl, hl⟩⟩

/-! ## Roots -/

/-- Of two lists with the same root after as many passes, one is a prefix of the other, with the same
    elements. -/
theorem Root.comparable_of_depth (hinj : Function.Injective2 pair) (hroot : Root pair d l x)
    (hroot' : Root pair d l' x) : (l <+: l' ∨ l' <+: l) ∧ ∀ a, a ∈ l ↔ a ∈ l' := by
  induction hroot generalizing l' with
  | single x =>
    cases hroot'
    exact ⟨.inl List.prefix_rfl, fun _ => Iff.rfl⟩
  | pass _ _ ih =>
    cases hroot' with
    | pass _ hlayer =>
      obtain ⟨hpre, hmem⟩ := ih hlayer
      refine ⟨?_, fun a => ?_⟩
      -- The shorter layer may be of the longer list, if its last element is paired with itself.
      · rcases hpre with hpre | hpre
        · exact isPrefix_of_layer hinj hpre
        · exact (isPrefix_of_layer hinj hpre).symm
      · rw [mem_iff_paired hinj, mem_iff_paired hinj]
        exact exists_congr fun b => or_congr (hmem _) (hmem _)

/-- Of two lists of leaves with the same root, however deep, one is a prefix of the other, with the same
    elements. -/
theorem Root.comparable (hinj : Function.Injective2 pair) (hleaf : ∀ a b, ¬ leaf (pair a b))
    (hl : ∀ a ∈ l, leaf a) (hl' : ∀ a ∈ l', leaf a) (hroot : Root pair d l x) (hroot' : Root pair d' l' x) :
    (l <+: l' ∨ l' <+: l) ∧ ∀ a, a ∈ l ↔ a ∈ l' := by
  have hx : NodeAt pair leaf (0 + d) x := hroot.nodeAt hl
  have hx' : NodeAt pair leaf (0 + d') x := hroot'.nodeAt hl'
  -- The root is at one height only, so both lists take as many passes.
  have hd : 0 + d = 0 + d' := hx.unique hinj hleaf hx'
  obtain rfl : d = d' := by omega
  exact hroot.comparable_of_depth hinj hroot'

/-- The root determines a list among those of its length. -/
theorem Root.eq_iff_length_eq (hinj : Function.Injective2 pair) (hleaf : ∀ a b, ¬ leaf (pair a b))
    (hl : ∀ a ∈ l, leaf a) (hl' : ∀ a ∈ l', leaf a) (hroot : Root pair d l x) (hroot' : Root pair d' l' x) :
    l = l' ↔ l.length = l'.length := by
  refine ⟨congrArg List.length, fun hlength => ?_⟩
  rcases (hroot.comparable hinj hleaf hl hl' hroot').1 with hpre | hpre
  · exact hpre.eq_of_length hlength
  · exact (hpre.eq_of_length hlength.symm).symm

end Itx.Merkle
