import Mathlib.Data.Finset.Card
import Mathlib.Data.Finset.Union
import Mathlib.Data.List.Infix
import Mathlib.Tactic.Common

/-!
# Trees of choices

A finite tree of binary decisions, a side of which may be infeasible.  A place
is the list of the choices that lead to it, the last one first.  Of an
exploration that has visited some leaves, a place is done when it has visited
all leaves below it.
-/

namespace Fuzzball

inductive ChoiceTree (α : Type*) where
  | leaf
  | node (label : α) (feasible : Bool → Bool) (sub : Bool → ChoiceTree α)

namespace ChoiceTree

variable {α : Type*} {t u : ChoiceTree α} {g h l : List Bool} {b : Bool}

/-! ## Places -/

def side (b : Bool) : ChoiceTree α → Option (ChoiceTree α)
  | .leaf => none
  | .node _ feasible sub => if feasible b then some (sub b) else none

/-- The tree at a place. -/
def subtree (t : ChoiceTree α) : List Bool → Option (ChoiceTree α)
  | [] => some t
  | b :: h => (t.subtree h).bind (side b)

/-- There is a place `h`. -/
def Has (t : ChoiceTree α) (h : List Bool) : Prop := (t.subtree h).isSome

instance (t : ChoiceTree α) (h : List Bool) : Decidable (t.Has h) :=
  inferInstanceAs (Decidable ((t.subtree h).isSome = true))

/-- The exploration of a path can end at `h`. -/
def IsLeaf (t : ChoiceTree α) (h : List Bool) : Prop :=
  t.subtree h = some .leaf

theorem subtree_append (t : ChoiceTree α) (g h : List Bool) :
    t.subtree (g ++ h) = (t.subtree h).bind fun u => u.subtree g := by
  induction g with
  | nil => simp [subtree]
  | cons b g ih =>
    rw [List.cons_append, subtree, ih, Option.bind_assoc]
    rfl

theorem IsLeaf.has (h : t.IsLeaf l) : t.Has l := by
  rw [Has, h]
  rfl

theorem has_nil : t.Has [] := rfl

theorem Has.exists_eq (h : t.Has g) : ∃ u, t.subtree g = some u :=
  Option.isSome_iff_exists.mp h

theorem Has.of_append (h : t.Has (g ++ l)) : t.Has l := by
  rw [Has, subtree_append] at h
  exact Option.isSome_of_isSome_bind h

theorem Has.of_suffix (h : t.Has l) (hs : g <:+ l) : t.Has g := by
  obtain ⟨k, rfl⟩ := hs
  exact h.of_append

theorem Has.tail (h : t.Has (b :: g)) : t.Has g :=
  h.of_append (g := [b])

theorem has_cons {label : α} {feasible : Bool → Bool}
    {sub : Bool → ChoiceTree α}
    (h : t.subtree g = some (.node label feasible sub)) :
    t.Has (b :: g) ↔ feasible b = true := by
  rw [Has, subtree, h, Option.bind_some, side]
  split_ifs with hb
  · exact iff_of_true rfl hb
  · exact iff_of_false Bool.false_ne_true hb

theorem subtree_cons {label : α} {feasible : Bool → Bool}
    {sub : Bool → ChoiceTree α}
    (h : t.subtree g = some (.node label feasible sub))
    (hb : feasible b = true) : t.subtree (b :: g) = some (sub b) := by
  rw [subtree, h, Option.bind_some, side, if_pos hb]

theorem IsLeaf.not_has_cons (h : t.IsLeaf l) : ¬ t.Has (b :: l) := by
  rw [Has, subtree, h]
  exact Bool.false_ne_true

/-- A place above another is a decision. -/
theorem Has.exists_node (h : t.Has (b :: g)) :
    ∃ label feasible sub, t.subtree g = some (.node label feasible sub) := by
  obtain ⟨u, hu⟩ := h.tail.exists_eq
  cases u with
  | leaf => exact absurd h (IsLeaf.not_has_cons hu)
  | node label feasible sub => exact ⟨label, feasible, sub, hu⟩

/-! ## All places -/

/-- The finitely many places. -/
def places : ChoiceTree α → Finset (List Bool)
  | .leaf => {[]}
  | .node _ feasible sub =>
    insert [] (Finset.univ.biUnion fun b =>
      if feasible b then (sub b).places.image (· ++ [b]) else ∅)

theorem mem_places : h ∈ t.places ↔ t.Has h := by
  induction t generalizing h with
  | leaf =>
    rw [places, Finset.mem_singleton]
    cases h with
    | nil => exact iff_of_true rfl rfl
    | cons b h =>
      refine iff_of_false (List.cons_ne_nil b h) fun hhas => ?_
      have hleaf : (leaf : ChoiceTree α).IsLeaf [] := rfl
      rcases List.eq_nil_or_concat' h with rfl | ⟨k, c, rfl⟩
      · exact hleaf.not_has_cons hhas
      · have hc : (leaf : ChoiceTree α).Has [c] :=
          Has.of_append (g := b :: k) hhas
        exact hleaf.not_has_cons hc
  | node label feasible sub ih =>
    have hroot : (node label feasible sub).subtree [] =
        some (node label feasible sub) := rfl
    rw [places, Finset.mem_insert]
    rcases List.eq_nil_or_concat' h with rfl | ⟨k, c, rfl⟩
    · exact iff_of_true (.inl rfl) rfl
    · have hne : k ++ [c] ≠ [] := by simp
      rw [or_iff_right hne, Finset.mem_biUnion]
      have hsub : (node label feasible sub).Has (k ++ [c]) ↔
          feasible c = true ∧ (sub c).Has k := by
        rw [Has, subtree_append]
        by_cases hc : feasible c = true
        · rw [subtree_cons hroot hc]
          exact (and_iff_right hc).symm
        · rw [subtree, hroot, Option.bind_some, side, if_neg hc]
          exact iff_of_false Bool.false_ne_true fun h => hc h.1
      rw [hsub]
      constructor
      · rintro ⟨b, -, hb⟩
        split_ifs at hb with hf
        · obtain ⟨k', hk', heq⟩ := Finset.mem_image.mp hb
          obtain ⟨rfl, hbc⟩ := List.append_inj' heq rfl
          obtain rfl : b = c := List.singleton_injective hbc
          exact ⟨hf, (ih b).mp hk'⟩
        · exact absurd hb (Finset.notMem_empty _)
      · rintro ⟨hf, hk⟩
        refine ⟨c, Finset.mem_univ c, ?_⟩
        rw [if_pos hf]
        exact Finset.mem_image_of_mem _ ((ih c).mpr hk)

/-- The places above a place are as many as its choices. -/
theorem Has.length_lt (h : t.Has g) : g.length < t.places.card := by
  have hinj : Set.InjOn (fun n => g.drop n) (Finset.range (g.length + 1)) := by
    intro m hm n hn heq
    have hlength := congrArg List.length heq
    simp only [List.length_drop] at hlength
    simp only [Finset.coe_range, Set.mem_Iio] at hm hn
    omega
  have hsub : (Finset.range (g.length + 1)).image (fun n => g.drop n) ⊆
      t.places := by
    intro k hk
    obtain ⟨n, -, rfl⟩ := Finset.mem_image.mp hk
    exact mem_places.mpr (h.of_suffix (List.drop_suffix n g))
  have hcard := Finset.card_le_card hsub
  rw [Finset.card_image_of_injOn hinj, Finset.card_range] at hcard
  exact hcard

def isLeaf : ChoiceTree α → Bool
  | .leaf => true
  | .node .. => false

/-- The places where a path ends. -/
def leaves (t : ChoiceTree α) : Finset (List Bool) :=
  t.places.filter fun h => (t.subtree h).any isLeaf

theorem mem_leaves : l ∈ t.leaves ↔ t.IsLeaf l := by
  rw [leaves, Finset.mem_filter, mem_places]
  constructor
  · rintro ⟨hhas, hl⟩
    obtain ⟨u, hu⟩ := hhas.exists_eq
    rw [hu] at hl
    cases u with
    | leaf => exact hu
    | node label feasible sub => cases hl
  · intro h
    refine ⟨h.has, ?_⟩
    rw [h]
    rfl

/-! ## Trees without dead ends -/

/-- Every decision has a feasible side. -/
def Live : ChoiceTree α → Prop
  | .leaf => True
  | .node _ feasible sub =>
    (∃ b, feasible b = true) ∧ ∀ b, feasible b = true → (sub b).Live

theorem Live.subtree (ht : t.Live) (h : t.subtree g = some u) : u.Live := by
  induction g generalizing u with
  | nil =>
    cases h
    exact ht
  | cons b g ih =>
    rw [ChoiceTree.subtree, Option.bind_eq_some_iff] at h
    obtain ⟨w, hw, hside⟩ := h
    have hlive := ih hw
    cases w with
    | leaf => cases hside
    | node label feasible sub =>
      rw [side] at hside
      split_ifs at hside with hb
      cases hside
      exact hlive.2 b hb

theorem Live.exists_leaf (ht : t.Live) : ∃ l, t.IsLeaf l := by
  induction t with
  | leaf => exact ⟨[], rfl⟩
  | node label feasible sub ih =>
    obtain ⟨b, hb⟩ := ht.1
    obtain ⟨l, hl⟩ := ih b (ht.2 b hb)
    have hroot : (node label feasible sub).subtree [] =
        some (node label feasible sub) := rfl
    refine ⟨l ++ [b], ?_⟩
    rw [IsLeaf, subtree_append, subtree_cons hroot hb]
    exact hl

/-- There is a leaf below every place. -/
theorem Live.exists_leaf_below (ht : t.Live) (h : t.Has g) :
    ∃ l, t.IsLeaf l ∧ g <:+ l := by
  obtain ⟨u, hu⟩ := h.exists_eq
  obtain ⟨k, hk⟩ := (ht.subtree hu).exists_leaf
  refine ⟨k ++ g, ?_, List.suffix_append k g⟩
  rw [IsLeaf, subtree_append, hu]
  exact hk

/-! ## What is left to visit -/

/-- All leaves below the place have been visited. -/
def Done (t : ChoiceTree α) (V : Set (List Bool)) (h : List Bool) : Prop :=
  ∀ l, t.IsLeaf l → h <:+ l → l ∈ V

variable {V : Set (List Bool)}

theorem Done.mono {W : Set (List Bool)} (hd : t.Done V h) (hVW : V ⊆ W) :
    t.Done W h :=
  fun l hl hs => hVW (hd l hl hs)

theorem Done.below (hd : t.Done V h) (hs : h <:+ g) : t.Done V g :=
  fun l hl hg => hd l hl (hs.trans hg)

theorem IsLeaf.eq_of_suffix (hl : t.IsLeaf l) (hg : t.Has g) (hs : l <:+ g) :
    g = l := by
  obtain ⟨k, rfl⟩ := hs
  rcases List.eq_nil_or_concat' k with rfl | ⟨k, b, rfl⟩
  · rfl
  · rw [List.append_assoc] at hg
    exact absurd hg.of_append hl.not_has_cons

theorem done_leaf (hl : t.IsLeaf l) : t.Done V l ↔ l ∈ V := by
  constructor
  · intro h
    exact h l hl List.suffix_rfl
  · intro h g hg hs
    rw [hl.eq_of_suffix hg.has hs]
    exact h

/-- A decision is done when its feasible sides are. -/
theorem done_node {label : α} {feasible : Bool → Bool}
    {sub : Bool → ChoiceTree α}
    (h : t.subtree g = some (.node label feasible sub)) :
    t.Done V g ↔ ∀ b, t.Has (b :: g) → t.Done V (b :: g) := by
  constructor
  · intro hd b _
    exact hd.below (List.suffix_cons b g)
  · intro hd l hl hs
    obtain ⟨k, rfl⟩ := hs
    rcases List.eq_nil_or_concat' k with rfl | ⟨k, b, rfl⟩
    · rw [List.nil_append, IsLeaf, h] at hl
      cases hl
    · rw [List.append_assoc] at hl ⊢
      exact hd b hl.has.of_append _ hl (List.suffix_append k (b :: g))

/-- Nothing has been visited below the place. -/
theorem not_done_of_unvisited (ht : t.Live) (h : t.Has g)
    (hV : ∀ l ∈ V, ¬ g <:+ l) : ¬ t.Done V g := by
  obtain ⟨l, hl, hs⟩ := ht.exists_leaf_below h
  intro hd
  exact hV l (hd l hl hs) hs

/-- A visit to a leaf changes nothing for the places that are not above it. -/
theorem done_insert_of_not_suffix (hs : ¬ h <:+ l) :
    t.Done (insert l V) h ↔ t.Done V h := by
  constructor
  · intro hd g hg hsg
    refine (hd g hg hsg).resolve_left ?_
    rintro rfl
    exact hs hsg
  · intro hd
    exact hd.mono (Set.subset_insert l V)

end ChoiceTree

end Fuzzball
