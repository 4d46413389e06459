import Mathlib.Data.Set.Image
import Mathlib.Data.Set.Insert
import Mathlib.Tactic.Common

/-!
# Lists of declarations in dependency order

Each declaration introduces a key and uses a set of keys.  A list is closed
over a set of known keys when every declaration uses only keys that are known
or that an earlier declaration of the list introduces.
-/

namespace Fuzzball.Declarations

variable {δ α : Type} (key : δ → α) (uses : δ → Set α)

def Closed : Set α → List δ → Prop
  | _, [] => True
  | known, d :: l => uses d ⊆ known ∧ Closed (insert (key d) known) l

def keys (l : List δ) : Set α := {a | a ∈ l.map key}

variable {key uses}

theorem mem_keys {l : List δ} {a : α} : a ∈ keys key l ↔ ∃ d ∈ l, key d = a :=
  List.mem_map

@[simp] theorem keys_nil : keys key ([] : List δ) = ∅ := by
  simp [keys]

@[simp] theorem keys_cons (d : δ) (l : List δ) :
    keys key (d :: l) = insert (key d) (keys key l) := by
  ext a
  simp [keys, Set.mem_insert_iff, eq_comm]

@[simp] theorem keys_append (l l' : List δ) :
    keys key (l ++ l') = keys key l ∪ keys key l' := by
  ext a
  simp only [keys, List.map_append, Set.mem_ofPred_eq, List.mem_append,
    Set.mem_union]

theorem key_mem_keys {d : δ} {l : List δ} (h : d ∈ l) : key d ∈ keys key l :=
  mem_keys.mpr ⟨d, h, rfl⟩

theorem keys_mono {l l' : List δ} (h : ∀ d ∈ l, d ∈ l') :
    keys key l ⊆ keys key l' := by
  intro a ha
  obtain ⟨d, hd, rfl⟩ := mem_keys.mp ha
  exact key_mem_keys (h d hd)

namespace Closed

theorem mono {A B : Set α} {l : List δ} (hAB : A ⊆ B)
    (h : Closed key uses A l) : Closed key uses B l := by
  induction l generalizing A B with
  | nil => trivial
  | cons d l ih =>
    exact ⟨h.1.trans hAB, ih (Set.insert_subset_insert hAB) h.2⟩

theorem of_uses {A : Set α} {l : List δ} (h : ∀ d ∈ l, uses d ⊆ A) :
    Closed key uses A l := by
  induction l generalizing A with
  | nil => trivial
  | cons d l ih =>
    refine ⟨h d List.mem_cons_self, ih ?_⟩
    intro e he
    exact (h e (List.mem_cons_of_mem d he)).trans (Set.subset_insert _ _)

theorem append_iff {A : Set α} {l l' : List δ} :
    Closed key uses A (l ++ l') ↔
      Closed key uses A l ∧ Closed key uses (A ∪ keys key l) l' := by
  induction l generalizing A with
  | nil => simp [Closed]
  | cons d l ih =>
    rw [List.cons_append, Closed, Closed, ih, and_assoc, keys_cons,
      Set.insert_union, Set.union_insert]

theorem append {A : Set α} {l l' : List δ} (h : Closed key uses A l)
    (h' : Closed key uses (A ∪ keys key l) l') :
    Closed key uses A (l ++ l') :=
  append_iff.mpr ⟨h, h'⟩

theorem snoc {A : Set α} {l : List δ} {d : δ} (h : Closed key uses A l)
    (hd : uses d ⊆ A ∪ keys key l) : Closed key uses A (l ++ [d]) :=
  h.append ⟨hd, trivial⟩

theorem uses_subset {A : Set α} {l : List δ} (h : Closed key uses A l) {d : δ}
    (hd : d ∈ l) : uses d ⊆ A ∪ keys key l := by
  induction l generalizing A with
  | nil => exact absurd hd List.not_mem_nil
  | cons e l ih =>
    rw [keys_cons, Set.union_insert, ← Set.insert_union]
    rcases List.mem_cons.mp hd with rfl | hd
    · exact h.1.trans (Set.subset_insert _ _ |>.trans Set.subset_union_left)
    · exact ih h.2 hd

/-- Rewriting the declarations may add uses of known keys. -/
theorem rewrite {A B : Set α} {uses' : δ → Set α} {l l' : List δ}
    (h : Closed key uses A l) (hB : B ⊆ A)
    (hl : List.Forall₂ (fun d e => key e = key d ∧ uses' e ⊆ uses d ∪ B) l l') :
    Closed key uses' A l' := by
  induction hl generalizing A with
  | nil => trivial
  | @cons d e l l' hde _ ih =>
    refine ⟨hde.2.trans (Set.union_subset h.1 hB), ?_⟩
    rw [hde.1]
    exact ih h.2 (hB.trans (Set.subset_insert _ _))

/-- The keys of a closed list may be identified. -/
theorem image {β : Type} {A : Set α} {l : List δ} (h : Closed key uses A l)
    (f : α → β) : Closed (f ∘ key) (fun d => f '' uses d) (f '' A) l := by
  induction l generalizing A with
  | nil => trivial
  | cons d l ih =>
    refine ⟨Set.image_mono h.1, ?_⟩
    have htail := ih h.2
    rwa [Set.image_insert_eq] at htail

/-- A declaration of a known key may be dropped. -/
theorem filter {A : Set α} {l : List δ} {p : δ → Bool}
    (h : Closed key uses A l) (hp : ∀ d ∈ l, p d = false → key d ∈ A) :
    Closed key uses A (l.filter p) := by
  induction l generalizing A with
  | nil => trivial
  | cons d l ih =>
    have htail : ∀ e ∈ l, p e = false → key e ∈ A :=
      fun e he => hp e (List.mem_cons_of_mem d he)
    cases hd : p d with
    | false =>
      rw [List.filter_cons_of_neg (by simp [hd])]
      have hA : insert (key d) A = A :=
        Set.insert_eq_of_mem (hp d List.mem_cons_self hd)
      exact ih (hA ▸ h.2) htail
    | true =>
      rw [List.filter_cons_of_pos hd]
      exact ⟨h.1, ih h.2 fun e he hpe => .inr (htail e he hpe)⟩

end Closed

end Fuzzball.Declarations
