import Fuzzball.AvlMap

/-!
# Mutable records

A heap of records that are updated in place, and renamings between two heaps
whose records correspond.  A program that never compares references does the
same on both.
-/

namespace Fuzzball

/-- The records allocated so far are those below `next`. -/
structure Heap (ν : Type) where
  get : ℕ → ν
  next : ℕ

namespace Heap

variable {ν κ : Type}

/-- The allocation of a record, whose reference is `next`. -/
def push (h : Heap ν) (v : ν) : Heap ν where
  get := Function.update h.get h.next v
  next := h.next + 1

def set (h : Heap ν) (r : ℕ) (v : ν) : Heap ν where
  get := Function.update h.get r v
  next := h.next

@[simp] theorem push_next (h : Heap ν) (v : ν) :
    (h.push v).next = h.next + 1 := rfl

@[simp] theorem push_get_next (h : Heap ν) (v : ν) :
    (h.push v).get h.next = v := by
  simp [push]

theorem push_get_of_lt {h : Heap ν} {r : ℕ} (hr : r < h.next) (v : ν) :
    (h.push v).get r = h.get r := by
  simp [push, hr.ne]

@[simp] theorem set_next (h : Heap ν) (r : ℕ) (v : ν) :
    (h.set r v).next = h.next := rfl

@[simp] theorem set_get (h : Heap ν) (r : ℕ) (v : ν) :
    (h.set r v).get r = v := by
  simp [set]

theorem set_get_of_ne (h : Heap ν) {r s : ℕ} (v : ν) (hs : s ≠ r) :
    (h.set r v).get s = h.get s := by
  simp [set, hs]

/-! ## Renamings -/

/-- The references of `h` are those of `k` under new names, and the records
behind them are related by `E`. -/
structure Renaming (E : ν → ν → Prop) (h k : Heap ν) (f : ℕ → ℕ) : Prop where
  lt_next : ∀ r < h.next, f r < k.next
  injective : ∀ r < h.next, ∀ s < h.next, f r = f s → r = s
  related : ∀ r < h.next, E (h.get r) (k.get (f r))

/-- A renaming that names one more record. -/
def extend (h k : Heap ν) (f : ℕ → ℕ) : ℕ → ℕ :=
  Function.update f h.next k.next

@[simp] theorem extend_next (h k : Heap ν) (f : ℕ → ℕ) :
    extend h k f h.next = k.next := by
  simp [extend]

theorem extend_of_lt {h : Heap ν} {r : ℕ} (hr : r < h.next) (k : Heap ν)
    (f : ℕ → ℕ) : extend h k f r = f r := by
  simp [extend, hr.ne]

variable {E : ν → ν → Prop} {h k : Heap ν} {f : ℕ → ℕ}

theorem Renaming.push (hf : Renaming E h k f) {v w : ν} (hvw : E v w) :
    Renaming E (h.push v) (k.push w) (extend h k f) := by
  have hcases : ∀ r < h.next + 1, r < h.next ∨ r = h.next := by omega
  constructor
  · intro r hr
    obtain hr | rfl := hcases r hr
    · rw [extend_of_lt hr]
      exact (hf.lt_next r hr).trans (Nat.lt_succ_self _)
    · rw [extend_next]
      exact Nat.lt_succ_self _
  · intro r hr s hs hrs
    obtain hr | rfl := hcases r hr <;> obtain hs | rfl := hcases s hs
    · rw [extend_of_lt hr, extend_of_lt hs] at hrs
      exact hf.injective r hr s hs hrs
    · rw [extend_of_lt hr, extend_next] at hrs
      exact absurd hrs (hf.lt_next r hr).ne
    · rw [extend_of_lt hs, extend_next] at hrs
      exact absurd hrs.symm (hf.lt_next s hs).ne
    · rfl
  · intro r hr
    obtain hr | rfl := hcases r hr
    · rw [extend_of_lt hr, push_get_of_lt hr, push_get_of_lt (hf.lt_next r hr)]
      exact hf.related r hr
    · rw [extend_next, push_get_next, push_get_next]
      exact hvw

theorem Renaming.set
    (hf : Renaming E h k f) {r : ℕ} (hr : r < h.next) {v w : ν}
    (hvw : E v w) : Renaming E (h.set r v) (k.set (f r) w) f := by
  refine ⟨hf.lt_next, hf.injective, ?_⟩
  intro s hs
  by_cases hsr : s = r
  · rw [hsr, set_get, set_get]
    exact hvw
  · have hne : f s ≠ f r := fun h => hsr (hf.injective s hs r hr h)
    rw [set_get_of_ne h v hsr, set_get_of_ne k w hne]
    exact hf.related s hs

/-! ## Maps of references -/

/-- The references of a map are allocated. -/
def Bounds (h : Heap ν) (m : AvlMap κ ℕ) : Prop :=
  ∀ b ∈ m.bindings, b.2 < h.next

theorem Bounds.mono {m : AvlMap κ ℕ} (hm : h.Bounds m)
    (hle : h.next ≤ k.next) : k.Bounds m := by
  intro b hb
  exact (hm b hb).trans_le hle

theorem Bounds.find_lt {m : AvlMap κ ℕ} (hm : h.Bounds m)
    {cmp : κ → κ → Ordering} {x : κ} {r : ℕ} (hr : m.find cmp x = some r) :
    r < h.next := by
  obtain ⟨b, hb, hbr⟩ := Option.map_eq_some_iff.mp hr
  rw [← hbr]
  exact hm b (AvlMap.findBinding_mem cmp x hb)

theorem Bounds.add_next {m : AvlMap κ ℕ} (hm : h.Bounds m)
    (cmp : κ → κ → Ordering) (x : κ) (v : ν) :
    (h.push v).Bounds (m.add cmp x h.next) := by
  intro b hb
  obtain rfl | hb := AvlMap.mem_bindings_add cmp x hb
  · exact Nat.lt_succ_self _
  · exact (hm b hb).trans (Nat.lt_succ_self _)

theorem map_extend {κ' : Type} (g : κ → κ') {m : AvlMap κ ℕ}
    (hm : h.Bounds m) (k : Heap ν) (f : ℕ → ℕ) :
    m.map g (extend h k f) = m.map g f :=
  AvlMap.map_congr g fun b hb => extend_of_lt (hm b hb) k f

theorem map_push {κ' : Type} (g : κ → κ') {m : AvlMap κ ℕ} (hm : h.Bounds m)
    (v : ν) : m.map g (h.push v).get = m.map g h.get :=
  AvlMap.map_congr g fun b hb => push_get_of_lt (hm b hb) v

end Heap

end Fuzzball
