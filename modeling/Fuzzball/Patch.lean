import Mathlib.Data.BitVec
import Mathlib.Tactic.Common

/-!
# Arrays over a cyclic address space

An array is a function of an address; a patch replaces a run of addresses that
starts at one address and may wrap around.
-/

namespace Fuzzball

variable {w : ℕ} {α β : Type}

/-- The array `f` with its `n` places from `a` on replaced. -/
def patch (a : BitVec w) (n : ℕ) (vs : ℕ → α) (f : BitVec w → α) (x : BitVec w) :
    α :=
  if (x - a).toNat < n then vs (x - a).toNat else f x

theorem sub_toNat_add_ofNat
    (a x : BitVec w) {m : ℕ} (hm : m < 2 ^ w) :
    (x - (a + BitVec.ofNat w m)).toNat =
      if (x - a).toNat < m then 2 ^ w - m + (x - a).toNat
      else (x - a).toNat - m := by
  have hsub : x - (a + BitVec.ofNat w m) = (x - a) - BitVec.ofNat w m :=
    sub_add_eq_sub_sub x a (BitVec.ofNat w m)
  have hlt := (x - a).isLt
  rw [hsub, BitVec.toNat_sub, BitVec.toNat_ofNat, Nat.mod_eq_of_lt hm]
  split_ifs with h
  · exact Nat.mod_eq_of_lt (by omega)
  · have heq : 2 ^ w - m + (x - a).toNat = (x - a).toNat - m + 2 ^ w := by omega
    rw [heq, Nat.add_mod_right]
    exact Nat.mod_eq_of_lt (by omega)

/-- Two patches one after the other in the address space are one. -/
theorem patch_append
    (a : BitVec w) {m n : ℕ} (hmn : m + n ≤ 2 ^ w) (hn : 0 < n)
    (vs us : ℕ → α) (f : BitVec w → α) :
    patch (a + BitVec.ofNat w m) n us (patch a m vs f) =
      patch a (m + n) (fun i => if i < m then vs i else us (i - m)) f := by
  funext x
  have hm : m < 2 ^ w := by omega
  simp only [patch, sub_toNat_add_ofNat a x hm]
  by_cases h : (x - a).toNat < m
  · have hout : ¬2 ^ w - m + (x - a).toNat < n := by omega
    have hin : (x - a).toNat < m + n := by omega
    simp only [h, hout, hin, if_true, if_false]
  · have hiff : (x - a).toNat - m < n ↔ (x - a).toNat < m + n := by omega
    simp only [h, hiff, if_false]

theorem map_patch
    (g : α → β) (a : BitVec w) (n : ℕ) (vs : ℕ → α) (f : BitVec w → α) :
    (fun x => g (patch a n vs f x)) =
      patch a n (fun i => g (vs i)) fun x => g (f x) := by
  funext x
  exact apply_ite g _ _ _

theorem patch_congr
    (a : BitVec w) {n : ℕ} {vs us : ℕ → α} (h : ∀ i < n, vs i = us i)
    (f : BitVec w → α) : patch a n vs f = patch a n us f := by
  funext x
  unfold patch
  split_ifs with hlt
  · exact h _ hlt
  · rfl

theorem sub_toNat_of_add
    (a : BitVec w) {i : ℕ} (hi : i < 2 ^ w) :
    (a + BitVec.ofNat w i - a).toNat = i := by
  rw [add_sub_cancel_left, BitVec.toNat_ofNat, Nat.mod_eq_of_lt hi]

theorem add_sub_toNat (a x : BitVec w) : a + BitVec.ofNat w (x - a).toNat = x := by
  rw [BitVec.ofNat_toNat, BitVec.setWidth_eq, add_sub_cancel]

end Fuzzball
