import Fuzzball.ByteMemory

/-!
# Records in memory

Numbers stored one after the other at fixed offsets from an address.  When no
two of them overlap, each can be loaded back, whatever the order of the
stores, and what is outside the record stays.
-/

namespace Fuzzball.Vine.ByteMemory

/-- A number and the bytes where it is stored, counted from the start. -/
structure Cell where
  offset : ℕ
  bytes : ℕ
  value : ℕ

def Cell.address (base : I64) (c : Cell) : I64 :=
  base + BitVec.ofNat 64 c.offset

/-- The two have no byte in common. -/
def Cell.Apart (c d : Cell) : Prop :=
  c.offset + c.bytes ≤ d.offset ∨ d.offset + d.bytes ≤ c.offset

theorem Cell.Apart.symm {c d : Cell} (h : c.Apart d) : d.Apart c := Or.symm h

def storeCells (m : ByteMemory) (base : I64) (cells : List Cell) :
    ByteMemory :=
  cells.foldl (fun m c => m.storeBytes (c.address base) c.bytes c.value) m

variable {m : ByteMemory} {a b : I64} {c d : Cell} {cells : List Cell}
  {n : ℕ}

/-- The bytes of a cell, by their distance from the start. -/
theorem inRange_address (hn : n ≤ 2 ^ 64) (hc : c.offset + c.bytes ≤ n) :
    InRange (c.address a) c.bytes b ↔
      c.offset ≤ (b - a).toNat ∧
        (b - a).toNat < c.offset + c.bytes := by
  have hlt := (b - a).isLt
  have hdistance : (b - c.address a).toNat =
      ((b - a).toNat + (2 ^ 64 - c.offset % 2 ^ 64)) % 2 ^ 64 := by
    rw [Cell.address, ← BitVec.sub_sub, BitVec.toNat_sub,
      BitVec.toNat_ofNat, Nat.add_comm]
  rw [InRange, hdistance]
  omega

theorem loadBytes_storeBytes_apart (hn : n ≤ 2 ^ 64)
    (hc : c.offset + c.bytes ≤ n) (hd : d.offset + d.bytes ≤ n)
    (hapart : c.Apart d) (m : ByteMemory) (v : ℕ) :
    (m.storeBytes (d.address a) d.bytes v).loadBytes c.bytes
        (c.address a) =
      m.loadBytes c.bytes (c.address a) := by
  apply loadBytes_congr _ (by omega)
  intro b hb
  apply storeBytes_of_not
  intro hb'
  rw [inRange_address hn hc] at hb
  rw [inRange_address hn hd] at hb'
  rcases hapart with h | h <;> omega

/-- Stores elsewhere do not change what is loaded. -/
theorem loadBytes_storeCells_apart (hn : n ≤ 2 ^ 64)
    (hc : c.offset + c.bytes ≤ n)
    (hcells : ∀ d ∈ cells, d.offset + d.bytes ≤ n)
    (hapart : ∀ d ∈ cells, c.Apart d) (m : ByteMemory) :
    (m.storeCells a cells).loadBytes c.bytes (c.address a) =
      m.loadBytes c.bytes (c.address a) := by
  induction cells generalizing m with
  | nil => rfl
  | cons d cells ih =>
    have hrest := ih (fun e he => hcells e (List.mem_cons_of_mem d he))
      (fun e he => hapart e (List.mem_cons_of_mem d he))
      (m.storeBytes (d.address a) d.bytes d.value)
    have hfirst := loadBytes_storeBytes_apart (a := a) hn hc
      (hcells d List.mem_cons_self) (hapart d List.mem_cons_self) m d.value
    exact hrest.trans hfirst

/-- What a record of cells that do not overlap holds. -/
theorem loadBytes_storeCells (hn : n ≤ 2 ^ 64)
    (hcells : ∀ d ∈ cells, d.offset + d.bytes ≤ n)
    (hapart : cells.Pairwise Cell.Apart) (hc : c ∈ cells) (m : ByteMemory) :
    (m.storeCells a cells).loadBytes c.bytes (c.address a) =
      c.value % 256 ^ c.bytes := by
  induction cells generalizing m with
  | nil => cases hc
  | cons d cells ih =>
    have hrest : ∀ e ∈ cells, e.offset + e.bytes ≤ n :=
      fun e he => hcells e (List.mem_cons_of_mem d he)
    obtain ⟨hfirst, hpair⟩ := List.pairwise_cons.mp hapart
    rcases List.mem_cons.mp hc with rfl | hmem
    · have hle := hcells c List.mem_cons_self
      have hkept := loadBytes_storeCells_apart (a := a) hn hle hrest
        hfirst (m.storeBytes (c.address a) c.bytes c.value)
      exact hkept.trans (loadBytes_storeBytes (by omega) m _ _)
    · exact ih hrest hpair hmem _

theorem storeCells_of_not (hn : n ≤ 2 ^ 64)
    (hcells : ∀ c ∈ cells, c.offset + c.bytes ≤ n)
    (hb : ¬ InRange a n b) (m : ByteMemory) :
    m.storeCells a cells b = m b := by
  induction cells generalizing m with
  | nil => rfl
  | cons c cells ih =>
    have hrest := ih (fun d hd => hcells d (List.mem_cons_of_mem c hd))
      (m.storeBytes (c.address a) c.bytes c.value)
    apply hrest.trans
    apply storeBytes_of_not
    intro hin
    have hle := hcells c List.mem_cons_self
    rw [inRange_address hn hle] at hin
    exact hb (hin.2.trans_le hle)

end Fuzzball.Vine.ByteMemory
