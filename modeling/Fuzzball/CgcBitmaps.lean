import Fuzzball.ByteStore
import Fuzzball.OCaml

/-!
# Bitmaps of file descriptors

`read_bitmap` and `write_bitmap` of `cgc_syscalls.ml`.  Addresses and counts
come from registers of 32 bits, so that sums of them do not wrap; the memory is
concrete, and hooks on stores are left out.
-/

namespace Fuzzball.CgcSyscalls

open Bits

/-! ## The machine and the descriptors -/

/-- `from_concrete_32` of the two domains: one takes the low bits, the other
asserts a range. -/
inductive Domain
  | concrete
  | symbolic
  deriving DecidableEq, Repr

inductive Exn
  | assertFailure
  | failure
  | unixError
  deriving DecidableEq, Repr

def Domain.fromConcrete32 : Domain → I64 → Except Exn (BitVec 32)
  | .concrete, v => .ok (v.setWidth 32)
  | .symbolic, v =>
    if -4294967296 ≤ v.toInt ∧ v.toInt ≤ 0xffffffff then .ok (v.setWidth 32)
    else .error .assertFailure

/-- The descriptors by their numbers: those that are open, the largest number
that may be opened, and what opening one yields. -/
structure Descriptors (Fd : Type) where
  unixFds : ℕ → Option Fd
  optNumFd : ℕ
  openFile : ℕ → Except Exn Fd

section Source

variable {Fd : Type} [DecidableEq Fd] (wild : WildShift) (domain : Domain)
  (strict : Bool) (fds : Descriptors Fd)

def getFd (vt_fd : ℕ) : Except Exn Fd :=
  if 1024 ≤ vt_fd then .error .unixError
  else
    match fds.unixFds vt_fd with
    | some fd => .ok fd
    | none =>
      if fds.optNumFd < vt_fd then .error .unixError else fds.openFile vt_fd

def lea (base i step off : ℕ) : ℕ := base + (i * step + off)

def loadWord (σ : ByteStore) (addr : ℕ) : I64 := (σ.read addr 4).setWidth 64

def storeWordConc (σ : ByteStore) (addr : ℕ) (w : I64) :
    Except Exn ByteStore := do
  let v ← domain.fromConcrete32 w
  pure (σ.write addr 4 v)

/-- `zero_region`; a failed assertion raises where the errors are counted
strictly. -/
def zeroRegion (σ : ByteStore) (base len : ℕ) : Except Exn ByteStore :=
  if 0x20000000 < len ∧ strict then .error .failure
  else
    .ok ((List.range len).foldl
      (fun σ i => σ.write (base + i) 1 (0 : BitVec 8)) σ)

/-- `read_bitmap`: the last descriptor comes first. -/
def readBitmap (nfds : ℕ) (σ : ByteStore) (addr : ℕ) : List ℕ :=
  if addr = 0 then []
  else
    (List.range nfds).foldl (fun l i =>
      let w := loadWord σ (lea addr (i / 32) 4 0)
      let b := i % 32
      if I64.shiftRight wild w b &&& 1 = 1 then i :: l else l) []

/-- A round of the loop of `write_bitmap`. -/
def writeBit (fd_bm : ℕ) (fd_l : List Fd) (σ : ByteStore) (i : ℕ) :
    Except Exn ByteStore := do
  let fd ← getFd fds i
  if fd ∈ fd_l then
    let fd_lsh := I64.shiftLeft wild 1 i
    let w := loadWord σ (lea fd_bm (i / 32) 4 0)
    let fd_w_or := fd_lsh ||| w
    storeWordConc domain σ (lea fd_bm (i / 32) 4 0) fd_w_or
  else pure σ

def writeBitmap (fd_bm : ℕ) (fd_l : List Fd) (nfds : ℕ) (σ : ByteStore) :
    Except Exn ByteStore := do
  let σ ← zeroRegion strict σ fd_bm nfds
  (List.range nfds).foldlM (writeBit wild domain fds fd_bm fd_l) σ

end Source

/-! ## Reading -/

section Reading

variable {wild : WildShift} {σ : ByteStore}

/-- The bit of a descriptor in the words from the address on. -/
def bitAt (σ : ByteStore) (addr i : ℕ) : Bool :=
  (σ.read (addr + 4 * (i / 32)) 4).getLsbD (i % 32)

theorem and_one_eq_one_iff (x : I64) : x &&& 1 = 1 ↔ x.getLsbD 0 = true := by
  constructor
  · intro h
    have hbit := congrArg (fun y : I64 => y.getLsbD 0) h
    simpa using hbit
  · intro h
    apply BitVec.eq_of_getLsbD_eq
    intro i hi
    rw [BitVec.getLsbD_and]
    cases i with
    | zero => simp [h]
    | succ i =>
      have hone : (1 : I64).getLsbD (i + 1) = false := by
        simp [BitVec.getLsbD_one]
      rw [hone, Bool.and_false]

theorem shiftRight_bit (w : BitVec 32) {b : ℕ} (hb : b < 32) :
    I64.shiftRight wild (w.setWidth 64) b &&& 1 = 1 ↔ w.getLsbD b = true := by
  have hin : (0 : ℤ) ≤ b ∧ (b : ℤ) < 64 := by omega
  rw [I64.shiftRight, if_pos hin, and_one_eq_one_iff, Int.toNat_natCast,
    BitVec.getLsbD_sshiftRight, BitVec.getLsbD_setWidth]
  simp [show b < 64 by omega]

theorem mem_foldl_range {p : ℕ → Prop} [DecidablePred p] {i : ℕ} (n : ℕ) :
    i ∈ (List.range n).foldl (fun l j => if p j then j :: l else l) [] ↔
      i < n ∧ p i := by
  induction n with
  | zero => simp
  | succ n ih =>
    rw [List.range_succ, List.foldl_append, List.foldl_cons, List.foldl_nil]
    by_cases hn : p n
    · rw [if_pos hn, List.mem_cons, ih]
      constructor
      · rintro (rfl | ⟨hi, hp⟩)
        · exact ⟨Nat.lt_succ_self i, hn⟩
        · exact ⟨hi.trans (Nat.lt_succ_self n), hp⟩
      · rintro ⟨hi, hp⟩
        rcases Nat.lt_succ_iff_lt_or_eq.mp hi with hi | rfl
        · exact .inr ⟨hi, hp⟩
        · exact .inl rfl
    · rw [if_neg hn, ih]
      constructor
      · rintro ⟨hi, hp⟩
        exact ⟨hi.trans (Nat.lt_succ_self n), hp⟩
      · rintro ⟨hi, hp⟩
        rcases Nat.lt_succ_iff_lt_or_eq.mp hi with hi | rfl
        · exact ⟨hi, hp⟩
        · exact absurd hp hn

theorem mem_readBitmap {addr i nfds : ℕ} (haddr : addr ≠ 0) :
    i ∈ readBitmap wild nfds σ addr ↔ i < nfds ∧ bitAt σ addr i = true := by
  rw [readBitmap, if_neg haddr]
  simp only [mem_foldl_range]
  have hword : lea addr (i / 32) 4 0 = addr + 4 * (i / 32) := by
    unfold lea
    omega
  rw [loadWord, hword]
  have hbit := @shiftRight_bit wild
    (σ.read (addr + 4 * (i / 32)) 4) _ (Nat.mod_lt i (by decide : 0 < 32))
  exact and_congr_right fun _ => hbit

end Reading

/-! ## Clearing -/

def cleared (σ : ByteStore) (base len : ℕ) : ByteStore :=
  fun a => if base ≤ a ∧ a < base + len then 0 else σ a

theorem foldl_write_zero (σ : ByteStore) (base len : ℕ) :
    (List.range len).foldl
      (fun σ i => ByteStore.write σ (base + i) 1 (0 : BitVec 8)) σ =
      cleared σ base len := by
  induction len with
  | zero =>
    funext a
    rw [cleared, if_neg (by omega)]
    rfl
  | succ len ih =>
    rw [List.range_succ, List.foldl_append, ih, List.foldl_cons,
      List.foldl_nil]
    funext a
    by_cases ha : a = base + len
    · subst ha
      have hput := @ByteStore.write_apply 8 (cleared σ base len) (base + len) 1
        0 0 Nat.zero_lt_one
      rw [Nat.add_zero] at hput
      rw [hput, lane_zero, cleared, if_pos (by omega)]
    · rw [ByteStore.write_of_outside (by omega)]
      unfold cleared
      split_ifs
      · rfl
      · omega
      · omega
      · rfl

/-! ## The loop -/

section Loop

variable {Fd : Type} [DecidableEq Fd] {wild : WildShift} {domain : Domain}
  {strict : Bool} {fds : Descriptors Fd} {fd_bm : ℕ} {fd_l : List Fd}

/-- A descriptor that is among those that are ready. -/
def Ready (fds : Descriptors Fd) (fd_l : List Fd) (i : ℕ) : Prop :=
  ∃ fd, getFd fds i = .ok fd ∧ fd ∈ fd_l

def Available (fds : Descriptors Fd) (i : ℕ) : Prop :=
  ∃ fd, getFd fds i = .ok fd

/-- What the shift of 1 by the number of a descriptor leaves in a word. -/
def shifted (wild : WildShift) (i : ℕ) : BitVec 32 :=
  (I64.shiftLeft wild 1 i).setWidth 32

theorem Domain.fromConcrete32_eq {v : I64} {x : BitVec 32}
    (h : domain.fromConcrete32 v = .ok x) : x = v.setWidth 32 := by
  cases domain with
  | concrete => exact (Except.ok.inj h).symm
  | symbolic =>
    simp only [Domain.fromConcrete32] at h
    split_ifs at h
    exact (Except.ok.inj h).symm

theorem shifted_bit {i b : ℕ} (hi : i < 32) (hb : b < 32) :
    (shifted wild i).getLsbD b = decide (b = i) := by
  have hin : (0 : ℤ) ≤ i ∧ (i : ℤ) < 64 := by omega
  rw [shifted, I64.shiftLeft, if_pos hin, Int.toNat_natCast,
    BitVec.getLsbD_setWidth, BitVec.getLsbD_shiftLeft]
  by_cases hbi : b = i
  · subst hbi
    simp [hb, show b < 64 by omega]
  · rw [decide_eq_false hbi]
    by_cases hlt : b < i
    · simp [hlt]
    · have hone : (1 : I64).getLsbD (b - i) = false := by
        simp [BitVec.getLsbD_one]
        omega
      rw [hone, Bool.and_false, Bool.and_false]

/-- A platform that shifts to zero beyond the width. -/
theorem shifted_const {i : ℕ} (hi : 32 ≤ i) : shifted (.const 0) i = 0 := by
  unfold shifted I64.shiftLeft
  split_ifs with hin
  · apply BitVec.eq_of_getLsbD_eq
    intro j hj
    rw [BitVec.getLsbD_setWidth, BitVec.getLsbD_shiftLeft]
    simp [show j < i by omega]
  · rfl

/-- What a round does when it does not raise. -/
theorem writeBit_ok {σ σ' : ByteStore} {i : ℕ}
    (h : writeBit wild domain fds fd_bm fd_l σ i = .ok σ') :
    Available fds i ∧
      ((¬Ready fds fd_l i ∧ σ' = σ) ∨
        (Ready fds fd_l i ∧ σ' = σ.write (fd_bm + 4 * (i / 32)) 4
          (shifted wild i ||| σ.read (fd_bm + 4 * (i / 32)) 4))) := by
  have hword : lea fd_bm (i / 32) 4 0 = fd_bm + 4 * (i / 32) := by
    unfold lea
    omega
  unfold writeBit at h
  cases hfd : getFd fds i with
  | error e =>
    rw [hfd] at h
    cases h
  | ok fd =>
    rw [hfd] at h
    refine ⟨⟨fd, hfd⟩, ?_⟩
    change (if fd ∈ fd_l then storeWordConc domain σ (lea fd_bm (i / 32) 4 0)
      (I64.shiftLeft wild 1 i ||| loadWord σ (lea fd_bm (i / 32) 4 0))
      else .ok σ) = .ok σ' at h
    by_cases hmem : fd ∈ fd_l
    · right
      refine ⟨⟨fd, hfd, hmem⟩, ?_⟩
      rw [if_pos hmem, hword] at h
      unfold storeWordConc at h
      cases hv : domain.fromConcrete32
          (I64.shiftLeft wild 1 i ||| loadWord σ (fd_bm + 4 * (i / 32))) with
      | error e =>
        rw [hv] at h
        cases h
      | ok v =>
        rw [hv] at h
        obtain rfl := Except.ok.inj h
        rw [Domain.fromConcrete32_eq hv, BitVec.setWidth_or, loadWord,
          BitVec.setWidth_setWidth_of_le _ (by decide), BitVec.setWidth_eq]
        rfl
    · left
      rw [if_neg hmem] at h
      refine ⟨?_, (Except.ok.inj h).symm⟩
      rintro ⟨fd', hfd', hmem'⟩
      rw [hfd] at hfd'
      exact hmem (Except.ok.inj hfd' ▸ hmem')

theorem foldlM_range_succ {f : ByteStore → ℕ → Except Exn ByteStore} (n : ℕ)
    (σ : ByteStore) :
    (List.range (n + 1)).foldlM f σ =
      (List.range n).foldlM f σ >>= fun σ => f σ n := by
  rw [List.range_succ, List.foldlM_append]
  simp

/-- The number of words that hold `n` bits. -/
def words (n : ℕ) : ℕ := (n + 31) / 32

section Ended

variable {σ σ' : ByteStore} {n : ℕ}
  (h : (List.range n).foldlM (writeBit wild domain fds fd_bm fd_l) σ = .ok σ')

include h

theorem loop_available : ∀ i < n, Available fds i := by
  induction n generalizing σ' with
  | zero => exact fun i hi => absurd hi (Nat.not_lt_zero i)
  | succ n ih =>
    rw [foldlM_range_succ] at h
    obtain ⟨τ, hτ, hstep⟩ := of_bind_eq_ok h
    intro i hi
    rcases Nat.lt_succ_iff_lt_or_eq.mp hi with hi | rfl
    · exact ih hτ i hi
    · exact (writeBit_ok hstep).1

/-- Only the words that hold the bits change. -/
theorem loop_frame {a : ℕ} (ha : a < fd_bm ∨ fd_bm + 4 * words n ≤ a) :
    σ' a = σ a := by
  induction n generalizing σ' with
  | zero =>
    obtain rfl := Except.ok.inj h
    rfl
  | succ n ih =>
    rw [foldlM_range_succ] at h
    obtain ⟨τ, hτ, hstep⟩ := of_bind_eq_ok h
    unfold words at ha ih
    have hrest := ih hτ (by omega)
    rcases (writeBit_ok hstep).2 with ⟨-, rfl⟩ | ⟨-, rfl⟩
    · exact hrest
    · rw [ByteStore.write_of_outside (by omega)]
      exact hrest

/-- Where no ready descriptor from 32 on leaves a bit, the words after the
first one stay. -/
theorem loop_later
    (hshift : ∀ i < n, Ready fds fd_l i → 32 ≤ i → shifted wild i = 0) {k : ℕ}
    (hk : 0 < k) : σ'.read (fd_bm + 4 * k) 4 = σ.read (fd_bm + 4 * k) 4 := by
  induction n generalizing σ' with
  | zero =>
    obtain rfl := Except.ok.inj h
    rfl
  | succ n ih =>
    rw [foldlM_range_succ] at h
    obtain ⟨τ, hτ, hstep⟩ := of_bind_eq_ok h
    have hrest := ih hτ fun i hi => hshift i (hi.trans (Nat.lt_succ_self n))
    rcases (writeBit_ok hstep).2 with ⟨-, rfl⟩ | ⟨hn, rfl⟩
    · exact hrest
    · by_cases hword : n / 32 = k
      · rw [hword, hshift n (Nat.lt_succ_self n) hn (by omega)]
        have hread := ByteStore.read_write τ (fd_bm + 4 * k) 4
          (0 ||| τ.read (fd_bm + 4 * k) 4)
        rw [hread, ← hrest]
        exact BitVec.zero_or
      · rw [ByteStore.read_write_of_apart (by omega)]
        exact hrest

/-- The first word gets the bits of the ready descriptors. -/
theorem loop_first (hready : ∀ i < n, Ready fds fd_l i → i < 32) {b : ℕ}
    (hb : b < 32) :
    (σ'.read fd_bm 4).getLsbD b = true ↔
      (σ.read fd_bm 4).getLsbD b = true ∨ (b < n ∧ Ready fds fd_l b) := by
  induction n generalizing σ' with
  | zero =>
    obtain rfl := Except.ok.inj h
    simp
  | succ n ih =>
    rw [foldlM_range_succ] at h
    obtain ⟨τ, hτ, hstep⟩ := of_bind_eq_ok h
    have hrest := ih hτ fun i hi => hready i (hi.trans (Nat.lt_succ_self n))
    have hsplit : (b < n + 1 ∧ Ready fds fd_l b) ↔
        (b < n ∧ Ready fds fd_l b) ∨ (b = n ∧ Ready fds fd_l n) := by
      rw [Nat.lt_succ_iff_lt_or_eq, or_and_right]
      apply or_congr_right
      apply and_congr_right
      rintro rfl
      exact Iff.rfl
    rw [hsplit]
    rcases (writeBit_ok hstep).2 with ⟨hnot, rfl⟩ | ⟨hn, rfl⟩
    · rw [hrest]
      simp [hnot]
    · have hlt := hready n (Nat.lt_succ_self n) hn
      have hword : fd_bm + 4 * (n / 32) = fd_bm := by omega
      have hread := ByteStore.read_write τ fd_bm 4
        (shifted wild n ||| τ.read fd_bm 4)
      rw [hword, hread]
      have hor : (shifted wild n ||| τ.read fd_bm 4).getLsbD b =
          ((shifted wild n).getLsbD b || (τ.read fd_bm 4).getLsbD b) :=
        BitVec.getLsbD_or
      rw [hor, shifted_bit hlt hb, Bool.or_eq_true, hrest, decide_eq_true_eq]
      simp only [hn, and_true]
      exact or_comm.trans or_assoc

end Ended

theorem Domain.fromConcrete32_setWidth (x : BitVec 32) :
    domain.fromConcrete32 (x.setWidth 64) = .ok x := by
  have hlow : (x.setWidth 64).setWidth 32 = x := by
    rw [BitVec.setWidth_setWidth_of_le _ (by decide), BitVec.setWidth_eq]
  cases domain with
  | concrete => exact congrArg Except.ok hlow
  | symbolic =>
    have hx := x.isLt
    have hint : (x.setWidth 64).toInt = x.toNat := by
      rw [BitVec.toInt_eq_toNat_cond, BitVec.toNat_setWidth]
      split_ifs <;> omega
    rw [Domain.fromConcrete32, if_pos (by omega), hlow]

theorem shiftLeft_eq_shifted {i : ℕ} (hi : i < 32) :
    I64.shiftLeft wild 1 i = (shifted wild i).setWidth 64 := by
  have hin : (0 : ℤ) ≤ i ∧ (i : ℤ) < 64 := by omega
  have hshift : ∀ i < 32, (1 : I64) <<< i =
      (((1 : I64) <<< i).setWidth 32).setWidth 64 := by decide
  rw [shifted, I64.shiftLeft, if_pos hin, Int.toNat_natCast]
  exact hshift i hi

theorem writeBit_exists (σ : ByteStore) {i : ℕ} (hi : Available fds i)
    (hready : Ready fds fd_l i → i < 32) :
    ∃ σ', writeBit wild domain fds fd_bm fd_l σ i = .ok σ' := by
  obtain ⟨fd, hfd⟩ := hi
  unfold writeBit
  rw [hfd]
  change ∃ σ', (if fd ∈ fd_l then
    storeWordConc domain σ (lea fd_bm (i / 32) 4 0)
      (I64.shiftLeft wild 1 i ||| loadWord σ (lea fd_bm (i / 32) 4 0))
    else .ok σ) = .ok σ'
  by_cases hmem : fd ∈ fd_l
  · rw [if_pos hmem, shiftLeft_eq_shifted (hready ⟨fd, hfd, hmem⟩), loadWord,
      ← BitVec.setWidth_or, storeWordConc, Domain.fromConcrete32_setWidth]
    exact ⟨_, rfl⟩
  · rw [if_neg hmem]
    exact ⟨σ, rfl⟩

theorem loop_exists (σ : ByteStore) (n : ℕ)
    (havailable : ∀ i < n, Available fds i)
    (hready : ∀ i < n, Ready fds fd_l i → i < 32) :
    ∃ σ', (List.range n).foldlM (writeBit wild domain fds fd_bm fd_l) σ =
      .ok σ' := by
  induction n with
  | zero => exact ⟨σ, rfl⟩
  | succ n ih =>
    obtain ⟨τ, hτ⟩ := ih
      (fun i hi => havailable i (hi.trans (Nat.lt_succ_self n)))
      (fun i hi => hready i (hi.trans (Nat.lt_succ_self n)))
    obtain ⟨σ', hσ'⟩ := @writeBit_exists Fd _ wild domain _ fd_bm _ τ
      _ (havailable n (Nat.lt_succ_self n))
      (hready n (Nat.lt_succ_self n))
    rw [foldlM_range_succ, hτ]
    exact ⟨σ', hσ'⟩

/-! ## The bitmap -/

/-- The bitmap read back is the readiness set, and nothing beyond its words has
changed. -/
structure BitmapWritten (wild : WildShift) (fds : Descriptors Fd)
    (fd_l : List Fd) (fd_bm nfds : ℕ) (σ σ' : ByteStore) : Prop where
  bits : ∀ i < nfds, i ∈ readBitmap wild nfds σ' fd_bm ↔ Ready fds fd_l i
  frame : ∀ a, a < fd_bm ∨ fd_bm + 4 * words nfds ≤ a → σ' a = σ a

theorem cleared_read {σ : ByteStore} {nfds k b : ℕ}
    (hb : 32 * k + b < nfds) (hb32 : b < 32) :
    ((cleared σ fd_bm nfds).read (fd_bm + 4 * k) 4).getLsbD b = false := by
  have hlane := ByteStore.lane_read (cleared σ fd_bm nfds) (fd_bm + 4 * k) 4
    (i := b / 8) (by omega)
  rw [cleared, if_pos (by omega)] at hlane
  have hbit := congrArg (fun x : BitVec 8 => x.getLsbD (b % 8)) hlane
  have hmod := Nat.mod_lt b (by decide : 0 < 8)
  simp only [BitVec.getLsbD_eq_getElem hmod, getElem_lane _ _ hmod,
    Nat.div_add_mod] at hbit
  simpa using hbit

omit [DecidableEq Fd] in
theorem available_lt {i : ℕ} (h : Available fds i) : i < 1024 := by
  obtain ⟨fd, hfd⟩ := h
  unfold getFd at hfd
  by_contra hge
  rw [if_pos (by omega)] at hfd
  cases hfd

/-- Whatever shifts out of range yield, the bitmap is right if and only if all
descriptors below `nfds` can be got, none from 32 on is ready, and the bytes
after the words that are cleared with them were zero. -/
theorem writeBitmap_exact {σ : ByteStore} {nfds : ℕ} (haddr : fd_bm ≠ 0) :
    (∀ wild, ∃ σ',
      writeBitmap wild domain strict fds fd_bm fd_l nfds σ = .ok σ' ∧
        BitmapWritten wild fds fd_l fd_bm nfds σ σ') ↔
      (∀ i < nfds, Available fds i) ∧
      (∀ i < nfds, Ready fds fd_l i → i < 32) ∧
      ∀ a, fd_bm + 4 * words nfds ≤ a → a < fd_bm + nfds → σ a = 0 := by
  constructor
  · intro h
    obtain ⟨σ', hwrite, hbits, hframe⟩ := h (.const 0)
    unfold writeBitmap at hwrite
    obtain ⟨τ, hzero, hloop⟩ := of_bind_eq_ok hwrite
    unfold zeroRegion at hzero
    split_ifs at hzero
    obtain rfl := Except.ok.inj hzero
    rw [foldl_write_zero] at hloop
    refine ⟨loop_available hloop, ?_, ?_⟩
    · intro i hi hready
      by_contra hge
      have hshift : ∀ i < nfds, Ready fds fd_l i → 32 ≤ i →
          shifted (.const 0) i = 0 := fun i _ _ hi => shifted_const hi
      have hmem := (hbits i hi).mpr hready
      rw [mem_readBitmap haddr, bitAt,
        loop_later hloop hshift (by omega : 0 < i / 32),
        cleared_read (by omega) (Nat.mod_lt i (by decide))] at hmem
      exact Bool.false_ne_true hmem.2
    · intro a hlow hhigh
      rw [← hframe a (.inr hlow), loop_frame hloop (.inr hlow), cleared,
        if_pos (by omega)]
  · rintro ⟨havailable, hready, hzero⟩ wild
    have hsmall : nfds ≤ 1024 := by
      by_contra hlt
      have h1024 := available_lt (havailable 1024 (by omega))
      omega
    obtain ⟨σ', hloop⟩ := @loop_exists Fd _ wild domain _ fd_bm _
      (cleared σ fd_bm nfds) nfds havailable hready
    refine ⟨σ', ?_, ?_, ?_⟩
    · unfold writeBitmap zeroRegion
      rw [if_neg (by omega), foldl_write_zero]
      exact hloop
    · intro i hi
      rw [mem_readBitmap haddr, bitAt]
      by_cases hlt : i < 32
      · have hfirst := loop_first hloop hready hlt
        have hclear := @cleared_read fd_bm σ nfds 0 i (by omega) hlt
        rw [Nat.mul_zero, Nat.add_zero] at hclear
        rw [hclear] at hfirst
        rw [show i / 32 = 0 by omega, Nat.mod_eq_of_lt hlt, Nat.mul_zero,
          Nat.add_zero, hfirst]
        simp [hi]
      · have hshift : ∀ i < nfds, Ready fds fd_l i → 32 ≤ i →
            shifted wild i = 0 :=
          fun j hj hr hge => absurd (hready j hj hr) (by omega)
        rw [loop_later hloop hshift (by omega : 0 < i / 32),
          cleared_read (by omega) (Nat.mod_lt i (by decide))]
        constructor
        · exact fun h => absurd h.2 Bool.false_ne_true
        · exact fun hr => absurd (hready i hi hr) hlt
    · intro a ha
      rw [loop_frame hloop ha, cleared]
      split_ifs with hin
      · exact (hzero a (by omega) hin.2).symm
      · rfl

end Loop

/-! ## Three descriptors and thirty-three -/

/-- All descriptors are open. -/
def openFds : Descriptors ℕ := ⟨some, 1024, fun _ => .error .unixError⟩

theorem available_openFds {i : ℕ} (hi : i < 1024) :
    getFd openFds i = .ok i := by
  rw [getFd, if_neg (by omega)]
  rfl

theorem writeBitmap_exact_three :
    ∃ σ', writeBitmap (.const 0) .symbolic true openFds 0x1000 [0, 2] 3
        (fun _ => 0xff) = .ok σ' ∧
      BitmapWritten (.const 0) openFds [0, 2] 0x1000 3 (fun _ => 0xff) σ' := by
  refine (writeBitmap_exact (by decide)).mpr ⟨?_, ?_, ?_⟩ (.const 0)
  · intro i hi
    exact ⟨i, available_openFds (by omega)⟩
  · intro i hi _
    omega
  · intro a hlow hhigh
    rw [words] at hlow
    omega

/-- Descriptor 32 is ready, but its bit is not set, and a byte after the two
words is cleared. -/
theorem writeBitmap_loses : ∃ σ',
    writeBitmap (.const 0) .concrete true openFds 0x1000 [32] 33
      (fun _ => 0xff) = .ok σ' ∧
    Ready openFds [32] 32 ∧ 32 ∉ readBitmap (.const 0) 33 σ' 0x1000 ∧
    σ' (0x1000 + 4 * words 33) ≠ 0xff := by
  refine ⟨_, rfl, ⟨32, available_openFds (by decide), by decide⟩, ?_, ?_⟩
  · decide +kernel
  · decide +kernel

end Fuzzball.CgcSyscalls
