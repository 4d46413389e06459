import Fuzzball.AddressZeros
import Fuzzball.LoaderMemory

/-!
# Concrete memories

The class `concrete_memory`, whose wide loads and stores are made of single
bytes, and the class `concrete_adaptor_memory`, which gives it the values of a
domain.
-/

namespace Fuzzball.ConcreteMemory

open Loader Granular

/-- What the subclasses of `concrete_memory` define.  A load may add a page. -/
structure ByteMethods (μ : Type) where
  storeByte : μ → I64 → UInt8 → Loading μ
  loadByte : μ → I64 → Loading (UInt8 × μ)

/-- `Int64.logand 0xFFL (Int64.shift_right v (8 * i))`, as a byte. -/
def byteOf (v : I64) (i : ℕ) : UInt8 :=
  UInt8.ofNat (0xff &&& v.sshiftRight (8 * i)).toNat

namespace ByteMethods

variable {μ : Type} (M : ByteMethods μ)

/-- The bytes of a value from the least on, at consecutive addresses. -/
def storeBytes (n : ℕ) (mem : μ) (addr v : I64) : Loading μ :=
  forBytes M.storeByte addr (byteOf v) n 0 mem

def storeShort := M.storeBytes 2
def storeWord := M.storeBytes 4
def storeLong := M.storeBytes 8

/-- The bytes from the `i`-th on, each shifted to its place. -/
def loadBytes (addr : I64) : (n i : ℕ) → μ → Loading (I64 × μ)
  | 0, _, mem => .ok (0, mem)
  | n + 1, i, mem => do
    let (b, mem) ← M.loadByte mem (addr + BitVec.ofNat 64 i)
    let (rest, mem) ← loadBytes addr n (i + 1) mem
    pure ((BitVec.ofNat 64 b.toNat <<< (8 * i)) ||| rest, mem)

def loadShort (mem : μ) (addr : I64) := M.loadBytes addr 2 0 mem
def loadWord (mem : μ) (addr : I64) := M.loadBytes addr 4 0 mem
def loadLong (mem : μ) (addr : I64) := M.loadBytes addr 8 0 mem

/-- `load_byte`, with the byte as a number. -/
def loadByteNumber (mem : μ) (addr : I64) : Loading (I64 × μ) := do
  let (b, mem) ← M.loadByte mem addr
  pure (BitVec.ofNat 64 b.toNat, mem)

def load : Size → μ → I64 → Loading (I64 × μ)
  | .byte => M.loadByteNumber
  | .short => M.loadShort
  | .word => M.loadWord
  | .long => M.loadLong

def store : Size → μ → I64 → I64 → Loading μ
  | .byte => fun mem addr v => M.storeByte mem addr (byteOf v 0)
  | .short => M.storeShort
  | .word => M.storeWord
  | .long => M.storeLong

end ByteMethods

/-- The class `concrete_hash_memory`: a byte that is not there is zero. -/
def hashMethods : ByteMethods HashMemory where
  storeByte := HashMemory.storeByte
  loadByte mem addr := .ok ((mem.maybeLoadByte addr).getD 0, mem)

/-! ## The class `concrete_adaptor_memory` -/

/-- The functions `D.to_concrete_8` to `D.to_concrete_64`, which fail at a
value that is not concrete, and `D.from_concrete_8` to `D.from_concrete_64`. -/
structure Conversions (τ : Type) where
  toConcrete : Size → τ → Option I64
  fromConcrete : Size → I64 → τ
  fromConcrete_inj : ∀ b c : UInt8,
    fromConcrete .byte (BitVec.ofNat 64 b.toNat) =
      fromConcrete .byte (BitVec.ofNat 64 c.toNat) → b = c

/-- The conversions of `ConcreteDomain`. -/
def concreteConversions : Conversions I64 where
  toConcrete
    | .byte, v => some (v &&& 0xff)
    | .short, v => some (v &&& 0xffff)
    | .word, v => some (v &&& 0xffffffff)
    | .long, v => some v
  fromConcrete _ v := v
  fromConcrete_inj b c h := by
    have hnat := congrArg BitVec.toNat h
    have hb := b.toNat_lt
    have hc := c.toNat_lt
    rw [BitVec.toNat_ofNat, BitVec.toNat_ofNat,
      Nat.mod_eq_of_lt (by omega), Nat.mod_eq_of_lt (by omega)] at hnat
    exact UInt8.toNat_inj.mp hnat

namespace ByteMethods

variable {μ τ : Type} (M : ByteMethods μ) (C : Conversions τ)

/-- The store of a concrete number; `store_long` hands it to `store_word`. -/
def adaptorStore : Size → μ → I64 → I64 → Loading μ
  | .byte => M.store .byte
  | .short => M.store .short
  | .word => M.store .word
  | .long => M.store .word

def adaptorLoad (size : Size) (mem : μ) (addr : I64) : Loading (τ × μ) := do
  let (n, mem) ← M.load size mem addr
  pure (C.fromConcrete size n, mem)

end ByteMethods

/-- A call of one of the four store methods. -/
structure StoreCall (τ : Type) where
  size : Size
  addr : I64
  value : τ

section Runs

variable {μ τ : Type} (M : ByteMethods μ) (C : Conversions τ)

def storeStep (mem : μ) (s : StoreCall τ) : Option μ := do
  let n ← C.toConcrete s.size s.value
  (M.adaptorStore s.size mem s.addr n).toOption

/-- The memory after a sequence of stores, if none of them raises. -/
def storeRun (stores : List (StoreCall τ)) (mem : μ) : Option μ :=
  stores.foldlM (storeStep M C) mem

/-- A store into a flat array of bytes. -/
def flatStep (f : I64 → UInt8) (s : StoreCall τ) : Option (I64 → UInt8) := do
  let n ← C.toConcrete s.size s.value
  pure (patch s.addr s.size.bytes (byteOf n) f)

def flatRun (stores : List (StoreCall τ)) (f : I64 → UInt8) :
    Option (I64 → UInt8) :=
  stores.foldlM (flatStep C) f

end Runs

/-! ## Bytes of numbers -/

theorem toNat_byteOf (v : I64) {i : ℕ} (hi : i < 8) :
    (byteOf v i).toNat = v.toNat / 256 ^ i % 256 := by
  have hmask : (0xff : I64).toNat = 2 ^ 8 - 1 := rfl
  have hpow : (2 : ℕ) ^ (8 * i) = 256 ^ i := by
    rw [pow_mul]
    norm_num
  have hshift := SymRegion.toNat_sshiftRight_mod v (b := 8) (k := 8 * i)
    (by omega)
  rw [hpow] at hshift
  rw [byteOf, BitVec.toNat_and, hmask, Nat.and_comm,
    Nat.and_two_pow_sub_one_eq_mod, UInt8.toNat_ofNat', hshift, Nat.mod_mod]
  rfl

/-- The number with the given bytes from an address on, the lowest first. -/
def littleEndian (f : I64 → UInt8) (addr : I64) : ℕ → ℕ
  | 0 => 0
  | n + 1 => (f addr).toNat + 256 * littleEndian f (addr + 1) n

theorem littleEndian_lt (f : I64 → UInt8) (addr : I64) (n : ℕ) :
    littleEndian f addr n < 256 ^ n := by
  induction n generalizing addr with
  | zero => exact Nat.one_pos
  | succ n ih =>
    have hrest := ih (addr + 1)
    have hbyte := (f addr).toNat_lt
    rw [littleEndian, pow_succ]
    omega

/-- A byte shifted to its place and the bytes above it. -/
theorem shifted_or_eq {b i rest : ℕ} (hb : b < 256)
    (hrest : 256 ^ i * (b + 256 * rest) < 2 ^ 64) :
    (BitVec.ofNat 64 b <<< (8 * i)) |||
        BitVec.ofNat 64 (256 ^ (i + 1) * rest) =
      BitVec.ofNat 64 (256 ^ i * (b + 256 * rest)) := by
  have hpow : (2 : ℕ) ^ (8 * i) = 256 ^ i := by
    rw [pow_mul]
    norm_num
  have hsplit : 256 ^ i * (b + 256 * rest) =
      256 ^ (i + 1) * rest + b * 256 ^ i := by ring
  have hlow : b * 256 ^ i < 2 ^ (8 * (i + 1)) := by
    rw [Nat.mul_add, pow_add, hpow, mul_comm]
    exact Nat.mul_lt_mul_of_pos_left hb (by positivity)
  have hhigh : 256 ^ (i + 1) * rest = rest <<< (8 * (i + 1)) := by
    rw [Nat.shiftLeft_eq, pow_mul, mul_comm]
    norm_num
  apply BitVec.eq_of_toNat_eq
  have hb64 : b * 256 ^ i < 2 ^ 64 := by omega
  have hr64 : 256 ^ (i + 1) * rest < 2 ^ 64 := by omega
  rw [BitVec.toNat_or, BitVec.toNat_shiftLeft, BitVec.toNat_ofNat,
    BitVec.toNat_ofNat, BitVec.toNat_ofNat, Nat.mod_eq_of_lt hrest,
    Nat.mod_eq_of_lt hr64, Nat.mod_eq_of_lt (a := b) (by omega),
    Nat.shiftLeft_eq, hpow, Nat.mod_eq_of_lt hb64, hsplit, Nat.or_comm, hhigh,
    ← Nat.shiftLeft_add_eq_or_of_lt hlow]

/-! ## Accesses of `concrete_hash_memory` -/

/-- The bytes of the memory as a flat array. -/
def flat (mem : HashMemory) (addr : I64) : UInt8 := (mem addr).getD 0

theorem hash_storeBytes (mem : HashMemory) (addr v : I64) {n : ℕ}
    (hn : n < 2 ^ 64) :
    ∃ mem', hashMethods.storeBytes n mem addr v = .ok mem' ∧
      flat mem' = patch addr n (byteOf v) (flat mem) := by
  have h := forBytes_outcome HashMemory.storeByte_outcome mem addr (byteOf v) hn
  obtain ⟨mem', hmem⟩ := h.returns fun _ _ => trivial
  refine ⟨mem', hmem, ?_⟩
  funext x
  have hx := h.ok mem' hmem x
  unfold HashMemory.maybeLoadByte at hx
  rw [flat, patch]
  split_ifs at hx ⊢ with hlt
  · exact congrArg (fun o => o.getD 0) hx
  · rw [hx]
    rfl

/-- A store of any size through the class itself is one patch. -/
theorem hash_store (size : Size) (mem : HashMemory) (addr v : I64) :
    ∃ mem', hashMethods.store size mem addr v = .ok mem' ∧
      flat mem' = patch addr size.bytes (byteOf v) (flat mem) := by
  cases size with
  | byte =>
    refine ⟨_, rfl, ?_⟩
    funext x
    rw [flat, patch]
    simp only [Size.bytes, sub_toNat_lt_one_iff]
    split_ifs with h
    · rw [h, Function.update_self, BitVec.sub_self]
      rfl
    · rw [Function.update_of_ne h]
      rfl
  | short => exact hash_storeBytes mem addr v (by norm_num)
  | word => exact hash_storeBytes mem addr v (by norm_num)
  | long => exact hash_storeBytes mem addr v (by norm_num)

theorem hash_loadBytes (mem : HashMemory) (addr : I64) (n i : ℕ)
    (h : i + n ≤ 8) :
    hashMethods.loadBytes addr n i mem =
      .ok (BitVec.ofNat 64 (256 ^ i *
        littleEndian (flat mem) (addr + BitVec.ofNat 64 i) n), mem) := by
  induction n generalizing i with
  | zero =>
    rw [littleEndian, Nat.mul_zero]
    rfl
  | succ n ih =>
    have hnext : addr + BitVec.ofNat 64 i + 1 =
        addr + BitVec.ofNat 64 (i + 1) := by
      rw [BitVec.ofNat_add, BitVec.add_assoc]
      rfl
    have hlt := littleEndian_lt (flat mem) (addr + BitVec.ofNat 64 i) (n + 1)
    have hbound : 256 ^ i * littleEndian (flat mem)
        (addr + BitVec.ofNat 64 i) (n + 1) < 2 ^ 64 := by
      calc 256 ^ i * littleEndian (flat mem) (addr + BitVec.ofNat 64 i) (n + 1)
          < 256 ^ i * 256 ^ (n + 1) :=
            Nat.mul_lt_mul_of_pos_left hlt (by positivity)
        _ = 256 ^ (i + (n + 1)) := (pow_add 256 i (n + 1)).symm
        _ ≤ 256 ^ 8 := Nat.pow_le_pow_right (by norm_num) h
        _ = 2 ^ 64 := by norm_num
    rw [littleEndian, hnext] at hbound ⊢
    rw [← shifted_or_eq (flat mem _).toNat_lt hbound, ByteMethods.loadBytes]
    have hbyte : hashMethods.loadByte mem (addr + BitVec.ofNat 64 i) =
        .ok (flat mem (addr + BitVec.ofNat 64 i), mem) := rfl
    rw [hbyte]
    simp only [bind, Except.bind, ih (i + 1) (by omega)]
    rfl

/-- A load of any size is the number with the bytes at the addresses. -/
theorem hash_load (size : Size) (mem : HashMemory) (addr : I64) :
    hashMethods.load size mem addr =
      .ok (BitVec.ofNat 64 (littleEndian (flat mem) addr size.bytes), mem) := by
  have hbytes (n : ℕ) (hn : 0 + n ≤ 8) := hash_loadBytes mem addr n 0 hn
  simp only [pow_zero, Nat.one_mul, BitVec.add_zero] at hbytes
  cases size with
  | byte =>
    rw [Size.bytes, littleEndian, littleEndian]
    rfl
  | short => exact hbytes 2 (by norm_num)
  | word => exact hbytes 4 (by norm_num)
  | long => exact hbytes 8 (by norm_num)

/-! ## Runs of the adaptor -/

variable {τ : Type} (C : Conversions τ)

/-- Every load of the adaptor finds the bytes of the flat array. -/
def LoadsAgree (mem : HashMemory) (f : I64 → UInt8) : Prop :=
  ∀ size addr, hashMethods.adaptorLoad C size mem addr =
    .ok (C.fromConcrete size
      (BitVec.ofNat 64 (littleEndian f addr size.bytes)), mem)

/-- Loads agree only with the bytes that are there. -/
theorem loadsAgree_iff {mem : HashMemory} {f : I64 → UInt8} :
    LoadsAgree C mem f ↔ flat mem = f := by
  have hload (size : Size) (addr : I64) :
      hashMethods.adaptorLoad C size mem addr = .ok (C.fromConcrete size
        (BitVec.ofNat 64 (littleEndian (flat mem) addr size.bytes)), mem) := by
    rw [ByteMethods.adaptorLoad, hash_load]
    rfl
  constructor
  · intro h
    funext x
    have hx := (hload .byte x).symm.trans (h .byte x)
    have hbyte := congrArg Prod.fst (Except.ok.inj hx)
    exact C.fromConcrete_inj _ _ hbyte
  · intro h size addr
    rw [hload, h]

/-- The upper four bytes that a 64-bit store is to write are there already. -/
def UpperThere (f : I64 → UInt8) (s : StoreCall τ) : Prop :=
  s.size = .long → ∀ n, C.toConcrete .long s.value = some n →
    ∀ i, 4 ≤ i → i < 8 → f (s.addr + BitVec.ofNat 64 i) = byteOf n i

theorem patch_word_eq_long_iff (f : I64 → UInt8) (addr n : I64) :
    patch addr Size.word.bytes (byteOf n) f =
        patch addr Size.long.bytes (byteOf n) f ↔
      ∀ i, 4 ≤ i → i < 8 → f (addr + BitVec.ofNat 64 i) = byteOf n i := by
  constructor
  · intro h i hi hi8
    have hx := congrFun h (addr + BitVec.ofNat 64 i)
    rw [patch, patch, sub_toNat_of_add addr (by omega)] at hx
    rwa [Size.bytes, Size.bytes, if_neg (by omega), if_pos hi8] at hx
  · intro h
    funext x
    have hx := h (x - addr).toNat
    rw [add_sub_toNat] at hx
    rw [patch, patch, Size.bytes, Size.bytes]
    split_ifs with h4 h8 h8
    · rfl
    · omega
    · exact hx (by omega) h8
    · rfl

/-- What one store of the adaptor does, and when it is the flat store. -/
theorem storeStep_of_concrete (mem : HashMemory) {s : StoreCall τ} {n : I64}
    (hn : C.toConcrete s.size s.value = some n) :
    ∃ mem', storeStep hashMethods C mem s = some mem' ∧
      (flatStep C (flat mem) s = some (flat mem') ↔
        UpperThere C (flat mem) s) := by
  have hflat : flatStep C (flat mem) s =
      some (patch s.addr s.size.bytes (byteOf n) (flat mem)) := by
    rw [flatStep, hn]
    rfl
  have hrun (size : Size) (hsize : hashMethods.adaptorStore s.size =
      hashMethods.store size) :
      ∃ mem', storeStep hashMethods C mem s = some mem' ∧
        flat mem' = patch s.addr size.bytes (byteOf n) (flat mem) := by
    obtain ⟨mem', hstore, hmem⟩ := hash_store size mem s.addr n
    refine ⟨mem', ?_, hmem⟩
    rw [storeStep, hn, hsize]
    change (hashMethods.store size mem s.addr n).toOption = some mem'
    rw [hstore]
    rfl
  rw [hflat, UpperThere]
  cases hsize : s.size with
  | long =>
    obtain ⟨mem', hstep, hmem⟩ := hrun .word (by rw [hsize]; rfl)
    refine ⟨mem', hstep, ?_⟩
    rw [hmem, Option.some_inj, eq_comm, patch_word_eq_long_iff, ← hsize, hn]
    constructor
    · rintro h - m ⟨rfl⟩
      exact h
    · exact fun h => h rfl n rfl
  | _ =>
    obtain ⟨mem', hstep, hmem⟩ := hrun s.size (by rw [hsize]; rfl)
    refine ⟨mem', hstep, ?_⟩
    rw [hmem, hsize]
    simp

theorem storeStep_none (mem : HashMemory) {s : StoreCall τ}
    (hn : C.toConcrete s.size s.value = none) :
    storeStep hashMethods C mem s = none := by
  rw [storeStep, hn]
  rfl

/-- Every 64-bit store of the sequence finds its upper bytes in the flat
array. -/
def AllUpperThere (stores : List (StoreCall τ)) (f : I64 → UInt8) : Prop :=
  ∀ before s, before ++ [s] <+: stores → ∀ f', flatRun C before f = some f' →
    UpperThere C f' s

/-- After every part of the sequence loads find the flat array. -/
def AllLoadsAgree (stores : List (StoreCall τ)) (mem : HashMemory) : Prop :=
  ∀ before, before <+: stores → ∀ mem',
    storeRun hashMethods C before mem = some mem' →
    ∃ f, flatRun C before (flat mem) = some f ∧ LoadsAgree C mem' f

theorem storeRun_append {before : List (StoreCall τ)} {s : StoreCall τ}
    (mem : HashMemory) :
    storeRun hashMethods C (before ++ [s]) mem =
      (storeRun hashMethods C before mem).bind
        fun mem' => storeStep hashMethods C mem' s := by
  rw [storeRun, List.foldlM_append]
  simp only [List.foldlM_cons, List.foldlM_nil, bind_pure]
  rfl

theorem flatRun_append {before : List (StoreCall τ)} {s : StoreCall τ}
    (f : I64 → UInt8) :
    flatRun C (before ++ [s]) f =
      (flatRun C before f).bind fun f' => flatStep C f' s := by
  rw [flatRun, List.foldlM_append]
  simp only [List.foldlM_cons, List.foldlM_nil, bind_pure]
  rfl

/-- The stores return wherever the values are concrete. -/
theorem storeRun_of_flatRun (stores : List (StoreCall τ)) (mem : HashMemory)
    {f f' : I64 → UInt8} (h : flatRun C stores f = some f') :
    ∃ mem', storeRun hashMethods C stores mem = some mem' := by
  induction stores using List.reverseRecOn generalizing f' with
  | nil => exact ⟨mem, rfl⟩
  | append_singleton before s ih =>
    rw [flatRun_append, Option.bind_eq_some_iff] at h
    obtain ⟨f1, hbefore, hstep⟩ := h
    obtain ⟨mem1, hmem1⟩ := ih hbefore
    rw [storeRun_append, hmem1]
    cases hn : C.toConcrete s.size s.value with
    | none =>
      rw [flatStep, hn] at hstep
      cases hstep
    | some n =>
      obtain ⟨mem', hmem', -⟩ := storeStep_of_concrete C mem1 hn
      exact ⟨mem', hmem'⟩

theorem storeRun_flat {stores before : List (StoreCall τ)} {mem : HashMemory}
    (h : AllUpperThere C stores (flat mem)) (hbefore : before <+: stores)
    {mem' : HashMemory} (hrun : storeRun hashMethods C before mem = some mem') :
    flatRun C before (flat mem) = some (flat mem') := by
  induction before using List.reverseRecOn generalizing mem' with
  | nil =>
    cases hrun
    rfl
  | append_singleton before s ih =>
    rw [storeRun_append, Option.bind_eq_some_iff] at hrun
    obtain ⟨mem1, hmem1, hstep⟩ := hrun
    have hflat := ih ((List.prefix_append before [s]).trans hbefore) hmem1
    rw [flatRun_append, hflat]
    cases hn : C.toConcrete s.size s.value with
    | none =>
      rw [storeStep_none C mem1 hn] at hstep
      cases hstep
    | some n =>
      obtain ⟨mem2, hmem2, hiff⟩ := storeStep_of_concrete C mem1 hn
      rw [hmem2] at hstep
      cases hstep
      exact hiff.mpr (h before s hbefore _ hflat)

/-- In every sequence of stores the loads after each of them find what the
flat array has exactly when no 64-bit store has new upper bytes. -/
theorem adaptor_agrees_iff (stores : List (StoreCall τ)) (mem : HashMemory) :
    AllLoadsAgree C stores mem ↔ AllUpperThere C stores (flat mem) := by
  constructor
  · intro h before s hs f' hf' hlong n hn
    obtain ⟨mem1, hmem1⟩ := storeRun_of_flatRun C before mem hf'
    obtain ⟨f1, hf1, hagree⟩ :=
      h before ((List.prefix_append before [s]).trans hs) mem1 hmem1
    have hflat : flat mem1 = f' := by
      rw [(loadsAgree_iff C).mp hagree]
      exact Option.some_inj.mp (hf1.symm.trans hf')
    have hconcrete : C.toConcrete s.size s.value = some n := hlong ▸ hn
    obtain ⟨mem2, hmem2, hiff⟩ := storeStep_of_concrete C mem1 hconcrete
    have hrun : storeRun hashMethods C (before ++ [s]) mem = some mem2 := by
      rw [storeRun_append, hmem1]
      exact hmem2
    obtain ⟨f2, hf2, hagree2⟩ := h (before ++ [s]) hs mem2 hrun
    rw [flatRun_append, hf', ← (loadsAgree_iff C).mp hagree2, ← hflat] at hf2
    rw [← hflat]
    exact hiff.mp hf2 hlong n hn
  · intro h before hbefore mem' hrun
    exact ⟨flat mem', storeRun_flat C h hbefore hrun,
      (loadsAgree_iff C).mpr rfl⟩

/-- The adaptor over an empty memory loses the upper half of a 64-bit number. -/
theorem storeLong_loses_upper :
    (∃ mem', storeRun hashMethods concreteConversions
        [⟨.long, 0, 0x1122334455667788⟩] (fun _ => none) = some mem' ∧
      (hashMethods.adaptorLoad concreteConversions .long mem' 0).toOption.map
        Prod.fst = some 0x55667788) ∧
    ¬AllLoadsAgree concreteConversions
      [⟨.long, 0, (0x1122334455667788 : I64)⟩] (fun _ => none) := by
  refine ⟨⟨_, rfl, by decide⟩, ?_⟩
  intro h
  obtain ⟨f, hf, hagree⟩ := h _ (List.prefix_refl _) _ rfl
  cases hf
  have hload := congrArg
    (fun r : Loading (I64 × HashMemory) => r.toOption.map Prod.fst)
    (hagree .long 0)
  revert hload
  decide

end Fuzzball.ConcreteMemory
