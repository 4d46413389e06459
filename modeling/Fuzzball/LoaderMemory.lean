import Fuzzball.ByteStore
import Fuzzball.GranularContents
import Mathlib.Data.Nat.Bitwise

/-!
# Memories that a loader writes

The methods `store_byte` and `store_page` of the memory classes, for concrete
bytes and pages.  A store may raise; where it returns it replaces one run of
addresses.
-/

namespace Fuzzball.Loader

/-- The exceptions that loading may raise. -/
inductive LoaderExn
  | failure (message : String)
  | invalidArgument (message : String)
  | sysError
  | noMoreInput
  | simulatedSegfault (addr : I64) (isStore : Bool)
  deriving DecidableEq

abbrev Loading := Except LoaderExn

/-! ## Outcomes -/

/-- What is returned satisfies `P`, and something is returned if `S` holds. -/
structure Outcome {α : Type} (S : Prop) (P : α → Prop) (r : Loading α) :
    Prop where
  ok : ∀ x, r = .ok x → P x
  returns : S → ∃ x, r = .ok x

section Outcomes

variable {α β : Type} {S S' : Prop} {P : α → Prop} {Q : β → Prop}
  {r : Loading α} {f : α → Loading β}

theorem Outcome.pure {a : α} (h : P a) : Outcome S P (.ok a) :=
  ⟨fun _ hx => Except.ok.inj hx ▸ h, fun _ => ⟨a, rfl⟩⟩

theorem Outcome.bind (h : Outcome S P r) (hf : ∀ x, P x → Outcome S Q (f x)) :
    Outcome S Q (r >>= f) := by
  cases r with
  | ok a => exact hf a (h.ok a rfl)
  | error e =>
    constructor
    · intro x hx
      cases hx
    · intro hS
      obtain ⟨x, hx⟩ := h.returns hS
      cases hx

theorem Outcome.mono {P' : α → Prop} (h : Outcome S P r) (hS : S' → S)
    (hP : ∀ x, P x → P' x) : Outcome S' P' r :=
  ⟨fun x hx => hP x (h.ok x hx), fun h' => h.returns (hS h')⟩

end Outcomes

/-! ## Runs of addresses -/

section Writes

variable {β : Type} {value : β → Option UInt8} {f g h : I64 → β} {a : I64}
  {m n : ℕ} {bs cs : ℕ → UInt8}

/-- From `f` to `g` the `n` addresses from `a` on got these bytes and no other
cell changed. -/
def Writes (value : β → Option UInt8) (a : I64) (n : ℕ) (bs : ℕ → UInt8)
    (f g : I64 → β) : Prop :=
  ∀ x, if (x - a).toNat < n then value (g x) = some (bs (x - a).toNat)
    else g x = f x

theorem Writes.refl (value : β → Option UInt8) (a : I64) (bs : ℕ → UInt8)
    (f : I64 → β) : Writes value a 0 bs f f := fun _ => rfl

theorem Writes.congr (hw : Writes value a n bs f g)
    (h : ∀ i < n, bs i = cs i) : Writes value a n cs f g := by
  intro x
  have hx := hw x
  split_ifs at hx ⊢ with hlt
  · rw [hx, h _ hlt]
  · exact hx

/-- Two runs one after the other are one. -/
theorem Writes.append (hf : Writes value a m bs f g)
    (hg : Writes value (a + BitVec.ofNat 64 m) n (fun i => bs (m + i)) g h)
    (hmn : m + n < 2 ^ 64) : Writes value a (m + n) bs f h := by
  intro x
  have hx := hg x
  rw [sub_toNat_add_ofNat a x (by omega)] at hx
  have hlt := (x - a).isLt
  by_cases hm : (x - a).toNat < m
  · rw [if_pos hm, if_neg (by omega)] at hx
    have hx' := hf x
    rw [if_pos hm, ← hx] at hx'
    rwa [if_pos (by omega)]
  · rw [if_neg hm] at hx
    have hx' := hf x
    rw [if_neg hm] at hx'
    by_cases hn : (x - a).toNat < m + n
    · have hsplit : m + ((x - a).toNat - m) = (x - a).toNat := by omega
      rw [if_pos (by omega)] at hx
      dsimp only at hx
      rw [hsplit] at hx
      rwa [if_pos hn]
    · rw [if_neg (by omega), hx'] at hx
      rwa [if_neg hn]

end Writes

/-! ## Memories -/

/-- A memory as a loader sees it: what it stores, the cell at an address and
the byte in it, and the addresses at which stores do not raise. -/
structure LoaderMemory (μ β : Type) where
  storeByte : μ → I64 → UInt8 → Loading μ
  storePage : μ → I64 → OString → Loading μ
  cell : μ → I64 → β
  value : β → Option UInt8
  Supports : I64 → Prop
  storeByte_outcome : ∀ mem a b, Outcome (Supports a)
    (fun mem' => Writes value a 1 (fun _ => b) (cell mem) (cell mem'))
    (storeByte mem a b)
  storePage_outcome : ∀ mem a p, a.toNat % 4096 = 0 → p.length = 4096 →
    Outcome (∀ i < 4096, Supports (a + BitVec.ofNat 64 i))
      (fun mem' => Writes value a 4096 (fun i => p.getD i 0) (cell mem)
        (cell mem'))
      (storePage mem a p)

/-- `for i = 0 to n - 1 do store_byte (base + i) bs.(i) done`. -/
def forBytes {μ : Type} (storeByte : μ → I64 → UInt8 → Loading μ) (base : I64)
    (bs : ℕ → UInt8) : (n i : ℕ) → μ → Loading μ
  | 0, _, mem => .ok mem
  | n + 1, i, mem => do
    let mem ← storeByte mem (base + BitVec.ofNat 64 i) (bs i)
    forBytes storeByte base bs n (i + 1) mem

section ForBytes

variable {μ β : Type} {storeByte : μ → I64 → UInt8 → Loading μ}
  {cell : μ → I64 → β} {value : β → Option UInt8} {Supports : I64 → Prop}

theorem forBytes_from (hstore : ∀ mem a b, Outcome (Supports a)
      (fun mem' => Writes value a 1 (fun _ => b) (cell mem) (cell mem'))
      (storeByte mem a b)) (mem0 : μ) (base : I64) (bs : ℕ → UInt8) :
    ∀ (n i : ℕ) (mem : μ), i + n < 2 ^ 64 →
      Writes value base i bs (cell mem0) (cell mem) →
      Outcome (∀ j < i + n, Supports (base + BitVec.ofNat 64 j))
        (fun mem' => Writes value base (i + n) bs (cell mem0) (cell mem'))
        (forBytes storeByte base bs n i mem) := by
  intro n
  induction n with
  | zero =>
    intro i mem _ h
    exact Outcome.pure h
  | succ n ih =>
    intro i mem hn h
    have hone : ∀ j < 1, bs i = bs (i + j) := by
      intro j hj
      rw [Nat.lt_one_iff.mp hj, Nat.add_zero]
    have hstep : Outcome
        (∀ j < i + (n + 1), Supports (base + BitVec.ofNat 64 j))
        (fun mem' => Writes value base (i + 1) bs (cell mem0) (cell mem'))
        (storeByte mem (base + BitVec.ofNat 64 i) (bs i)) :=
      (hstore mem (base + BitVec.ofNat 64 i) (bs i)).mono
        (fun hS => hS i (by omega))
        fun mem' hw => h.append (hw.congr hone) (by omega)
    have hassoc : i + (n + 1) = i + 1 + n := by omega
    rw [hassoc] at hstep ⊢
    exact hstep.bind fun mem' hw => ih (i + 1) mem' (by omega) hw

/-- A loop over bytes writes one run. -/
theorem forBytes_outcome (hstore : ∀ mem a b, Outcome (Supports a)
      (fun mem' => Writes value a 1 (fun _ => b) (cell mem) (cell mem'))
      (storeByte mem a b)) (mem : μ) (base : I64) (bs : ℕ → UInt8) {n : ℕ}
    (hn : n < 2 ^ 64) :
    Outcome (∀ j < n, Supports (base + BitVec.ofNat 64 j))
      (fun mem' => Writes value base n bs (cell mem) (cell mem'))
      (forBytes storeByte base bs n 0 mem) := by
  have h := forBytes_from hstore mem base bs n 0 mem (by omega)
    (Writes.refl _ _ _ _)
  rwa [Nat.zero_add] at h

end ForBytes

/-- `store_page` of `concrete_memory`, which its subclasses may replace; a
failed assertion raises. -/
def storePageBytes {μ : Type} (storeByte : μ → I64 → UInt8 → Loading μ)
    (mem : μ) (addr : I64) (pagestr : OString) : Loading μ :=
  if addr &&& 0xfff = 0 ∧ pagestr.length = 4096 then
    forBytes storeByte addr (fun i => pagestr.getD i 0) 4096 0 mem
  else throw (.failure "Too many errors")

theorem and_fff_eq_zero_iff (a : I64) :
    a &&& 0xfff = 0 ↔ a.toNat % 4096 = 0 := by
  have hmask : (0xfff : I64).toNat = 2 ^ 12 - 1 := rfl
  rw [← BitVec.toNat_inj, BitVec.toNat_and, hmask,
    Nat.and_two_pow_sub_one_eq_mod]
  rfl

theorem sub_toNat_lt_one_iff (a x : I64) : (x - a).toNat < 1 ↔ x = a := by
  constructor
  · intro h
    rw [← add_sub_toNat a x, Nat.lt_one_iff.mp h]
    exact BitVec.add_zero a
  · rintro rfl
    rw [BitVec.sub_self]
    exact Nat.one_pos

/-! ## The class `concrete_hash_memory` -/

/-- The hash table from addresses to bytes. -/
abbrev HashMemory := I64 → Option UInt8

namespace HashMemory

def storeByte (mem : HashMemory) (addr : I64) (b : UInt8) :
    Loading HashMemory :=
  .ok (Function.update mem addr (some b))

def maybeLoadByte (mem : HashMemory) (addr : I64) : Option UInt8 := mem addr

theorem storeByte_outcome (mem : HashMemory) (a : I64) (b : UInt8) :
    Outcome True (fun mem' => Writes id a 1 (fun _ => b) mem.maybeLoadByte
      mem'.maybeLoadByte) (mem.storeByte a b) := by
  apply Outcome.pure
  intro x
  simp only [sub_toNat_lt_one_iff]
  split_ifs with h
  · rw [h]
    exact Function.update_self ..
  · exact Function.update_of_ne h ..

def loader : LoaderMemory HashMemory (Option UInt8) where
  storeByte := storeByte
  storePage := storePageBytes storeByte
  cell := maybeLoadByte
  value := id
  Supports _ := True
  storeByte_outcome := storeByte_outcome
  storePage_outcome mem a p ha hp := by
    rw [storePageBytes, if_pos ⟨(and_fff_eq_zero_iff a).mpr ha, hp⟩]
    exact forBytes_outcome storeByte_outcome mem a _ (by norm_num)

end HashMemory

/-! ## The class `string_maybe_memory` -/

/-- A page and the bitmap of its bytes that are present, eight to a
character. -/
structure MaybePage where
  pageStr : ℕ → UInt8
  bitmap : ℕ → ℕ

/-- The arrays of pages and bitmaps, of which an index has both or none. -/
abbrev StringMaybeMemory := ℕ → Option MaybePage

namespace StringMaybeMemory

def pageOf (addr : I64) : ℤ := I64.toOCamlInt (addr.sshiftRight 12)

def idxOf (addr : I64) : ℕ := (addr &&& 0xfff).toNat

def checkPage (page : ℤ) (addr : I64) (isStore : Bool) : Loading Unit :=
  if page < 0 ∨ page > 0x100001 then throw (.simulatedSegfault addr isStore)
  else pure ()

/-- An index into the arrays, of which there are `0x100001` entries. -/
def index (page : ℤ) : Loading ℕ :=
  if 0 ≤ page ∧ page < 0x100001 then pure page.toNat
  else throw (.invalidArgument "index out of bounds")

def newPage : MaybePage := ⟨fun _ => 0, fun _ => 0⟩

def MaybePage.store (p : MaybePage) (idx : ℕ) (b : UInt8) : MaybePage where
  pageStr := Function.update p.pageStr idx b
  bitmap := Function.update p.bitmap (idx >>> 3)
    (p.bitmap (idx >>> 3) ||| 1 <<< (idx &&& 7))

def storeByte (mem : StringMaybeMemory) (addr : I64) (b : UInt8) :
    Loading StringMaybeMemory := do
  checkPage (pageOf addr) addr true
  let page ← index (pageOf addr)
  pure (Function.update mem page
    (some (MaybePage.store ((mem page).getD newPage) (idxOf addr) b)))

def allPresent : ℕ → ℕ := fun _ => 0xff

/-- `store_page`; a failed assertion raises. -/
def storePage (mem : StringMaybeMemory) (addr : I64) (newstr : OString) :
    Loading StringMaybeMemory :=
  if addr &&& 0xfff = 0 ∧ newstr.length = 4096 then do
    let page ← index (pageOf addr)
    pure (Function.update mem page
      (some ⟨fun i => newstr.getD i 0, allPresent⟩))
  else throw (.failure "Too many errors")

def MaybePage.load (p : MaybePage) (idx : ℕ) : Option UInt8 :=
  if p.bitmap (idx >>> 3) &&& 1 <<< (idx &&& 7) = 0 then none
  else some (p.pageStr idx)

def maybeLoadByte (mem : StringMaybeMemory) (addr : I64) :
    Loading (Option UInt8) := do
  checkPage (pageOf addr) addr false
  let page ← index (pageOf addr)
  pure ((mem page).bind fun p => MaybePage.load p (idxOf addr))

theorem idxOf_eq (a : I64) : idxOf a = a.toNat % 4096 := by
  have hmask : (0xfff : I64).toNat = 2 ^ 12 - 1 := rfl
  rw [idxOf, BitVec.toNat_and, hmask, Nat.and_two_pow_sub_one_eq_mod]

theorem pageOf_eq (a : I64) : pageOf a = a.toInt / 4096 := by
  have hshift : (a.sshiftRight 12).toInt = a.toInt / 4096 := by
    rw [BitVec.toInt_sshiftRight, Int.shiftRight_eq_div_pow]
    rfl
  have hlt := BitVec.toInt_lt (x := a)
  have hle := BitVec.le_toInt (x := a)
  rw [pageOf, I64.toOCamlInt, BitVec.toInt_setWidth,
    ← Int.bmod_bmod_of_dvd (Nat.pow_dvd_pow 2 (by norm_num : 63 ≤ 64)),
    ← BitVec.toInt_eq_toNat_bmod, hshift]
  apply Int.bmod_eq_of_le <;> norm_num at * <;> omega

/-- The addresses of the pages there are. -/
def Supports (a : I64) : Prop := a.toNat < 0x100001000

theorem index_eq_ok {a : I64} {k : ℕ} :
    index (pageOf a) = .ok k ↔ Supports a ∧ k = a.toNat / 4096 := by
  have hpage := pageOf_eq a
  have hcond := BitVec.toInt_eq_toNat_cond a
  have ha := a.isLt
  rw [index]
  unfold Supports
  split_ifs with h
  · constructor
    · intro hk
      cases hk
      split_ifs at hcond <;> omega
    · rintro ⟨hs, rfl⟩
      refine congrArg Except.ok ?_
      split_ifs at hcond <;> omega
  · constructor
    · intro hk
      cases hk
    · rintro ⟨hs, -⟩
      split_ifs at hcond <;> omega

theorem checkPage_eq {a : I64} (h : Supports a) (isStore : Bool) :
    checkPage (pageOf a) a isStore = .ok () := by
  have hpage := pageOf_eq a
  have hcond := BitVec.toInt_eq_toNat_cond a
  unfold Supports at h
  rw [checkPage, if_neg]
  · rfl
  · split_ifs at hcond <;> omega

/-- A load at an address that is supported finds what the page has. -/
theorem maybeLoadByte_eq (mem : StringMaybeMemory) {a : I64} (h : Supports a) :
    mem.maybeLoadByte a = .ok ((mem (a.toNat / 4096)).bind fun p =>
      MaybePage.load p (idxOf a)) := by
  rw [maybeLoadByte, checkPage_eq h, index_eq_ok.mpr ⟨h, rfl⟩]
  rfl

/-- An address that is not supported raises, whatever the memory. -/
theorem maybeLoadByte_of_not (mem mem' : StringMaybeMemory) {a : I64}
    (h : ¬Supports a) : mem.maybeLoadByte a = mem'.maybeLoadByte a := by
  unfold maybeLoadByte
  cases hindex : index (pageOf a) with
  | ok k => exact absurd (index_eq_ok.mp hindex).1 h
  | error e => rfl

theorem bit_eq_zero_iff (x k : ℕ) :
    x &&& 1 <<< k = 0 ↔ x.testBit k = false := by
  rw [Nat.one_shiftLeft, Nat.and_two_pow, Nat.mul_eq_zero]
  cases x.testBit k <;> simp

theorem same_bit_iff (i j : ℕ) :
    j >>> 3 = i >>> 3 ∧ j &&& 7 = i &&& 7 ↔ j = i := by
  have hmod : ∀ k : ℕ, k &&& 7 = k % 8 := fun k =>
    Nat.and_two_pow_sub_one_eq_mod k 3
  rw [hmod, hmod, Nat.shiftRight_eq_div_pow, Nat.shiftRight_eq_div_pow]
  omega

/-- The bit of a byte is set. -/
def MaybePage.present (p : MaybePage) (idx : ℕ) : Bool :=
  (p.bitmap (idx >>> 3)).testBit (idx &&& 7)

theorem load_eq (p : MaybePage) (i : ℕ) : MaybePage.load p i =
    if MaybePage.present p i then some (p.pageStr i) else none := by
  have hiff := bit_eq_zero_iff (p.bitmap (i >>> 3)) (i &&& 7)
  rw [MaybePage.load, MaybePage.present]
  cases hbit : (p.bitmap (i >>> 3)).testBit (i &&& 7) with
  | false => exact if_pos (hiff.mpr hbit)
  | true =>
    refine if_neg fun h => ?_
    rw [hiff.mp h] at hbit
    cases hbit

theorem store_bitmap (p : MaybePage) (idx : ℕ) (b : UInt8) :
    (MaybePage.store p idx b).bitmap = Function.update p.bitmap (idx >>> 3)
      (p.bitmap (idx >>> 3) ||| 1 <<< (idx &&& 7)) := rfl

theorem store_pageStr (p : MaybePage) (idx : ℕ) (b : UInt8) :
    (MaybePage.store p idx b).pageStr = Function.update p.pageStr idx b := rfl

theorem present_store (p : MaybePage) (i j : ℕ) (b : UInt8) :
    MaybePage.present (MaybePage.store p i b) j =
      (decide (j = i) || MaybePage.present p j) := by
  have hsame := same_bit_iff i j
  rw [MaybePage.present, MaybePage.present, store_bitmap]
  by_cases hchar : j >>> 3 = i >>> 3
  · rw [hchar, Function.update_self, Nat.testBit_or, Nat.one_shiftLeft,
      Bool.or_comm, ← hchar]
    by_cases hbit : i &&& 7 = j &&& 7
    · rw [hbit, Nat.testBit_two_pow_self, decide_eq_true]
      exact hsame.mp ⟨hchar, hbit.symm⟩
    · rw [Nat.testBit_two_pow_of_ne hbit, decide_eq_false]
      rintro rfl
      exact hbit rfl
  · rw [Function.update_of_ne hchar, decide_eq_false]
    · rfl
    · rintro rfl
      exact hchar rfl

theorem load_store (p : MaybePage) (i j : ℕ) (b : UInt8) :
    MaybePage.load (MaybePage.store p i b) j =
      if j = i then some b else MaybePage.load p j := by
  rw [load_eq, load_eq, present_store]
  by_cases hji : j = i
  · subst hji
    rw [if_pos rfl, store_pageStr, Function.update_self, decide_eq_true rfl]
    rfl
  · rw [if_neg hji, store_pageStr, Function.update_of_ne hji,
      decide_eq_false hji, Bool.false_or]

theorem load_allPresent (str : ℕ → UInt8) (i : ℕ) :
    MaybePage.load ⟨str, allPresent⟩ i = some (str i) := by
  have hlt : i &&& 7 < 8 := by
    rw [Nat.and_two_pow_sub_one_eq_mod i 3]
    exact Nat.mod_lt _ (by norm_num)
  refine if_neg ?_
  change ¬0xff &&& 1 <<< (i &&& 7) = 0
  generalize i &&& 7 = k at hlt
  interval_cases k <;> decide

theorem load_newPage (i : ℕ) : MaybePage.load newPage i = none :=
  if_pos (Nat.zero_and _)

/-- The byte that was loaded, if one was. -/
def value : Loading (Option UInt8) → Option UInt8
  | .ok b => b
  | .error _ => none

/-- Two addresses with the same page and index are one. -/
theorem eq_of_page {a x : I64} (hpage : x.toNat / 4096 = a.toNat / 4096)
    (hidx : idxOf x = idxOf a) : x = a := by
  rw [idxOf_eq, idxOf_eq] at hidx
  apply BitVec.eq_of_toNat_eq
  omega

/-- A page that is replaced by one that differs in a run of bytes. -/
theorem writes_update (mem : StringMaybeMemory) {a : I64} (hs : Supports a)
    {n : ℕ} {bs : ℕ → UInt8} {p : MaybePage} (hn : a.toNat % 4096 + n ≤ 4096)
    (hin : ∀ i < n, MaybePage.load p (a.toNat % 4096 + i) = some (bs i))
    (hout : ∀ j < 4096, (j < a.toNat % 4096 ∨ a.toNat % 4096 + n ≤ j) →
      MaybePage.load p j =
        (mem (a.toNat / 4096)).bind fun p => MaybePage.load p j) :
    Writes value a n bs mem.maybeLoadByte
      (maybeLoadByte (Function.update mem (a.toNat / 4096) (some p))) := by
  intro x
  have hlt := (x - a).isLt
  have ha := a.isLt
  have hsub : x.toNat = (a.toNat + (x - a).toNat) % 2 ^ 64 := by
    have h := congrArg BitVec.toNat (add_sub_toNat a x)
    rw [BitVec.toNat_add, BitVec.toNat_ofNat, Nat.add_mod_mod] at h
    exact h.symm
  unfold Supports at hs
  split_ifs with hx
  · have hsx : Supports x := by
      unfold Supports
      omega
    have hidx : idxOf x = a.toNat % 4096 + (x - a).toNat := by
      rw [idxOf_eq]
      omega
    have hpage : x.toNat / 4096 = a.toNat / 4096 := by omega
    rw [maybeLoadByte_eq _ hsx, hpage, Function.update_self, Option.bind_some,
      hidx, hin _ hx]
    rfl
  · by_cases hsx : Supports x
    · rw [maybeLoadByte_eq _ hsx, maybeLoadByte_eq _ hsx]
      by_cases hpage : x.toNat / 4096 = a.toNat / 4096
      · rw [hpage, Function.update_self, Option.bind_some, hout _ (by
          rw [idxOf_eq]
          omega)]
        rw [idxOf_eq]
        omega
      · rw [Function.update_of_ne hpage]
    · exact maybeLoadByte_of_not _ _ hsx

theorem storeByte_outcome (mem : StringMaybeMemory) (a : I64) (b : UInt8) :
    Outcome (Supports a) (fun mem' => Writes value a 1 (fun _ => b)
      mem.maybeLoadByte mem'.maybeLoadByte) (mem.storeByte a b) := by
  by_cases hs : Supports a
  · rw [storeByte, checkPage_eq hs, index_eq_ok.mpr ⟨hs, rfl⟩]
    apply Outcome.pure
    apply writes_update mem hs (by omega)
    · intro i hi
      rw [load_store, idxOf_eq, if_pos (by omega)]
    · intro j hj hout
      rw [load_store, idxOf_eq, if_neg (by omega)]
      cases mem (a.toNat / 4096) with
      | none => exact load_newPage j
      | some p => rfl
  · refine ⟨?_, fun h => absurd h hs⟩
    intro mem' h
    unfold storeByte at h
    cases hcheck : checkPage (pageOf a) a true with
    | error e =>
      rw [hcheck] at h
      cases h
    | ok u =>
      cases hindex : index (pageOf a) with
      | ok k => exact absurd (index_eq_ok.mp hindex).1 hs
      | error e =>
        rw [hcheck, hindex] at h
        cases h

theorem storePage_outcome (mem : StringMaybeMemory) (a : I64) (p : OString)
    (ha : a.toNat % 4096 = 0) (hp : p.length = 4096) :
    Outcome (∀ i < 4096, Supports (a + BitVec.ofNat 64 i))
      (fun mem' => Writes value a 4096 (fun i => p.getD i 0)
        mem.maybeLoadByte mem'.maybeLoadByte) (mem.storePage a p) := by
  rw [storePage, if_pos ⟨(and_fff_eq_zero_iff a).mpr ha, hp⟩]
  by_cases hs : Supports a
  · rw [index_eq_ok.mpr ⟨hs, rfl⟩]
    apply Outcome.pure
    apply writes_update mem hs (by omega)
    · intro i hi
      rw [load_allPresent, ha, Nat.zero_add]
    · intro j hj hout
      omega
  · constructor
    · intro mem' h
      cases hindex : index (pageOf a) with
      | ok k => exact absurd (index_eq_ok.mp hindex).1 hs
      | error e =>
        rw [hindex] at h
        cases h
    · intro h
      refine absurd ?_ hs
      have h0 := h 0 (by norm_num)
      rwa [show a + BitVec.ofNat 64 0 = a from BitVec.add_zero a] at h0

def loader : LoaderMemory StringMaybeMemory (Loading (Option UInt8)) where
  storeByte := storeByte
  storePage := storePage
  cell := maybeLoadByte
  value := value
  Supports := Supports
  storeByte_outcome := storeByte_outcome
  storePage_outcome := storePage_outcome

end StringMaybeMemory

/-! ## Granular memories -/

open Granular Bits

section Granular

variable {μ σ τ : Type} {D : Domain τ} {IsWidth : ℕ → τ → Prop}

/-- The values that a domain makes of concrete bytes and of 64-bit numbers, and
the byte that it reads back. -/
structure ConcreteValues (D : Domain τ) (IsWidth : ℕ → τ → Prop) where
  fromConcrete8 : UInt8 → τ
  fromConcrete64 : I64 → τ
  toConcrete8 : τ → Option UInt8
  lawful : LawfulDomain D IsWidth
  isWidth8 : ∀ b, IsWidth 8 (fromConcrete8 b)
  isWidth64 : ∀ l, IsWidth 64 (fromConcrete64 l)
  toConcrete8_from : ∀ b, toConcrete8 (fromConcrete8 b) = some b
  toConcrete8_extract : ∀ l, ∀ i < 8,
    toConcrete8 (D.extract8From64 (fromConcrete64 l) i) =
      some (UInt8.ofBitVec (lane 8 l i))

/-- The `i`-th 64-bit number of a page. -/
def pageLong (p : OString) (i : ℕ) : I64 :=
  let c (j : ℕ) : I64 := (p.getD (8 * i + j) 0).toBitVec.setWidth 64
  let s0 := c 0 ||| c 1 <<< 8
  let s1 := c 2 ||| c 3 <<< 8
  let s2 := c 4 ||| c 5 <<< 8
  let s3 := c 6 ||| c 7 <<< 8
  let w0 := s0 ||| s1 <<< 16
  let w1 := s2 ||| s3 <<< 16
  w0 ||| w1 <<< 32

theorem lane_shiftLeft (x : I64) {n : ℕ} (k : ℕ) (hn : n = 8 * k) {j : ℕ}
    (hj : j < 8) :
    lane 8 (x <<< n) j = if j < k then 0 else lane 8 x (j - k) := by
  subst hn
  split_ifs with h
  · exact lane_shiftLeft_of_lt x h
  · obtain ⟨i, rfl⟩ := Nat.exists_eq_add_of_le (not_lt.mp h)
    rw [lane_shiftLeft_add x (by omega), Nat.add_sub_cancel_left]

theorem lane_byte (b : UInt8) (j : ℕ) :
    lane 8 (b.toBitVec.setWidth 64) j = if j = 0 then b.toBitVec else 0 := by
  rw [lane_setWidth_of_le _ (by norm_num)]
  split_ifs with h
  · rw [h, lane_self]
  · exact lane_of_ge _ (by omega)

theorem lane_pageLong (p : OString) (i : ℕ) {j : ℕ} (hj : j < 8) :
    lane 8 (pageLong p i) j = (p.getD (8 * i + j) 0).toBitVec := by
  have h8 := fun x => @lane_shiftLeft x 8 1 rfl
  have h16 := fun x => @lane_shiftLeft x 16 2 rfl
  have h32 := fun x => @lane_shiftLeft x 32 4 rfl
  unfold pageLong
  interval_cases j <;> simp [lane_or, h8, h16, h32, lane_byte]

/-- `store_page` of `granular_memory`, by 64-bit stores from the `i`-th on. -/
def storeLongs (M : GranularMemory μ σ τ) (C : ConcreteValues D IsWidth)
    (addr : I64) (p : OString) : (n i : ℕ) → μ → μ
  | 0, _, mem => mem
  | n + 1, i, mem => storeLongs M C addr p n (i + 1)
      (M.storeLong D mem (addr + BitVec.ofNat 64 (8 * i))
        (C.fromConcrete64 (pageLong p i)))

variable {M : GranularMemory μ σ τ} {chunk : μ → I64 → Gran64 τ}
  {setChunk : μ → I64 → Gran64 τ → μ}

/-- The byte of a cell. -/
def ConcreteValues.value (C : ConcreteValues D IsWidth) (v : Option τ) :
    Option UInt8 :=
  v.bind C.toConcrete8

theorem writes_of_stores (C : ConcreteValues D IsWidth) {size : Size}
    {mem mem' : μ} {a : I64} {v : τ} {bs : ℕ → UInt8}
    (h : Stores D IsWidth chunk size mem a v mem')
    (hbs : ∀ i < size.bytes, C.toConcrete8 (byteOf D size v i) = some (bs i)) :
    Writes C.value a size.bytes bs (contents D chunk mem)
      (contents D chunk mem') := by
  intro x
  rw [h.2, patch]
  split_ifs with hx
  · exact hbs _ hx
  · rfl

theorem storeLongs_from (hM : LawfulMemory M chunk setChunk)
    (C : ConcreteValues D IsWidth) (mem0 : μ) (addr : I64) (p : OString) :
    ∀ (n i : ℕ) (mem : μ), 8 * (i + n) ≤ 4096 → MemoryWf IsWidth chunk mem →
      Writes C.value addr (8 * i) (fun j => p.getD j 0)
        (contents D chunk mem0) (contents D chunk mem) →
      MemoryWf IsWidth chunk (storeLongs M C addr p n i mem) ∧
      Writes C.value addr (8 * (i + n)) (fun j => p.getD j 0)
        (contents D chunk mem0)
        (contents D chunk (storeLongs M C addr p n i mem)) := by
  intro n
  induction n with
  | zero => exact fun i mem _ hwf h => ⟨hwf, h⟩
  | succ n ih =>
    intro i mem hn hwf h
    have hstore := storeLong_stores hM C.lawful hwf
      (addr + BitVec.ofNat 64 (8 * i)) (C.isWidth64 (pageLong p i))
    have hbytes : ∀ j < Size.long.bytes,
        C.toConcrete8 (byteOf D .long (C.fromConcrete64 (pageLong p i)) j) =
          some (p.getD (8 * i + j) 0) := by
      intro j hj
      rw [byteOf, C.toConcrete8_extract _ _ hj, lane_pageLong p i hj]
    have hwrites := writes_of_stores C hstore hbytes
    have hnext := h.append hwrites
      (show 8 * i + Size.long.bytes < 2 ^ 64 by
        rw [Size.bytes]
        omega)
    have hassoc : i + (n + 1) = i + 1 + n := by omega
    rw [hassoc] at hn ⊢
    exact ih (i + 1) _ hn hstore.1 hnext

/-- The granular memories whose trees have values of their widths. -/
abbrev WfMemory (IsWidth : ℕ → τ → Prop) (chunk : μ → I64 → Gran64 τ) :=
  { mem : μ // MemoryWf IsWidth chunk mem }

theorem storeLongs_stores (hM : LawfulMemory M chunk setChunk)
    (C : ConcreteValues D IsWidth) (mem : WfMemory IsWidth chunk) (addr : I64)
    (p : OString) {n : ℕ} (hn : 8 * n ≤ 4096) :
    MemoryWf IsWidth chunk (storeLongs M C addr p n 0 mem.1) ∧
    Writes C.value addr (8 * n) (fun j => p.getD j 0)
      (contents D chunk mem.1)
      (contents D chunk (storeLongs M C addr p n 0 mem.1)) := by
  have h := storeLongs_from hM C mem.1 addr p n 0 mem.1 (by omega) mem.2
    (Writes.refl C.value addr _ _)
  rwa [Nat.zero_add] at h

/-- `n` 64-bit numbers of a page; a whole page has 512. -/
def granularStoreLongs (hM : LawfulMemory M chunk setChunk)
    (C : ConcreteValues D IsWidth) (mem : WfMemory IsWidth chunk) (a : I64)
    (p : OString) (n : ℕ) (hn : 8 * n ≤ 4096) : WfMemory IsWidth chunk :=
  ⟨storeLongs M C a p n 0 mem.1, (storeLongs_stores hM C mem a p hn).1⟩

theorem granularStoreLongs_writes (hM : LawfulMemory M chunk setChunk)
    (C : ConcreteValues D IsWidth) (mem : WfMemory IsWidth chunk) (a : I64)
    (p : OString) (n : ℕ) (hn : 8 * n ≤ 4096) :
    Writes C.value a (8 * n) (fun j => p.getD j 0) (contents D chunk mem.1)
      (contents D chunk (granularStoreLongs hM C mem a p n hn).1) :=
  (storeLongs_stores hM C mem a p hn).2

def granularLoader (hM : LawfulMemory M chunk setChunk)
    (C : ConcreteValues D IsWidth) :
    LoaderMemory (WfMemory IsWidth chunk) (Option τ) where
  storeByte mem a b := .ok ⟨M.storeByte D mem.1 a (C.fromConcrete8 b),
    (storeByte_stores hM C.lawful mem.2 a (C.isWidth8 b)).1⟩
  storePage mem a p := .ok (granularStoreLongs hM C mem a p 512 le_rfl)
  cell mem := contents D chunk mem.1
  value := C.value
  Supports _ := True
  storeByte_outcome mem a b := Outcome.pure (writes_of_stores C
    (storeByte_stores hM C.lawful mem.2 a (C.isWidth8 b))
    fun _ _ => C.toConcrete8_from b)
  storePage_outcome mem a p _ _ :=
    Outcome.pure (granularStoreLongs_writes hM C mem a p 512 le_rfl)

end Granular

end Fuzzball.Loader
