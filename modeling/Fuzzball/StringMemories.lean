import Fuzzball.ConcreteMemory

/-!
# Memories made of an array of pages

The classes `concrete_string_memory` and `string_maybe_memory`.  The check of a
page number lets one page through that the arrays do not have; away from that
page every access is made or raises a segmentation fault, and what is loaded is
what `concrete_hash_memory` has.
-/

namespace Fuzzball.ConcreteMemory

open Loader Granular

/-- The methods that the three classes define. -/
structure Methods (μ : Type) extends ByteMethods μ where
  storePage : μ → I64 → OString → Loading μ
  maybeLoadByte : μ → I64 → Loading (Option UInt8 × μ)

/-- What `store_page` is given, with what it asserts of it. -/
structure PageStore where
  addr : I64
  newstr : OString
  aligned : addr &&& 0xfff = 0
  length_eq : newstr.length = 4096

inductive Access
  | load (size : Size) (addr : I64)
  | maybeLoad (addr : I64)
  | store (size : Size) (addr v : I64)
  | storePage (p : PageStore)

inductive Answer
  | number (n : I64)
  | maybe (b : Option UInt8)
  | done
  deriving DecidableEq

namespace Methods

variable {μ : Type} (M : Methods μ)

def access : Access → μ → Loading (Answer × μ)
  | .load size addr, mem => do
    let (n, mem) ← M.load size mem addr
    pure (.number n, mem)
  | .maybeLoad addr, mem => do
    let (b, mem) ← M.maybeLoadByte mem addr
    pure (.maybe b, mem)
  | .store size addr v, mem => do
    let mem ← M.store size mem addr v
    pure (.done, mem)
  | .storePage p, mem => do
    let mem ← M.storePage mem p.addr p.newstr
    pure (.done, mem)

/-- The answers to a sequence of accesses, if none of them raises. -/
def run : List Access → μ → Loading (List Answer × μ)
  | [], mem => pure ([], mem)
  | a :: rest, mem => do
    let (answer, mem) ← M.access a mem
    let (answers, mem) ← run rest mem
    pure (answer :: answers, mem)

end Methods

def hashMemory : Methods HashMemory where
  toByteMethods := hashMethods
  storePage := storePageBytes HashMemory.storeByte
  maybeLoadByte mem addr := .ok (mem.maybeLoadByte addr, mem)

/-- `check_page` and the index into the array of pages. -/
def pageAt (addr : I64) (isStore : Bool) : Loading ℕ := do
  StringMaybeMemory.checkPage (StringMaybeMemory.pageOf addr) addr isStore
  StringMaybeMemory.index (StringMaybeMemory.pageOf addr)

/-! ## The class `concrete_string_memory` -/

/-- The array of pages. -/
abbrev StringMemory := ℕ → Option (ℕ → UInt8)

namespace StringMemory

open StringMaybeMemory (pageOf idxOf)

/-- `String.make 4096 '\x00'`. -/
def newPage : ℕ → UInt8 := fun _ => 0

def storeByte (mem : StringMemory) (addr : I64) (b : UInt8) :
    Loading StringMemory := do
  let page ← pageAt addr true
  pure (Function.update mem page
    (some (Function.update ((mem page).getD newPage) (idxOf addr) b)))

/-- `store_page`, which does not check the page. -/
def storePage (mem : StringMemory) (addr : I64) (newstr : OString) :
    Loading StringMemory :=
  if addr &&& 0xfff = 0 ∧ newstr.length = 4096 then do
    let page ← StringMaybeMemory.index (pageOf addr)
    pure (Function.update mem page (some fun i => newstr.getD i 0))
  else throw (.failure "Too many errors")

/-- A load also makes the page. -/
def loadByte (mem : StringMemory) (addr : I64) :
    Loading (UInt8 × StringMemory) := do
  let page ← pageAt addr false
  let pageStr := (mem page).getD newPage
  pure (pageStr (idxOf addr), Function.update mem page (some pageStr))

def methods : Methods StringMemory where
  storeByte := storeByte
  loadByte := loadByte
  storePage := storePage
  maybeLoadByte mem addr := do
    let (b, mem) ← loadByte mem addr
    pure (some b, mem)

end StringMemory

/-! ## The class `string_maybe_memory` -/

namespace StringMaybe

open Loader.StringMaybeMemory

/-- `load_byte`, which makes the page and asks for no bit of its bitmap. -/
def loadByte (mem : StringMaybeMemory) (addr : I64) :
    Loading (UInt8 × StringMaybeMemory) := do
  let page ← pageAt addr true
  let p := (mem page).getD newPage
  pure (p.pageStr (idxOf addr), Function.update mem page (some p))

def methods : Methods StringMaybeMemory where
  storeByte := StringMaybeMemory.storeByte
  loadByte := loadByte
  storePage := StringMaybeMemory.storePage
  maybeLoadByte mem addr := do
    let b ← StringMaybeMemory.maybeLoadByte mem addr
    pure (b, mem)

end StringMaybe

/-! ## The page an address is on -/

/-- The address is on the page `0x100001`, which the check lets through. -/
def OnExtraPage (a : I64) : Prop :=
  0x100001000 ≤ a.toNat ∧ a.toNat < 0x100002000

/-- What a method does that starts with the check of an address. -/
structure Checked {α : Type} (a : I64) (r : Loading α) : Prop where
  ok : StringMaybeMemory.Supports a → ∃ x, r = .ok x
  extra : OnExtraPage a → r = .error (.invalidArgument "index out of bounds")
  fault : ¬StringMaybeMemory.Supports a → ¬OnExtraPage a →
    ∃ isStore, r = .error (.simulatedSegfault a isStore)

theorem Checked.bind {α β : Type} {a : I64} {r : Loading α}
    (h : Checked a r) {f : α → Loading β} (hf : ∀ x, ∃ y, f x = .ok y) :
    Checked a (r >>= f) := by
  constructor
  · intro hs
    obtain ⟨x, rfl⟩ := h.ok hs
    exact hf x
  · intro he
    rw [h.extra he]
    rfl
  · intro hs he
    obtain ⟨isStore, hr⟩ := h.fault hs he
    refine ⟨isStore, ?_⟩
    rw [hr]
    rfl

theorem pageAt_checked (a : I64) (isStore : Bool) :
    Checked a (pageAt a isStore) := by
  have hpage := StringMaybeMemory.pageOf_eq a
  have hcond := BitVec.toInt_eq_toNat_cond a
  have ha := a.isLt
  constructor
  · intro hs
    refine ⟨a.toNat / 4096, ?_⟩
    rw [pageAt, StringMaybeMemory.checkPage_eq hs]
    exact StringMaybeMemory.index_eq_ok.mpr ⟨hs, rfl⟩
  · rintro ⟨hlow, hhigh⟩
    have hextra : StringMaybeMemory.pageOf a = 0x100001 := by
      split_ifs at hcond <;> omega
    rw [pageAt, hextra]
    rfl
  · intro hs he
    refine ⟨isStore, ?_⟩
    unfold StringMaybeMemory.Supports at hs
    unfold OnExtraPage at he
    rw [pageAt, StringMaybeMemory.checkPage, if_pos]
    · rfl
    · split_ifs at hcond <;> omega

/-! ## Accesses that raise nothing but a segmentation fault -/

/-- The access is made, or raises `SimulatedSegfault`. -/
def Safe {α : Type} (r : Loading α) : Prop :=
  (∃ x, r = .ok x) ∨ ∃ a isStore, r = .error (.simulatedSegfault a isStore)

section Safety

variable {α β μ : Type} {a addr : I64} {n : ℕ}

/-- What follows does not raise. -/
theorem safe_bind_ok {r : Loading α} {f : α → Loading β}
    (hf : ∀ x, ∃ y, f x = .ok y) : Safe (r >>= f) ↔ Safe r := by
  cases r with
  | ok x => exact iff_of_true (Or.inl (hf x)) (Or.inl ⟨x, rfl⟩)
  | error e =>
    constructor
    · rintro (⟨y, hy⟩ | ⟨b, isStore, hb⟩)
      · cases hy
      · cases hb
        exact Or.inr ⟨b, isStore, rfl⟩
    · rintro (⟨y, hy⟩ | ⟨b, isStore, hb⟩)
      · cases hy
      · cases hb
        exact Or.inr ⟨b, isStore, rfl⟩

theorem Checked.safe_bind {r : Loading α} {f : α → Loading β} {P : Prop}
    (h : Checked a r) (hf : ∀ x, Safe (f x) ↔ P)
    (hfault : ¬StringMaybeMemory.Supports a → ¬OnExtraPage a → P) :
    Safe (r >>= f) ↔ ¬OnExtraPage a ∧ P := by
  by_cases he : OnExtraPage a
  · rw [h.extra he]
    constructor
    · rintro (⟨x, hx⟩ | ⟨b, isStore, hb⟩)
      · cases hx
      · cases hb
    · intro hP
      exact absurd he hP.1
  · by_cases hs : StringMaybeMemory.Supports a
    · obtain ⟨x, rfl⟩ := h.ok hs
      change Safe (f x) ↔ _
      rw [hf x]
      exact (and_iff_right he).symm
    · obtain ⟨isStore, rfl⟩ := h.fault hs he
      exact iff_of_true (Or.inr ⟨a, isStore, rfl⟩) ⟨he, hfault hs he⟩

theorem Checked.safe_iff {r : Loading α} (h : Checked a r) :
    Safe r ↔ ¬OnExtraPage a := by
  have hbind := h.safe_bind (f := pure) (P := True)
    (fun x => iff_of_true (Or.inl ⟨x, rfl⟩) trivial) fun _ _ => trivial
  rwa [bind_pure, and_true] at hbind

/-- No byte of a run is on the extra page. -/
def OffExtraPage (addr : I64) (i n : ℕ) : Prop :=
  ∀ j, i ≤ j → j < i + n → ¬OnExtraPage (addr + BitVec.ofNat 64 j)

theorem offExtraPage_succ (addr : I64) (i n : ℕ) :
    OffExtraPage addr i (n + 1) ↔
      ¬OnExtraPage (addr + BitVec.ofNat 64 i) ∧
        OffExtraPage addr (i + 1) n := by
  constructor
  · intro h
    exact ⟨h i le_rfl (by omega), fun j hj hlt => h j (by omega) (by omega)⟩
  · rintro ⟨h, hrest⟩ j hj hlt
    obtain rfl | hne := eq_or_ne j i
    · exact h
    · exact hrest j (by omega) (by omega)

/-- The extra page is not reached from a page that is not there. -/
theorem offExtraPage_of_fault {i n : ℕ} (hin : i + 1 + n ≤ 8)
    (hs : ¬StringMaybeMemory.Supports (addr + BitVec.ofNat 64 i))
    (he : ¬OnExtraPage (addr + BitVec.ofNat 64 i)) :
    OffExtraPage addr (i + 1) n := by
  intro j hj hlt
  obtain ⟨d, rfl⟩ := Nat.exists_eq_add_of_le hj
  have hsum : addr + BitVec.ofNat 64 (i + 1 + d) =
      addr + BitVec.ofNat 64 i + BitVec.ofNat 64 (1 + d) := by
    rw [Nat.add_assoc, BitVec.ofNat_add, BitVec.add_assoc]
  rw [hsum]
  generalize addr + BitVec.ofNat 64 i = b at hs he
  unfold StringMaybeMemory.Supports at hs
  unfold OnExtraPage at he ⊢
  have hb := b.isLt
  rw [BitVec.toNat_add, BitVec.toNat_ofNat]
  omega

/-- The byte methods check the address; a page is stored without a check. -/
structure Guarded (M : Methods μ) : Prop where
  storeByte : ∀ mem a b, Checked a (M.storeByte mem a b)
  loadByte : ∀ mem a, Checked a (M.loadByte mem a)
  maybeLoadByte : ∀ mem a, Checked a (M.maybeLoadByte mem a)
  storePage : ∀ mem (p : PageStore),
    Safe (M.storePage mem p.addr p.newstr) ↔ StringMaybeMemory.Supports p.addr

variable {M : Methods μ}

theorem Guarded.forBytes_safe (hM : Guarded M) (bs : ℕ → UInt8) (i : ℕ)
    (hin : i + n ≤ 8) (mem : μ) :
    Safe (forBytes M.storeByte addr bs n i mem) ↔ OffExtraPage addr i n := by
  induction n generalizing i mem with
  | zero =>
    refine iff_of_true (Or.inl ⟨mem, rfl⟩) ?_
    intro j hj hlt
    omega
  | succ n ih =>
    rw [offExtraPage_succ, forBytes]
    exact (hM.storeByte mem _ _).safe_bind
      (fun mem' => ih (i + 1) (by omega) mem')
      fun hs he => offExtraPage_of_fault (by omega) hs he

theorem Guarded.loadBytes_safe (hM : Guarded M) (i : ℕ) (hin : i + n ≤ 8)
    (mem : μ) :
    Safe (M.loadBytes addr n i mem) ↔ OffExtraPage addr i n := by
  induction n generalizing i mem with
  | zero =>
    refine iff_of_true (Or.inl ⟨_, rfl⟩) ?_
    intro j hj hlt
    omega
  | succ n ih =>
    rw [offExtraPage_succ, ByteMethods.loadBytes]
    refine (hM.loadByte mem _).safe_bind (fun x => ?_)
      fun hs he => offExtraPage_of_fault (by omega) hs he
    rw [← ih (i + 1) (by omega) x.2]
    exact safe_bind_ok fun y => ⟨_, rfl⟩

theorem offExtraPage_one : OffExtraPage addr 0 1 ↔ ¬OnExtraPage addr := by
  have hzero : addr + BitVec.ofNat 64 0 = addr := BitVec.add_zero addr
  rw [offExtraPage_succ, hzero]
  refine and_iff_left ?_
  intro j hj hlt
  omega

theorem Guarded.store_safe (hM : Guarded M) (size : Size) (mem : μ) (v : I64) :
    Safe (M.store size mem addr v) ↔ OffExtraPage addr 0 size.bytes := by
  cases size with
  | byte => exact (hM.storeByte mem addr _).safe_iff.trans offExtraPage_one.symm
  | short => exact hM.forBytes_safe (byteOf v) 0 (by norm_num) mem
  | word => exact hM.forBytes_safe (byteOf v) 0 (by norm_num) mem
  | long => exact hM.forBytes_safe (byteOf v) 0 (by norm_num) mem

theorem Guarded.load_safe (hM : Guarded M) (size : Size) (mem : μ) :
    Safe (M.load size mem addr) ↔ OffExtraPage addr 0 size.bytes := by
  cases size with
  | byte =>
    have hbyte := (hM.loadByte mem addr).safe_iff.trans offExtraPage_one.symm
    exact (safe_bind_ok fun x => ⟨_, rfl⟩).trans hbyte
  | short => exact hM.loadBytes_safe 0 (by norm_num) mem
  | word => exact hM.loadBytes_safe 0 (by norm_num) mem
  | long => exact hM.loadBytes_safe 0 (by norm_num) mem

/-- No byte of the access is on the extra page, and a page that is stored is
one of the array. -/
def Access.InArray : Access → Prop
  | .load size addr => OffExtraPage addr 0 size.bytes
  | .maybeLoad addr => ¬OnExtraPage addr
  | .store size addr _ => OffExtraPage addr 0 size.bytes
  | .storePage p => StringMaybeMemory.Supports p.addr

theorem Guarded.access_safe (hM : Guarded M) (a : Access) (mem : μ) :
    Safe (M.access a mem) ↔ a.InArray := by
  cases a with
  | load size addr =>
    exact (safe_bind_ok fun x => ⟨_, rfl⟩).trans (hM.load_safe size mem)
  | maybeLoad addr =>
    exact (safe_bind_ok fun x => ⟨_, rfl⟩).trans
      (hM.maybeLoadByte mem addr).safe_iff
  | store size addr v =>
    exact (safe_bind_ok fun x => ⟨_, rfl⟩).trans (hM.store_safe size mem v)
  | storePage p =>
    exact (safe_bind_ok fun x => ⟨_, rfl⟩).trans (hM.storePage mem p)

/-- An index that is not checked. -/
theorem index_safe_iff (a : I64) :
    Safe (StringMaybeMemory.index (StringMaybeMemory.pageOf a)) ↔
      StringMaybeMemory.Supports a := by
  constructor
  · rintro (⟨k, hk⟩ | ⟨b, isStore, hb⟩)
    · exact (StringMaybeMemory.index_eq_ok.mp hk).1
    · unfold StringMaybeMemory.index at hb
      split_ifs at hb
      · cases hb
      · cases hb
  · intro hs
    exact Or.inl ⟨_, StringMaybeMemory.index_eq_ok.mpr ⟨hs, rfl⟩⟩

theorem stringMemory_guarded : Guarded StringMemory.methods where
  storeByte mem a b := (pageAt_checked a true).bind fun k => ⟨_, rfl⟩
  loadByte mem a := (pageAt_checked a false).bind fun k => ⟨_, rfl⟩
  maybeLoadByte mem a :=
    ((pageAt_checked a false).bind fun k => ⟨_, rfl⟩).bind fun x => ⟨_, rfl⟩
  storePage mem p := by
    rw [← index_safe_iff]
    change Safe (StringMemory.storePage mem p.addr p.newstr) ↔ _
    rw [StringMemory.storePage, if_pos ⟨p.aligned, p.length_eq⟩]
    exact safe_bind_ok fun k => ⟨_, rfl⟩

theorem stringMaybe_guarded : Guarded StringMaybe.methods where
  storeByte mem a b := by
    have h : StringMaybe.methods.storeByte mem a b =
        pageAt a true >>= fun page => pure (Function.update mem page _) :=
      (bind_assoc ..).symm
    rw [h]
    exact (pageAt_checked a true).bind fun k => ⟨_, rfl⟩
  loadByte mem a := (pageAt_checked a true).bind fun k => ⟨_, rfl⟩
  maybeLoadByte mem a := by
    have h : StringMaybeMemory.maybeLoadByte mem a =
        pageAt a false >>= fun page => pure _ := (bind_assoc ..).symm
    refine Checked.bind ?_ fun x => ⟨_, rfl⟩
    rw [h]
    exact (pageAt_checked a false).bind fun k => ⟨_, rfl⟩
  storePage mem p := by
    rw [← index_safe_iff]
    change Safe (StringMaybeMemory.storePage mem p.addr p.newstr) ↔ _
    rw [StringMaybeMemory.storePage, if_pos ⟨p.aligned, p.length_eq⟩]
    exact safe_bind_ok fun k => ⟨_, rfl⟩

end Safety

/-! ## Agreement with `concrete_hash_memory` -/

section Simulation

variable {μ : Type}

/-- The byte methods of a class follow those of the hash table; what a
`maybe_load_byte` finds there is seen through `view`. -/
structure Simulates (M : Methods μ) (R : μ → HashMemory → Prop)
    (view : Option UInt8 → Option UInt8) : Prop where
  storeByte : ∀ {mem h a b mem'}, R mem h → M.storeByte mem a b = .ok mem' →
    R mem' (Function.update h a (some b))
  loadByte : ∀ {mem h a x}, R mem h → M.loadByte mem a = .ok x →
    x.1 = (h a).getD 0 ∧ R x.2 h
  maybeLoadByte : ∀ {mem h a x}, R mem h → M.maybeLoadByte mem a = .ok x →
    x.1 = view (h a) ∧ R x.2 h
  storePage : ∀ {mem h mem'} {p : PageStore}, R mem h →
    M.storePage mem p.addr p.newstr = .ok mem' →
    ∃ h', hashMemory.storePage h p.addr p.newstr = .ok h' ∧ R mem' h'

/-- An answer with the byte of a `maybe_load_byte` seen through `view`. -/
def Answer.view (view : Option UInt8 → Option UInt8) : Answer → Answer
  | .number n => .number n
  | .maybe b => .maybe (view b)
  | .done => .done

variable {M : Methods μ} {R : μ → HashMemory → Prop}
  {view : Option UInt8 → Option UInt8}

theorem bind_eq_ok {α β : Type} {r : Loading α} {f : α → Loading β} {y : β} :
    r >>= f = .ok y ↔ ∃ x, r = .ok x ∧ f x = .ok y := by
  cases r with
  | ok x =>
    constructor
    · intro h
      exact ⟨x, rfl, h⟩
    · rintro ⟨_, ⟨rfl⟩, h⟩
      exact h
  | error e =>
    constructor
    · intro h
      cases h
    · rintro ⟨x, hx, -⟩
      cases hx

theorem Simulates.forBytes (hM : Simulates M R view) (addr : I64)
    (bs : ℕ → UInt8) (n i : ℕ) {mem mem' : μ} {h : HashMemory} (hR : R mem h)
    (hrun : Loader.forBytes M.storeByte addr bs n i mem = .ok mem') :
    ∃ h', Loader.forBytes HashMemory.storeByte addr bs n i h = .ok h' ∧
      R mem' h' := by
  induction n generalizing i mem h with
  | zero =>
    cases hrun
    exact ⟨h, rfl, hR⟩
  | succ n ih =>
    obtain ⟨mem1, hstore, hrest⟩ := bind_eq_ok.mp hrun
    obtain ⟨h', hrun', hR'⟩ := ih (i + 1) (hM.storeByte hR hstore) hrest
    exact ⟨h', hrun', hR'⟩

theorem Simulates.loadBytes (hM : Simulates M R view) (addr : I64) (n i : ℕ)
    {mem : μ} {x : I64 × μ} {h : HashMemory} (hR : R mem h)
    (hrun : M.loadBytes addr n i mem = .ok x) :
    hashMethods.loadBytes addr n i h = .ok (x.1, h) ∧ R x.2 h := by
  induction n generalizing i mem x with
  | zero =>
    cases hrun
    exact ⟨rfl, hR⟩
  | succ n ih =>
    obtain ⟨y, hbyte, hrest⟩ := bind_eq_ok.mp hrun
    obtain ⟨z, hbytes, hz⟩ := bind_eq_ok.mp hrest
    obtain ⟨hy, hRy⟩ := hM.loadByte hR hbyte
    obtain ⟨hhash, hRz⟩ := ih (i + 1) hRy hbytes
    cases hz
    refine ⟨?_, hRz⟩
    rw [ByteMethods.loadBytes, hy]
    refine bind_eq_ok.mpr ⟨((h (addr + BitVec.ofNat 64 i)).getD 0, h), rfl, ?_⟩
    exact bind_eq_ok.mpr ⟨(z.1, h), hhash, rfl⟩

theorem Simulates.store (hM : Simulates M R view) (size : Size) (addr v : I64)
    {mem mem' : μ} {h : HashMemory} (hR : R mem h)
    (hrun : M.store size mem addr v = .ok mem') :
    ∃ h', hashMemory.store size h addr v = .ok h' ∧ R mem' h' := by
  cases size with
  | byte => exact ⟨_, rfl, hM.storeByte hR hrun⟩
  | short => exact hM.forBytes addr (byteOf v) 2 0 hR hrun
  | word => exact hM.forBytes addr (byteOf v) 4 0 hR hrun
  | long => exact hM.forBytes addr (byteOf v) 8 0 hR hrun

theorem Simulates.load (hM : Simulates M R view) (size : Size) (addr : I64)
    {mem : μ} {x : I64 × μ} {h : HashMemory} (hR : R mem h)
    (hrun : M.load size mem addr = .ok x) :
    hashMemory.load size h addr = .ok (x.1, h) ∧ R x.2 h := by
  cases size with
  | byte =>
    obtain ⟨y, hbyte, hy⟩ := bind_eq_ok.mp hrun
    obtain ⟨hval, hR'⟩ := hM.loadByte hR hbyte
    cases hy
    refine ⟨?_, hR'⟩
    rw [hval]
    rfl
  | short => exact hM.loadBytes addr 2 0 hR hrun
  | word => exact hM.loadBytes addr 4 0 hR hrun
  | long => exact hM.loadBytes addr 8 0 hR hrun

theorem Simulates.access (hM : Simulates M R view) (a : Access) {mem : μ}
    {x : Answer × μ} {h : HashMemory} (hR : R mem h)
    (hrun : M.access a mem = .ok x) :
    ∃ y, hashMemory.access a h = .ok y ∧ x.1 = y.1.view view ∧ R x.2 y.2 := by
  cases a with
  | load size addr =>
    obtain ⟨y, hy, hx⟩ := bind_eq_ok.mp hrun
    obtain ⟨hhash, hR'⟩ := hM.load size addr hR hy
    cases hx
    exact ⟨_, bind_eq_ok.mpr ⟨_, hhash, rfl⟩, rfl, hR'⟩
  | maybeLoad addr =>
    obtain ⟨y, hy, hx⟩ := bind_eq_ok.mp hrun
    obtain ⟨hval, hR'⟩ := hM.maybeLoadByte hR hy
    cases hx
    exact ⟨_, rfl, congrArg Answer.maybe hval, hR'⟩
  | store size addr v =>
    obtain ⟨mem', hy, hx⟩ := bind_eq_ok.mp hrun
    obtain ⟨h', hhash, hR'⟩ := hM.store size addr v hR hy
    cases hx
    exact ⟨_, bind_eq_ok.mpr ⟨_, hhash, rfl⟩, rfl, hR'⟩
  | storePage p =>
    obtain ⟨mem', hy, hx⟩ := bind_eq_ok.mp hrun
    obtain ⟨h', hhash, hR'⟩ := hM.storePage hR hy
    cases hx
    exact ⟨_, bind_eq_ok.mpr ⟨_, hhash, rfl⟩, rfl, hR'⟩

/-- A run that does not raise has the answers of the hash table. -/
theorem Simulates.run (hM : Simulates M R view) (accesses : List Access)
    {mem : μ} {x : List Answer × μ} {h : HashMemory} (hR : R mem h)
    (hrun : M.run accesses mem = .ok x) :
    ∃ y, hashMemory.run accesses h = .ok y ∧
      x.1 = y.1.map (Answer.view view) ∧ R x.2 y.2 := by
  induction accesses generalizing mem x h with
  | nil =>
    cases hrun
    exact ⟨_, rfl, rfl, hR⟩
  | cons a rest ih =>
    obtain ⟨y, hy, hrest⟩ := bind_eq_ok.mp hrun
    obtain ⟨z, hz, hx⟩ := bind_eq_ok.mp hrest
    obtain ⟨y', hy', hanswer, hRy⟩ := hM.access a hR hy
    obtain ⟨z', hz', hanswers, hRz⟩ := ih hRy hz
    cases hx
    refine ⟨(y'.1 :: z'.1, z'.2), ?_, ?_, hRz⟩
    · exact bind_eq_ok.mpr ⟨y', hy', bind_eq_ok.mpr ⟨z', hz', rfl⟩⟩
    · rw [hanswer, hanswers]
      rfl

end Simulation

theorem pageAt_eq_ok {a : I64} {isStore : Bool} {k : ℕ}
    (h : pageAt a isStore = .ok k) :
    StringMaybeMemory.Supports a ∧ k = a.toNat / 4096 := by
  obtain ⟨u, -, hindex⟩ := bind_eq_ok.mp h
  exact StringMaybeMemory.index_eq_ok.mp hindex

theorem hash_storePage (h : HashMemory) (p : PageStore) :
    ∃ h', hashMemory.storePage h p.addr p.newstr = .ok h' ∧
      Writes id p.addr 4096 (fun i => p.newstr.getD i 0) h h' := by
  have houtcome := HashMemory.loader.storePage_outcome h p.addr p.newstr
    ((and_fff_eq_zero_iff p.addr).mp p.aligned) p.length_eq
  obtain ⟨h', hrun⟩ := houtcome.returns fun _ _ => trivial
  exact ⟨h', hrun, houtcome.ok h' hrun⟩

/-- The addresses of a page are the run of 4096 from its start on. -/
theorem same_page_iff {a x : I64} (hs : StringMaybeMemory.Supports a)
    (ha : a.toNat % 4096 = 0) :
    x.toNat / 4096 = a.toNat / 4096 ↔ (x - a).toNat < 4096 := by
  have hlt := x.isLt
  unfold StringMaybeMemory.Supports at hs
  rw [BitVec.toNat_sub]
  omega

theorem idxOf_of_same_page {a x : I64} (ha : a.toNat % 4096 = 0)
    (h : x.toNat / 4096 = a.toNat / 4096) :
    StringMaybeMemory.idxOf x = (x - a).toNat := by
  have hlt := x.isLt
  rw [StringMaybeMemory.idxOf_eq, BitVec.toNat_sub]
  omega

namespace StringMemory

open StringMaybeMemory (idxOf idxOf_eq eq_of_page)

/-- The byte at an address; a page that is not there is zero. -/
def cell (mem : StringMemory) (x : I64) : UInt8 :=
  ((mem (x.toNat / 4096)).getD newPage) (idxOf x)

theorem cell_update (mem : StringMemory) (k : ℕ) (p : ℕ → UInt8) (x : I64) :
    cell (Function.update mem k (some p)) x =
      if x.toNat / 4096 = k then p (idxOf x) else cell mem x := by
  unfold cell
  split_ifs with h
  · rw [h, Function.update_self]
    rfl
  · rw [Function.update_of_ne h]

/-- The hash table has the same bytes, or has none where they are zero. -/
def Agrees (mem : StringMemory) (h : HashMemory) : Prop :=
  ∀ x, cell mem x = (h x).getD 0

theorem storeByte_cell {mem mem' : StringMemory} {a : I64} {b : UInt8}
    (hstore : storeByte mem a b = .ok mem') (x : I64) :
    cell mem' x = if x = a then b else cell mem x := by
  obtain ⟨k, hk, hmem⟩ := bind_eq_ok.mp hstore
  obtain ⟨hs, rfl⟩ := pageAt_eq_ok hk
  cases hmem
  rw [cell_update]
  by_cases hpage : x.toNat / 4096 = a.toNat / 4096
  · rw [if_pos hpage]
    by_cases hx : x = a
    · rw [if_pos hx, hx, Function.update_self]
    · have hidx : idxOf x ≠ idxOf a := fun h => hx (eq_of_page hpage h)
      rw [if_neg hx, Function.update_of_ne hidx, cell, hpage]
  · have hx : x ≠ a := by
      rintro rfl
      exact hpage rfl
    rw [if_neg hpage, if_neg hx]

theorem loadByte_cell {mem : StringMemory} {a : I64} {x : UInt8 × StringMemory}
    (hload : loadByte mem a = .ok x) :
    x.1 = cell mem a ∧ cell x.2 = cell mem := by
  obtain ⟨k, hk, hx⟩ := bind_eq_ok.mp hload
  obtain ⟨hs, rfl⟩ := pageAt_eq_ok hk
  cases hx
  refine ⟨rfl, funext fun y => ?_⟩
  rw [cell_update]
  split_ifs with h
  · rw [cell, h]
  · rfl

theorem storePage_agrees {mem mem' : StringMemory} {h : HashMemory}
    {p : PageStore} (hR : Agrees mem h)
    (hstore : storePage mem p.addr p.newstr = .ok mem') :
    ∃ h', hashMemory.storePage h p.addr p.newstr = .ok h' ∧ Agrees mem' h' := by
  rw [storePage, if_pos ⟨p.aligned, p.length_eq⟩] at hstore
  obtain ⟨k, hk, hmem⟩ := bind_eq_ok.mp hstore
  obtain ⟨hs, rfl⟩ := StringMaybeMemory.index_eq_ok.mp hk
  obtain ⟨h', hrun, hwrites⟩ := hash_storePage h p
  refine ⟨h', hrun, fun x => ?_⟩
  have ha := (and_fff_eq_zero_iff p.addr).mp p.aligned
  have hx := hwrites x
  cases hmem
  rw [cell_update]
  by_cases hpage : x.toNat / 4096 = p.addr.toNat / 4096
  · rw [if_pos ((same_page_iff hs ha).mp hpage)] at hx
    change h' x = _ at hx
    rw [if_pos hpage, hx, idxOf_of_same_page ha hpage]
    rfl
  · rw [if_neg fun hlt => hpage ((same_page_iff hs ha).mpr hlt)] at hx
    rw [if_neg hpage, hx]
    exact hR x

theorem simulates :
    Simulates methods Agrees fun b => some (b.getD 0) where
  storeByte {mem h a b mem'} hR hstore x := by
    rw [storeByte_cell hstore]
    split_ifs with hx
    · rw [hx, Function.update_self]
      rfl
    · rw [Function.update_of_ne hx]
      exact hR x
  loadByte {mem h a x} hR hload := by
    obtain ⟨hval, hcell⟩ := loadByte_cell hload
    refine ⟨hval.trans (hR a), fun y => ?_⟩
    rw [hcell]
    exact hR y
  maybeLoadByte {mem h a x} hR hload := by
    obtain ⟨y, hy, hx⟩ := bind_eq_ok.mp hload
    obtain ⟨hval, hcell⟩ := loadByte_cell hy
    cases hx
    refine ⟨congrArg some (hval.trans (hR a)), fun z => ?_⟩
    rw [hcell]
    exact hR z
  storePage := storePage_agrees

end StringMemory

namespace StringMaybe

open Loader.StringMaybeMemory

/-- A byte that is not present is zero on its page. -/
def BlankMissing (mem : StringMaybeMemory) : Prop :=
  ∀ k p, mem k = some p → ∀ i, MaybePage.present p i = false → p.pageStr i = 0

def Agrees (mem : StringMaybeMemory) (h : HashMemory) : Prop :=
  BlankMissing mem ∧ ∀ x, value (mem.maybeLoadByte x) = h x

theorem agrees_empty : Agrees (fun _ => none) fun _ => none := by
  constructor
  · intro k p hp
    cases hp
  · intro x
    by_cases hs : Supports x
    · rw [maybeLoadByte_eq _ hs]
      rfl
    · cases hload : StringMaybeMemory.maybeLoadByte (fun _ => none) x with
      | error e => rfl
      | ok b =>
        obtain ⟨u, -, hrest⟩ := bind_eq_ok.mp hload
        obtain ⟨k, hk, -⟩ := bind_eq_ok.mp hrest
        exact absurd (index_eq_ok.mp hk).1 hs

theorem BlankMissing.update {mem : StringMaybeMemory} (h : BlankMissing mem)
    (k : ℕ) {p : MaybePage}
    (hp : ∀ i, MaybePage.present p i = false → p.pageStr i = 0) :
    BlankMissing (Function.update mem k (some p)) := by
  intro k' p' hp'
  by_cases hk : k' = k
  · rw [hk, Function.update_self] at hp'
    cases hp'
    exact hp
  · rw [Function.update_of_ne hk] at hp'
    exact h k' p' hp'

/-- A page that may have just been made. -/
theorem BlankMissing.getD {mem : StringMaybeMemory} (h : BlankMissing mem)
    (k i : ℕ) (hi : MaybePage.present ((mem k).getD newPage) i = false) :
    ((mem k).getD newPage).pageStr i = 0 := by
  cases hp : mem k with
  | none => rfl
  | some p =>
    rw [hp] at hi
    exact h k p hp i hi

theorem blankMissing_storeByte {mem mem' : StringMaybeMemory} {a : I64}
    {b : UInt8} (h : BlankMissing mem)
    (hstore : mem.storeByte a b = .ok mem') : BlankMissing mem' := by
  obtain ⟨u, -, hrest⟩ := bind_eq_ok.mp hstore
  obtain ⟨k, -, hmem⟩ := bind_eq_ok.mp hrest
  cases hmem
  refine h.update k fun i hi => ?_
  rw [present_store, Bool.or_eq_false_iff, decide_eq_false_iff_not] at hi
  rw [store_pageStr, Function.update_of_ne hi.1]
  exact h.getD k i hi.2

theorem blankMissing_storePage {mem mem' : StringMaybeMemory} {p : PageStore}
    (h : BlankMissing mem)
    (hstore : mem.storePage p.addr p.newstr = .ok mem') :
    BlankMissing mem' := by
  rw [storePage, if_pos ⟨p.aligned, p.length_eq⟩] at hstore
  obtain ⟨k, -, hmem⟩ := bind_eq_ok.mp hstore
  cases hmem
  refine h.update k fun i hi => ?_
  have hload := load_allPresent (fun i => p.newstr.getD i 0) i
  rw [load_eq, if_neg (by rw [hi]; exact Bool.false_ne_true)] at hload
  cases hload

/-- Making a page changes no byte. -/
theorem maybeLoadByte_newPage (mem : StringMaybeMemory) (k : ℕ) (x : I64) :
    StringMaybeMemory.maybeLoadByte
      (Function.update mem k (some ((mem k).getD newPage))) x =
        mem.maybeLoadByte x := by
  by_cases hs : Supports x
  · rw [maybeLoadByte_eq _ hs, maybeLoadByte_eq _ hs]
    by_cases hk : x.toNat / 4096 = k
    · rw [hk, Function.update_self]
      cases mem k with
      | none => exact congrArg Except.ok (load_newPage _)
      | some p => rfl
    · rw [Function.update_of_ne hk]
  · exact maybeLoadByte_of_not _ _ hs

theorem loadByte_agrees {mem : StringMaybeMemory} {h : HashMemory} {a : I64}
    {x : UInt8 × StringMaybeMemory} (hR : Agrees mem h)
    (hload : loadByte mem a = .ok x) : x.1 = (h a).getD 0 ∧ Agrees x.2 h := by
  obtain ⟨k, hk, hx⟩ := bind_eq_ok.mp hload
  obtain ⟨hs, rfl⟩ := pageAt_eq_ok hk
  cases hx
  refine ⟨?_, hR.1.update _ (hR.1.getD _), fun y => ?_⟩
  · have hblank := hR.1.getD (a.toNat / 4096) (idxOf a)
    rw [← hR.2 a, maybeLoadByte_eq _ hs]
    cases hp : mem (a.toNat / 4096) with
    | none => rfl
    | some p =>
      rw [hp] at hblank
      change p.pageStr (idxOf a) = (MaybePage.load p (idxOf a)).getD 0
      rw [load_eq]
      split_ifs with hpresent
      · rfl
      · exact hblank (Bool.eq_false_of_not_eq_true hpresent)
  · rw [← hR.2 y]
    exact congrArg value (maybeLoadByte_newPage mem _ y)

/-- The same run written into both. -/
theorem Agrees.writes {mem mem' : StringMaybeMemory} {h h' : HashMemory}
    {a : I64} {n : ℕ} {bs : ℕ → UInt8} (hR : Agrees mem h)
    (hblank : BlankMissing mem')
    (hmem : Writes value a n bs mem.maybeLoadByte mem'.maybeLoadByte)
    (hh : Writes id a n bs h h') : Agrees mem' h' := by
  refine ⟨hblank, fun x => ?_⟩
  have hx := hmem x
  have hx' := hh x
  split_ifs at hx hx' with hlt
  · exact hx.trans hx'.symm
  · rw [hx, hx']
    exact hR.2 x

theorem simulates : Simulates methods Agrees id where
  storeByte {mem h a b mem'} hR hstore :=
    hR.writes (blankMissing_storeByte hR.1 hstore)
      ((storeByte_outcome mem a b).ok mem' hstore)
      ((HashMemory.storeByte_outcome h a b).ok _ rfl)
  loadByte := loadByte_agrees
  maybeLoadByte {mem h a x} hR hload := by
    obtain ⟨b, hb, hx⟩ := bind_eq_ok.mp hload
    cases hx
    refine ⟨?_, hR⟩
    rw [← hR.2 a, hb]
    rfl
  storePage {mem h mem' p} hR hstore := by
    obtain ⟨h', hrun, hwrites⟩ := hash_storePage h p
    have hmem := (storePage_outcome mem p.addr p.newstr
      ((and_fff_eq_zero_iff p.addr).mp p.aligned) p.length_eq).ok mem' hstore
    exact ⟨h', hrun,
      hR.writes (blankMissing_storePage hR.1 hstore) hmem hwrites⟩

end StringMaybe

/-! ## The two classes -/

end Fuzzball.ConcreteMemory
