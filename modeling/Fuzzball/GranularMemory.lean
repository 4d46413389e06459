import Fuzzball.OCaml
import Mathlib.Data.List.AList

/-!
# Granular memory

`granular_memory.ml`: memory as trees of values of 8, 16, 32 and 64 bits over
an arbitrary domain of values.  A missing function supplies the values of bytes
never stored; it may change a state of its own.  Without a pointer manager the
address checks do nothing, and they are left out, as are the assertions on the
offsets inside a tree.
-/

namespace Fuzzball.Granular

/-- The operations of a domain that the memory uses. -/
structure Domain (τ : Type) where
  extract8From64 : τ → ℕ → τ
  extract8From32 : τ → ℕ → τ
  extract8From16 : τ → ℕ → τ
  extract16From64 : τ → ℕ → τ
  extract16From32 : τ → ℕ → τ
  extract32From64 : τ → ℕ → τ
  reassemble16 : τ → τ → τ
  reassemble32 : τ → τ → τ
  reassemble64 : τ → τ → τ
  measureSize : τ → ℕ

inductive Gran8 (τ : Type)
  | byte (b : τ)
  | absent8
  deriving DecidableEq, Repr

inductive Gran16 (τ : Type)
  | short (s : τ)
  | gran8s (g1 g2 : Gran8 τ)
  | absent16
  deriving DecidableEq, Repr

inductive Gran32 (τ : Type)
  | word (w : τ)
  | gran16s (g1 g2 : Gran16 τ)
  | absent32
  deriving DecidableEq, Repr

inductive Gran64 (τ : Type)
  | long (l : τ)
  | gran32s (g1 g2 : Gran32 τ)
  | absent64
  deriving DecidableEq, Repr

variable {σ τ : Type} (D : Domain τ)

def split64 (l : τ) : τ × τ := (D.extract32From64 l 0, D.extract32From64 l 4)
def split32 (l : τ) : τ × τ := (D.extract16From32 l 0, D.extract16From32 l 2)
def split16 (l : τ) : τ × τ := (D.extract8From16 l 0, D.extract8From16 l 1)

def endianI (_n k : ℕ) : ℕ := k

/-- The missing function: the value of a number of bits at an address. -/
abbrev Missing (σ τ : Type) := ℕ → I64 → StateM σ τ

/-! ## Reading a part of a tree -/

def gran8GetByte (g8 : Gran8 τ) (missing : Missing σ τ) (addr : I64) :
    StateM σ (τ × Gran8 τ) :=
  match g8 with
  | .byte l => pure (l, g8)
  | .absent8 => do
      let l ← missing 8 addr
      pure (l, .byte l)

def gran16GetByte
    (g16 : Gran16 τ) (missing : Missing σ τ) (addr : I64) (which : ℕ) :
    StateM σ (τ × Gran16 τ) :=
  let parts (g1 g2 : Gran8 τ) : StateM σ (τ × Gran16 τ) :=
    if which < 1 then do
      let (l, g1') ← gran8GetByte g1 missing addr
      pure (l, .gran8s g1' g2)
    else do
      let (l, g2') ← gran8GetByte g2 missing (addr + 1)
      pure (l, .gran8s g1 g2')
  match g16 with
  | .short l => pure (D.extract8From16 l (endianI 2 which), g16)
  | .gran8s g1 g2 => parts g1 g2
  | .absent16 => parts .absent8 .absent8

def gran32GetByte
    (g32 : Gran32 τ) (missing : Missing σ τ) (addr : I64) (which : ℕ) :
    StateM σ (τ × Gran32 τ) :=
  let parts (g1 g2 : Gran16 τ) : StateM σ (τ × Gran32 τ) :=
    if which < 2 then do
      let (l, g1') ← gran16GetByte D g1 missing addr which
      pure (l, .gran16s g1' g2)
    else do
      let (l, g2') ← gran16GetByte D g2 missing (addr + 2) (which - 2)
      pure (l, .gran16s g1 g2')
  match g32 with
  | .word l => pure (D.extract8From32 l (endianI 4 which), g32)
  | .gran16s g1 g2 => parts g1 g2
  | .absent32 => parts .absent16 .absent16

def gran64GetByte
    (g64 : Gran64 τ) (missing : Missing σ τ) (addr : I64) (which : ℕ) :
    StateM σ (τ × Gran64 τ) :=
  let parts (g1 g2 : Gran32 τ) : StateM σ (τ × Gran64 τ) :=
    if which < 4 then do
      let (l, g1') ← gran32GetByte D g1 missing addr which
      pure (l, .gran32s g1' g2)
    else do
      let (l, g2') ← gran32GetByte D g2 missing (addr + 4) (which - 4)
      pure (l, .gran32s g1 g2')
  match g64 with
  | .long l => pure (D.extract8From64 l (endianI 8 which), g64)
  | .gran32s g1 g2 => parts g1 g2
  | .absent64 => parts .absent32 .absent32

def gran16GetShort (g16 : Gran16 τ) (missing : Missing σ τ) (addr : I64) :
    StateM σ (τ × Gran16 τ) :=
  match g16 with
  | .short l => pure (l, g16)
  | .gran8s g1 g2 => do
      let (b1, g1') ← gran8GetByte g1 missing addr
      let (b2, g2') ← gran8GetByte g2 missing (addr + 1)
      pure (D.reassemble16 b1 b2, .gran8s g1' g2')
  | .absent16 => do
      let l ← missing 16 addr
      pure (l, .short l)

def gran32GetShort
    (g32 : Gran32 τ) (missing : Missing σ τ) (addr : I64) (which : ℕ) :
    StateM σ (τ × Gran32 τ) :=
  let parts (g1 g2 : Gran16 τ) : StateM σ (τ × Gran32 τ) :=
    if which < 2 then do
      let (l, g1') ← gran16GetShort D g1 missing addr
      pure (l, .gran16s g1' g2)
    else do
      let (l, g2') ← gran16GetShort D g2 missing (addr + 2)
      pure (l, .gran16s g1 g2')
  match g32 with
  | .word l => pure (D.extract16From32 l (endianI 4 which), g32)
  | .gran16s g1 g2 => parts g1 g2
  | .absent32 => parts .absent16 .absent16

def gran64GetShort
    (g64 : Gran64 τ) (missing : Missing σ τ) (addr : I64) (which : ℕ) :
    StateM σ (τ × Gran64 τ) :=
  let parts (g1 g2 : Gran32 τ) : StateM σ (τ × Gran64 τ) :=
    if which < 4 then do
      let (l, g1') ← gran32GetShort D g1 missing addr which
      pure (l, .gran32s g1' g2)
    else do
      let (l, g2') ← gran32GetShort D g2 missing (addr + 4) (which - 4)
      pure (l, .gran32s g1 g2')
  match g64 with
  | .long l => pure (D.extract16From64 l (endianI 8 which), g64)
  | .gran32s g1 g2 => parts g1 g2
  | .absent64 => parts .absent32 .absent32

def gran32GetWord (g32 : Gran32 τ) (missing : Missing σ τ) (addr : I64) :
    StateM σ (τ × Gran32 τ) :=
  match g32 with
  | .word l => pure (l, g32)
  | .gran16s g1 g2 => do
      let (s1, g1') ← gran16GetShort D g1 missing addr
      let (s2, g2') ← gran16GetShort D g2 missing (addr + 2)
      pure (D.reassemble32 s1 s2, .gran16s g1' g2')
  | .absent32 => do
      let l ← missing 32 addr
      pure (l, .word l)

def gran64GetWord
    (g64 : Gran64 τ) (missing : Missing σ τ) (addr : I64) (which : ℕ) :
    StateM σ (τ × Gran64 τ) :=
  let parts (g1 g2 : Gran32 τ) : StateM σ (τ × Gran64 τ) :=
    if which < 4 then do
      let (l, g1') ← gran32GetWord D g1 missing addr
      pure (l, .gran32s g1' g2)
    else do
      let (l, g2') ← gran32GetWord D g2 missing (addr + 4)
      pure (l, .gran32s g1 g2')
  match g64 with
  | .long l => pure (D.extract32From64 l (endianI 8 which), g64)
  | .gran32s g1 g2 => parts g1 g2
  | .absent64 => parts .absent32 .absent32

def gran64GetLong (g64 : Gran64 τ) (missing : Missing σ τ) (addr : I64) :
    StateM σ (τ × Gran64 τ) :=
  match g64 with
  | .long l => pure (l, g64)
  | .gran32s g1 g2 => do
      let (w1, g1') ← gran32GetWord D g1 missing addr
      let (w2, g2') ← gran32GetWord D g2 missing (addr + 4)
      pure (D.reassemble64 w1 w2, .gran32s g1' g2')
  | .absent64 => do
      let l ← missing 64 addr
      pure (l, .long l)

/-! ## Replacing a part of a tree -/

def gran64Split : Gran64 τ → Gran32 τ × Gran32 τ
  | .gran32s g1 g2 => (g1, g2)
  | .long l => (.word (split64 D l).1, .word (split64 D l).2)
  | .absent64 => (.absent32, .absent32)

def gran32Split : Gran32 τ → Gran16 τ × Gran16 τ
  | .gran16s g1 g2 => (g1, g2)
  | .word l => (.short (split32 D l).1, .short (split32 D l).2)
  | .absent32 => (.absent16, .absent16)

def gran16Split : Gran16 τ → Gran8 τ × Gran8 τ
  | .gran8s g1 g2 => (g1, g2)
  | .short l => (.byte (split16 D l).1, .byte (split16 D l).2)
  | .absent16 => (.absent8, .absent8)

def gran16PutByte (g16 : Gran16 τ) (which : ℕ) (b : τ) : Gran16 τ :=
  if which < 1 then .gran8s (.byte b) (gran16Split D g16).2
  else .gran8s (gran16Split D g16).1 (.byte b)

def gran32PutByte (g32 : Gran32 τ) (which : ℕ) (b : τ) : Gran32 τ :=
  if which < 2 then
    .gran16s (gran16PutByte D (gran32Split D g32).1 which b)
      (gran32Split D g32).2
  else
    .gran16s (gran32Split D g32).1
      (gran16PutByte D (gran32Split D g32).2 (which - 2) b)

def gran64PutByte (g64 : Gran64 τ) (which : ℕ) (b : τ) : Gran64 τ :=
  if which < 4 then
    .gran32s (gran32PutByte D (gran64Split D g64).1 which b)
      (gran64Split D g64).2
  else
    .gran32s (gran64Split D g64).1
      (gran32PutByte D (gran64Split D g64).2 (which - 4) b)

def gran32PutShort (g32 : Gran32 τ) (which : ℕ) (s : τ) : Gran32 τ :=
  if which < 2 then .gran16s (.short s) (gran32Split D g32).2
  else .gran16s (gran32Split D g32).1 (.short s)

def gran64PutShort (g64 : Gran64 τ) (which : ℕ) (s : τ) : Gran64 τ :=
  if which < 4 then
    .gran32s (gran32PutShort D (gran64Split D g64).1 which s)
      (gran64Split D g64).2
  else
    .gran32s (gran64Split D g64).1
      (gran32PutShort D (gran64Split D g64).2 (which - 4) s)

def gran64PutWord (g64 : Gran64 τ) (which : ℕ) (w : τ) : Gran64 τ :=
  if which < 4 then .gran32s (.word w) (gran64Split D g64).2
  else .gran32s (gran64Split D g64).1 (.word w)

/-! ## Sizes and merging -/

def gran8Size : Gran8 τ → ℕ
  | .byte b => D.measureSize b
  | .absent8 => 1

def gran16Size : Gran16 τ → ℕ
  | .short s => D.measureSize s
  | .gran8s g1 g2 => gran8Size D g1 + gran8Size D g2
  | .absent16 => 1

def gran32Size : Gran32 τ → ℕ
  | .word w => D.measureSize w
  | .gran16s g1 g2 => gran16Size D g1 + gran16Size D g2
  | .absent32 => 1

def gran64Size : Gran64 τ → ℕ
  | .long l => D.measureSize l
  | .gran32s g1 g2 => gran32Size D g1 + gran32Size D g2
  | .absent64 => 1

def merge8 (src dst : Gran8 τ) : Gran8 τ :=
  match src, dst with
  | .byte _, .byte _ | .byte _, .absent8 => src
  | _, _ => dst

def merge16 (src dst : Gran16 τ) : Gran16 τ :=
  match src, dst with
  | .gran8s sl sr, .gran8s dl dr => .gran8s (merge8 sl dl) (merge8 sr dr)
  | .gran8s sl sr, t =>
    .gran8s (merge8 sl (gran16Split D t).1) (merge8 sr (gran16Split D t).2)
  | t, .gran8s dl dr =>
    .gran8s (merge8 (gran16Split D t).1 dl) (merge8 (gran16Split D t).2 dr)
  | .short _, .short _ | .short _, .absent16 => src
  | _, _ => dst

def merge32 (src dst : Gran32 τ) : Gran32 τ :=
  match src, dst with
  | .gran16s sl sr, .gran16s dl dr =>
    .gran16s (merge16 D sl dl) (merge16 D sr dr)
  | .gran16s sl sr, t =>
    .gran16s (merge16 D sl (gran32Split D t).1)
      (merge16 D sr (gran32Split D t).2)
  | t, .gran16s dl dr =>
    .gran16s (merge16 D (gran32Split D t).1 dl)
      (merge16 D (gran32Split D t).2 dr)
  | .word _, .word _ | .word _, .absent32 => src
  | _, _ => dst

def merge64 (src dst : Gran64 τ) : Gran64 τ :=
  match src, dst with
  | .gran32s sl sr, .gran32s dl dr =>
    .gran32s (merge32 D sl dl) (merge32 D sr dr)
  | .gran32s sl sr, t =>
    .gran32s (merge32 D sl (gran64Split D t).1)
      (merge32 D sr (gran64Split D t).2)
  | t, .gran32s dl dr =>
    .gran32s (merge32 D (gran64Split D t).1 dl)
      (merge32 D (gran64Split D t).2 dr)
  | .long _, .long _ | .long _, .absent64 => src
  | _, _ => dst

/-! ## The class `granular_memory` -/

def which (addr : I64) : ℕ := (addr &&& 7).toNat

def chunkAddr (addr : I64) : I64 := addr - BitVec.ofNat 64 (which addr)

/-- The virtual methods: a memory with the contents `μ` finds and replaces the
tree of 8 bytes that an address belongs to. -/
structure GranularMemory (μ σ τ : Type) where
  withChunk : μ → I64 → (Gran64 τ → I64 → ℕ → StateM σ (τ × Gran64 τ)) →
    StateM σ (Option τ × μ)
  storeCommonFast : μ → I64 → (Gran64 τ → ℕ → Gran64 τ) → μ

namespace GranularMemory

variable {μ : Type} (M : GranularMemory μ σ τ) (missing : Missing σ τ)

def orMissing (bits : ℕ) (addr : I64) : Option τ → StateM σ τ
  | some b => pure b
  | none => missing bits addr

def maybeLoadDivided
    (mem : μ) (addr : I64) (bits : ℕ) (bytes : I64)
    (load : μ → I64 → StateM σ (Option τ × μ)) (assemble : τ → τ → τ) :
    StateM σ (Option τ × μ) := do
  let (mb0, mem) ← load mem addr
  let (mb1, mem) ← load mem (addr + bytes)
  match mb0, mb1 with
  | none, none => pure (none, mem)
  | _, _ =>
    let b0 ← orMissing missing bits addr mb0
    let b1 ← orMissing missing bits (addr + bytes) mb1
    pure (some (assemble b0 b1), mem)

def maybeLoadByte (mem : μ) (addr : I64) : StateM σ (Option τ × μ) :=
  M.withChunk mem addr fun chunk caddr which =>
    gran64GetByte D chunk missing caddr which

def maybeLoadShort (mem : μ) (addr : I64) : StateM σ (Option τ × μ) :=
  if addr &&& 1 = 0 then
    M.withChunk mem addr fun chunk caddr which =>
      gran64GetShort D chunk missing caddr which
  else
    maybeLoadDivided missing mem addr 8 1 (M.maybeLoadByte D missing)
      D.reassemble16

def maybeLoadWord (mem : μ) (addr : I64) : StateM σ (Option τ × μ) :=
  if addr &&& 3 = 0 then
    M.withChunk mem addr fun chunk caddr which =>
      gran64GetWord D chunk missing caddr which
  else
    maybeLoadDivided missing mem addr 16 2 (M.maybeLoadShort D missing)
      D.reassemble32

def maybeLoadLong (mem : μ) (addr : I64) : StateM σ (Option τ × μ) :=
  if addr &&& 7 = 0 then
    M.withChunk mem addr fun chunk caddr _ =>
      gran64GetLong D chunk missing caddr
  else
    maybeLoadDivided missing mem addr 32 4 (M.maybeLoadWord D missing)
      D.reassemble64

def storeByte (mem : μ) (addr : I64) (b : τ) : μ :=
  M.storeCommonFast mem addr fun chunk which => gran64PutByte D chunk which b

def storeShort (mem : μ) (addr : I64) (s : τ) : μ :=
  if addr &&& 1 = 0 then
    M.storeCommonFast mem addr fun chunk which =>
      gran64PutShort D chunk which s
  else
    let (b0, b1) := split16 D s
    M.storeByte D (M.storeByte D mem addr b0) (addr + 1) b1

def storeWord (mem : μ) (addr : I64) (w : τ) : μ :=
  if addr &&& 3 = 0 then
    M.storeCommonFast mem addr fun chunk which => gran64PutWord D chunk which w
  else
    let (s0, s1) := split32 D w
    M.storeShort D (M.storeShort D mem addr s0) (addr + 2) s1

def storeLong (mem : μ) (addr : I64) (l : τ) : μ :=
  if addr &&& 7 = 0 then M.storeCommonFast mem addr fun _ _ => .long l
  else
    let (w0, w1) := split64 D l
    M.storeWord D (M.storeWord D mem addr w0) (addr + 4) w1

end GranularMemory

/-- The four sizes of an access. -/
inductive Size
  | byte
  | short
  | word
  | long
  deriving DecidableEq, Repr

def Size.bits : Size → ℕ
  | .byte => 8
  | .short => 16
  | .word => 32
  | .long => 64

def Size.bytes : Size → ℕ
  | .byte => 1
  | .short => 2
  | .word => 4
  | .long => 8

namespace GranularMemory

variable {μ : Type} (M : GranularMemory μ σ τ) (missing : Missing σ τ)

def maybeLoad (size : Size) (mem : μ) (addr : I64) :
    StateM σ (Option τ × μ) :=
  match size with
  | .byte => M.maybeLoadByte D missing mem addr
  | .short => M.maybeLoadShort D missing mem addr
  | .word => M.maybeLoadWord D missing mem addr
  | .long => M.maybeLoadLong D missing mem addr

def store (size : Size) (mem : μ) (addr : I64) (v : τ) : μ :=
  match size with
  | .byte => M.storeByte D mem addr v
  | .short => M.storeShort D mem addr v
  | .word => M.storeWord D mem addr v
  | .long => M.storeLong D mem addr v

/-- `load_byte`, `load_short`, `load_word` and `load_long`: a range of which
nothing is present is supplied whole by the missing function, and stored. -/
def load (size : Size) (mem : μ) (addr : I64) : StateM σ (τ × μ) := do
  let (mv, mem) ← M.maybeLoad D missing size mem addr
  match mv with
  | some v => pure (v, mem)
  | none =>
    let v ← missing size.bits addr
    pure (v, M.store D size mem addr v)

end GranularMemory

/-! ## The class `granular_hash_memory` -/

/-- The hash table from the addresses of trees to trees. -/
abbrev HashTable (τ : Type) := AList fun _ : I64 => Gran64 τ

def hashMemory : GranularMemory (HashTable τ) σ τ where
  withChunk mem addr fn :=
    match mem.lookup (chunkAddr addr) with
    | none => pure (none, mem)
    | some chunk =>
      match chunk with
      | .absent64 => pure (none, mem)
      | g64 => do
        let (l, chunk') ← fn g64 (chunkAddr addr) (which addr)
        pure (some l, mem.insert (chunkAddr addr) chunk')
  storeCommonFast mem addr fn :=
    let chunk := (mem.lookup (chunkAddr addr)).getD .absent64
    mem.insert (chunkAddr addr) (fn chunk (which addr))

end Fuzzball.Granular
