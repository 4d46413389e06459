import Fuzzball.AddressTerms
import Fuzzball.LoaderMemory

/-!
# Loading of segments

`load_segment` of `linux_loader.ml`: a segment is read from the file page by
page, and a data segment with more memory than file contents is filled with
zeros up to the end of its last page.
-/

namespace Fuzzball.Loader

/-! ## The file -/

/-- A file that is open for reading.  Positions are OCaml integers. -/
structure InChannel where
  contents : OString
  pos : ℕ
  fits : contents.length < 2 ^ 62

def InChannel.seekIn (ic : InChannel) (pos : ℤ) : Loading InChannel :=
  if pos < 0 then throw .sysError else pure { ic with pos := pos.toNat }

/-- `IO.really_nread`: exactly `n` bytes. -/
def InChannel.reallyNread (ic : InChannel) (n : ℤ) :
    Loading (OString × InChannel) :=
  if n < 0 then throw (.invalidArgument "IO.really_nread")
  else
    let s := (ic.contents.drop ic.pos).take n.toNat
    if s.length < n.toNat then throw .noMoreInput
    else pure (s, { ic with pos := ic.pos + n.toNat })

/-- The fields of a program header that a loader reads. -/
structure ProgramHeader where
  phType : I64
  offset : I64
  vaddr : I64
  filesz : I64
  memsz : I64
  phFlags : I64

/-- The type of the segment is printed as data: it can be read and written, and
possibly executed. -/
def ProgramHeader.IsData (phr : ProgramHeader) : Prop :=
  phr.phType = 1 ∧ (phr.phFlags = 6 ∨ phr.phFlags = 7)

instance (phr : ProgramHeader) : Decidable phr.IsData :=
  inferInstanceAs (Decidable (_ ∧ _))

/-! ## Numbers -/

theorem toNat_ge_page {x : I64} (h : ¬x.slt 4096 = true) :
    4096 ≤ x.toNat ∧ x.toNat < 2 ^ 63 := by
  have hpage : (4096 : I64).toInt = 4096 := by decide
  have hcond := BitVec.toInt_eq_toNat_cond x
  rw [BitVec.slt_iff_toInt_lt, hpage] at h
  split_ifs at hcond <;> omega

theorem toNat_sub_page_eq {x : I64} (h : ¬x.slt 4096 = true) :
    (x - 4096).toNat = x.toNat - 4096 :=
  BitVec.toNat_sub_of_le (BitVec.le_def.mpr (toNat_ge_page h).1)

theorem toNat_sub_page {x : I64} (h : ¬x.slt 4096 = true) :
    (x - 4096).toNat < x.toNat := by
  have hge := toNat_ge_page h
  rw [toNat_sub_page_eq h]
  omega

/-! ## The loader -/

namespace LoaderMemory

variable {μ β : Type} (M : LoaderMemory μ β)

def storeStr (mem : μ) (base idx : I64) (str : OString) : Loading μ :=
  forBytes M.storeByte (base + idx) (fun i => str.getD i 0) str.length 0 mem

def zeroFill (mem : μ) (vaddr : I64) (n : ℤ) : Loading μ :=
  forBytes M.storeByte vaddr (fun _ => 0) n.toNat 0 mem

/-- The function `store_page` of the loader. -/
def storePageAt (mem : μ) (vaddr : I64) (str : OString) : Loading μ :=
  if vaddr.srem 0x1000 = 0 ∧ str.length = 4096 then M.storePage mem vaddr str
  else M.storeStr mem vaddr 0 str

/-- The loop over whole pages, of which `n` are left. -/
def loadPages (vbase : I64) : (n pageNum : ℕ) → InChannel → μ →
    Loading (InChannel × μ)
  | 0, _, ic, mem => pure (ic, mem)
  | n + 1, pageNum, ic, mem => do
    let (page, ic) ← ic.reallyNread 4096
    let va := vbase + BitVec.ofNat 64 pageNum * 4096
    let mem ← M.storePageAt mem va page
    loadPages vbase n (pageNum + 1) ic mem

def loadPartial (vbase filesz : I64) (ic : InChannel) (mem : μ) : Loading μ :=
  let rest := filesz.srem 0x1000
  if rest = 0 then pure mem
  else do
    let (page, _) ← ic.reallyNread (I64.toOCamlInt rest)
    let va := vbase + (filesz - rest)
    M.storePageAt mem va page

/-- The loop that fills whole pages with zeros. -/
def zeroPages (mem : μ) (va remaining : I64) : Loading (μ × I64 × I64) :=
  if _h : remaining.slt 4096 then pure (mem, va, remaining)
  else do
    let mem ← M.storePageAt mem va (List.replicate 4096 0)
    zeroPages mem (va + 4096) (remaining - 4096)
termination_by remaining.toNat
decreasing_by exact toNat_sub_page _h

def alignUp (va : I64) : I64 := (va + 4095) &&& ~~~4095

/-- What follows the file contents of a data segment. -/
def zeroRest (vbase filesz memsz : I64) (isMainProg : Bool)
    (initialBreak : Option I64) (mem : μ) : Loading (μ × Option I64) := do
  let va := vbase + filesz
  let firstFull := alignUp va
  let remaining := memsz - filesz
  let partial1 :=
    if (firstFull - va).sle remaining then firstFull - va else remaining
  let mem ← M.zeroFill mem va (I64.toOCamlInt partial1)
  let (mem, va, remaining) ←
    M.zeroPages mem (va + partial1) (remaining - partial1)
  let mem ← M.zeroFill mem va (I64.toOCamlInt remaining)
  let va := va + remaining
  let lastAligned := alignUp va
  let initialBreak :=
    if isMainProg then some (initialBreak.getD lastAligned) else initialBreak
  let mem ← M.zeroFill mem va (I64.toOCamlInt (lastAligned - va))
  pure (mem, initialBreak)

def loadSegment (ic : InChannel) (phr : ProgramHeader) (virtOff : I64)
    (isMainProg : Bool) (initialBreak : Option I64) (mem : μ) :
    Loading (μ × Option I64) := do
  let vbase := phr.vaddr + virtOff
  let ic ← ic.seekIn (I64.toOCamlInt phr.offset)
  let pages := (I64.toOCamlInt (phr.filesz.sdiv 4096)).toNat
  let (ic, mem) ← M.loadPages vbase pages 0 ic mem
  let mem ← M.loadPartial vbase phr.filesz ic mem
  if phr.filesz.slt phr.memsz ∧ phr.IsData then
    M.zeroRest vbase phr.filesz phr.memsz isMainProg initialBreak mem
  else pure (mem, initialBreak)

/-! ## The end of a page -/

section Numbers

variable {x a : I64}

theorem msb_eq_false (h : x.toNat < 2 ^ 63) : x.msb = false :=
  BitVec.msb_eq_false_iff_two_mul_lt.mpr (by omega)

theorem toNat_sdiv_page (h : x.toNat < 2 ^ 63) :
    (x.sdiv 4096).toNat = x.toNat / 4096 := by
  have hpage : (4096 : I64).msb = false := by decide
  rw [BitVec.toNat_sdiv, msb_eq_false h, hpage]
  exact BitVec.toNat_udiv

theorem toNat_srem_page (h : x.toNat < 2 ^ 63) :
    (x.srem 0x1000).toNat = x.toNat % 4096 := by
  have hpage : (0x1000 : I64).msb = false := by decide
  rw [BitVec.toNat_srem, msb_eq_false h, hpage]
  exact BitVec.toNat_umod

/-- A remainder of zero means that the address is at the start of a page. -/
theorem mod_page_of_srem (h : a.srem 0x1000 = 0) : a.toNat % 4096 = 0 := by
  have hpage : (0x1000 : I64).toInt = 4096 := by decide
  have hzero : a.toInt.tmod 4096 = 0 := by
    have hval := congrArg BitVec.toInt h
    rwa [BitVec.toInt_srem, hpage] at hval
  have hcond := BitVec.toInt_eq_toNat_cond a
  have hdvd := Int.dvd_of_tmod_eq_zero hzero
  split_ifs at hcond <;> omega

/-- How far it is to the end of the page. -/
def padding (n : ℕ) : ℕ := (4096 - n % 4096) % 4096

theorem alignUp_sub (a : I64) : (alignUp a - a).toNat = padding a.toNat := by
  have hmask : (4095 : I64).toNat = 2 ^ 12 - 1 := rfl
  have hlow : ((a + 4095) &&& 4095).toNat = (a + 4095).toNat % 4096 := by
    rw [BitVec.toNat_and, hmask, Nat.and_two_pow_sub_one_eq_mod]
  have hsplit := congrArg BitVec.toNat
    (SymRegion.and_add_and_not (a + 4095) 4095)
  have hsum := BitVec.toNat_add a 4095
  have hlt := (alignUp a).isLt
  have ha := a.isLt
  have h4095 : (4095 : I64).toNat = 4095 := rfl
  rw [BitVec.toNat_add, hlow] at hsplit
  change (_ + (alignUp a).toNat) % _ = _ at hsplit
  rw [BitVec.toNat_sub]
  unfold padding
  omega

end Numbers

/-! ## What one call writes -/

section Calls

variable {M : LoaderMemory μ β} {a : I64} {mem : μ}

/-- The `n` addresses from `a` on are supported. -/
def SupportsRun (M : LoaderMemory μ β) (a : I64) (n : ℕ) : Prop :=
  ∀ i < n, M.Supports (a + BitVec.ofNat 64 i)

/-- `mem'` is `mem` with a run of addresses written. -/
def Wrote (M : LoaderMemory μ β) (a : I64) (n : ℕ) (bs : ℕ → UInt8)
    (mem mem' : μ) : Prop :=
  Writes M.value a n bs (M.cell mem) (M.cell mem')

theorem zeroFill_outcome (mem : μ) (a : I64) {n : ℕ} (hn : n < 2 ^ 64) :
    Outcome (M.SupportsRun a n) (M.Wrote a n (fun _ => 0) mem)
      (M.zeroFill mem a n) :=
  forBytes_outcome M.storeByte_outcome mem a (fun _ => 0) hn

theorem storeStr_outcome (mem : μ) (a : I64) {str : OString}
    (hn : str.length < 2 ^ 64) :
    Outcome (M.SupportsRun a str.length)
      (M.Wrote a str.length (fun i => str.getD i 0) mem)
      (M.storeStr mem a 0 str) := by
  have h := forBytes_outcome M.storeByte_outcome mem (a + 0)
    (fun i => str.getD i 0) hn
  have hzero : a + 0 = a := BitVec.add_zero a
  unfold storeStr
  rw [hzero] at h ⊢
  exact h

theorem storePageAt_outcome (mem : μ) (a : I64) {str : OString}
    (hn : str.length < 2 ^ 64) :
    Outcome (M.SupportsRun a str.length)
      (M.Wrote a str.length (fun i => str.getD i 0) mem)
      (M.storePageAt mem a str) := by
  unfold storePageAt
  split_ifs with h
  · rw [h.2]
    exact M.storePage_outcome mem a str (mod_page_of_srem h.1) h.2
  · exact storeStr_outcome mem a hn

end Calls

/-! ## The image of a segment -/

section Image

variable {M : LoaderMemory μ β} {image : ℕ → UInt8} {vbase : I64}
  {total k : ℕ} {mem0 mem : μ}

/-- One more run of the image is written. -/
theorem Wrote.extend {n : ℕ} {bs : ℕ → UInt8} {r : Loading μ}
    (h : M.Wrote vbase k image mem0 mem)
    (hr : Outcome (M.SupportsRun (vbase + BitVec.ofNat 64 k) n)
      (M.Wrote (vbase + BitVec.ofNat 64 k) n bs mem) r)
    (hbs : ∀ i < n, bs i = image (k + i)) (hn : k + n ≤ total)
    (htotal : total < 2 ^ 64) :
    Outcome (M.SupportsRun vbase total) (M.Wrote vbase (k + n) image mem0)
      r := by
  apply hr.mono
  · intro hS i hi
    have hsum := hS (k + i) (by omega)
    rwa [BitVec.ofNat_add, ← BitVec.add_assoc] at hsum
  · intro mem' hw
    exact Writes.append h (Writes.congr hw hbs) (by omega)

theorem Wrote.zeroFill {n : ℕ} {va : I64}
    (h : M.Wrote vbase k image mem0 mem) (total : ℕ)
    (hva : va = vbase + BitVec.ofNat 64 k)
    (hzero : ∀ i < n, image (k + i) = 0) (hn : k + n ≤ total)
    (htotal : total < 2 ^ 64) :
    Outcome (M.SupportsRun vbase total) (M.Wrote vbase (k + n) image mem0)
      (M.zeroFill mem va n) := by
  subst hva
  exact h.extend (zeroFill_outcome mem _ (by omega))
    (fun i hi => (hzero i hi).symm) hn htotal

theorem Wrote.storePageAt {va : I64} (h : M.Wrote vbase k image mem0 mem)
    (total : ℕ) (str : OString) (hva : va = vbase + BitVec.ofNat 64 k)
    (hstr : ∀ i < str.length, str.getD i 0 = image (k + i))
    (hn : k + str.length ≤ total) (htotal : total < 2 ^ 64) :
    Outcome (M.SupportsRun vbase total)
      (M.Wrote vbase (k + str.length) image mem0)
      (M.storePageAt mem va str) := by
  subst hva
  exact h.extend (storePageAt_outcome mem _ (by omega)) hstr hn htotal

/-- The loop over pages of zeros leaves less than a page. -/
theorem Wrote.zeroPages {va remaining : I64}
    (h : M.Wrote vbase k image mem0 mem) (total : ℕ)
    (hva : va = vbase + BitVec.ofNat 64 k)
    (hsmall : remaining.toNat < 2 ^ 63)
    (hzero : ∀ i < remaining.toNat, image (k + i) = 0)
    (hn : k + remaining.toNat ≤ total) (htotal : total < 2 ^ 64) :
    Outcome (M.SupportsRun vbase total)
      (fun r => r.2.2.toNat = remaining.toNat % 4096 ∧
        r.2.1 = vbase + BitVec.ofNat 64 (k + (remaining.toNat - r.2.2.toNat)) ∧
        M.Wrote vbase (k + (remaining.toNat - r.2.2.toNat)) image mem0 r.1)
      (M.zeroPages mem va remaining) := by
  induction hm : remaining.toNat using Nat.strong_induction_on
    generalizing k mem va remaining with
  | _ n ih =>
  subst hm
  rw [LoaderMemory.zeroPages]
  split_ifs with hlt
  · have hless : remaining.toNat < 4096 := by
      have hpage : (4096 : I64).toInt = 4096 := by decide
      rw [BitVec.slt_iff_toInt_lt, hpage,
        BitVec.toInt_eq_toNat_of_lt (by omega)] at hlt
      omega
    apply Outcome.pure
    refine ⟨(Nat.mod_eq_of_lt hless).symm, ?_, ?_⟩
    · rw [Nat.sub_self, Nat.add_zero]
      exact hva
    · rw [Nat.sub_self, Nat.add_zero]
      exact h
  · have hge := toNat_ge_page hlt
    have hsub := toNat_sub_page_eq hlt
    have hlen : (List.replicate 4096 (0 : UInt8)).length = 4096 :=
      List.length_replicate
    have hpage := h.storePageAt total (List.replicate 4096 0) hva (by
        intro i hi
        rw [hlen] at hi
        rw [hzero i (by omega), List.getD_replicate _ hi])
      (by omega) htotal
    rw [hlen] at hpage
    refine hpage.bind fun mem' hmem' => ?_
    have hva' : va + 4096 = vbase + BitVec.ofNat 64 (k + 4096) := by
      rw [hva, BitVec.add_assoc, BitVec.ofNat_add]
      rfl
    have hrest := ih (remaining - 4096).toNat (toNat_sub_page hlt) hmem' hva'
      (by omega) (by
        intro i hi
        rw [Nat.add_assoc]
        exact hzero _ (by omega))
      (by omega) rfl
    refine hrest.mono id ?_
    rintro ⟨mem'', va'', rest⟩ ⟨hr, hva', hw⟩
    dsimp only at hr hva' hw ⊢
    have hlt' := Nat.mod_lt (remaining - 4096).toNat (show 0 < 4096 by norm_num)
    have hk : k + 4096 + ((remaining - 4096).toNat - rest.toNat) =
        k + (remaining.toNat - rest.toNat) := by omega
    rw [hk] at hva' hw
    exact ⟨by omega, hva', hw⟩

end Image

/-! ## Reading the file -/

section Reading

variable {M : LoaderMemory μ β} {vbase filesz : I64} {total off : ℕ}
  {file : OString} {ic : InChannel} {mem0 mem : μ}

/-- The image of a segment: the file contents and then zeros. -/
def segmentImage (file : OString) (off filesz : ℕ) (i : ℕ) : UInt8 :=
  if i < filesz then file.getD (off + i) 0 else 0

theorem segmentImage_of_ge {n i : ℕ} (h : n ≤ i) :
    segmentImage file off n i = 0 := if_neg (by omega)

theorem reallyNread_eq {n : ℕ} (h : ic.pos + n ≤ ic.contents.length) :
    ic.reallyNread n = .ok ((ic.contents.drop ic.pos).take n,
      { ic with pos := ic.pos + n }) := by
  have hlen : ((ic.contents.drop ic.pos).take n).length = n := by
    rw [List.length_take, List.length_drop]
    omega
  have hn : (n : ℤ).toNat = n := Int.toNat_natCast n
  unfold InChannel.reallyNread
  rw [if_neg (by omega), hn]
  dsimp only
  rw [if_neg (by omega)]
  rfl

theorem getD_take_drop {l : OString} {p n i : ℕ} (hi : i < n) :
    ((l.drop p).take n).getD i 0 = l.getD (p + i) 0 := by
  rw [List.getD_eq_getElem?_getD, List.getD_eq_getElem?_getD,
    List.getElem?_take_of_lt hi, List.getElem?_drop]

/-- A piece of the file is read and stored where it belongs. -/
theorem Wrote.readPage {F k n : ℕ} {va : I64}
    (h : M.Wrote vbase k (segmentImage file off F) mem0 mem)
    (hic : ic.contents = file) (hpos : ic.pos = off + k)
    (hva : va = vbase + BitVec.ofNat 64 k) (hn : k + n ≤ F)
    (hfile : off + F ≤ file.length) (hF : F ≤ total) (htotal : total < 2 ^ 64) :
    ic.reallyNread n = .ok ((file.drop (off + k)).take n,
        { ic with pos := ic.pos + n }) ∧
      Outcome (M.SupportsRun vbase total)
        (M.Wrote vbase (k + n) (segmentImage file off F) mem0)
        (M.storePageAt mem va ((file.drop (off + k)).take n)) := by
  have hlen : ((file.drop (off + k)).take n).length = n := by
    rw [List.length_take, List.length_drop]
    omega
  constructor
  · subst hic
    rw [reallyNread_eq (by omega), hpos]
  · have hstore := h.storePageAt total ((file.drop (off + k)).take n) hva (by
        intro i hi
        rw [hlen] at hi
        rw [getD_take_drop hi, segmentImage, if_pos (by omega),
          Nat.add_assoc])
      (by omega) htotal
    rwa [hlen] at hstore

theorem Wrote.loadPages {F : ℕ} (hfile : off + F ≤ file.length)
    (hF : F ≤ total) (htotal : total < 2 ^ 64) :
    ∀ {n pageNum : ℕ} {ic : InChannel} {mem : μ},
      M.Wrote vbase (4096 * pageNum) (segmentImage file off F) mem0 mem →
      ic.contents = file → ic.pos = off + 4096 * pageNum →
      4096 * (pageNum + n) ≤ F →
      Outcome (M.SupportsRun vbase total)
        (fun r => r.1.contents = file ∧ r.1.pos = off + 4096 * (pageNum + n) ∧
          M.Wrote vbase (4096 * (pageNum + n)) (segmentImage file off F) mem0
            r.2)
        (M.loadPages vbase n pageNum ic mem) := by
  intro n
  induction n with
  | zero =>
    intro pageNum ic mem h hic hpos _
    exact Outcome.pure ⟨hic, hpos, h⟩
  | succ n ih =>
    intro pageNum ic mem h hic hpos hn
    have hva : vbase + BitVec.ofNat 64 pageNum * 4096 =
        vbase + BitVec.ofNat 64 (4096 * pageNum) := by
      rw [Nat.mul_comm, BitVec.ofNat_mul]
      rfl
    obtain ⟨hread, hstore⟩ := h.readPage (n := 4096) hic hpos hva (by omega)
      hfile hF htotal
    rw [LoaderMemory.loadPages]
    change Outcome _ _ (ic.reallyNread (4096 : ℕ) >>= _)
    rw [hread]
    refine hstore.bind fun mem' hmem' => ?_
    have hassoc : pageNum + (n + 1) = pageNum + 1 + n := by omega
    rw [hassoc] at hn ⊢
    have hpos' : ic.pos + 4096 = off + 4096 * (pageNum + 1) := by omega
    exact ih hmem' hic hpos' hn

theorem Wrote.loadPartial {rest : ℕ} (hsmall : filesz.toNat < 2 ^ 62)
    (hrest : rest = filesz.toNat % 4096)
    (h : M.Wrote vbase (filesz.toNat - rest)
      (segmentImage file off filesz.toNat) mem0 mem)
    (hic : ic.contents = file) (hpos : ic.pos = off + (filesz.toNat - rest))
    (hfile : off + filesz.toNat ≤ file.length) (hF : filesz.toNat ≤ total)
    (htotal : total < 2 ^ 64) :
    Outcome (M.SupportsRun vbase total)
      (M.Wrote vbase filesz.toNat (segmentImage file off filesz.toNat) mem0)
      (M.loadPartial vbase filesz ic mem) := by
  have hrem : (filesz.srem 0x1000).toNat = rest :=
    (toNat_srem_page (by omega)).trans hrest.symm
  have hle := Nat.mod_le filesz.toNat 4096
  have hsum : filesz.toNat - rest + rest = filesz.toNat := by omega
  unfold LoaderMemory.loadPartial
  dsimp only
  split_ifs with hzero
  · have hrest0 : rest = 0 := by
      rw [← hrem, hzero]
      rfl
    rw [hrest0, Nat.sub_zero] at h
    exact Outcome.pure h
  · have hva : vbase + (filesz - filesz.srem 0x1000) =
        vbase + BitVec.ofNat 64 (filesz.toNat - rest) := by
      have hsub : (filesz - filesz.srem 0x1000).toNat =
          filesz.toNat - rest := by
        rw [BitVec.toNat_sub_of_le (BitVec.le_def.mpr (by omega)), hrem]
      rw [← hsub, BitVec.ofNat_toNat, BitVec.setWidth_eq]
    have hint : I64.toOCamlInt (filesz.srem 0x1000) = (rest : ℤ) := by
      rw [I64.toOCamlInt_of_lt (by omega), hrem]
    obtain ⟨hread, hstore⟩ := h.readPage (n := rest) hic hpos hva (by omega)
      hfile hF htotal
    rw [hint, hread]
    rw [hsum] at hstore
    exact hstore

end Reading

/-! ## Filling the rest with zeros -/

section Rest

variable {M : LoaderMemory μ β} {image : ℕ → UInt8}
  {vbase filesz memsz : I64} {mem0 mem : μ}

/-- The size of a data segment in memory, up to the end of its last page. -/
def filledSize (vbase memsz : I64) : ℕ :=
  memsz.toNat + padding (vbase + memsz).toNat

theorem padding_lt (n : ℕ) : padding n < 4096 :=
  Nat.mod_lt _ (by norm_num)

theorem add_ofNat_toNat (a x : I64) : a + BitVec.ofNat 64 x.toNat = a + x := by
  rw [BitVec.ofNat_toNat, BitVec.setWidth_eq]

/-- The first piece ends with the page or with the segment. -/
theorem toNat_partial {gap remaining : I64} {k : ℕ} (hgap : gap.toNat = k)
    (hk : k < 4096) (hr : remaining.toNat < 2 ^ 63) :
    (if gap.sle remaining then gap else remaining).toNat =
      min k remaining.toNat := by
  have hsle : gap.sle remaining = true ↔ k ≤ remaining.toNat := by
    rw [BitVec.sle_iff_toInt_le, BitVec.toInt_eq_toNat_of_lt (by omega),
      BitVec.toInt_eq_toNat_of_lt (by omega)]
    omega
  split_ifs with h <;> rw [hsle] at h <;> omega

theorem Wrote.zeroRest (hsmall : memsz.toNat < 2 ^ 63)
    (hlt : filesz.toNat < memsz.toNat)
    (h : M.Wrote vbase filesz.toNat image mem0 mem)
    (hzero : ∀ i, filesz.toNat ≤ i → image i = 0) (isMainProg : Bool)
    (initialBreak : Option I64) :
    Outcome (M.SupportsRun vbase (filledSize vbase memsz))
      (fun r => M.Wrote vbase (filledSize vbase memsz) image mem0 r.1)
      (M.zeroRest vbase filesz memsz isMainProg initialBreak mem) := by
  have hpad := padding_lt (vbase + memsz).toNat
  have hgap := padding_lt (vbase + filesz).toNat
  have htotal : filledSize vbase memsz < 2 ^ 64 := by
    unfold filledSize
    omega
  have hle : memsz.toNat ≤ filledSize vbase memsz := Nat.le_add_right _ _
  have hrem : (memsz - filesz).toNat = memsz.toNat - filesz.toNat :=
    BitVec.toNat_sub_of_le (BitVec.le_def.mpr hlt.le)
  have hpart := toNat_partial (alignUp_sub (vbase + filesz)) hgap
    (show (memsz - filesz).toNat < 2 ^ 63 by omega)
  unfold LoaderMemory.zeroRest
  dsimp only
  generalize (if (alignUp (vbase + filesz) - (vbase + filesz)).sle
    (memsz - filesz) then alignUp (vbase + filesz) - (vbase + filesz)
    else memsz - filesz) = partial1 at hpart ⊢
  have hp1 : partial1.toNat ≤ memsz.toNat - filesz.toNat := by omega
  have hint : I64.toOCamlInt partial1 = (partial1.toNat : ℤ) :=
    I64.toOCamlInt_of_lt (by omega)
  rw [hint]
  refine (h.zeroFill (filledSize vbase memsz)
    (add_ofNat_toNat vbase filesz).symm (fun i _ => hzero _ (by omega))
    (n := partial1.toNat) (by omega) htotal).bind fun mem1 hmem1 => ?_
  have hrem1 : (memsz - filesz - partial1).toNat =
      memsz.toNat - filesz.toNat - partial1.toNat := by
    rw [BitVec.toNat_sub_of_le (BitVec.le_def.mpr (by omega)), hrem]
  have hva1 : vbase + filesz + partial1 =
      vbase + BitVec.ofNat 64 (filesz.toNat + partial1.toNat) := by
    rw [BitVec.ofNat_add, ← BitVec.add_assoc, add_ofNat_toNat, add_ofNat_toNat]
  refine (hmem1.zeroPages (filledSize vbase memsz) hva1 (by omega)
    (fun i _ => hzero _ (by omega)) (by omega) htotal).bind ?_
  rintro ⟨mem2, va2, rest⟩ ⟨hrest, hva2, hmem2⟩
  dsimp only at hrest hva2 hmem2 ⊢
  have hmod := Nat.mod_lt (memsz - filesz - partial1).toNat
    (show 0 < 4096 by norm_num)
  have hmodle := Nat.mod_le (memsz - filesz - partial1).toNat 4096
  have hint2 : I64.toOCamlInt rest = (rest.toNat : ℤ) :=
    I64.toOCamlInt_of_lt (by omega)
  have hk2 : filesz.toNat + partial1.toNat +
      ((memsz - filesz - partial1).toNat - rest.toNat) + rest.toNat =
        memsz.toNat := by omega
  have hfill2 := hmem2.zeroFill (filledSize vbase memsz) hva2
    (fun i _ => hzero _ (by omega)) (n := rest.toNat) (by omega) htotal
  rw [hk2] at hfill2
  rw [hint2]
  refine hfill2.bind fun mem3 hmem3 => ?_
  have hva3 : va2 + rest = vbase + memsz := by
    rw [hva2, ← add_ofNat_toNat _ rest, BitVec.add_assoc, ← BitVec.ofNat_add,
      hk2, add_ofNat_toNat]
  have hlast := alignUp_sub (vbase + memsz)
  have hint3 : I64.toOCamlInt (alignUp (vbase + memsz) - (vbase + memsz)) =
      (padding (vbase + memsz).toNat : ℤ) := by
    rw [I64.toOCamlInt_of_lt (by omega), hlast]
  rw [hva3, hint3]
  refine (hmem3.zeroFill (filledSize vbase memsz)
    (add_ofNat_toNat vbase memsz).symm (fun i _ => hzero _ (by omega))
    (n := padding (vbase + memsz).toNat) le_rfl htotal).bind
    fun mem4 hmem4 => ?_
  exact Outcome.pure hmem4

end Rest

end LoaderMemory

/-! ## The whole segment -/

open LoaderMemory

/-- How much of the memory a segment fills: the file contents and, for a data
segment with more memory than that, zeros up to the end of the page. -/
def ProgramHeader.filled (phr : ProgramHeader) (virtOff : I64) : ℕ :=
  if phr.filesz.toNat < phr.memsz.toNat ∧ phr.IsData then
    filledSize (phr.vaddr + virtOff) phr.memsz
  else phr.filesz.toNat

section Segment

variable {μ β : Type} {phr : ProgramHeader} {ic : InChannel}

theorem ProgramHeader.filled_lt (virtOff : I64)
    (hmem : phr.memsz.toNat < 2 ^ 63) (hF : phr.filesz.toNat < 2 ^ 62) :
    phr.filesz.toNat ≤ phr.filled virtOff ∧ phr.filled virtOff < 2 ^ 64 := by
  have hpad := padding_lt (phr.vaddr + virtOff + phr.memsz).toNat
  unfold ProgramHeader.filled filledSize
  split_ifs <;> omega

theorem loadSegment_outcome (M : LoaderMemory μ β) (virtOff : I64)
    (hfile : phr.offset.toNat + phr.filesz.toNat ≤ ic.contents.length)
    (hmem : phr.memsz.toNat < 2 ^ 63) (hle : phr.filesz.toNat ≤ phr.memsz.toNat)
    (isMainProg : Bool) (initialBreak : Option I64) (mem : μ) :
    Outcome (M.SupportsRun (phr.vaddr + virtOff) (phr.filled virtOff))
      (fun r => M.Wrote (phr.vaddr + virtOff) (phr.filled virtOff)
        (segmentImage ic.contents phr.offset.toNat phr.filesz.toNat) mem r.1)
      (M.loadSegment ic phr virtOff isMainProg initialBreak mem) := by
  have hfits := ic.fits
  have hcond : phr.filesz.slt phr.memsz = true ↔
      phr.filesz.toNat < phr.memsz.toNat := by
    rw [BitVec.slt_iff_toInt_lt, BitVec.toInt_eq_toNat_of_lt (by omega),
      BitVec.toInt_eq_toNat_of_lt (by omega)]
    omega
  have hoffset : I64.toOCamlInt phr.offset = (phr.offset.toNat : ℤ) :=
    I64.toOCamlInt_of_lt (by omega)
  have hpages : I64.toOCamlInt (phr.filesz.sdiv 4096) =
      ((phr.filesz.toNat / 4096 : ℕ) : ℤ) := by
    have hdiv := toNat_sdiv_page (x := phr.filesz) (by omega)
    rw [I64.toOCamlInt_of_lt (by omega), hdiv]
  obtain ⟨hF, htotal⟩ := phr.filled_lt virtOff hmem (by omega)
  have hsplit := Nat.div_add_mod phr.filesz.toNat 4096
  have hseek : ic.seekIn (phr.offset.toNat : ℤ) =
      .ok { ic with pos := phr.offset.toNat } := by
    rw [InChannel.seekIn, if_neg (by omega), Int.toNat_natCast]
    rfl
  unfold LoaderMemory.loadSegment
  rw [hoffset, hpages, hseek, Int.toNat_natCast]
  have hstart : M.Wrote (phr.vaddr + virtOff) (4096 * 0)
      (segmentImage ic.contents phr.offset.toNat phr.filesz.toNat) mem mem :=
    Writes.refl _ _ _ _
  change Outcome _ _ (M.loadPages (phr.vaddr + virtOff)
    (phr.filesz.toNat / 4096) 0 { ic with pos := phr.offset.toNat } mem >>= _)
  refine Outcome.bind (Wrote.loadPages (n := phr.filesz.toNat / 4096) hfile hF
    htotal hstart rfl rfl (by omega)) ?_
  rintro ⟨ic1, mem1⟩ ⟨hic1, hpos1, hmem1⟩
  dsimp only at hic1 hpos1 hmem1 ⊢
  have hk : 4096 * (0 + phr.filesz.toNat / 4096) =
      phr.filesz.toNat - phr.filesz.toNat % 4096 := by omega
  rw [hk] at hpos1 hmem1
  refine (Wrote.loadPartial (by omega) rfl hmem1 hic1 hpos1 hfile hF
    htotal).bind fun mem2 hmem2 => ?_
  by_cases hdata : phr.filesz.toNat < phr.memsz.toNat ∧ phr.IsData
  · rw [if_pos ⟨hcond.mpr hdata.1, hdata.2⟩]
    unfold ProgramHeader.filled
    rw [if_pos hdata]
    exact hmem2.zeroRest hmem hdata.1 (fun i hi => segmentImage_of_ge hi)
      isMainProg initialBreak
  · rw [if_neg fun h => hdata ⟨hcond.mp h.1, h.2⟩]
    unfold ProgramHeader.filled
    rw [if_neg hdata]
    exact Outcome.pure hmem2

/-- After `load_segment` the file contents are at their addresses, a data
segment with more memory than file contents is zero up to the end of its last
page, and nothing else has changed. -/
theorem loadSegment_image (M : LoaderMemory μ β) (virtOff : I64)
    (hfile : phr.offset.toNat + phr.filesz.toNat ≤ ic.contents.length)
    (hle : phr.filesz.sle phr.memsz = true) (isMainProg : Bool)
    (initialBreak : Option I64) (mem : μ) :
    (M.SupportsRun (phr.vaddr + virtOff) (phr.filled virtOff) →
      ∃ r, M.loadSegment ic phr virtOff isMainProg initialBreak mem =
        .ok r) ∧
    ∀ r, M.loadSegment ic phr virtOff isMainProg initialBreak mem = .ok r →
      (∀ i < phr.filesz.toNat,
        M.value (M.cell r.1 (phr.vaddr + virtOff + BitVec.ofNat 64 i)) =
          ic.contents[phr.offset.toNat + i]?) ∧
      (phr.IsData → phr.filesz.slt phr.memsz = true →
        ∀ i, phr.filesz.toNat ≤ i →
          i < filledSize (phr.vaddr + virtOff) phr.memsz →
          M.value (M.cell r.1 (phr.vaddr + virtOff + BitVec.ofNat 64 i)) =
            some 0) ∧
      ∀ x, phr.filled virtOff ≤ (x - (phr.vaddr + virtOff)).toNat →
        M.cell r.1 x = M.cell mem x := by
  have hfits := ic.fits
  have hmem : phr.memsz.toNat < 2 ^ 63 ∧
      phr.filesz.toNat ≤ phr.memsz.toNat := by
    have hcond := BitVec.toInt_eq_toNat_cond phr.memsz
    rw [BitVec.sle_iff_toInt_le, BitVec.toInt_eq_toNat_of_lt (x := phr.filesz)
      (by omega)] at hle
    split_ifs at hcond <;> omega
  obtain ⟨hF, htotal⟩ := phr.filled_lt virtOff hmem.1 (by omega)
  have h := loadSegment_outcome M virtOff hfile hmem.1 hmem.2 isMainProg
    initialBreak mem
  refine ⟨h.returns, fun r hr => ?_⟩
  have hw := h.ok r hr
  have hin : ∀ i < phr.filled virtOff,
      M.value (M.cell r.1 (phr.vaddr + virtOff + BitVec.ofNat 64 i)) =
        some (segmentImage ic.contents phr.offset.toNat phr.filesz.toNat
          i) := by
    intro i hi
    have hx := hw (phr.vaddr + virtOff + BitVec.ofNat 64 i)
    rwa [sub_toNat_of_add _ (by omega), if_pos hi] at hx
  refine ⟨fun i hi => ?_, fun hdata hlt i hge hi => ?_, fun x hx => ?_⟩
  · rw [hin i (by omega), segmentImage, if_pos hi,
      List.getD_eq_getElem _ _ (by omega), List.getElem?_eq_getElem]
  · have hcond : phr.filesz.toNat < phr.memsz.toNat := by
      rw [BitVec.slt_iff_toInt_lt, BitVec.toInt_eq_toNat_of_lt (by omega),
        BitVec.toInt_eq_toNat_of_lt (by omega)] at hlt
      omega
    have hfilled : phr.filled virtOff =
        filledSize (phr.vaddr + virtOff) phr.memsz :=
      if_pos ⟨hcond, hdata⟩
    rw [hin i (by omega), segmentImage_of_ge hge]
  · have hout := hw x
    rwa [if_neg (not_lt.mpr hx)] at hout

end Segment

/-! ## A segment of one byte -/

section Sample

/-- A data segment with one byte in the file. -/
def byteHeader (memsz : I64) : ProgramHeader where
  phType := 1
  offset := 0
  vaddr := 0x1000
  filesz := 1
  memsz := memsz
  phFlags := 6

def byteFile : InChannel := ⟨[5], 0, by norm_num⟩

/-- A memory full of sevens. -/
def sevens : HashMemory := fun _ => some 7

theorem loadSegment_image_byte :
    ∃ r, HashMemory.loader.loadSegment byteFile (byteHeader 2) 0 true none
        sevens = .ok r ∧
      HashMemory.loader.value (HashMemory.loader.cell r.1 0x1000) = some 5 ∧
      HashMemory.loader.value (HashMemory.loader.cell r.1 0x1fff) = some 0 ∧
      HashMemory.loader.cell r.1 0x2000 = some 7 := by
  have hfile : (byteHeader 2).offset.toNat + (byteHeader 2).filesz.toNat ≤
      byteFile.contents.length := by decide
  have h := loadSegment_image HashMemory.loader 0 hfile (by decide) true none
    sevens
  obtain ⟨r, hr⟩ := h.1 fun i _ => trivial
  obtain ⟨hfile, hzero, hframe⟩ := h.2 r hr
  exact ⟨r, hr, hfile 0 (by decide),
    hzero ⟨rfl, .inl rfl⟩ (by decide) 0xfff (by decide) (by decide),
    hframe 0x2000 (by decide)⟩

/-- Without memory beyond the file contents nothing is filled with zeros. -/
theorem loadSegment_exact_size :
    ∃ r, HashMemory.loader.loadSegment byteFile (byteHeader 1) 0 true none
        sevens = .ok r ∧
      (byteHeader 1).IsData ∧
      HashMemory.loader.value (HashMemory.loader.cell r.1 0x1001) = some 7 :=
  ⟨_, rfl, ⟨rfl, .inl rfl⟩, rfl⟩

end Sample

end Fuzzball.Loader
