import Fuzzball.GranularSnapshot
import Fuzzball.LoaderMemory

/-!
# Copies of page memories

`update_mem` and `copy_to` of the class `granular_page_memory`.  An update
merges one chunk into its page.  The loops of a copy run to the length of the
array they index, so that a copy ends in an exception after the first page that
is there.
-/

namespace Fuzzball.Granular

open Loader Loader.StringMaybeMemory

variable {μ τ : Type}

/-! ## The methods -/

abbrev Page (τ : Type) := Fin 512 → Gran64 τ

abbrev PageMemory (τ : Type) := Fin 0x100001 → Option (Page τ)

/-- An index into an array of length `n`. -/
def checkedIndex (n : ℕ) (i : ℤ) : Loading (Fin n) :=
  if h : 0 ≤ i ∧ i < n then .ok ⟨i.toNat, by omega⟩
  else .error (.invalidArgument "index out of bounds")

namespace PageMemory

/-- `Array.init 512 (fun _ -> Absent64)`. -/
def newPage : Page τ := fun _ => .absent64

def updateMem (D : Domain τ) (mem : PageMemory τ) (addr : I64)
    (src : Gran64 τ) : Loading (PageMemory τ) := do
  let pageN ← checkedIndex 0x100001 (pageOf addr)
  let chunk ← checkedIndex 512 (idxOf addr >>> 3 : ℕ)
  match mem pageN with
  | some page =>
    let res := merge64 D src (page chunk)
    pure (Function.update mem pageN (some (Function.update page chunk res)))
  | none =>
    pure (Function.update mem pageN (some (Function.update newPage chunk src)))

end PageMemory

/-- Methods that change a target and may raise. -/
abbrev Copying (μ : Type) := ExceptT LoaderExn (StateM μ)

/-- The body for `n` indices from `i` on. -/
def forFrom (body : ℕ → Copying μ Unit) : (n i : ℕ) → Copying μ Unit
  | 0, _ => pure ()
  | n + 1, i => do
    body i
    forFrom body n (i + 1)

namespace PageMemory

variable (update : I64 → Gran64 τ → Copying μ Unit)

def chunkAddrOf (pageN i : ℕ) : I64 :=
  BitVec.ofNat 64 ((pageN <<< 12) + (i <<< 3))

/-- `for i = 0 to (Array.length page)`, one more than there are chunks. -/
def copyPage (pageN : ℕ) (page : Page τ) : Copying μ Unit :=
  forFrom (fun i => do
    let k ← liftM (checkedIndex 512 i)
    update (chunkAddrOf pageN i) (page k)) (512 + 1) 0

/-- `copy_to`, given the target's `update_mem`;
`for j = 0 to (Array.length mem)`. -/
def copyTo (mem : PageMemory τ) : Copying μ Unit :=
  forFrom (fun j => do
    let k ← liftM (checkedIndex 0x100001 j)
    match mem k with
    | some array => copyPage update j array
    | none => pure ()) (0x100001 + 1) 0

end PageMemory

/-! ## Loops -/

section Loops

variable {α β : Type} {x : Copying μ α} {f : α → Copying μ β} {gm gm' : μ}

theorem run_bind_ok {a : α} (h : x gm = (.ok a, gm')) :
    (x >>= f) gm = f a gm' := by
  simp only [bind, ExceptT.bind, ExceptT.mk, StateT.bind, h]
  rfl

theorem run_bind_error {e : LoaderExn} (h : x gm = (.error e, gm')) :
    (x >>= f) gm = (.error e, gm') := by
  simp only [bind, ExceptT.bind, ExceptT.mk, StateT.bind, h]
  rfl

variable {body : ℕ → Copying μ Unit} {n i : ℕ}

/-- A loop raises if one of its rounds always does. -/
theorem forFrom_raises {m : ℕ} (hm : m < n)
    (h : ∀ gm, ∃ e gm', body (i + m) gm = (.error e, gm')) (gm : μ) :
    ∃ e gm', forFrom body n i gm = (.error e, gm') := by
  induction n generalizing i m gm with
  | zero => omega
  | succ n ih =>
    cases hi : body i gm with
    | mk r gm1 =>
      cases r with
      | error e => exact ⟨e, gm1, run_bind_error hi⟩
      | ok u =>
        cases m with
        | zero =>
          obtain ⟨e, gm2, he⟩ := h gm
          cases hi.symm.trans he
        | succ m =>
          have hnext : i + (m + 1) = i + 1 + m := by omega
          rw [hnext] at h
          obtain ⟨e, gm', he⟩ := ih (by omega) h gm1
          exact ⟨e, gm', (run_bind_ok hi).trans he⟩

/-- A loop whose rounds return up to one that raises. -/
theorem forFrom_until {f : μ → ℕ → μ} {m : ℕ} (hm : m < n)
    (hok : ∀ k < m, ∀ gm, body (i + k) gm = (.ok (), f gm (i + k)))
    {e : LoaderExn} (gm gm' : μ)
    (herr : body (i + m) ((List.range' i m).foldl f gm) = (.error e, gm')) :
    forFrom body n i gm = (.error e, gm') := by
  induction m generalizing n i gm with
  | zero =>
    cases n with
    | zero => omega
    | succ n => exact run_bind_error herr
  | succ m ih =>
    cases n with
    | zero => omega
    | succ n =>
      have hnext (k : ℕ) : i + (k + 1) = i + 1 + k := by omega
      rw [hnext] at herr
      refine (run_bind_ok (hok 0 (by omega) gm)).trans ?_
      refine ih (by omega) (fun k hk gm => ?_) _ herr
      rw [← hnext]
      exact hok (k + 1) (by omega) gm

end Loops

theorem checkedIndex_self (n : ℕ) :
    checkedIndex n n = .error (.invalidArgument "index out of bounds") :=
  dif_neg (by omega)

theorem checkedIndex_of_lt {n i : ℕ} (h : i < n) :
    checkedIndex n i = .ok ⟨i, h⟩ :=
  dif_pos (by omega)

namespace PageMemory

/-! ## What a copy does -/

variable (update : I64 → Gran64 τ → Copying μ Unit)

/-- A copy never returns, whatever the memories. -/
theorem copyTo_raises (mem : PageMemory τ) (gm : μ) :
    ∃ e gm', copyTo update mem gm = (.error e, gm') := by
  have hend : (0x100001 : ℕ) < 0x100001 + 1 := Nat.lt_succ_self _
  refine forFrom_raises hend (fun gm => ?_) gm
  rw [Nat.zero_add, checkedIndex_self]
  exact ⟨_, _, rfl⟩

section Total

variable {update} {u : I64 → Gran64 τ → μ → μ}

/-- The target after one chunk of a page. -/
def chunkCopied (u : I64 → Gran64 τ → μ → μ) (pageN : ℕ) (page : Page τ)
    (gm : μ) (i : ℕ) : μ :=
  if h : i < 512 then u (chunkAddrOf pageN i) (page ⟨i, h⟩) gm else gm

/-- The target after all chunks of a page. -/
def pageCopied (u : I64 → Gran64 τ → μ → μ) (pageN : ℕ) (page : Page τ)
    (gm : μ) : μ :=
  (List.range' 0 512).foldl (chunkCopied u pageN page) gm

theorem copyPage_eq (hu : ∀ addr g gm, update addr g gm = (.ok (), u addr g gm))
    (pageN : ℕ) (page : Page τ) (gm : μ) :
    copyPage update pageN page gm =
      (.error (.invalidArgument "index out of bounds"),
        pageCopied u pageN page gm) := by
  have hend : 512 < 512 + 1 := Nat.lt_succ_self _
  refine forFrom_until (f := chunkCopied u pageN page) hend
    (fun k hk gm => ?_) gm _ ?_
  · rw [Nat.zero_add, checkedIndex_of_lt hk, chunkCopied, dif_pos hk]
    exact hu _ _ _
  · rw [Nat.zero_add, checkedIndex_self]
    rfl

/-- The rounds of a copy up to one that raises find no page. -/
theorem copyTo_until {mem : PageMemory τ} {m : ℕ} (hm : m < 0x100001 + 1)
    (hnone : ∀ k : Fin 0x100001, k < m → mem k = none) {e : LoaderExn}
    (gm gm' : μ)
    (herr : (do
      let k ← liftM (checkedIndex 0x100001 m)
      match mem k with
      | some array => copyPage update m array
      | none => pure () : Copying μ Unit) gm = (.error e, gm')) :
    copyTo update mem gm = (.error e, gm') := by
  have hkeep (l : List ℕ) : l.foldl (fun gm _ => gm) gm = gm := by
    induction l with
    | nil => rfl
    | cons a l ih => exact ih
  refine forFrom_until (f := fun gm _ => gm) hm (fun k hk gm => ?_) gm _ ?_
  · have hlt : k < 0x100001 := by omega
    rw [Nat.zero_add, checkedIndex_of_lt hlt]
    change (match mem ⟨k, hlt⟩ with
      | some array => copyPage update k array
      | none => pure ()) gm = _
    rw [hnone ⟨k, hlt⟩ hk]
    rfl
  · rw [Nat.zero_add, hkeep]
    exact herr

theorem copyTo_of_none {mem : PageMemory τ} (hnone : ∀ k, mem k = none)
    (gm : μ) :
    copyTo update mem gm =
      (.error (.invalidArgument "index out of bounds"), gm) := by
  have hend : (0x100001 : ℕ) < 0x100001 + 1 := Nat.lt_succ_self _
  refine copyTo_until hend (fun k _ => hnone k) gm gm ?_
  rw [checkedIndex_self]
  rfl

/-- A copy ends in an exception after the first page there is. -/
theorem copyTo_of_first
    (hu : ∀ addr g gm, update addr g gm = (.ok (), u addr g gm))
    {mem : PageMemory τ} {j : Fin 0x100001} {page : Page τ}
    (hpage : mem j = some page) (hfirst : ∀ k < j, mem k = none) (gm : μ) :
    copyTo update mem gm = (.error (.invalidArgument "index out of bounds"),
      pageCopied u j page gm) := by
  have hj := j.isLt
  refine copyTo_until (m := j) (by omega) hfirst gm _ ?_
  rw [checkedIndex_of_lt hj]
  change (match mem j with
    | some array => copyPage update j array
    | none => pure ()) gm = _
  rw [hpage]
  exact copyPage_eq hu j page gm

/-- Not even a new memory is copied. -/
theorem copyTo_new_raises :
    copyTo (τ := OString)
        (fun addr g => modify fun gm => gm.updateMem byteStrings addr g)
        (fun _ => none) (∅ : HashTable OString) =
      (.error (.invalidArgument "index out of bounds"), ∅) :=
  copyTo_of_none (fun _ => rfl) ∅

end Total

/-! ## What an update does -/

theorem pageOf_of_supports {a : I64} (h : Supports a) :
    pageOf a = (a.toNat / 4096 : ℕ) := by
  have hpage := pageOf_eq a
  have hcond := BitVec.toInt_eq_toNat_cond a
  unfold Supports at h
  split_ifs at hcond <;> omega

theorem page_lt {a : I64} (h : Supports a) : a.toNat / 4096 < 0x100001 := by
  unfold Supports at h
  omega

theorem chunk_lt (a : I64) : idxOf a >>> 3 < 512 := by
  rw [idxOf_eq, Nat.shiftRight_eq_div_pow]
  omega

/-- The chunk at an address. -/
def chunk (mem : PageMemory τ) (c : I64) : Gran64 τ :=
  if h : c.toNat / 4096 < 0x100001 then
    ((mem ⟨c.toNat / 4096, h⟩).getD newPage) ⟨idxOf c >>> 3, chunk_lt c⟩
  else .absent64

/-- The address that a copy makes of a page and an index. -/
theorem chunk_chunkAddrOf (mem : PageMemory τ) (j : Fin 0x100001)
    (i : Fin 512) :
    chunk mem (chunkAddrOf j i) = ((mem j).getD newPage) i := by
  have hj := j.isLt
  have hi := i.isLt
  have haddr : (chunkAddrOf j i).toNat = 4096 * j + 8 * i := by
    rw [chunkAddrOf, BitVec.toNat_ofNat, Nat.shiftLeft_eq, Nat.shiftLeft_eq]
    omega
  have hpage : (chunkAddrOf j i).toNat / 4096 = j := by omega
  have hidx : idxOf (chunkAddrOf j i) >>> 3 = i := by
    rw [idxOf_eq, Nat.shiftRight_eq_div_pow]
    omega
  have hlt : (chunkAddrOf j i).toNat / 4096 < 0x100001 := by omega
  have hj' : (⟨_, hlt⟩ : Fin 0x100001) = j := Fin.ext hpage
  have hi' : (⟨_, chunk_lt (chunkAddrOf j i)⟩ : Fin 512) = i := Fin.ext hidx
  rw [chunk, dif_pos hlt, hj', hi']

/-- An update of a page that is in the directory gives the page one new
chunk. -/
theorem updateMem_eq (D : Domain τ) (mem : PageMemory τ) {a : I64}
    (h : Supports a) (src : Gran64 τ) :
    ∃ g, updateMem D mem a src = .ok (Function.update mem ⟨_, page_lt h⟩
        (some (Function.update ((mem ⟨_, page_lt h⟩).getD newPage)
          ⟨_, chunk_lt a⟩ g))) ∧
      (g = merge64 D src (chunk mem a) ∨
        g = src ∧ chunk mem a = .absent64) := by
  have hindex : checkedIndex 0x100001 (pageOf a) = .ok ⟨_, page_lt h⟩ := by
    rw [pageOf_of_supports h]
    exact checkedIndex_of_lt (page_lt h)
  have hchunk : chunk mem a =
      ((mem ⟨_, page_lt h⟩).getD newPage) ⟨_, chunk_lt a⟩ :=
    dif_pos (page_lt h)
  rw [hchunk]
  cases hmem : mem ⟨_, page_lt h⟩ with
  | some page =>
    refine ⟨_, ?_, Or.inl rfl⟩
    rw [updateMem, hindex, checkedIndex_of_lt (chunk_lt a)]
    simp only [bind, Except.bind, hmem]
    rfl
  | none =>
    refine ⟨_, ?_, Or.inr ⟨rfl, rfl⟩⟩
    rw [updateMem, hindex, checkedIndex_of_lt (chunk_lt a)]
    simp only [bind, Except.bind, hmem]
    rfl

/-- Two addresses of chunks with one page and one index are one. -/
theorem eq_of_chunk {a c : I64} (ha : a.toNat % 8 = 0) (hc : c.toNat % 8 = 0)
    (hpage : c.toNat / 4096 = a.toNat / 4096)
    (hidx : idxOf c >>> 3 = idxOf a >>> 3) : c = a := by
  rw [idxOf_eq, idxOf_eq, Nat.shiftRight_eq_div_pow,
    Nat.shiftRight_eq_div_pow] at hidx
  apply BitVec.eq_of_toNat_eq
  omega

theorem chunk_update (mem : PageMemory τ) {a : I64} (h : Supports a)
    (ha : a.toNat % 8 = 0) (g : Gran64 τ) {c : I64} (hc : c.toNat % 8 = 0) :
    chunk (Function.update mem ⟨_, page_lt h⟩
      (some (Function.update ((mem ⟨_, page_lt h⟩).getD newPage)
        ⟨_, chunk_lt a⟩ g))) c = if c = a then g else chunk mem c := by
  by_cases hpage : c.toNat / 4096 = a.toNat / 4096
  · have hlt : c.toNat / 4096 < 0x100001 := hpage ▸ page_lt h
    have hfin : (⟨c.toNat / 4096, hlt⟩ : Fin 0x100001) = ⟨_, page_lt h⟩ :=
      Fin.ext hpage
    rw [chunk, chunk, dif_pos hlt, dif_pos hlt, hfin, Function.update_self,
      Option.getD_some]
    by_cases hca : c = a
    · subst hca
      rw [if_pos rfl, Function.update_self]
    · rw [if_neg hca, Function.update_of_ne]
      intro hidx
      exact hca (eq_of_chunk ha hc hpage (congrArg Fin.val hidx))
  · have hca : c ≠ a := by
      rintro rfl
      exact hpage rfl
    rw [if_neg hca, chunk, chunk]
    split_ifs with hlt
    · rw [Function.update_of_ne]
      intro hfin
      exact hpage (congrArg Fin.val hfin)
    · rfl

variable {D : Domain τ} {IsWidth : ℕ → τ → Prop}

/-- An update takes the bytes of the chunk that are present and keeps all
others. -/
theorem updateMem_contents (hD : LawfulDomain D IsWidth) {mem : PageMemory τ}
    (hmem : MemoryWf IsWidth chunk mem) {a : I64} (h : Supports a)
    (ha : a.toNat % 8 = 0) {src : Gran64 τ} (hsrc : src.Wf IsWidth) :
    ∃ mem', updateMem D mem a src = .ok mem' ∧ ∀ x,
      contents D chunk mem' x =
        if chunkAddr x = a then (src.at D (which x)).or (contents D chunk mem x)
        else contents D chunk mem x := by
  obtain ⟨g, hupdate, hg⟩ := updateMem_eq D mem h src
  refine ⟨_, hupdate, fun x => ?_⟩
  have hx : (chunkAddr x).toNat % 8 = 0 := by
    rw [chunkAddr_toNat]
    omega
  rw [contents, chunk_update mem h ha g hx]
  split_ifs with hxa
  · rw [contents, hxa]
    obtain rfl | ⟨rfl, habsent⟩ := hg
    · exact merge64_at hD hsrc (hmem a) (which_lt x)
    · rw [habsent]
      exact Option.or_none.symm
  · rfl

end PageMemory

end Fuzzball.Granular
