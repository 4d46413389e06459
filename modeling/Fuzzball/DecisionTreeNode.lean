import Fuzzball.OCamlFormat

/-!
# Records of decision tree nodes

The nodes of `binary_decision_tree.ml` and the strings they are stored as, with
the nodes that are the same after they are stored and fetched again.
-/

namespace Fuzzball.DecisionTree

/-- A `dt_node_ref` is the number of a node. -/
structure Node where
  parent : Option ℤ
  /-- `none`: unexplored; `some none`: unsat; `some (some n)`: sat. -/
  fChild : Option (Option ℤ)
  tChild : Option (Option ℤ)
  allSeen : Bool
  queryChildren : Option ℤ
  queryCounted : Bool
  heurMin : ℤ
  heurMax : ℤ
  ident : ℤ
  eipLoc : I64
  deriving DecidableEq, Repr

/-- `i land mask_32bits_int`, on a platform with 64-bit words. -/
def mask32 (i : ℤ) : ℕ := (i % 2 ^ 32).toNat

def kidToInt : Option (Option ℤ) → ℤ
  | none => 0x7fffffff
  | some none => 0
  | some (some k) => k

def flagsInt (n : Node) : ℕ :=
  (if n.allSeen then 1 else 0) + (if n.queryCounted then 2 else 0)

/-- The format is `%08x%c%08x%08x%08x%08x%04x%016Lx`; the assertion on the
length holds of every node. -/
def dtNodeToString (n : Node) : OString :=
  hexPadded 8 (mask32 (n.parent.getD 0)) ++
    [UInt8.ofNat (0x40 + flagsInt n)] ++
    hexPadded 8 (mask32 (kidToInt n.fChild)) ++
    hexPadded 8 (mask32 (kidToInt n.tChild)) ++
    hexPadded 8 (mask32 n.heurMin) ++
    hexPadded 8 (mask32 n.heurMax) ++
    hexPadded 4 ((n.queryChildren.getD (-1) % 2 ^ 16).toNat) ++
    hexPadded 16 n.eipLoc.toNat

def kidToOo (i : ℤ) : Option (Option ℤ) :=
  if i = 0x7fffffff then none
  else if i = 0 then some none
  else some (some i)

def maybeNegativeOne (i : ℤ) : ℤ :=
  if mask32 i = 0xffffffff then -1 else i

/-- `string_to_dt_node` after the assertion on the length. -/
def stringToDtNode (ident : ℤ) (s : OString) : OCaml Node := do
  let parentStr ← s.sub 0 8
  let flagsStr ← s.sub 8 1
  let fChildStr ← s.sub 9 8
  let tChildStr ← s.sub 17 8
  let heurMinStr ← s.sub 25 8
  let heurMaxStr ← s.sub 33 8
  let queryChildrenStr ← s.sub 41 4
  let eipLocStr ← s.sub 45 16
  let parentInt ← intOfHexString parentStr
  let flags : ℤ := (flagsStr.headD 0).toNat - 0x40
  let fChildInt ← intOfHexString fChildStr
  let tChildInt ← intOfHexString tChildStr
  let heurMinInt ← intOfHexString heurMinStr
  let heurMaxInt ← intOfHexString heurMaxStr
  let queryChildrenInt ← intOfHexString queryChildrenStr
  let eipLoc ← int64OfHexString eipLocStr
  pure {
    parent := if parentInt = 0 then none else some parentInt
    fChild := kidToOo fChildInt
    tChild := kidToOo tChildInt
    allSeen := flags % 2 ≠ 0
    queryChildren :=
      if queryChildrenInt = 0xffff then none else some queryChildrenInt
    queryCounted := flags / 2 % 2 ≠ 0
    heurMin := maybeNegativeOne heurMinInt
    heurMax := maybeNegativeOne heurMaxInt
    ident := ident
    eipLoc := eipLoc }

/-! ## What is stored -/

/-- The query count as four digits. -/
def queryCode (n : Node) : ℕ := (n.queryChildren.getD (-1) % 2 ^ 16).toNat

/-- A node as it comes back from its string. -/
def Node.stored (n : Node) : Node where
  parent :=
    if (mask32 (n.parent.getD 0) : ℤ) = 0 then none
    else some (mask32 (n.parent.getD 0) : ℤ)
  fChild := kidToOo (mask32 (kidToInt n.fChild))
  tChild := kidToOo (mask32 (kidToInt n.tChild))
  allSeen := n.allSeen
  queryChildren :=
    if (queryCode n : ℤ) = 0xffff then none else some (queryCode n : ℤ)
  queryCounted := n.queryCounted
  heurMin := maybeNegativeOne (mask32 n.heurMin)
  heurMax := maybeNegativeOne (mask32 n.heurMax)
  ident := n.ident
  eipLoc := n.eipLoc

theorem mask32_lt (i : ℤ) : mask32 i < 16 ^ 8 := by
  unfold mask32
  omega

theorem queryCode_lt (n : Node) : queryCode n < 16 ^ 4 := by
  unfold queryCode
  omega

theorem eipLoc_lt (n : Node) : n.eipLoc.toNat < 16 ^ 16 := n.eipLoc.isLt

/-- The string of a node as its pieces of fixed length. -/
theorem dtNodeToString_eq (n : Node) :
    dtNodeToString n =
      hexFixed 8 (mask32 (n.parent.getD 0)) ++
        ([UInt8.ofNat (0x40 + flagsInt n)] ++
        (hexFixed 8 (mask32 (kidToInt n.fChild)) ++
        (hexFixed 8 (mask32 (kidToInt n.tChild)) ++
        (hexFixed 8 (mask32 n.heurMin) ++
        (hexFixed 8 (mask32 n.heurMax) ++
        (hexFixed 4 (queryCode n) ++ (hexFixed 16 n.eipLoc.toNat ++ []))))))) :=
    by
  have h8 : ∀ i, hexPadded 8 (mask32 i) = hexFixed 8 (mask32 i) :=
    fun i => hexPadded_eq_hexFixed (by norm_num) (mask32_lt i)
  have h4 : hexPadded 4 (queryCode n) = hexFixed 4 (queryCode n) :=
    hexPadded_eq_hexFixed (by norm_num) (queryCode_lt n)
  have h16 : hexPadded 16 n.eipLoc.toNat = hexFixed 16 n.eipLoc.toNat :=
    hexPadded_eq_hexFixed (by norm_num) (eipLoc_lt n)
  unfold dtNodeToString
  change _ ++ hexPadded 4 (queryCode n) ++ _ = _
  simp only [h8, h4, h16, List.append_assoc, List.append_nil]

theorem length_dtNodeToString (n : Node) : (dtNodeToString n).length = 61 := by
  simp [dtNodeToString_eq]

theorem sub_append_of_le
    {a c : OString} {start len : ℕ} (h : a.length ≤ start) :
    (a ++ c).sub start len = c.sub (start - a.length) len := by
  have hlen : start + len ≤ (a ++ c).length ↔
      start - a.length + len ≤ c.length := by
    rw [List.length_append]
    omega
  unfold OString.sub
  simp only [hlen, List.drop_append, List.drop_eq_nil_of_le h, List.nil_append]

theorem sub_append_zero {b c : OString} {len : ℕ} (h : b.length = len) :
    (b ++ c).sub 0 len = pure b := by
  have hlen : 0 + len ≤ (b ++ c).length := by
    rw [List.length_append]
    omega
  unfold OString.sub
  rw [if_pos hlen, List.drop_zero, List.take_left' h]

theorem intOfHexString_hexFixed {width n : ℕ} (hwidth : 0 < width)
    (hle : width ≤ 8) (hn : n < 16 ^ width) :
    intOfHexString (hexFixed width n) = pure (n : ℤ) := by
  have hpow : 16 ^ width ≤ 16 ^ 8 := Nat.pow_le_pow_right (by norm_num) hle
  have hbound : n < 2 ^ 63 := by omega
  rw [intOfHexString, hexValue_hexFixed hwidth, Nat.mod_eq_of_lt hn]
  exact if_pos hbound

theorem int64OfHexString_hexFixed (x : I64) :
    int64OfHexString (hexFixed 16 x.toNat) = pure x := by
  have hx := x.isLt
  rw [int64OfHexString, hexValue_hexFixed (by norm_num),
    Nat.mod_eq_of_lt (by omega)]
  dsimp only
  rw [if_pos hx, BitVec.ofNat_toNat, BitVec.setWidth_eq]

theorem flags_of_char (n : Node) :
    (decide (((UInt8.ofNat (0x40 + flagsInt n)).toNat - 0x40 : ℤ) % 2 ≠ 0) =
        n.allSeen) ∧
      decide (((UInt8.ofNat (0x40 + flagsInt n)).toNat - 0x40 : ℤ) / 2 % 2 ≠ 0) =
        n.queryCounted := by
  unfold flagsInt
  cases n.allSeen <;> cases n.queryCounted <;> decide

/-- A stored string is always read back, as the node of its fields' values
within their digits. -/
theorem stringToDtNode_dtNodeToString (n : Node) :
    stringToDtNode n.ident (dtNodeToString n) = .ok n.stored := by
  have hmask : ∀ i, intOfHexString (hexFixed 8 (mask32 i)) = pure (mask32 i : ℤ) :=
    fun i => intOfHexString_hexFixed (by norm_num) le_rfl (mask32_lt i)
  have hquery : intOfHexString (hexFixed 4 (queryCode n)) =
      pure (queryCode n : ℤ) :=
    intOfHexString_hexFixed (by norm_num) (by norm_num) (queryCode_lt n)
  obtain ⟨hseen, hcounted⟩ := flags_of_char n
  unfold stringToDtNode
  rw [dtNodeToString_eq]
  simp only [sub_append_of_le, sub_append_zero, length_hexFixed,
    List.length_singleton, Nat.reduceLeDiff, Nat.reduceSub, pure_bind, hmask,
    hquery, int64OfHexString_hexFixed, List.headD_cons]
  unfold Node.stored
  refine congrArg Except.ok ?_
  congr 1

/-! ## The nodes that are stored as they are -/

/-- A reference to a child that is neither the code of an unexplored child nor
that of an unsat one. -/
def KidFits (kid : Option (Option ℤ)) : Prop :=
  ∀ k, kid = some (some k) → 0 < k ∧ k < 2 ^ 32 ∧ k ≠ 0x7fffffff

structure Node.Fits (n : Node) : Prop where
  parent : ∀ p, n.parent = some p → 0 < p ∧ p < 2 ^ 32
  fChild : KidFits n.fChild
  tChild : KidFits n.tChild
  queryChildren : ∀ c, n.queryChildren = some c → 0 ≤ c ∧ c < 0xffff
  heurMin : -1 ≤ n.heurMin ∧ n.heurMin < 0xffffffff
  heurMax : -1 ≤ n.heurMax ∧ n.heurMax < 0xffffffff

theorem mask32_cast (i : ℤ) : (mask32 i : ℤ) = i % 2 ^ 32 := by
  unfold mask32
  omega

theorem mask32_eq_self_iff {i : ℤ} : (mask32 i : ℤ) = i ↔ 0 ≤ i ∧ i < 2 ^ 32 := by
  rw [mask32_cast]
  omega

theorem parent_stored_iff (n : Node) :
    n.stored.parent = n.parent ↔
      ∀ p, n.parent = some p → 0 < p ∧ p < 2 ^ 32 := by
  unfold Node.stored
  dsimp only
  cases n.parent with
  | none => simp [mask32]
  | some p =>
    simp only [Option.getD_some, Option.some.injEq, forall_eq']
    split_ifs with hzero
    · rw [mask32_cast] at hzero
      exact iff_of_false (by simp) (by omega)
    · rw [mask32_cast] at hzero ⊢
      rw [Option.some.injEq]
      omega

theorem kid_stored_iff (kid : Option (Option ℤ)) :
    kidToOo (mask32 (kidToInt kid)) = kid ↔ KidFits kid := by
  unfold KidFits kidToOo
  rcases kid with _ | _ | k
  · exact iff_of_true (by decide) (by simp)
  · exact iff_of_true (by decide) (by simp)
  · simp only [kidToInt, Option.some.injEq, forall_eq', mask32_cast]
    split_ifs with h1 h2
    · exact iff_of_false (by simp) (by omega)
    · exact iff_of_false (by simp) (by omega)
    · rw [Option.some.injEq, Option.some.injEq]
      omega

theorem queryChildren_stored_iff (n : Node) :
    n.stored.queryChildren = n.queryChildren ↔
      ∀ c, n.queryChildren = some c → 0 ≤ c ∧ c < 0xffff := by
  unfold Node.stored queryCode
  dsimp only
  cases n.queryChildren with
  | none => simp
  | some c =>
    simp only [Option.getD_some, Option.some.injEq, forall_eq']
    split_ifs with hnone
    · exact iff_of_false (by simp) (by omega)
    · rw [Option.some.injEq]
      omega

theorem heur_stored_iff (h : ℤ) :
    maybeNegativeOne (mask32 h) = h ↔ -1 ≤ h ∧ h < 0xffffffff := by
  have hmask : (mask32 (mask32 h) : ℤ) = h % 2 ^ 32 := by
    rw [mask32_cast, mask32_cast]
    omega
  unfold maybeNegativeOne
  split_ifs with hones
  · omega
  · rw [mask32_cast]
    omega

theorem stored_eq_iff (n : Node) : n.stored = n ↔ n.Fits := by
  constructor
  · intro h
    exact ⟨(parent_stored_iff n).mp (congrArg Node.parent h),
      (kid_stored_iff n.fChild).mp (congrArg Node.fChild h),
      (kid_stored_iff n.tChild).mp (congrArg Node.tChild h),
      (queryChildren_stored_iff n).mp (congrArg Node.queryChildren h),
      (heur_stored_iff n.heurMin).mp (congrArg Node.heurMin h),
      (heur_stored_iff n.heurMax).mp (congrArg Node.heurMax h)⟩
  · intro h
    have hparent := (parent_stored_iff n).mpr h.parent
    have hquery := (queryChildren_stored_iff n).mpr h.queryChildren
    unfold Node.stored at hparent hquery ⊢
    dsimp only at hparent hquery
    rw [hparent, hquery, (kid_stored_iff n.fChild).mpr h.fChild,
      (kid_stored_iff n.tChild).mpr h.tChild,
      (heur_stored_iff n.heurMin).mpr h.heurMin,
      (heur_stored_iff n.heurMax).mpr h.heurMax]

/-- A record survives storage just when every field is in the range that its
digits and their reserved values leave. -/
theorem record_survives_iff (n : Node) :
    stringToDtNode n.ident (dtNodeToString n) = .ok n ↔ n.Fits := by
  rw [stringToDtNode_dtNodeToString, Except.ok.injEq, stored_eq_iff]

/-- The root of a choice of which `count` alternatives have been explored. -/
def choiceRoot (count : ℤ) : Node where
  parent := none
  fChild := some (some 4)
  tChild := some (some 5)
  allSeen := false
  queryChildren := some count
  queryCounted := false
  heurMin := 0x3fffffff
  heurMax := -1
  ident := 1
  eipLoc := 0x08048000

/-- With 65535 counted alternatives the root is fetched as a node within a
choice, and with 65536 as one without any alternative. -/
theorem choiceRoot_truncated :
    stringToDtNode 1 (dtNodeToString (choiceRoot 0xffff)) =
        .ok { choiceRoot 0xffff with queryChildren := none } ∧
      stringToDtNode 1 (dtNodeToString (choiceRoot 0x10000)) =
        .ok (choiceRoot 0) := by
  decide +kernel

end Fuzzball.DecisionTree
