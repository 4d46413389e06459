import Fuzzball.FragMarshal

/-!
# Marshalled expressions read back

What the encoder pushes for an expression is read as an expression, whatever
stands behind it: the same one, except that the last operand of a parity is
lost.
-/

namespace Fuzzball.FragMarshal

open Vine DecisionTree

/-! ## Numbers read back -/

section Numbers

theorem toNat_lowByte (n : ℤ) : ((lowByte n).toNat : ℤ) = n % 256 := by
  have hlt : (n % 256).toNat < 256 := by omega
  rw [lowByte, UInt8.toNat_ofNat', Nat.mod_eq_of_lt hlt]
  omega

theorem parseShort_shortCode (s : ℤ) (rest : OString) :
    parseShort (shortCode s ++ rest) = .ok (rest, s % 65536) := by
  have hhigh := toNat_lowByte (s % 2 ^ 63 / 2 ^ 8)
  have hlow := toNat_lowByte s
  have hlt : (lowByte s).toNat < 2 ^ 8 := by omega
  have hor : (((lowByte (s % 2 ^ 63 / 2 ^ 8)).toNat <<< 8 |||
      (lowByte s).toNat : ℕ) : ℤ) = s % 65536 := by
    rw [← Nat.shiftLeft_add_eq_or_of_lt hlt, Nat.shiftLeft_eq]
    rw [Nat.cast_add, Nat.cast_mul, hhigh, hlow]
    omega
  change Except.ok (rest, _) = _
  rw [hor]

theorem toOCamlInt_emod (x : I64) :
    I64.toOCamlInt x % 65536 = (x.toNat % 65536 : ℕ) := by
  have hnat : (x.setWidth 63).toNat = x.toNat % 2 ^ 63 :=
    BitVec.toNat_setWidth _ _
  rw [I64.toOCamlInt, BitVec.toInt_eq_toNat_cond, hnat]
  split <;> omega

/-- The low bits of a shift are those of the number. -/
theorem toNat_sshiftRight_mod (x : I64) {k : ℕ} (hk : k = 16 ∨ k = 32) :
    (x.sshiftRight k).toNat % 2 ^ 32 = x.toNat / 2 ^ k % 2 ^ 32 := by
  have hshift : (x.sshiftRight k).toInt = x.toInt >>> k :=
    BitVec.toInt_sshiftRight
  rw [Int.shiftRight_eq_div_pow, BitVec.toInt_eq_toNat_cond,
    BitVec.toInt_eq_toNat_cond] at hshift
  rcases hk with rfl | rfl
  · split at hshift <;> split at hshift <;> omega
  · split at hshift <;> split at hshift <;> omega

theorem toNat_or (x y : I64) {k : ℕ} (hy : y.toNat < 2 ^ k)
    (hx : x.toNat * 2 ^ k < 2 ^ 64) :
    (x <<< k ||| y).toNat = x.toNat * 2 ^ k + y.toNat := by
  rw [BitVec.toNat_or, BitVec.toNat_shiftLeft, Nat.shiftLeft_eq,
    Nat.mod_eq_of_lt hx, ← Nat.shiftLeft_eq,
    ← Nat.shiftLeft_add_eq_or_of_lt hy, Nat.shiftLeft_eq]

theorem toNat_and_low (x : I64) :
    (x &&& 0xffffffff).toNat = x.toNat % 2 ^ 32 := by
  rw [BitVec.toNat_and]
  exact Nat.and_two_pow_sub_one_eq_mod x.toNat 32

theorem toNat_ofInt_short {n : ℕ} (h : n < 65536) :
    (I64.ofInt (n : ℤ)).toNat = n := by
  rw [I64.ofInt, BitVec.ofInt_natCast, BitVec.toNat_ofNat, Nat.mod_eq_of_lt]
  omega

theorem parseWord_wordCode (i : I64) (rest : OString) :
    parseWord (wordCode i ++ rest) = .ok (rest, i &&& 0xffffffff) := by
  have hshift := toNat_sshiftRight_mod i (.inl rfl)
  have hhigh : I64.toOCamlInt (i.sshiftRight 16) % 65536 =
      (i.toNat / 65536 % 65536 : ℕ) := by
    rw [toOCamlInt_emod]
    omega
  have hand : (i &&& 0xffff).toNat = i.toNat % 2 ^ 16 := by
    rw [BitVec.toNat_and]
    exact Nat.and_two_pow_sub_one_eq_mod i.toNat 16
  have hlow : I64.toOCamlInt (i &&& 0xffff) % 65536 =
      (i.toNat % 65536 : ℕ) := by
    rw [toOCamlInt_emod, hand]
    omega
  have hword : I64.ofInt (i.toNat / 65536 % 65536 : ℕ) <<< 16 |||
      I64.ofInt (i.toNat % 65536 : ℕ) = i &&& 0xffffffff := by
    have hnat1 := toNat_ofInt_short
      (Nat.mod_lt (i.toNat / 65536) (show 0 < 65536 by decide))
    have hnat2 := toNat_ofInt_short
      (Nat.mod_lt i.toNat (show 0 < 65536 by decide))
    apply BitVec.eq_of_toNat_eq
    rw [toNat_or _ _ (by omega) (by omega), hnat1, hnat2, toNat_and_low]
    omega
  rw [wordCode, List.append_assoc, parseWord, parseShort_shortCode]
  dsimp only [bind, Except.bind]
  rw [parseShort_shortCode, hhigh, hlow]
  change Except.ok (rest, _) = _
  rw [hword]

theorem parseInt64_digit {c : UInt8} (h : 48 ≤ c.toNat ∧ c.toNat ≤ 57)
    (rest : OString) :
    parseInt64 (c :: rest) = .ok (rest, I64.ofInt (c.toNat - 48)) :=
  if_pos h

theorem parseInt64_letter {c : UInt8} (h : 97 ≤ c.toNat ∧ c.toNat ≤ 122)
    (rest : OString) :
    parseInt64 (c :: rest) = .ok (rest, I64.ofInt (c.toNat - 97 + 10)) :=
  have hdigit : ¬(byte '0' ≤ c ∧ c ≤ byte '9') := fun hc => by
    have hle : c.toNat ≤ 57 := hc.2
    omega
  (if_neg hdigit).trans (if_pos h)

theorem ofInt_eq (i : I64) {n : ℤ} (h : n = i.toInt) : I64.ofInt n = i := by
  rw [h]
  exact BitVec.ofInt_toInt

/-- What a number pushes is read back. -/
theorem parseInt64_int64Code (i : I64) (rest : OString) :
    parseInt64 (int64Code i ++ rest) = .ok (rest, i) := by
  have hbyte := toNat_lowByte i.toInt
  have hnat := BitVec.toInt_eq_toNat_cond i
  unfold int64Code
  dsimp only
  split_ifs with h1 h2 h3 h4 h5 h6 h7 h8 h9 h10
  · have hc := toNat_lowByte (48 + i.toInt)
    rw [List.singleton_append, parseInt64_digit (by omega),
      ofInt_eq i (by omega)]
  · have hc := toNat_lowByte (97 + i.toInt - 10)
    rw [List.singleton_append, parseInt64_letter (by omega),
      ofInt_eq i (by omega)]
  · rw [← ofInt_eq i h3.symm]
    rfl
  · change Except.ok (rest, I64.ofInt _) = _
    rw [ofInt_eq i (by omega)]
  · have hc := toNat_lowByte (-i.toInt)
    change Except.ok (rest, I64.ofInt _) = _
    rw [ofInt_eq i (by omega)]
  · change Except.ok (rest, (0xffffff : I64) <<< 8 ||| I64.ofInt _) = _
    have hlow : (lowByte i.toInt).toNat < 256 := UInt8.toNat_lt _
    have hshort := toNat_ofInt_short (hlow.trans (by decide))
    have hor := toNat_or 0xffffff (I64.ofInt (lowByte i.toInt).toNat)
      (show _ < 2 ^ 8 by omega) (by decide)
    have heq : (0xffffff : I64) <<< 8 ||| I64.ofInt (lowByte i.toInt).toNat =
        i := by
      apply BitVec.eq_of_toNat_eq
      rw [hor, hshort]
      change 0xffffff * 2 ^ 8 + _ = _
      split at hnat <;> omega
    rw [heq]
  · change (parseShort (shortCode i.toInt ++ rest) >>= fun p =>
      pure (p.1, I64.ofInt p.2)) = _
    rw [parseShort_shortCode]
    change Except.ok (rest, I64.ofInt _) = _
    rw [ofInt_eq i (by omega)]
  · change (parseShort (shortCode (-i.toInt) ++ rest) >>= fun p =>
      pure (p.1, I64.ofInt (-p.2))) = _
    rw [parseShort_shortCode]
    change Except.ok (rest, I64.ofInt _) = _
    rw [ofInt_eq i (by omega)]
  · change parseWord (wordCode i ++ rest) = _
    have heq : i &&& 0xffffffff = i := by
      apply BitVec.eq_of_toNat_eq
      rw [toNat_and_low]
      split at hnat <;> omega
    rw [parseWord_wordCode, heq]
  · omega
  · have hhigh := toNat_sshiftRight_mod i (.inr rfl)
    have heq : ((i.sshiftRight 32 &&& 0xffffffff) <<< 32 |||
        ((i &&& 0xffffffff) &&& 0xffffffff)) = i := by
      have hor := toNat_or (i.sshiftRight 32 &&& 0xffffffff)
        ((i &&& 0xffffffff) &&& 0xffffffff)
        (show _ < 2 ^ 32 by rw [toNat_and_low]; omega)
        (by rw [toNat_and_low]; omega)
      apply BitVec.eq_of_toNat_eq
      rw [hor, toNat_and_low, toNat_and_low, toNat_and_low, hhigh]
      omega
    change (parseWord (wordCode (i.sshiftRight 32) ++
      wordCode (i &&& 0xffffffff) ++ rest) >>= fun p =>
        parseWord p.1 >>= fun q => pure (q.1, p.2 <<< 32 ||| q.2)) = _
    rw [List.append_assoc, parseWord_wordCode]
    change (parseWord (wordCode (i &&& 0xffffffff) ++ rest) >>= fun q =>
      pure (q.1, (i.sshiftRight 32 &&& 0xffffffff) <<< 32 ||| q.2)) = _
    rw [parseWord_wordCode]
    change Except.ok (rest, _) = _
    rw [heq]

end Numbers

/-! ## What is encoded -/

/-- The expression that an encoding stands for. -/
def canon : Exp → Exp
  | .binOp op e1 e2 =>
    if isCarry op e1 e2 then carryOf (canon e2)
    else if isParity op e1 e2 then parityOf (canon e1)
    else .binOp op (canon e1) (canon e2)
  | .fbinOp op rm e1 e2 => .fbinOp op rm (canon e1) (canon e2)
  | .unOp op e1 => .unOp op (canon e1)
  | .funOp op rm e1 => .funOp op rm (canon e1)
  | .mem v e1 t => .mem v (canon e1) t
  | .cast ct t e1 => .cast ct t (canon e1)
  | .fcast ct rm t e1 => .fcast ct rm t (canon e1)
  | .ite ce te fe => .ite (canon ce) (canon te) (canon fe)
  | e => e

/-- What is encoded as a parity is the parity of an expression: the eighth
operand is the first, too. -/
def ParityExact : Exp → Prop
  | .binOp op e1 e2 =>
    if isCarry op e1 e2 then ParityExact e2
    else if isParity op e1 e2 then ParityExact e1 ∧ e2 = parityTail e1
    else ParityExact e1 ∧ ParityExact e2
  | .fbinOp _ _ e1 e2 => ParityExact e1 ∧ ParityExact e2
  | .unOp _ e1 | .funOp _ _ e1 | .mem _ e1 _ | .cast _ _ e1
  | .fcast _ _ _ e1 => ParityExact e1
  | .ite ce te fe => ParityExact ce ∧ ParityExact te ∧ ParityExact fe
  | _ => True

theorem eq_carryOf {op : BinopType} {e1 e2 : Exp} (h : isCarry op e1 e2) :
    Exp.binOp op e1 e2 = carryOf e2 := by
  unfold isCarry at h
  split at h
  · next e c =>
    obtain ⟨rfl, rfl⟩ := of_decide_eq_true h
    rfl
  · cases h

theorem isParity_xor {op : BinopType} {e1 e2 : Exp} (h : isParity op e1 e2) :
    op = .xor := by
  unfold isParity at h
  split at h
  · rfl
  · cases h

theorem canon_eq_iff (e : Exp) : canon e = e ↔ ParityExact e := by
  induction e with
  | binOp op e1 e2 ih1 ih2 =>
    rw [canon, ParityExact]
    by_cases hcarry : isCarry op e1 e2 = true
    · rw [if_pos hcarry, if_pos hcarry, eq_carryOf hcarry, ← ih2]
      constructor
      · intro h
        injection h
      · intro h
        rw [h]
    · rw [if_neg hcarry, if_neg hcarry]
      by_cases hparity : isParity op e1 e2 = true
      · rw [if_pos hparity, if_pos hparity, isParity_xor hparity, ← ih1]
        constructor
        · intro h
          injection h with _ h1 h2
          rw [h1] at h2
          exact ⟨h1, h2.symm⟩
        · rintro ⟨h1, h2⟩
          rw [h1, h2]
          rfl
      · rw [if_neg hparity, if_neg hparity, ← ih1, ← ih2]
        simp
  | fbinOp op rm e1 e2 ih1 ih2 => simp [canon, ParityExact, ih1, ih2]
  | unOp op e1 ih => simp [canon, ParityExact, ih]
  | funOp op rm e1 ih => simp [canon, ParityExact, ih]
  | constant v => simp [canon, ParityExact]
  | temp v => simp [canon, ParityExact]
  | mem v e1 t ih => simp [canon, ParityExact, ih]
  | name s => simp [canon, ParityExact]
  | cast ct t e1 ih => simp [canon, ParityExact, ih]
  | fcast ct rm t e1 ih => simp [canon, ParityExact, ih]
  | unknown s => simp [canon, ParityExact]
  | letTemp v e1 e2 => simp [canon, ParityExact]
  | letMem v e1 t e2 e3 => simp [canon, ParityExact]
  | ite ce te fe ih1 ih2 ih3 => simp [canon, ParityExact, ih1, ih2, ih3]

/-! ## Pushing -/

section Pushing

/-- The variables that are in use: their numbers differ, and fit an `int`. -/
structure InUse (S : Set Var) : Prop where
  distinct : ∀ v ∈ S, ∀ w ∈ S, v.id = w.id → v = w
  range : ∀ v ∈ S, -2 ^ 62 ≤ v.id ∧ v.id < 2 ^ 62

/-- The table has the names of the variables. -/
def Named (varNumToName : ℤ → Option OString) (vars : List Var) : Prop :=
  ∀ v ∈ vars, varNumToName v.id = some v.name

/-- The variables so far are in use and have their names. -/
structure EncodeState.Valid (S : Set Var) (st : EncodeState) : Prop where
  inUse : ∀ v ∈ st.vars, v ∈ S
  named : Named st.global.varNumToName st.vars

/-- From one state to another the characters `cs` are pushed. -/
structure Emits (S : Set Var) (st st' : EncodeState) (cs : OString) :
    Prop where
  chars : st'.chars = cs.reverse ++ st.chars
  vars : ∀ v ∈ st.vars, v ∈ st'.vars
  valid : st.Valid S → st'.Valid S

variable {S : Set Var} {st st1 st' : EncodeState} {cs ds : OString}

theorem Emits.trans (h : Emits S st st1 cs) (h' : Emits S st1 st' ds) :
    Emits S st st' (cs ++ ds) where
  chars := by rw [h'.chars, h.chars, List.reverse_append, List.append_assoc]
  vars v hv := h'.vars v (h.vars v hv)
  valid hst := h'.valid (h.valid hst)

theorem bind_run_ok {α β : Type} {x : Encode α} {f : α → Encode β} {b : β}
    (h : (x >>= f).run st = (.ok b, st')) :
    ∃ a st1, x.run st = (.ok a, st1) ∧ (f a).run st1 = (.ok b, st') := by
  rcases hx : Stateful.run x st with ⟨e | a, st1⟩
  · rw [Stateful.run_bind_error hx] at h
    cases h
  · rw [Stateful.run_bind_ok hx] at h
    exact ⟨a, st1, rfl, h⟩

theorem lift_run_ok {α : Type} {x : OCaml α} {a : α}
    (h : (lift x).run st = (.ok a, st')) : x = .ok a ∧ st' = st := by
  cases x with
  | error e => cases h
  | ok b =>
    cases h
    exact ⟨rfl, rfl⟩

theorem push_emits (S : Set Var) (h : (push cs).run st = (.ok (), st')) :
    Emits S st st' cs := by
  cases h
  exact ⟨rfl, fun _ hv => hv, fun h => ⟨h.inUse, h.named⟩⟩

theorem bind_push (S : Set Var) {α : Type} {f : Encode α} {a : α}
    (h : (do push cs; f).run st = (.ok a, st')) :
    ∃ st1, Emits S st st1 cs ∧ f.run st1 = (.ok a, st') := by
  obtain ⟨_, st1, hpush, hf⟩ := bind_run_ok h
  exact ⟨st1, push_emits S hpush, hf⟩

theorem bind_lift {α β : Type} {x : OCaml α} {f : α → Encode β} {b : β}
    (h : (lift x >>= f).run st = (.ok b, st')) :
    ∃ a, x = .ok a ∧ (f a).run st = (.ok b, st') := by
  obtain ⟨a, st1, hx, hf⟩ := bind_run_ok h
  obtain ⟨ha, rfl⟩ := lift_run_ok hx
  exact ⟨a, ha, hf⟩

/-! ## Strings, types and variables read back -/

theorem parseString_append {s : OString} (h : s.length < 256)
    (rest : OString) :
    parseString (UInt8.ofNat s.length :: s ++ rest) = .ok (rest, s) := by
  have hlen : (UInt8.ofNat s.length).toNat = s.length := by
    rw [UInt8.toNat_ofNat', Nat.mod_eq_of_lt h]
  have hle : (UInt8.ofNat s.length).toNat ≤ (s ++ rest).length := by
    rw [hlen, List.length_append]
    exact Nat.le_add_right _ _
  rw [List.cons_append]
  refine (if_pos hle).trans ?_
  rw [hlen, List.drop_left, List.take_left]
  rfl

theorem assertAt_run (o : AssertOptions) (assertion : Bool) (sawAt : String)
    (s : MarshalState) :
    ∃ r w, (assertAt o assertion sawAt).run s =
      (r, { s with weirdCount := w }) := by
  unfold assertAt
  rw [Stateful.run_bind_ok (Stateful.run_get s)]
  rcases gAssert o assertion 100 sawAt s.weirdCount with ⟨e | u, w⟩
  · exact ⟨_, w, rfl⟩
  · exact ⟨_, w, rfl⟩

theorem pushString_emits (S : Set Var) {o : AssertOptions} {s : OString}
    (h : (pushString o s).run st = (.ok (), st')) :
    s.length < 256 ∧ Emits S st st' (UInt8.ofNat s.length :: s) := by
  obtain ⟨r, w, hrun⟩ := assertAt_run o (s.length < 250)
    "Frag_marshal.encode_exp_flags" st.global
  unfold pushString at h
  rw [Stateful.run_bind_ok (Stateful.run_get st), hrun] at h
  obtain ⟨_, st1, hset, h⟩ := bind_run_ok h
  cases hset
  cases r with
  | error e => cases h
  | ok u =>
    obtain ⟨c, hc, h⟩ := bind_lift h
    obtain ⟨hlt, rfl⟩ := OCaml.guard_eq_ok_iff.mp hc
    obtain ⟨st2, hfirst, h⟩ := bind_push S h
    have hboth := hfirst.trans (push_emits S h)
    exact ⟨hlt, hboth.chars, hboth.vars,
      fun hst => hboth.valid ⟨hst.inUse, hst.named⟩⟩

theorem parseType_regTypeCode {t : Typ} {c : UInt8} (h : regTypeCode t = .ok c)
    (rest : OString) : parseType (c :: rest) = .ok (rest, t) := by
  cases t <;> cases h <;> rfl

theorem parseType_typeCode {t : Typ} (h : typeCode t = .ok cs)
    (rest : OString) : parseType (cs ++ rest) = .ok (rest, t) := by
  cases t with
  | array eltTy size =>
    obtain ⟨c, hc, h⟩ := OCaml.bind_eq_ok_iff.mp h
    cases h
    change (parseType (c :: (int64Code size ++ rest)) >>= fun p =>
      parseInt64 p.1 >>= fun q => pure (q.1, Typ.array p.2 q.2)) = _
    rw [parseType_regTypeCode hc]
    change (parseInt64 (int64Code size ++ rest) >>= fun q =>
      pure (q.1, Typ.array eltTy q.2)) = _
    rw [parseInt64_int64Code]
    rfl
  | tMem index endian =>
    cases index with
    | reg32 =>
      cases endian with
      | little =>
        cases h
        rfl
      | big => cases h
    | _ => cases h
  | tString => cases h
  | tAttr t attrs => cases h
  | _ =>
    cases h
    rfl

theorem decode_bind {α β : Type} (a : α) (f : α → Decode β) :
    ((.ok a : Decode α) >>= f) = f a := rfl

theorem parseVar_eq {varNumToName : ℤ → Option OString} {i i2 i3 name : OString}
    {ty : Typ} {n : I64} (hty : parseType i = .ok (i2, ty))
    (hn : parseInt64 i2 = .ok (i3, n))
    (hname : varNumToName (I64.toOCamlInt n) = some name) :
    parseVar varNumToName i = .ok (i3, ⟨I64.toOCamlInt n, name, ty⟩) := by
  unfold parseVar
  rw [hty, decode_bind]
  dsimp only
  rw [hn, decode_bind]
  dsimp only
  rw [hname]
  rfl

theorem toOCamlInt_ofInt {n : ℤ} (h : -2 ^ 62 ≤ n ∧ n < 2 ^ 62) :
    I64.toOCamlInt (I64.ofInt n) = n := by
  rw [I64.toOCamlInt, I64.ofInt, BitVec.toInt_eq_toNat_cond,
    BitVec.toNat_setWidth, BitVec.toNat_ofInt]
  split <;> omega

theorem pushVar_emits (hS : InUse S) {v : Var} (hv : v ∈ S)
    (h : (pushVar v).run st = (.ok (), st')) :
    ∃ cs, Emits S st st' cs ∧ v ∈ st'.vars ∧
      ∀ varNumToName, Named varNumToName st'.vars → ∀ rest,
        parseVar varNumToName (cs ++ rest) = .ok (rest, v) := by
  obtain ⟨cs, hcs, h⟩ := bind_lift h
  obtain ⟨st1, htype, h⟩ := bind_push S h
  obtain ⟨st2, hnum, h⟩ := bind_push S h
  cases h
  have hboth := htype.trans hnum
  refine ⟨cs ++ int64Code (I64.ofInt v.id), ⟨hboth.chars, ?_, ?_⟩,
    List.mem_cons_self, ?_⟩
  · exact fun w hw => List.mem_cons_of_mem v (hboth.vars w hw)
  · intro hst
    obtain ⟨hin, hnamed⟩ := hboth.valid hst
    refine ⟨List.forall_mem_cons.mpr ⟨hv, hin⟩, ?_⟩
    intro w hw
    by_cases hid : w.id = v.id
    · have hwS : w ∈ S := (List.forall_mem_cons.mpr ⟨hv, hin⟩) w hw
      rw [hS.distinct w hwS v hv hid]
      exact Function.update_self ..
    · have hmem : w ∈ st2.vars := by
        rcases List.mem_cons.mp hw with rfl | hw
        · exact absurd rfl hid
        · exact hw
      exact (Function.update_of_ne hid ..).trans (hnamed w hmem)
  · intro varNumToName hnamed rest
    rw [List.append_assoc]
    have hid := toOCamlInt_ofInt (hS.range v hv)
    have hname := hnamed v List.mem_cons_self
    rw [← hid] at hname
    rw [parseVar_eq (parseType_typeCode hcs _) (parseInt64_int64Code _ _) hname,
      hid]

end Pushing

/-! ## Expressions read back -/

section Expressions

/-- The characters are read as the expression, whatever stands behind them. -/
def ReadsExp (vars : List Var) (cs : OString) (e : Exp) : Prop :=
  ∀ varNumToName, Named varNumToName vars → ∀ n, cs.length < n → ∀ rest,
    parse varNumToName n (cs ++ rest) = .ok (rest, e)

theorem ReadsExp.mono {vars vars' : List Var} {cs : OString} {e : Exp}
    (h : ReadsExp vars cs e) (hvars : ∀ v ∈ vars, v ∈ vars') :
    ReadsExp vars' cs e :=
  fun varNumToName hnamed => h varNumToName fun v hv => hnamed v (hvars v hv)

/-- What is pushed between the states is read as the expression. -/
def Encodes (S : Set Var) (st st' : EncodeState) (e : Exp) : Prop :=
  ∃ cs, Emits S st st' cs ∧ ReadsExp st'.vars cs e

variable {S : Set Var} {st st1 st2 st3 st' : EncodeState} {cs u : OString}
  {a b c : Exp}

/-- A form with no expression in it. -/
theorem encodes_leaf (h : Emits S st st' (u ++ cs))
    (hparse : ∀ varNumToName, Named varNumToName st'.vars → ∀ n rest,
      parse varNumToName (n + 1) (u ++ cs ++ rest) = .ok (rest, a)) :
    Encodes S st st' a := by
  refine ⟨u ++ cs, h, ?_⟩
  intro varNumToName hnamed n hn rest
  cases n with
  | zero => exact absurd hn (Nat.not_lt_zero _)
  | succ n => exact hparse varNumToName hnamed n rest

theorem encodes_one {f : Exp → Exp} (hpre : u ≠ []) (h : Emits S st st1 u)
    (hparse : ∀ varNumToName, Named varNumToName st'.vars → ∀ n i,
      parse varNumToName (n + 1) (u ++ i) =
        parse varNumToName n i >>= fun p => pure (p.1, f p.2))
    (ha : Encodes S st1 st' a) : Encodes S st st' (f a) := by
  obtain ⟨cs, hcs, hreads⟩ := ha
  refine ⟨u ++ cs, h.trans hcs, ?_⟩
  intro varNumToName hnamed n hn rest
  have hlen := List.length_pos_of_ne_nil hpre
  rw [List.length_append] at hn
  cases n with
  | zero => exact absurd hn (Nat.not_lt_zero _)
  | succ n =>
    rw [List.append_assoc, hparse varNumToName hnamed,
      hreads varNumToName hnamed n (by omega)]
    rfl

theorem encodes_two {f : Exp → Exp → Exp} (hpre : u ≠ [])
    (h : Emits S st st1 u)
    (hparse : ∀ varNumToName n i, parse varNumToName (n + 1) (u ++ i) =
      parse varNumToName n i >>= fun p =>
        parse varNumToName n p.1 >>= fun q => pure (q.1, f p.2 q.2))
    (ha : Encodes S st1 st2 a) (hb : Encodes S st2 st' b) :
    Encodes S st st' (f a b) := by
  obtain ⟨ds, hds, hreads⟩ := hb
  obtain ⟨cs, hcs, hreads1⟩ := ha
  refine ⟨u ++ cs ++ ds, (h.trans hcs).trans hds, ?_⟩
  intro varNumToName hnamed n hn rest
  have hlen := List.length_pos_of_ne_nil hpre
  rw [List.length_append, List.length_append] at hn
  cases n with
  | zero => exact absurd hn (Nat.not_lt_zero _)
  | succ n =>
    rw [List.append_assoc, List.append_assoc, hparse,
      hreads1.mono hds.vars varNumToName hnamed n (by omega), decode_bind,
      hreads varNumToName hnamed n (by omega)]
    rfl

theorem encodes_three {f : Exp → Exp → Exp → Exp} (hpre : u ≠ [])
    (h : Emits S st st1 u)
    (hparse : ∀ varNumToName n i, parse varNumToName (n + 1) (u ++ i) =
      parse varNumToName n i >>= fun p =>
        parse varNumToName n p.1 >>= fun q =>
          parse varNumToName n q.1 >>= fun r => pure (r.1, f p.2 q.2 r.2))
    (ha : Encodes S st1 st2 a) (hb : Encodes S st2 st3 b)
    (hc : Encodes S st3 st' c) : Encodes S st st' (f a b c) := by
  obtain ⟨es, hes, hreads⟩ := hc
  obtain ⟨ds, hds, hreads2⟩ := hb
  obtain ⟨cs, hcs, hreads1⟩ := ha
  refine ⟨u ++ cs ++ ds ++ es, ((h.trans hcs).trans hds).trans hes, ?_⟩
  intro varNumToName hnamed n hn rest
  have hlen := List.length_pos_of_ne_nil hpre
  rw [List.length_append, List.length_append, List.length_append] at hn
  cases n with
  | zero => exact absurd hn (Nat.not_lt_zero _)
  | succ n =>
    have hvars : ∀ v ∈ st2.vars, v ∈ st'.vars :=
      fun v hv => hes.vars v (hds.vars v hv)
    rw [List.append_assoc, List.append_assoc, List.append_assoc, hparse,
      hreads1.mono hvars varNumToName hnamed n (by omega), decode_bind,
      hreads2.mono hes.vars varNumToName hnamed n (by omega), decode_bind,
      hreads varNumToName hnamed n (by omega)]
    rfl

/-! ## One form after the other -/

theorem parse_binop (op : BinopType) (varNumToName : ℤ → Option OString)
    (n : ℕ) (i : OString) :
    parse varNumToName (n + 1) ([byte (binopChar op)] ++ i) =
      parseBinop (parse varNumToName n) op i := by
  cases op <;> rfl

theorem parse_fbinop (op : FBinopType) (rm : RoundMode)
    (varNumToName : ℤ → Option OString) (n : ℕ) (i : OString) :
    parse varNumToName (n + 1) ([byte 'f', byte (fbinopChar op),
        byte (roundModeChar rm)] ++ i) =
      parse varNumToName n i >>= fun p =>
        parse varNumToName n p.1 >>= fun q =>
          pure (q.1, .fbinOp op rm p.2 q.2) := by
  cases op <;> cases rm <;> rfl

theorem parse_unop (op : UnopType) (varNumToName : ℤ → Option OString)
    (n : ℕ) (i : OString) :
    parse varNumToName (n + 1) ([byte (unopChar op)] ++ i) =
      parseUnop (parse varNumToName n) op i := by
  cases op <;> rfl

theorem parse_funop (rm : RoundMode) (varNumToName : ℤ → Option OString)
    (n : ℕ) (i : OString) :
    parse varNumToName (n + 1) ([byte 'f', byte '~',
        byte (roundModeChar rm)] ++ i) =
      parse varNumToName n i >>= fun p => pure (p.1, .funOp .fneg rm p.2) := by
  cases rm <;> rfl

theorem parse_const {t : Typ} {v : I64} (h : constCode t v = .ok cs)
    (varNumToName : ℤ → Option OString) (n : ℕ) (rest : OString) :
    parse varNumToName (n + 1) (cs ++ rest) = .ok (rest, .int t v) := by
  have hread : ∀ t, (parseInt64 (int64Code v ++ rest) >>= fun p =>
      pure (p.1, Exp.int t p.2)) = .ok (rest, .int t v) := by
    intro t
    rw [parseInt64_int64Code]
    rfl
  cases t with
  | reg1 =>
    rw [constCode] at h
    split_ifs at h with h0 h1
    · cases h
      rw [h0]
      rfl
    · cases h
      rw [h1]
      rfl
  | reg8 =>
    cases h
    exact hread .reg8
  | reg16 =>
    cases h
    exact hread .reg16
  | reg32 =>
    cases h
    exact hread .reg32
  | reg64 =>
    cases h
    exact hread .reg64
  | _ => cases h

theorem parse_mem {t : Typ} {ch : Char} (h : memChar t = .ok ch)
    (varNumToName : ℤ → Option OString) (n : ℕ) (i : OString) :
    parse varNumToName (n + 1) (byte ch :: i) =
      parseMem (parse varNumToName n) varNumToName t i := by
  cases t <;> cases h <;> rfl

theorem parse_cast {ct : CastType} {t : Typ} {ch : Char}
    (h : castChar ct t = .ok ch) (varNumToName : ℤ → Option OString) (n : ℕ)
    (i : OString) :
    parse varNumToName (n + 1) ([byte 'C', byte ch] ++ i) =
      parse varNumToName n i >>= fun p => pure (p.1, .cast ct t p.2) := by
  cases ct <;> cases t <;> cases h <;> rfl

theorem parse_fcast {ct : FCastType} {t : Typ} {ch : Char}
    (h : fcastTypeChar t = .ok ch) (rm : RoundMode)
    (varNumToName : ℤ → Option OString) (n : ℕ) (i : OString) :
    parse varNumToName (n + 1) ([byte 'f', byte 'C', byte (roundModeChar rm),
        byte (fcastChar ct)] ++ [byte ch] ++ i) =
      parse varNumToName n i >>= fun p => pure (p.1, .fcast ct rm t p.2) := by
  cases t <;> cases h <;> cases rm <;> cases ct <;> rfl

theorem encodes_string {o : AssertOptions} {ch : Char} {f : OString → Exp}
    {s : OString} (hpush : Emits S st st1 [byte ch])
    (h : (pushString o s).run st1 = (.ok (), st'))
    (hparse : ∀ varNumToName n i, parse varNumToName (n + 1) (byte ch :: i) =
      parseString i >>= fun p => pure (p.1, f p.2)) :
    Encodes S st st' (f s) := by
  obtain ⟨hlen, hstring⟩ := pushString_emits S h
  refine encodes_leaf (hpush.trans hstring) ?_
  intro varNumToName _ n rest
  change parse varNumToName (n + 1)
    (byte ch :: (UInt8.ofNat s.length :: s ++ rest)) = _
  rw [hparse, parseString_append hlen]
  rfl

theorem encodes_temp (hS : InUse S) {v : Var} (hv : v ∈ S)
    (hpush : Emits S st st1 [byte 't'])
    (h : (pushVar v).run st1 = (.ok (), st')) : Encodes S st st' (.temp v) := by
  obtain ⟨cs, hcs, -, hread⟩ := pushVar_emits hS hv h
  refine encodes_leaf (hpush.trans hcs) ?_
  intro varNumToName hnamed n rest
  change (parseVar varNumToName (cs ++ rest) >>= fun p =>
    pure (p.1, Exp.temp p.2)) = _
  rw [hread varNumToName hnamed]
  rfl

theorem encodes_mem (hS : InUse S) {v : Var} (hv : v ∈ S) {t : Typ} {ch : Char}
    (hch : memChar t = .ok ch) (hpush : Emits S st st1 [byte ch])
    (h : (pushVar v).run st1 = (.ok (), st2)) (ha : Encodes S st2 st' a) :
    Encodes S st st' (.mem v a t) := by
  obtain ⟨cs, hcs, hmem, hread⟩ := pushVar_emits hS hv h
  have hvars : ∀ w ∈ st2.vars, w ∈ st'.vars := by
    obtain ⟨ds, hds, -⟩ := ha
    exact hds.vars
  refine encodes_one (f := fun e => .mem v e t) (u := byte ch :: cs)
    (List.cons_ne_nil _ _) (hpush.trans hcs) ?_ ha
  intro varNumToName hnamed n i
  rw [List.cons_append, parse_mem hch]
  unfold parseMem
  rw [hread varNumToName fun w hw => hnamed w (hvars w hw)]
  rfl

/-- What the encoder pushes for an expression is read as the expression that
the encoding stands for. -/
theorem loop_encodes (hS : InUse S) {o : AssertOptions} {e : Exp}
    (he : ∀ v ∈ e.vars, v ∈ S) (h : (loop o e).run st = (.ok (), st')) :
    Encodes S st st' (canon e) := by
  induction e generalizing st st' with
  | binOp op e1 e2 ih1 ih2 =>
    have he1 : ∀ v ∈ e1.vars, v ∈ S :=
      fun v hv => he v (List.mem_append_left _ hv)
    have he2 : ∀ v ∈ e2.vars, v ∈ S :=
      fun v hv => he v (List.mem_append_right _ hv)
    rw [loop] at h
    rw [canon]
    split_ifs at h ⊢ with hcarry hparity
    · obtain ⟨st1, hpush, h⟩ := bind_push S h
      exact encodes_one (List.cons_ne_nil _ _) hpush (fun _ _ _ _ => rfl)
        (ih2 he2 h)
    · obtain ⟨st1, hpush, h⟩ := bind_push S h
      exact encodes_one (List.cons_ne_nil _ _) hpush (fun _ _ _ _ => rfl)
        (ih1 he1 h)
    · obtain ⟨st1, hpush, h⟩ := bind_push S h
      obtain ⟨_, st2, h1, h2⟩ := bind_run_ok h
      exact encodes_two (List.cons_ne_nil _ _) hpush (parse_binop op)
        (ih1 he1 h1) (ih2 he2 h2)
  | fbinOp op rm e1 e2 ih1 ih2 =>
    rw [loop] at h
    obtain ⟨st1, hpush, h⟩ := bind_push S h
    obtain ⟨_, st2, h1, h2⟩ := bind_run_ok h
    exact encodes_two (f := .fbinOp op rm) (List.cons_ne_nil _ _) hpush
      (parse_fbinop op rm)
      (ih1 (fun v hv => he v (List.mem_append_left _ hv)) h1)
      (ih2 (fun v hv => he v (List.mem_append_right _ hv)) h2)
  | unOp op e1 ih =>
    rw [loop] at h
    obtain ⟨st1, hpush, h⟩ := bind_push S h
    exact encodes_one (f := .unOp op) (List.cons_ne_nil _ _) hpush
      (fun names _ => parse_unop op names) (ih he h)
  | funOp op rm e1 ih =>
    cases op
    rw [loop] at h
    obtain ⟨st1, hpush, h⟩ := bind_push S h
    exact encodes_one (f := .funOp .fneg rm) (List.cons_ne_nil _ _) hpush
      (fun names _ => parse_funop rm names) (ih he h)
  | constant v =>
    cases v with
    | int t i =>
      rw [loop] at h
      obtain ⟨cs, hcs, h⟩ := bind_lift h
      exact encodes_leaf (u := []) (push_emits S h)
        fun names _ => parse_const hcs names
    | str s =>
      rw [loop] at h
      obtain ⟨st1, hpush, h⟩ := bind_push S h
      exact encodes_string (f := fun s => .constant (.str s)) hpush h
        fun _ _ _ => rfl
  | temp v =>
    rw [loop] at h
    obtain ⟨st1, hpush, h⟩ := bind_push S h
    exact encodes_temp hS (he v List.mem_cons_self) hpush h
  | mem v e1 t ih =>
    rw [loop] at h
    obtain ⟨ch, hch, h⟩ := bind_lift h
    obtain ⟨st1, hpush, h⟩ := bind_push S h
    obtain ⟨_, st2, hvar, h⟩ := bind_run_ok h
    exact encodes_mem hS (he v List.mem_cons_self) hch hpush hvar
      (ih (fun w hw => he w (List.mem_cons_of_mem v hw)) h)
  | name s =>
    rw [loop] at h
    obtain ⟨st1, hpush, h⟩ := bind_push S h
    exact encodes_string (f := .name) hpush h fun _ _ _ => rfl
  | cast ct t e1 ih =>
    rw [loop] at h
    obtain ⟨ch, hch, h⟩ := bind_lift h
    obtain ⟨st1, hpush, h⟩ := bind_push S h
    exact encodes_one (f := .cast ct t) (List.cons_ne_nil _ _) hpush
      (fun names _ => parse_cast hch names) (ih he h)
  | fcast ct rm t e1 ih =>
    rw [loop] at h
    obtain ⟨st1, hpush1, h⟩ := bind_push S h
    obtain ⟨ch, hch, h⟩ := bind_lift h
    obtain ⟨st2, hpush2, h⟩ := bind_push S h
    exact encodes_one (f := .fcast ct rm t) (List.cons_ne_nil _ _)
      (hpush1.trans hpush2) (fun names _ => parse_fcast hch rm names) (ih he h)
  | unknown s =>
    rw [loop] at h
    obtain ⟨st1, hpush, h⟩ := bind_push S h
    exact encodes_string (f := .unknown) hpush h fun _ _ _ => rfl
  | letTemp v e1 e2 =>
    rw [loop] at h
    cases h
  | letMem v e1 t e2 e3 =>
    rw [loop] at h
    cases h
  | ite ce te fe ih1 ih2 ih3 =>
    have hv1 : ∀ v ∈ ce.vars, v ∈ S := fun v hv =>
      he v (List.mem_append_left _ (List.mem_append_left _ hv))
    have hv2 : ∀ v ∈ te.vars, v ∈ S := fun v hv =>
      he v (List.mem_append_left _ (List.mem_append_right _ hv))
    have hv3 : ∀ v ∈ fe.vars, v ∈ S :=
      fun v hv => he v (List.mem_append_right _ hv)
    rw [loop] at h
    obtain ⟨st1, hpush, h⟩ := bind_push S h
    obtain ⟨_, st2, h1, h⟩ := bind_run_ok h
    obtain ⟨_, st3, h2, h3⟩ := bind_run_ok h
    exact encodes_three (f := .ite) (List.cons_ne_nil _ _) hpush
      (fun _ _ _ => rfl) (ih1 hv1 h1) (ih2 hv2 h2) (ih3 hv3 h3)

end Expressions

/-! ## The round trip -/

section RoundTrip

variable {S : Set Var} {o : AssertOptions} {e e' : Exp} {s s' : MarshalState}
  {str : OString} {vars : List Var}

theorem encodeExp_loop (h : (encodeExp o e).run s = (.ok (str, vars), s')) :
    ∃ st, (loop o e).run ⟨[], [], s⟩ = (.ok (), st) ∧
      st.chars.reverse = str ∧ st.vars = vars ∧ st.global = s' := by
  unfold encodeExp at h
  rw [Stateful.run_bind_ok (Stateful.run_get s)] at h
  rcases hloop : (loop o e).run ⟨[], [], s⟩ with ⟨x | u, st⟩
  · rw [hloop] at h
    cases h
  · rw [hloop] at h
    cases h
    exact ⟨st, rfl, rfl, rfl, rfl⟩

/-- The string is read as the expression it stands for. -/
theorem encodeExp_reads (hS : InUse S) (he : ∀ v ∈ e.vars, v ∈ S)
    (h : (encodeExp o e).run s = (.ok (str, vars), s')) :
    (∀ v ∈ vars, v ∈ S) ∧ Named s'.varNumToName vars ∧
      ∀ varNumToName, Named varNumToName vars →
        parse varNumToName (str.length + 1) str = .ok ([], canon e) := by
  obtain ⟨st, hloop, rfl, rfl, rfl⟩ := encodeExp_loop h
  obtain ⟨cs, hcs, hreads⟩ := loop_encodes hS he hloop
  have hvalid : st.Valid S :=
    hcs.valid ⟨List.forall_mem_nil _, List.forall_mem_nil _⟩
  have hchars : st.chars.reverse = cs := by
    rw [hcs.chars, List.append_nil, List.reverse_reverse]
  refine ⟨hvalid.inUse, hvalid.named, ?_⟩
  intro varNumToName hnamed
  have hread := hreads varNumToName hnamed (cs.length + 1) (Nat.lt_succ_self _)
    []
  rw [List.append_nil] at hread
  rw [hchars, hread]

theorem decodeExp_encodeExp (hS : InUse S) (he : ∀ v ∈ e.vars, v ∈ S)
    (h : (encodeExp o e).run s = (.ok (str, vars), s')) :
    (decodeExp o str).run s' = (.ok (canon e), s') := by
  obtain ⟨-, hnamed, hread⟩ := encodeExp_reads hS he h
  unfold decodeExp
  rw [Stateful.run_bind_ok (Stateful.run_get s'), hread _ hnamed]
  rfl

open Classical in
/-- A table with the names of all variables in use. -/
noncomputable def tableOf (S : Set Var) (n : ℤ) : Option OString :=
  if h : ∃ v ∈ S, v.id = n then some h.choose.name else none

theorem named_tableOf (hS : InUse S) (hvars : ∀ v ∈ vars, v ∈ S) :
    Named (tableOf S) vars := by
  intro v hv
  have h : ∃ w ∈ S, w.id = v.id := ⟨v, hvars v hv, rfl⟩
  have heq : h.choose = v := hS.distinct _ h.choose_spec.1 v (hvars v hv)
    h.choose_spec.2
  rw [tableOf, dif_pos h, heq]

/-- Expressions that share a string stand for one expression. -/
theorem canon_eq_of_shared (hS : InUse S) (he : ∀ v ∈ e.vars, v ∈ S)
    (he' : ∀ v ∈ e'.vars, v ∈ S) {s1 s1' : MarshalState} {vars' : List Var}
    (h : (encodeExp o e).run s = (.ok (str, vars), s'))
    (h' : (encodeExp o e').run s1 = (.ok (str, vars'), s1')) :
    canon e' = canon e := by
  obtain ⟨hvars, -, hread⟩ := encodeExp_reads hS he h
  obtain ⟨hvars', -, hread'⟩ := encodeExp_reads hS he' h'
  have heq := (hread' _ (named_tableOf hS hvars')).symm.trans
    (hread _ (named_tableOf hS hvars))
  injection heq with heq
  exact (Prod.mk.inj heq).2

/-- An accepted expression survives exactly where every parity that is encoded
compares all its operands; one that does shares its string with no other one
that does. -/
theorem decode_encode_iff (hS : InUse S) (he : ∀ v ∈ e.vars, v ∈ S)
    (h : (encodeExp o e).run s = (.ok (str, vars), s')) :
    ((decodeExp o str).run s' = (.ok e, s') ↔ ParityExact e) ∧
      ∀ e', (∀ v ∈ e'.vars, v ∈ S) → ∀ s1 s1' vars',
        (encodeExp o e').run s1 = (.ok (str, vars'), s1') →
          ParityExact e → (e' = e ↔ ParityExact e') := by
  refine ⟨?_, ?_⟩
  · rw [decodeExp_encodeExp hS he h, ← canon_eq_iff]
    constructor
    · intro heq
      injection heq with heq
      injection heq
    · intro heq
      rw [heq]
  · intro e' he' s1 s1' vars' h' hexact
    have hcanon := canon_eq_of_shared hS he he' h h'
    rw [(canon_eq_iff e).mpr hexact] at hcanon
    constructor
    · rintro rfl
      exact hexact
    · intro hexact'
      rw [← hcanon]
      exact ((canon_eq_iff e').mpr hexact').symm

end RoundTrip

/-! ## Parities -/

section Sample

def noNames : MarshalState := ⟨fun _ => none, 0⟩

def xVar : Var := ⟨1, .ofAscii "x", .reg32⟩
def yVar : Var := ⟨2, .ofAscii "y", .reg32⟩

/-- The parity of `x` but for its last operand. -/
def almostParity : Exp :=
  let x := shifted (.temp xVar)
  .binOp .xor (.temp xVar) <| .binOp .xor (x 7) <| .binOp .xor (x 6) <|
    .binOp .xor (x 5) <| .binOp .xor (x 4) <| .binOp .xor (x 3) <|
      .binOp .xor (x 2) (shifted (.temp yVar) 1)

/-- The last operand is lost, and the string is that of the parity. -/
theorem almostParity_lost :
    ∃ str vars s', (encodeExp .default almostParity).run noNames =
        (.ok (str, vars), s') ∧
      ((decodeExp .default str).run s').1 ≠ .ok almostParity ∧
      ((encodeExp .default (parityOf (.temp xVar))).run noNames).1 =
        .ok (str, vars) ∧ parityOf (.temp xVar) ≠ almostParity := by
  have hne : parityOf (.temp xVar) ≠ almostParity := by decide
  refine ⟨_, _, _, rfl, ?_, rfl, hne⟩
  intro h
  have hdecode : Except.ok (parityOf (.temp xVar)) =
    (Except.ok almostParity : Decode Exp) := h
  exact hne (Except.ok.inj hdecode)

/-- The low bit of a parity where an increment carries. -/
def paritySample : Exp :=
  .binOp .bitand (carryOf (.temp xVar))
    (.cast .castLow .reg1 (parityOf (.temp xVar)))

theorem decode_encode_paritySample :
    ∃ str vars s', (encodeExp .default paritySample).run noNames =
        (.ok (str, vars), s') ∧
      (decodeExp .default str).run s' = (.ok paritySample, s') := by
  have hS : InUse {v | v = xVar} := by
    refine ⟨?_, ?_⟩
    · rintro v rfl w rfl -
      rfl
    · rintro v rfl
      decide
  have he : ∀ v ∈ paritySample.vars, v ∈ {v | v = xVar} := by decide
  have hexact : ParityExact paritySample :=
    ⟨trivial, trivial, rfl⟩
  exact ⟨_, _, _, rfl, (decode_encode_iff hS he rfl).1.mpr hexact⟩

end Sample

end Fuzzball.FragMarshal
