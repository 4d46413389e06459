import Fuzzball.OCamlFormat
import Fuzzball.VineSyntax

/-!
# Names of variables in SMT-LIB queries

`rename_var` and `var2s` of `smt_lib2.ml` make the symbols of a query, and
`smtlib_rename_var` of `solvers_common.ml` gets the name back from a symbol in
the solver's answer.
-/

namespace Fuzzball.SmtLib

open Vine

/-! ## Characters -/

abbrev underscore : UInt8 := 95
abbrev dash : UInt8 := 45
abbrev bar : UInt8 := 124

/-- The decimal digits of a byte. -/
def threeDigits (c : UInt8) : OString :=
  [48 + c / 100, 48 + c / 10 % 10, 48 + c % 10]

/-- `Char.escaped` -/
def charEscaped (c : UInt8) : OString :=
  if c = 39 ∨ c = 92 then [92, c]
  else if c = 10 then .ofAscii "\\n"
  else if c = 9 then .ofAscii "\\t"
  else if c = 13 then .ofAscii "\\r"
  else if c = 8 then .ofAscii "\\b"
  else if 32 ≤ c ∧ c ≤ 126 then [c]
  else 92 :: threeDigits c

/-! ## Symbols -/

def renameChar (c : UInt8) : OString :=
  if c = underscore then [dash]
  else if c = dash then [underscore]
  else charEscaped c

/-- A symbol with an underscore in it is quoted. -/
def renameVar (name : OString) : OString :=
  let new_name := name.flatMap renameChar
  if dash ∈ name then bar :: (new_name ++ [bar]) else new_name

def unrenameChar (c : UInt8) : OString :=
  if c = underscore then [dash]
  else if c = dash then [underscore]
  else if c = bar then []
  else charEscaped c

/-- `smtlib_rename_var` of `solvers_common.ml`. -/
def smtlibRenameVar (name : OString) : OString := name.flatMap unrenameChar

/-- The symbol that a text of SMT-LIB stands for: `|x|` is `x`. -/
def symbol (text : OString) : OString :=
  if text.head? = some bar ∧ text.getLast? = some bar then
    text.tail.dropLast
  else text

/-! ## Variables -/

/-- The first number that a name came with. -/
abbrev UniqueNames := OString → Option ℤ

/-- `name^"_"^(string_of_int num)` -/
def suffixed (v : Var) : OString := v.name ++ underscore :: decimal v.id

def var2s (unique_names : UniqueNames) (v : Var) : OString × UniqueNames :=
  let (first, unique_names) := match unique_names v.name with
    | some first => (first, unique_names)
    | none => (v.id, Function.update unique_names v.name (some v.id))
  (if first = v.id then renameVar v.name else renameVar (suffixed v),
    unique_names)

/-- The texts that one printer gives to the variables presented to it. -/
def texts (unique_names : UniqueNames) : List Var → List (Var × OString)
  | [] => []
  | v :: vs =>
    let (text, unique_names) := var2s unique_names v
    (v, text) :: texts unique_names vs

/-! ## Characters that are kept -/

/-- Neither replaced by an escape sequence nor dropped. -/
def Plain (c : UInt8) : Prop := charEscaped c = [c] ∧ c ≠ bar

instance : DecidablePred Plain := fun c =>
  inferInstanceAs (Decidable (charEscaped c = [c] ∧ c ≠ bar))

/-- The characters of an identifier in `vine_lexer.mll`. -/
def IdChar (c : UInt8) : Prop :=
  (97 ≤ c ∧ c ≤ 122) ∨ (65 ≤ c ∧ c ≤ 90) ∨ c = underscore ∨
    (48 ≤ c ∧ c ≤ 57)

theorem charEscaped_of_printable {c : UInt8} (hlow : 32 ≤ c)
    (hhigh : c ≤ 126) (hquote : c ≠ 39) (hslash : c ≠ 92) :
    charEscaped c = [c] := by
  have hcontrol : ∀ d : UInt8, d.toNat < 32 → c ≠ d := by
    intro d hd h
    rw [h, UInt8.le_iff_toNat_le] at hlow
    exact absurd hlow (Nat.not_le.mpr hd)
  unfold charEscaped
  rw [if_neg (by simp [hquote, hslash]), if_neg (hcontrol 10 (by decide)),
    if_neg (hcontrol 9 (by decide)), if_neg (hcontrol 13 (by decide)),
    if_neg (hcontrol 8 (by decide)), if_pos ⟨hlow, hhigh⟩]

theorem plain_of_idChar {c : UInt8} (h : IdChar c) : Plain c := by
  have hbounds : 32 ≤ c ∧ c ≤ 126 ∧ c ≠ 39 ∧ c ≠ 92 ∧ c ≠ bar := by
    simp only [IdChar, underscore, bar, UInt8.le_iff_toNat_le,
      ← UInt8.toNat_inj, ne_eq, UInt8.reduceToNat] at h ⊢
    omega
  obtain ⟨hlow, hhigh, hquote, hslash, hbar⟩ := hbounds
  exact ⟨charEscaped_of_printable hlow hhigh hquote hslash, hbar⟩

/-- An escape sequence is longer than the character. -/
theorem length_charEscaped (c : UInt8) :
    charEscaped c = [c] ∨ 2 ≤ (charEscaped c).length := by
  unfold charEscaped
  split_ifs
  · exact .inr (by simp)
  · exact .inr (by decide)
  · exact .inr (by decide)
  · exact .inr (by decide)
  · exact .inr (by decide)
  · exact .inl rfl
  · exact .inr (by simp [threeDigits])

theorem bar_mem_charEscaped {c : UInt8} (h : bar ∈ charEscaped c) :
    c = bar := by
  have hdigit : ∀ n : UInt8, n.toNat ≤ 9 → bar ≠ 48 + n := by
    intro n hn heq
    have hval := congrArg UInt8.toNat heq
    rw [UInt8.toNat_add] at hval
    simp only [bar, UInt8.reduceToNat] at hval
    omega
  unfold charEscaped at h
  split_ifs at h with hquote
  · rcases hquote with rfl | rfl <;> exact absurd h (by decide)
  · exact absurd h (by decide)
  · exact absurd h (by decide)
  · exact absurd h (by decide)
  · exact absurd h (by decide)
  · exact (List.mem_singleton.mp h).symm
  · have hc := c.toNat_lt
    simp only [threeDigits, List.mem_cons, List.not_mem_nil, or_false] at h
    rcases h with h | h | h | h
    · exact absurd h (by decide)
    · refine absurd h (hdigit _ ?_)
      rw [UInt8.toNat_div]
      exact Nat.div_le_of_le_mul (by simp only [UInt8.reduceToNat]; omega)
    · refine absurd h (hdigit _ ?_)
      rw [UInt8.toNat_mod]
      exact Nat.le_of_lt_succ (Nat.mod_lt _ (by decide))
    · refine absurd h (hdigit _ ?_)
      rw [UInt8.toNat_mod]
      exact Nat.le_of_lt_succ (Nat.mod_lt _ (by decide))

/-! ## Names from the solver's answer -/

/-- What a character of a name is after the way there and back. -/
def thereAndBack (c : UInt8) : OString := (renameChar c).flatMap unrenameChar

theorem smtlibRenameVar_renameVar (name : OString) :
    smtlibRenameVar (renameVar name) = name.flatMap thereAndBack := by
  have hbar : unrenameChar bar = [] := rfl
  have hback : (name.flatMap renameChar).flatMap unrenameChar =
      name.flatMap thereAndBack := List.flatMap_assoc
  unfold smtlibRenameVar renameVar
  split_ifs
  · rw [List.flatMap_cons, List.flatMap_append, hback, hbar,
      List.flatMap_singleton, hbar, List.nil_append, List.append_nil]
  · exact hback

theorem thereAndBack_of_plain {c : UInt8} (h : Plain c) :
    thereAndBack c = [c] := by
  obtain ⟨hkept, hbar⟩ := h
  by_cases hu : c = underscore
  · rw [hu]
    rfl
  by_cases hd : c = dash
  · rw [hd]
    rfl
  simp only [thereAndBack, renameChar, unrenameChar, if_neg hu, if_neg hd,
    if_neg hbar, hkept, List.flatMap_singleton]

/-- The symbols in an answer have no bar left in the name. -/
theorem bar_notMem_unrenameChar (c : UInt8) : bar ∉ unrenameChar c := by
  intro h
  unfold unrenameChar at h
  split_ifs at h with hu hd hbar
  · exact absurd h (by decide)
  · exact absurd h (by decide)
  · cases h
  · exact hbar (bar_mem_charEscaped h)

theorem unrenameChar_ne_nil {c : UInt8} (h : c ≠ bar) :
    1 ≤ (unrenameChar c).length := by
  unfold unrenameChar
  split_ifs
  · exact le_rfl
  · exact le_rfl
  · rcases length_charEscaped c with hkept | hlong
    · rw [hkept, List.length_singleton]
    · omega

/-- The way back keeps at least a character for each. -/
theorem length_le_flatMap {l : OString} {f : UInt8 → OString}
    (h : ∀ c ∈ l, 1 ≤ (f c).length) : l.length ≤ (l.flatMap f).length := by
  induction l with
  | nil => exact Nat.zero_le _
  | cons c l ih =>
    have hfirst := h c List.mem_cons_self
    have hrest := ih fun d hd => h d (List.mem_cons_of_mem c hd)
    rw [List.flatMap_cons, List.length_append, List.length_cons]
    omega

theorem length_thereAndBack {c : UInt8} (h : c ≠ bar) :
    1 ≤ (thereAndBack c).length ∧
      (¬ Plain c → 2 ≤ (thereAndBack c).length) := by
  by_cases hplain : Plain c
  · rw [thereAndBack_of_plain hplain]
    exact ⟨le_rfl, fun hnot => absurd hplain hnot⟩
  have hescaped : 2 ≤ (charEscaped c).length := by
    apply (length_charEscaped c).resolve_left
    intro hkept
    exact hplain ⟨hkept, h⟩
  have hu : c ≠ underscore := by
    rintro rfl
    exact hplain (by decide)
  have hd : c ≠ dash := by
    rintro rfl
    exact hplain (by decide)
  have hlong : (charEscaped c).length ≤ (thereAndBack c).length := by
    rw [thereAndBack, renameChar, if_neg hu, if_neg hd]
    apply length_le_flatMap
    intro d hmem
    apply unrenameChar_ne_nil
    rintro rfl
    exact h (bar_mem_charEscaped hmem)
  omega

theorem plain_of_flatMap_eq {name : OString} (hbar : bar ∉ name)
    (h : name.flatMap thereAndBack = name) : ∀ c ∈ name, Plain c := by
  induction name with
  | nil =>
    intro c hc
    cases hc
  | cons c name ih =>
    have hc : bar ≠ c := List.ne_of_not_mem_cons hbar
    have hname : bar ∉ name := List.not_mem_of_not_mem_cons hbar
    have hlength := length_thereAndBack (Ne.symm hc)
    have hrest : name.length ≤ (name.flatMap thereAndBack).length := by
      apply length_le_flatMap
      intro d hd
      exact (length_thereAndBack (ne_of_mem_of_not_mem hd hname)).1
    have hsum := congrArg List.length h
    rw [List.flatMap_cons, List.length_append, List.length_cons] at hsum
    have hplain : Plain c := by
      by_contra hnot
      have htwo := hlength.2 hnot
      omega
    rw [List.flatMap_cons, thereAndBack_of_plain hplain] at h
    have htail : name.flatMap thereAndBack = name := List.tail_eq_of_cons_eq h
    intro d hd
    rcases List.mem_cons.mp hd with rfl | hd
    · exact hplain
    · exact ih hname htail d hd

/-- The name comes back exactly when each of its characters is kept on both
sides. -/
theorem smtlibRenameVar_renameVar_eq_iff (name : OString) :
    smtlibRenameVar (renameVar name) = name ↔ ∀ c ∈ name, Plain c := by
  rw [smtlibRenameVar_renameVar]
  constructor
  · intro h
    apply plain_of_flatMap_eq _ h
    intro hbar
    rw [← h] at hbar
    obtain ⟨c, _, hmem⟩ := List.mem_flatMap.mp hbar
    obtain ⟨d, _, hmem⟩ := List.mem_flatMap.mp hmem
    exact bar_notMem_unrenameChar d hmem
  · intro h
    have hback : name.flatMap thereAndBack = name.flatMap fun c => [c] :=
      List.flatMap_congr fun c hc => thereAndBack_of_plain (h c hc)
    rw [hback, List.flatMap_singleton']

/-- A name with a backslash in it comes back as another one. -/
theorem smtlibRenameVar_backslash :
    smtlibRenameVar (renameVar (.ofAscii "a\\b")) =
        .ofAscii "a\\\\\\\\b" ∧
      smtlibRenameVar (renameVar (.ofAscii "a\\b")) ≠
        .ofAscii "a\\b" := by
  decide

/-! ## Numbers in names -/

theorem mem_ofAscii_repr {n : ℕ} {c : UInt8}
    (h : c ∈ OString.ofAscii n.repr) : 48 ≤ c ∧ c ≤ 57 := by
  rw [OString.ofAscii, Nat.toList_repr, List.mem_map] at h
  obtain ⟨d, hd, rfl⟩ := h
  have hdigit : 48 ≤ d.toNat ∧ d.toNat ≤ 57 := Char.isDigit_iff_toNat.mp
    (Nat.isDigit_of_mem_toDigits (by decide) (by decide) hd)
  have hmod : d.toNat % 2 ^ 8 = d.toNat := Nat.mod_eq_of_lt (by omega)
  simp only [UInt8.le_iff_toNat_le, UInt8.toNat_ofNat', UInt8.reduceToNat,
    hmod]
  exact hdigit

theorem decimal_negSucc (n : ℕ) :
    decimal (.negSucc n) = dash :: OString.ofAscii (n + 1).repr :=
  OString.ofAscii_append "-" _

theorem mem_decimal {z : ℤ} {c : UInt8} (h : c ∈ decimal z) :
    c = dash ∨ (48 ≤ c ∧ c ≤ 57) := by
  cases z with
  | ofNat n => exact .inr (mem_ofAscii_repr h)
  | negSucc n =>
    rw [decimal_negSucc, List.mem_cons] at h
    exact h.imp_right mem_ofAscii_repr

theorem underscore_notMem_decimal (z : ℤ) : underscore ∉ decimal z := by
  intro h
  rcases mem_decimal h with hdash | hdigit
  · exact absurd hdash (by decide)
  · exact absurd hdigit.2 (by decide)

theorem plain_of_mem_decimal {z : ℤ} {c : UInt8} (h : c ∈ decimal z) :
    Plain c := by
  rcases mem_decimal h with rfl | hdigit
  · decide
  · exact plain_of_idChar (.inr (.inr (.inr hdigit)))

theorem decimal_injective : Function.Injective decimal := by
  have hsign : ∀ n m : ℕ, decimal (.ofNat n) ≠ decimal (.negSucc m) := by
    intro n m h
    have hmem : dash ∈ decimal (.ofNat n) := by
      rw [h, decimal_negSucc]
      exact List.mem_cons_self
    exact absurd (mem_ofAscii_repr hmem).1 (by decide)
  intro a b h
  cases a with
  | ofNat n =>
    cases b with
    | ofNat m => exact congrArg Int.ofNat (ofAscii_toString_injective h)
    | negSucc m => exact absurd h (hsign n m)
  | negSucc n =>
    cases b with
    | ofNat m => exact absurd h.symm (hsign m n)
    | negSucc m =>
      rw [decimal_negSucc, decimal_negSucc] at h
      have heq : n + 1 = m + 1 :=
        ofAscii_toString_injective (List.tail_eq_of_cons_eq h)
      exact congrArg Int.negSucc (Nat.succ_injective heq)

/-! ## Symbols of a query -/

/-- What follows the last separator. -/
theorem eq_of_append_cons {l l' r r' : OString} {x : UInt8} (hr : x ∉ r)
    (hr' : x ∉ r') (h : l ++ x :: r = l' ++ x :: r') : r = r' := by
  rcases List.append_eq_append_iff.mp h with ⟨k, -, hrest⟩ | ⟨k, -, hrest⟩
  · cases k with
    | nil => exact List.tail_eq_of_cons_eq hrest
    | cons c k =>
      have htail : r = k ++ x :: r' := List.tail_eq_of_cons_eq hrest
      exact absurd (htail ▸ List.mem_append_right k List.mem_cons_self) hr
  · cases k with
    | nil => exact (List.tail_eq_of_cons_eq hrest).symm
    | cons c k =>
      have htail : r' = k ++ x :: r := List.tail_eq_of_cons_eq hrest
      exact absurd (htail ▸ List.mem_append_right k List.mem_cons_self) hr'

theorem suffixed_injective {v w : Var} (h : suffixed v = suffixed w) :
    v.id = w.id :=
  decimal_injective (eq_of_append_cons (underscore_notMem_decimal _)
    (underscore_notMem_decimal _) h)

theorem plain_suffixed {v : Var} (h : ∀ c ∈ v.name, Plain c) :
    ∀ c ∈ suffixed v, Plain c := by
  intro c hc
  rcases List.mem_append.mp hc with hname | hrest
  · exact h c hname
  rcases List.mem_cons.mp hrest with rfl | hnumber
  · decide
  · exact plain_of_mem_decimal hnumber

/-- The exchange of the two characters. -/
def exchange (c : UInt8) : UInt8 :=
  if c = underscore then dash else if c = dash then underscore else c

theorem exchange_exchange (c : UInt8) : exchange (exchange c) = c := by
  unfold exchange
  split_ifs <;> simp_all

theorem flatMap_renameChar {name : OString} (h : ∀ c ∈ name, Plain c) :
    name.flatMap renameChar = name.map exchange := by
  have hchar : ∀ c ∈ name, renameChar c = [exchange c] := by
    intro c hc
    unfold renameChar exchange
    split_ifs
    · rfl
    · rfl
    · exact (h c hc).1
  rw [List.flatMap_congr hchar, List.map_eq_flatMap]

theorem symbol_renameVar {name : OString} (h : ∀ c ∈ name, Plain c) :
    symbol (renameVar name) = name.map exchange := by
  unfold renameVar
  rw [flatMap_renameChar h]
  split_ifs with hdash
  · have hlast : (bar :: (name.map exchange ++ [bar])).getLast? = some bar :=
      List.getLast?_concat (l := bar :: name.map exchange)
    rw [symbol, if_pos ⟨rfl, hlast⟩, List.tail_cons, List.dropLast_concat]
  · apply if_neg
    intro hquoted
    obtain ⟨c, hc, hbar⟩ := List.mem_map.mp
      (List.mem_of_mem_head? (l := name.map exchange) hquoted.1)
    have hplain : c = bar := by
      rw [← exchange_exchange c, hbar]
      rfl
    exact (h c hc).2 hplain

theorem symbol_injective {name name' : OString} (h : ∀ c ∈ name, Plain c)
    (h' : ∀ c ∈ name', Plain c)
    (heq : symbol (renameVar name) = symbol (renameVar name')) :
    name = name' := by
  rw [symbol_renameVar h, symbol_renameVar h'] at heq
  have hinjective : Function.Injective exchange :=
    Function.LeftInverse.injective exchange_exchange
  exact List.map_injective_iff.mpr hinjective heq

/-! ## One printer -/

/-- The number of the first variable of a name. -/
def firstNum (vs : List Var) : UniqueNames := fun name =>
  (vs.find? fun v => v.name = name).map Var.id

/-- The name that a variable is printed under. -/
def printedName (vs : List Var) (v : Var) : OString :=
  if firstNum vs v.name = some v.id then v.name else suffixed v

theorem firstNum_append (vs ws : List Var) (name : OString) :
    firstNum (vs ++ ws) name = (firstNum vs name).or (firstNum ws name) := by
  rw [firstNum, List.find?_append, Option.map_or]
  rfl

theorem firstNum_singleton (v : Var) (name : OString) :
    firstNum [v] name = if v.name = name then some v.id else none := by
  by_cases h : v.name = name <;> simp [firstNum, h]

theorem var2s_eq (pre : List Var) (v : Var) :
    var2s (firstNum pre) v =
      (renameVar (printedName (pre ++ [v]) v), firstNum (pre ++ [v])) := by
  have hafter : firstNum (pre ++ [v]) v.name =
      (firstNum pre v.name).or (some v.id) := by
    rw [firstNum_append, firstNum_singleton, if_pos rfl]
  unfold var2s printedName
  cases hfirst : firstNum pre v.name with
  | some first =>
    rw [hfirst, Option.some_or] at hafter
    have hsame : firstNum (pre ++ [v]) = firstNum pre := by
      funext name
      rw [firstNum_append, firstNum_singleton]
      split_ifs with hname
      · rw [← hname, hfirst, Option.some_or]
      · exact Option.or_none
    simp only [hafter, Option.some.injEq, hsame]
    split_ifs <;> rfl
  | none =>
    rw [hfirst, Option.none_or] at hafter
    have hupdate : Function.update (firstNum pre) v.name (some v.id) =
        firstNum (pre ++ [v]) := by
      funext name
      rw [firstNum_append, firstNum_singleton]
      by_cases hname : v.name = name
      · rw [← hname, Function.update_self, hfirst, if_pos rfl,
          Option.none_or]
      · rw [Function.update_of_ne (Ne.symm hname), if_neg hname,
          Option.or_none]
    simp only [hafter, if_true, hupdate]

theorem texts_eq (pre vs : List Var) :
    texts (firstNum pre) vs =
      vs.map fun v => (v, renameVar (printedName (pre ++ vs) v)) := by
  induction vs generalizing pre with
  | nil => rfl
  | cons v vs ih =>
    have hfirst : printedName (pre ++ [v]) v =
        printedName (pre ++ v :: vs) v := by
      have hstays : firstNum (pre ++ v :: vs) v.name =
          firstNum (pre ++ [v]) v.name := by
        rw [List.append_cons, firstNum_append (pre ++ [v]),
          firstNum_append pre, firstNum_singleton, if_pos rfl]
        cases firstNum pre v.name <;> rfl
      rw [printedName, printedName, hstays]
    rw [texts, var2s_eq, List.map_cons, hfirst]
    have hrest := ih (pre ++ [v])
    rw [← List.append_cons] at hrest
    exact congrArg (List.cons _) hrest

/-- Different variables get different symbols exactly when no variable that is
the first of its name has the name that another one gets by its suffix. -/
theorem texts_distinct_iff {vs : List Var}
    (hnum : ∀ v ∈ vs, ∀ w ∈ vs, v.id = w.id → v = w)
    (hplain : ∀ v ∈ vs, ∀ c ∈ v.name, Plain c) :
    (∀ p ∈ texts (fun _ => none) vs, ∀ q ∈ texts (fun _ => none) vs,
        symbol p.2 = symbol q.2 → p.1 = q.1) ↔
      ∀ v ∈ vs, ∀ w ∈ vs, firstNum vs v.name = some v.id →
        firstNum vs w.name ≠ some w.id → v.name ≠ suffixed w := by
  have htexts : texts (fun _ => none) vs =
      vs.map fun v => (v, renameVar (printedName vs v)) := texts_eq [] vs
  have hprinted : ∀ v ∈ vs, ∀ c ∈ printedName vs v, Plain c := by
    intro v hv
    unfold printedName
    split_ifs
    · exact hplain v hv
    · exact plain_suffixed (hplain v hv)
  rw [htexts]
  simp only [List.forall_mem_map]
  constructor
  · intro h v hv w hw hfirst hlater hname
    have hsymbol : printedName vs v = printedName vs w := by
      rw [printedName, if_pos hfirst, printedName, if_neg hlater, hname]
    have heq := h v hv w hw (by rw [hsymbol])
    rw [heq] at hfirst
    exact hlater hfirst
  · intro h v hv w hw hsymbol
    have hname := symbol_injective (hprinted v hv) (hprinted w hw) hsymbol
    unfold printedName at hname
    split_ifs at hname with hv' hw' hw'
    · rw [hname, hw'] at hv'
      exact (hnum w hw v hv (Option.some.inj hv')).symm
    · exact absurd hname (h v hv w hw hv' hw')
    · exact absurd hname.symm (h w hw v hv hw' hv')
    · exact hnum v hv w hw (suffixed_injective hname)

def sampleVar (num : ℤ) (name : String) : Var := ⟨num, .ofAscii name, .reg32⟩

/-- A second variable `a`, and one whose name is `a` with a number. -/
def clashing : List Var := [sampleVar 1 "a", sampleVar 2 "a", sampleVar 3 "a_2"]

theorem texts_clashing : (clashing.map Var.id).Nodup ∧
    (∀ v ∈ clashing, ∀ c ∈ v.name, IdChar c) ∧
    ∃ p ∈ texts (fun _ => none) clashing,
      ∃ q ∈ texts (fun _ => none) clashing,
        p.1.id ≠ q.1.id ∧ symbol p.2 = symbol q.2 := by
  have hnames : ∀ v ∈ clashing, ∀ c ∈ v.name, IdChar c := by
    unfold IdChar
    decide +kernel
  refine ⟨by decide, hnames, _, List.mem_of_getElem? (i := 1) rfl, _,
    List.mem_of_getElem? (i := 2) rfl, by decide, by decide⟩

theorem texts_distinct_sample :
    (∀ v ∈ [sampleVar 1 "a_b", sampleVar 2 "a_b"], ∀ c ∈ v.name, Plain c) ∧
      ∀ p ∈ texts (fun _ => none) [sampleVar 1 "a_b", sampleVar 2 "a_b"],
        ∀ q ∈ texts (fun _ => none) [sampleVar 1 "a_b", sampleVar 2 "a_b"],
          symbol p.2 = symbol q.2 → p.1 = q.1 := by
  have hplain : ∀ v ∈ [sampleVar 1 "a_b", sampleVar 2 "a_b"],
      ∀ c ∈ v.name, Plain c := by decide +kernel
  exact ⟨hplain, (texts_distinct_iff (by decide) hplain).mpr (by decide)⟩

end Fuzzball.SmtLib
