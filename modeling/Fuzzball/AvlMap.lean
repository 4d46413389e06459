import Mathlib.Data.List.Basic
import Mathlib.Tactic

/-!
# The balanced trees of OCaml's `Map`

`find`, `add` and `remove` walk a tree by a comparison that need not be an
order.  The lemmas describe them on the list of bindings from left to right: a
lookup answers one binding that compares equal, an addition replaces just that
binding, a removal takes just it away.
-/

namespace Fuzzball

inductive AvlMap (κ δ : Type)
  | empty
  | node (l : AvlMap κ δ) (v : κ) (d : δ) (r : AvlMap κ δ) (h : ℕ)
  deriving DecidableEq, Repr

namespace AvlMap

variable {κ δ : Type}

def height : AvlMap κ δ → ℕ
  | empty => 0
  | node _ _ _ _ h => h

def create (l : AvlMap κ δ) (x : κ) (d : δ) (r : AvlMap κ δ) : AvlMap κ δ :=
  node l x d r (if height l ≥ height r then height l + 1 else height r + 1)

/-- The `Empty` cases of the two inner matches raise `Invalid_argument` in the
source; the heights exclude them. -/
def bal (l : AvlMap κ δ) (x : κ) (d : δ) (r : AvlMap κ δ) : AvlMap κ δ :=
  if height l > height r + 2 then
    match l with
    | empty => create l x d r
    | node ll lv ld lr _ =>
      if height ll ≥ height lr then create ll lv ld (create lr x d r)
      else
        match lr with
        | empty => create l x d r
        | node lrl lrv lrd lrr _ =>
          create (create ll lv ld lrl) lrv lrd (create lrr x d r)
  else if height r > height l + 2 then
    match r with
    | empty => create l x d r
    | node rl rv rd rr _ =>
      if height rr ≥ height rl then create (create l x d rl) rv rd rr
      else
        match rl with
        | empty => create l x d r
        | node rll rlv rld rlr _ =>
          create (create l x d rll) rlv rld (create rlr rv rd rr)
  else create l x d r

def add (cmp : κ → κ → Ordering) (x : κ) (data : δ) : AvlMap κ δ → AvlMap κ δ
  | empty => node empty x data empty 1
  | node l v d r h =>
    match cmp x v with
    | .eq => node l x data r h
    | .lt => bal (add cmp x data l) v d r
    | .gt => bal l v d (add cmp x data r)

/-- The binding that `find` stops at. -/
def findBinding (cmp : κ → κ → Ordering) (x : κ) : AvlMap κ δ → Option (κ × δ)
  | empty => none
  | node l v d r _ =>
    match cmp x v with
    | .eq => some (v, d)
    | .lt => findBinding cmp x l
    | .gt => findBinding cmp x r

/-- `find`, with `none` for `Not_found`. -/
def find (cmp : κ → κ → Ordering) (x : κ) (t : AvlMap κ δ) : Option δ :=
  (findBinding cmp x t).map Prod.snd

def minBinding : AvlMap κ δ → Option (κ × δ)
  | empty => none
  | node empty x d _ _ => some (x, d)
  | node l _ _ _ _ => minBinding l

/-- `remove_min_binding`, called on trees other than `Empty` only. -/
def removeMinBinding : AvlMap κ δ → AvlMap κ δ
  | empty => empty
  | node empty _ _ r _ => r
  | node l x d r _ => bal (removeMinBinding l) x d r

def merge (t1 t2 : AvlMap κ δ) : AvlMap κ δ :=
  match t1, t2 with
  | empty, t => t
  | t, empty => t
  | _, _ =>
    match minBinding t2 with
    | none => t1
    | some (x, d) => bal t1 x d (removeMinBinding t2)

def remove (cmp : κ → κ → Ordering) (x : κ) : AvlMap κ δ → AvlMap κ δ
  | empty => empty
  | node l v d r _ =>
    match cmp x v with
    | .eq => merge l r
    | .lt => bal (remove cmp x l) v d r
    | .gt => bal l v d (remove cmp x r)

def cardinal : AvlMap κ δ → ℕ
  | empty => 0
  | node l _ _ r _ => cardinal l + 1 + cardinal r

def bindings : AvlMap κ δ → List (κ × δ)
  | empty => []
  | node l v d r _ => bindings l ++ (v, d) :: bindings r

def keys (t : AvlMap κ δ) : List κ := t.bindings.map Prod.fst

/-! ## Bindings of balanced trees -/

@[simp] theorem bindings_empty : (empty : AvlMap κ δ).bindings = [] := rfl

@[simp] theorem bindings_node
    (l : AvlMap κ δ) (v : κ) (d : δ) (r : AvlMap κ δ) (h : ℕ) :
    (node l v d r h).bindings = l.bindings ++ (v, d) :: r.bindings := rfl

@[simp] theorem bindings_create
    (l : AvlMap κ δ) (x : κ) (d : δ) (r : AvlMap κ δ) :
    (create l x d r).bindings = l.bindings ++ (x, d) :: r.bindings := rfl

@[simp] theorem bindings_bal
    (l : AvlMap κ δ) (x : κ) (d : δ) (r : AvlMap κ δ) :
    (bal l x d r).bindings = l.bindings ++ (x, d) :: r.bindings := by
  unfold bal
  split_ifs with hl hr
  · cases l with
    | empty => rfl
    | node ll lv ld lr h =>
      dsimp only
      split_ifs with hll
      · simp
      · cases lr with
        | empty => rfl
        | node lrl lrv lrd lrr h' => simp
  · cases r with
    | empty => rfl
    | node rl rv rd rr h =>
      dsimp only
      split_ifs with hrr
      · simp
      · cases rl with
        | empty => rfl
        | node rll rlv rld rlr h' => simp
  · rfl

theorem bindings_removeMinBinding
    {t : AvlMap κ δ} {b : κ × δ} (h : minBinding t = some b) :
    t.bindings = b :: (removeMinBinding t).bindings := by
  induction t with
  | empty => simp [minBinding] at h
  | node l x d r height ihl _ =>
    cases l with
    | empty =>
      obtain rfl : (x, d) = b := by simpa [minBinding] using h
      rfl
    | node ll lv ld lr lh =>
      have hmin : minBinding (node ll lv ld lr lh) = some b := h
      have hrem : removeMinBinding (node (node ll lv ld lr lh) x d r height) =
          bal (removeMinBinding (node ll lv ld lr lh)) x d r := rfl
      rw [bindings_node, ihl hmin, hrem, bindings_bal]
      rfl

theorem minBinding_ne_none
    (l : AvlMap κ δ) (v : κ) (d : δ) (r : AvlMap κ δ) (h : ℕ) :
    minBinding (node l v d r h) ≠ none := by
  induction l generalizing v d r h with
  | empty => simp [minBinding]
  | node ll lv ld lr lh ih _ => exact ih lv ld lr lh

@[simp] theorem bindings_merge (t1 t2 : AvlMap κ δ) :
    (merge t1 t2).bindings = t1.bindings ++ t2.bindings := by
  cases t1 with
  | empty => simp [merge]
  | node l1 v1 d1 r1 h1 =>
    cases t2 with
    | empty => simp [merge]
    | node l2 v2 d2 r2 h2 =>
      unfold merge
      cases hmin : minBinding (node l2 v2 d2 r2 h2) with
      | none => exact absurd hmin (minBinding_ne_none l2 v2 d2 r2 h2)
      | some b =>
        dsimp only
        rw [bindings_bal, bindings_removeMinBinding hmin]

theorem cardinal_eq (t : AvlMap κ δ) : t.cardinal = t.bindings.length := by
  induction t with
  | empty => rfl
  | node l v d r h ihl ihr =>
    rw [cardinal, ihl, ihr, bindings_node, List.length_append, List.length_cons]
    omega

/-! ## Lookup, addition and removal -/

variable (cmp : κ → κ → Ordering) (x : κ)

/-- Where a lookup succeeds, an addition replaces the binding that it found and
a removal takes it away. -/
theorem findBinding_some
    {t : AvlMap κ δ} {k : κ} {d : δ} (h : findBinding cmp x t = some (k, d)) :
    cmp x k = .eq ∧ ∃ l1 l2, t.bindings = l1 ++ (k, d) :: l2 ∧
      (remove cmp x t).bindings = l1 ++ l2 ∧
      ∀ d', (add cmp x d' t).bindings = l1 ++ (x, d') :: l2 := by
  induction t with
  | empty => simp [findBinding] at h
  | node l v dv r height ihl ihr =>
    rw [findBinding] at h
    cases hc : cmp x v with
    | eq =>
      rw [hc] at h
      obtain ⟨rfl, rfl⟩ : v = k ∧ dv = d := by simpa using h
      refine ⟨hc, l.bindings, r.bindings, rfl, ?_, fun d' => ?_⟩
      · simp [remove, hc]
      · simp [add, hc]
    | lt =>
      rw [hc] at h
      obtain ⟨heq, l1, l2, hbind, hrem, hadd⟩ := ihl h
      refine ⟨heq, l1, l2 ++ (v, dv) :: r.bindings, ?_, ?_, fun d' => ?_⟩
      · simp [hbind]
      · simp [remove, hc, hrem]
      · simp [add, hc, hadd]
    | gt =>
      rw [hc] at h
      obtain ⟨heq, l1, l2, hbind, hrem, hadd⟩ := ihr h
      refine ⟨heq, l.bindings ++ (v, dv) :: l1, l2, ?_, ?_, fun d' => ?_⟩
      · simp [hbind]
      · simp [remove, hc, hrem]
      · simp [add, hc, hadd]

/-- Where a lookup fails, an addition inserts and a removal does nothing. -/
theorem findBinding_none {t : AvlMap κ δ} (h : findBinding cmp x t = none) :
    (remove cmp x t).bindings = t.bindings ∧
      ∃ l1 l2, t.bindings = l1 ++ l2 ∧
        ∀ d', (add cmp x d' t).bindings = l1 ++ (x, d') :: l2 := by
  induction t with
  | empty => exact ⟨rfl, [], [], rfl, fun d' => rfl⟩
  | node l v dv r height ihl ihr =>
    rw [findBinding] at h
    cases hc : cmp x v with
    | eq => simp [hc] at h
    | lt =>
      rw [hc] at h
      obtain ⟨hrem, l1, l2, hbind, hadd⟩ := ihl h
      refine ⟨by simp [remove, hc, hrem], l1, l2 ++ (v, dv) :: r.bindings, ?_,
        fun d' => ?_⟩
      · simp [hbind]
      · simp [add, hc, hadd]
    | gt =>
      rw [hc] at h
      obtain ⟨hrem, l1, l2, hbind, hadd⟩ := ihr h
      refine ⟨by simp [remove, hc, hrem], l.bindings ++ (v, dv) :: l1, l2, ?_,
        fun d' => ?_⟩
      · simp [hbind]
      · simp [add, hc, hadd]

theorem find_eq_some_iff {t : AvlMap κ δ} {d : δ} :
    find cmp x t = some d ↔ ∃ k, findBinding cmp x t = some (k, d) := by
  simp [find]

theorem find_eq_none_iff {t : AvlMap κ δ} :
    find cmp x t = none ↔ findBinding cmp x t = none := by
  simp [find]

theorem findBinding_mem
    {t : AvlMap κ δ} {b : κ × δ} (h : findBinding cmp x t = some b) :
    b ∈ t.bindings := by
  obtain ⟨-, l1, l2, hbind, -⟩ := findBinding_some cmp x h
  rw [hbind]
  simp

theorem mem_bindings_add
    {t : AvlMap κ δ} {d : δ} {b : κ × δ} (h : b ∈ (add cmp x d t).bindings) :
    b = (x, d) ∨ b ∈ t.bindings := by
  cases hf : findBinding cmp x t with
  | none =>
    obtain ⟨-, l1, l2, hbind, hadd⟩ := findBinding_none cmp x hf
    rw [hadd, List.mem_append, List.mem_cons] at h
    rw [hbind, List.mem_append]
    tauto
  | some b' =>
    obtain ⟨-, l1, l2, hbind, -, hadd⟩ := findBinding_some cmp x hf
    rw [hadd, List.mem_append, List.mem_cons] at h
    rw [hbind, List.mem_append, List.mem_cons]
    tauto

theorem bindings_remove_sublist (t : AvlMap κ δ) :
    (remove cmp x t).bindings.Sublist t.bindings := by
  cases hf : findBinding cmp x t with
  | none => rw [(findBinding_none cmp x hf).1]
  | some b =>
    obtain ⟨-, l1, l2, hbind, hrem, -⟩ := findBinding_some cmp x hf
    rw [hbind, hrem]
    exact (List.sublist_cons_self _ _).append_left l1

theorem cardinal_remove_of_some
    {t : AvlMap κ δ} {b : κ × δ} (h : findBinding cmp x t = some b) :
    (remove cmp x t).cardinal + 1 = t.cardinal := by
  obtain ⟨-, l1, l2, hbind, hrem, -⟩ := findBinding_some cmp x h
  rw [cardinal_eq, cardinal_eq, hbind, hrem]
  simp
  omega

theorem cardinal_remove_of_none
    {t : AvlMap κ δ} (h : findBinding cmp x t = none) :
    (remove cmp x t).cardinal = t.cardinal := by
  rw [cardinal_eq, cardinal_eq, (findBinding_none cmp x h).1]

/-! ## Searches that divide the bindings -/

/-- From left to right, the keys compare greater, then equal, then less than
`x`. -/
def Cut (l : List (κ × δ)) : Prop :=
  l.Pairwise fun a b =>
    (cmp x b.1 = .gt → cmp x a.1 = .gt) ∧ (cmp x a.1 = .lt → cmp x b.1 = .lt)

variable {cmp x}

/-- On a search that divides the bindings, a lookup fails only where no key
compares equal, and an addition then inserts between the smaller and the
larger keys. -/
theorem findBinding_none_of_cut
    {t : AvlMap κ δ} (hcut : Cut cmp x t.bindings)
    (h : findBinding cmp x t = none) :
    ∃ l1 l2, t.bindings = l1 ++ l2 ∧ (∀ b ∈ l1, cmp x b.1 = .gt) ∧
      (∀ b ∈ l2, cmp x b.1 = .lt) ∧
      ∀ d', (add cmp x d' t).bindings = l1 ++ (x, d') :: l2 := by
  induction t with
  | empty => exact ⟨[], [], rfl, by simp, by simp, fun d' => rfl⟩
  | node l v dv r height ihl ihr =>
    rw [Cut, bindings_node, List.pairwise_append, List.pairwise_cons] at hcut
    obtain ⟨hcutl, ⟨hvr, hcutr⟩, hlr⟩ := hcut
    rw [findBinding] at h
    cases hc : cmp x v with
    | eq => simp [hc] at h
    | lt =>
      rw [hc] at h
      obtain ⟨l1, l2, hbind, hgt, hlt, hadd⟩ := ihl hcutl h
      refine ⟨l1, l2 ++ (v, dv) :: r.bindings, by simp [hbind], hgt, ?_,
        fun d' => by simp [add, hc, hadd]⟩
      intro b hb
      rcases List.mem_append.mp hb with hb | hb
      · exact hlt b hb
      · rcases List.mem_cons.mp hb with rfl | hb
        · exact hc
        · exact (hvr b hb).2 hc
    | gt =>
      rw [hc] at h
      obtain ⟨l1, l2, hbind, hgt, hlt, hadd⟩ := ihr hcutr h
      refine ⟨l.bindings ++ (v, dv) :: l1, l2, by simp [hbind], ?_, hlt,
        fun d' => by simp [add, hc, hadd]⟩
      intro b hb
      rcases List.mem_append.mp hb with hb | hb
      · exact (hlr b hb (v, dv) (by simp)).1 hc
      · rcases List.mem_cons.mp hb with rfl | hb
        · exact hc
        · exact hgt b hb

theorem findBinding_eq_none_iff
    {t : AvlMap κ δ} (hcut : Cut cmp x t.bindings) :
    findBinding cmp x t = none ↔ ∀ b ∈ t.bindings, cmp x b.1 ≠ .eq := by
  constructor
  · intro h b hb
    obtain ⟨l1, l2, hbind, hgt, hlt, -⟩ := findBinding_none_of_cut hcut h
    rw [hbind] at hb
    rcases List.mem_append.mp hb with hb | hb
    · simp [hgt b hb]
    · simp [hlt b hb]
  · intro h
    cases hf : findBinding cmp x t with
    | none => rfl
    | some b =>
      have heq := (findBinding_some cmp x hf).1
      exact absurd heq (h b (findBinding_mem cmp x hf))

/-! ## Maps over keys and values -/

variable {κ' ε : Type}

def map (g : κ → κ') (f : δ → ε) : AvlMap κ δ → AvlMap κ' ε
  | empty => empty
  | node l v d r h => node (map g f l) (g v) (f d) (map g f r) h

section Map

variable (g : κ → κ') (f : δ → ε)

@[simp] theorem height_map (t : AvlMap κ δ) :
    (t.map g f).height = t.height := by
  cases t <;> rfl

@[simp] theorem cardinal_map (t : AvlMap κ δ) :
    (t.map g f).cardinal = t.cardinal := by
  induction t with
  | empty => rfl
  | node l v d r h ihl ihr => simp [map, cardinal, ihl, ihr]

theorem bindings_map (t : AvlMap κ δ) :
    (t.map g f).bindings = t.bindings.map fun b => (g b.1, f b.2) := by
  induction t with
  | empty => rfl
  | node l v e r h ihl ihr => simp [map, ihl, ihr]

theorem map_congr {f f' : δ → ε} {t : AvlMap κ δ}
    (h : ∀ b ∈ t.bindings, f b.2 = f' b.2) : t.map g f = t.map g f' := by
  induction t with
  | empty => rfl
  | node l v e r hh ihl ihr =>
    simp only [bindings_node, List.mem_append, List.mem_cons] at h
    simp only [map]
    rw [ihl fun b hb => h b (.inl hb), ihr fun b hb => h b (.inr (.inr hb)),
      h (v, e) (.inr (.inl rfl))]

theorem map_map {κ'' ζ : Type} (g' : κ' → κ'') (f' : ε → ζ) (t : AvlMap κ δ) :
    (t.map g f).map g' f' = t.map (fun x => g' (g x)) fun d => f' (f d) := by
  induction t with
  | empty => rfl
  | node l v e r h ihl ihr => simp only [map, ihl, ihr]

theorem create_map (l : AvlMap κ δ) (x : κ) (d : δ) (r : AvlMap κ δ) :
    create (l.map g f) (g x) (f d) (r.map g f) = (create l x d r).map g f := by
  simp [create, map]

theorem bal_map (l : AvlMap κ δ) (x : κ) (d : δ) (r : AvlMap κ δ) :
    bal (l.map g f) (g x) (f d) (r.map g f) = (bal l x d r).map g f := by
  unfold bal
  simp only [height_map]
  split_ifs with hl hr
  · cases l with
    | empty => exact create_map g f _ _ _ _
    | node ll lv ld lr lh =>
      simp only [map, height_map]
      split_ifs with h
      · simp only [create_map]
      · cases lr with
        | empty =>
          simpa only [map] using create_map g f (node ll lv ld empty lh) x d r
        | node lrl lrv lrd lrr lrh => simp only [map, create_map]
  · cases r with
    | empty => exact create_map g f _ _ _ _
    | node rl rv rd rr rh =>
      simp only [map, height_map]
      split_ifs with h
      · simp only [create_map]
      · cases rl with
        | empty =>
          simpa only [map] using create_map g f l x d (node empty rv rd rr rh)
        | node rll rlv rld rlr rlh => simp only [map, create_map]
  · exact create_map g f _ _ _ _

theorem minBinding_map (t : AvlMap κ δ) :
    (t.map g f).minBinding = t.minBinding.map fun b => (g b.1, f b.2) := by
  induction t with
  | empty => rfl
  | node l v e r h ihl ihr =>
    cases l with
    | empty => rfl
    | node ll lv ld lr lh => simpa only [map, minBinding] using ihl

theorem removeMinBinding_map (t : AvlMap κ δ) :
    (t.map g f).removeMinBinding = t.removeMinBinding.map g f := by
  induction t with
  | empty => rfl
  | node l v e r h ihl ihr =>
    cases l with
    | empty => rfl
    | node ll lv ld lr lh =>
      simp only [map, removeMinBinding] at ihl ⊢
      rw [ihl, bal_map]

theorem merge_map (t1 t2 : AvlMap κ δ) :
    merge (t1.map g f) (t2.map g f) = (merge t1 t2).map g f := by
  cases t1 with
  | empty => cases t2 <;> rfl
  | node l v e r h =>
    cases t2 with
    | empty => rfl
    | node l2 v2 e2 r2 h2 =>
      have hmin := minBinding_map g f (node l2 v2 e2 r2 h2)
      have hrest := removeMinBinding_map g f (node l2 v2 e2 r2 h2)
      simp only [map] at hmin hrest
      simp only [merge, map, hmin, hrest]
      cases (node l2 v2 e2 r2 h2).minBinding with
      | none => rfl
      | some b => exact bal_map g f (node l v e r h) b.1 b.2 _

variable {g} {cmp' : κ' → κ' → Ordering} {cmp : κ → κ → Ordering} {x : κ}
  (hg : ∀ y, cmp' (g x) (g y) = cmp x y)

include hg

theorem add_map (d : δ) (t : AvlMap κ δ) :
    (t.map g f).add cmp' (g x) (f d) = (t.add cmp x d).map g f := by
  induction t with
  | empty => rfl
  | node l v e r h ihl ihr =>
    simp only [map, add, hg]
    cases cmp x v with
    | eq => rfl
    | lt => simp only [ihl, bal_map]
    | gt => simp only [ihr, bal_map]

theorem find_map (t : AvlMap κ δ) :
    (t.map g f).find cmp' (g x) = (t.find cmp x).map f := by
  induction t with
  | empty => rfl
  | node l v e r h ihl ihr =>
    simp only [find, map, findBinding, hg] at ihl ihr ⊢
    cases cmp x v with
    | eq => rfl
    | lt => exact ihl
    | gt => exact ihr

theorem remove_map (t : AvlMap κ δ) :
    (t.map g f).remove cmp' (g x) = (t.remove cmp x).map g f := by
  induction t with
  | empty => rfl
  | node l v e r h ihl ihr =>
    simp only [map, remove, hg]
    cases cmp x v with
    | eq => exact merge_map g f l r
    | lt => simp only [ihl, bal_map]
    | gt => simp only [ihr, bal_map]

end Map

end AvlMap
end Fuzzball
