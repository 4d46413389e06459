import Fuzzball.CgcHandler

/-!
# Snapshots of the handler of CGC system calls

`make_snap` keeps a reference to the generator, and nothing of the texts that
were transmitted, of what was read from descriptors, and of the counts of
failed assertions.  After a reset the calls do what they did at the snapshot,
when no call in between changed one of these.
-/

namespace Fuzzball.CgcHandler

open PointerManagement (Manager)

/-! ## Descriptors -/

/-- What `get_fd` answers. -/
def fdAnswer (o : Options) (unixFds : ℕ → Bool) (vtFd : ℕ) :
    Except Errno Unit :=
  if 1024 ≤ vtFd then .error .ebadf
  else if unixFds vtFd then .ok ()
  else if o.numFd < vtFd then .error .ebadf
  else match o.openError vtFd with
    | some err => .error err
    | none => .ok ()

def Handler.opened (s : Handler) (fd : ℕ) : Handler :=
  { s with unixFds := Function.update s.unixFds fd true }

section Descriptors

variable {o : Options} {t : Turn} {n : ℕ}

theorem getFd_error {err : Errno}
    (h : fdAnswer o t.handler.unixFds n = .error err) :
    (getFd o n).run t = (.error (.unix err), t) := by
  unfold fdAnswer at h
  unfold getFd
  split_ifs at h with hlarge hopen hnum
  · rw [if_pos hlarge]
    cases h
    rfl
  · rw [if_neg hlarge, run_look_bind,
      if_neg hopen, if_pos hnum]
    cases h
    rfl
  · rw [if_neg hlarge, run_look_bind,
      if_neg hopen, if_neg hnum]
    cases herr : o.openError n with
    | none =>
      rw [herr] at h
      cases h
    | some err' =>
      rw [herr] at h
      cases h
      rfl

theorem getFd_ok (h : fdAnswer o t.handler.unixFds n = .ok ()) :
    (getFd o n).run t = (.ok n, { t with handler := t.handler.opened n }) := by
  unfold fdAnswer at h
  unfold getFd
  split_ifs at h with hlarge hopen hnum
  · rw [if_neg hlarge, run_look_bind,
      if_pos hopen, Handler.opened, ← hopen, Function.update_eq_self]
    rfl
  · rw [if_neg hlarge, run_look_bind,
      if_neg hopen, if_neg hnum]
    cases herr : o.openError n with
    | none => rfl
    | some err =>
      rw [herr] at h
      cases h

/-- Opening a descriptor changes no answer. -/
theorem fdAnswer_opened {fds : ℕ → Bool} (h : fdAnswer o fds n = .ok ()) :
    fdAnswer o (Function.update fds n true) = fdAnswer o fds := by
  funext m
  by_cases hm : m = n
  · subst hm
    rw [h]
    unfold fdAnswer at h ⊢
    split_ifs at h with hlarge hopen
    · rw [if_neg hlarge, if_pos (by simp)]
    · rw [if_neg hlarge, if_pos (by simp)]
  · unfold fdAnswer
    rw [Function.update_of_ne hm]

end Descriptors

/-! ## Handlers that are alike -/

/-- A handler with another manager, other open descriptors and another string
that was written last. -/
def Handler.recast (s : Handler) (p : Manager) (fds : ℕ → Bool)
    (last : OString) : Handler :=
  { s with pm := p, unixFds := fds, lastStringWritten := last }

/-- Handlers that differ in open descriptors that make no difference, in the
string that was written last when it is not looked at, and in managers that are
alike. -/
inductive Same (o : Options) (s : Handler) : Handler → Prop
  | alike {p : Manager} {fds : ℕ → Bool} {last : OString} :
      PointerManagement.Same o.pm s.pm p →
      fdAnswer o fds = fdAnswer o s.unixFds →
      (o.errorMsgThreshold ≠ none → last = s.lastStringWritten) →
      Same o s (s.recast p fds last)

theorem Same.pm {o : Options} {s t : Handler} (h : Same o s t) :
    PointerManagement.Same o.pm s.pm t.pm := by
  obtain ⟨hp, -, -⟩ := h
  exact hp

inductive SameTurn (o : Options) : Turn → Turn → Prop
  | alike {s s' : Handler} {effects : List Effect} {patience : Option ℕ}
      {notConcrete : Bool} : Same o s s' →
      SameTurn o ⟨s, effects, patience, notConcrete⟩
        ⟨s', effects, patience, notConcrete⟩

section Respects

variable {o : Options} {wild : WildShift}

open Stateful (Respects)

theorem respects_look {α : Type} {f : Handler → α}
    (hf : ∀ s p fds last, f (s.recast p fds last) = f s) :
    Respects (SameTurn o) (look f) := by
  apply Respects.gets
  rintro _ _ ⟨⟨_, _, _⟩⟩
  exact (hf _ _ _ _).symm

/-- An update of fields in which handlers that are alike are the same. -/
theorem respects_update {f : Handler → Handler}
    (hf : ∀ s p fds last, f (s.recast p fds last) = (f s).recast p fds last)
    (hkeep : ∀ s, (f s).recast s.pm s.unixFds s.lastStringWritten = f s) :
    Respects (SameTurn o) (update f) := by
  apply Respects.modify
  rintro _ _ ⟨h⟩
  apply SameTurn.alike
  obtain ⟨hp, hfd, hl⟩ := h
  rename_i s _ _ _ _ _ _
  have hpm : (f s).pm = s.pm := by
    rw [← hkeep s]
    rfl
  have hfds : (f s).unixFds = s.unixFds := by
    rw [← hkeep s]
    rfl
  have hlast : (f s).lastStringWritten = s.lastStringWritten := by
    rw [← hkeep s]
    rfl
  rw [hf]
  refine .alike ?_ ?_ ?_
  · rw [hpm]
    exact hp
  · rw [hfds]
    exact hfd
  · rw [hlast]
    exact hl

theorem respects_look_bind {α β : Type} {f : Handler → α} {g : α → Sys β}
    (hf : ∀ s p fds last, f (s.recast p fds last) = f s)
    (hg : ∀ a, Respects (SameTurn o) (g a)) :
    Respects (SameTurn o) (look f >>= g) := (respects_look hf).bind hg

theorem respects_update_bind {β : Type} {f : Handler → Handler}
    {g : Unit → Sys β}
    (hf : ∀ s p fds last, f (s.recast p fds last) = (f s).recast p fds last)
    (hkeep : ∀ s, (f s).recast s.pm s.unixFds s.lastStringWritten = f s)
    (hg : ∀ u, Respects (SameTurn o) (g u)) :
    Respects (SameTurn o) (update f >>= g) := (respects_update hf hkeep).bind hg

theorem respects_emit (e : Effect) : Respects (SameTurn o) (emit e) := by
  refine .bind (.gets ?_) fun patience => ?_
  · rintro _ _ ⟨_⟩
    rfl
  · split_ifs
    · refine .bind (.gets ?_) fun notConcrete => .throw _
      rintro _ _ ⟨_⟩
      rfl
    · apply Respects.modify
      rintro _ _ ⟨h⟩
      exact .alike h

theorem respects_catchUnix {x : Sys Unit} (hx : Respects (SameTurn o) x) :
    Respects (SameTurn o) (catchUnix x) := by
  refine .tryCatch hx fun e => ?_
  cases e with
  | unix err => exact respects_emit _
  | _ => exact .throw _

theorem respects_callPm {α : Type}
    {f : Manager → PointerManagement.Result α}
    (hf : ∀ s t, PointerManagement.Same o.pm s t → (f s).Same o.pm (f t)) :
    Respects (SameTurn o) (callPm f) := by
  rintro _ _ ⟨h⟩
  obtain ⟨hp, hfd, hl⟩ := h
  rename_i s effects patience notConcrete p fds last
  obtain ⟨hanswer, hreports, hmanager⟩ := hf _ _ hp
  rw [run_callPm, run_callPm]
  dsimp only [Handler.recast]
  rw [← hanswer, ← hreports]
  exact ⟨rfl, .alike (.alike hmanager hfd hl)⟩

theorem fdAnswer_same {s s' : Handler} (h : Same o s s') :
    fdAnswer o s'.unixFds = fdAnswer o s.unixFds := by
  obtain ⟨-, hfd, -⟩ := h
  exact hfd

theorem respects_getFd (n : ℕ) : Respects (SameTurn o) (getFd o n) := by
  rintro _ _ ⟨h⟩
  rename_i s s' effects patience notConcrete
  have hfd := congrFun (fdAnswer_same h) n
  cases hs : fdAnswer o s.unixFds n with
  | error err =>
    rw [hs] at hfd
    rw [getFd_error hs, getFd_error hfd]
    exact ⟨rfl, .alike h⟩
  | ok u =>
    rw [hs] at hfd
    rw [getFd_ok hs, getFd_ok hfd]
    refine ⟨rfl, .alike ?_⟩
    obtain ⟨hp, hfds, hl⟩ := h
    refine .alike (s := s.opened n) hp ?_ hl
    exact (fdAnswer_opened hfd).trans (hfds.trans (fdAnswer_opened hs).symm)

theorem respects_unixRead (fd count : ℕ) :
    Respects (SameTurn o) (unixRead fd count) := by
  refine respects_look_bind (fun _ _ _ _ => rfl) ?_
  rintro (_ | ⟨_ | bytes, rest⟩)
  · exact .pure _
  · exact .throw _
  · dsimp only
    split_ifs with hcount
    · exact .pure _
    all_goals
      exact respects_update_bind (fun _ _ _ _ => rfl) (fun _ => rfl)
        fun _ => .pure _

theorem respects_gAssert (assertion : Bool) (sawAt : String) :
    Respects (SameTurn o) (gAssert o assertion sawAt) := by
  apply respects_callPm
  intro s t h
  exact PointerManagement.gAssert_same h _ _ fun _ _ h' => ⟨rfl, rfl, h'⟩

theorem respects_zeroRegion (base : I64) (len : ℤ) :
    Respects (SameTurn o) (zeroRegion o base len) :=
  (respects_gAssert _ _).bind fun _ => .forM (fun _ => respects_emit _) _

theorem respects_checkDepth (bound : Option ℤ) (test : ℤ → Bool) :
    Respects (SameTurn o) (checkDepth bound test) := by
  cases bound with
  | none => exact .pure _
  | some m =>
    dsimp only [checkDepth]
    split_ifs
    · exact .throw _
    · exact .pure _

/-! ### Transmitting -/

theorem respects_checkMsgs (str : OString) :
    Respects (SameTurn o) (checkMsgs str) := by
  refine respects_look_bind (fun _ _ _ _ => rfl) fun pats => ?_
  refine respects_look_bind (fun _ _ _ _ => rfl) fun checkBuf => ?_
  refine (Respects.forM (fun pat => ?_) pats).bind fun _ =>
    respects_update (fun _ _ _ _ => rfl) fun _ => rfl
  unfold lookFor
  split
  · exact .throw _
  · exact .pure _

theorem respects_countRepeats : Respects (SameTurn o) (countRepeats o) := by
  unfold countRepeats
  cases hm : o.errorMsgThreshold with
  | none =>
    rintro _ _ ⟨h⟩
    exact ⟨rfl, .alike h⟩
  | some m =>
    refine Respects.bind (Respects.gets ?_) fun str => ?_
    · rintro _ _ ⟨⟨_, _, hl⟩⟩
      exact (hl (by simp [hm])).symm
    refine respects_look_bind (fun _ _ _ _ => rfl) fun count => ?_
    refine respects_update_bind (fun _ _ _ _ => rfl) (fun _ => rfl) fun _ => ?_
    exact .when fun _ => respects_update (fun _ _ _ _ => rfl) fun _ => rfl

theorem respects_remember (str : OString) :
    Respects (SameTurn o) (remember str) := by
  refine respects_look_bind (fun _ _ _ _ => rfl) fun pats => ?_
  refine (Respects.when fun _ => .modify ?_).bind fun _ =>
    respects_checkMsgs str
  rintro ⟨s, effects, patience, notConcrete⟩ _ ⟨⟨hp, hfd, _⟩⟩
  exact .alike
    (.alike (s := { s with lastStringWritten := str }) hp hfd fun _ => rfl)

theorem respects_success (str : OString) (txBytes : I64) (numBytes : ℕ) :
    Respects (SameTurn o) (success o str txBytes numBytes) := by
  refine (Respects.when fun _ => respects_emit _).bind fun _ => ?_
  refine respects_update_bind (fun _ _ _ _ => rfl) (fun _ => rfl) fun _ => ?_
  refine (respects_remember str).bind fun _ => ?_
  refine respects_look_bind (fun _ _ _ _ => rfl) fun transmitPos => ?_
  exact (respects_checkDepth _ _).bind fun _ => respects_emit _

theorem respects_doWrite (fd : ℕ) (str : OString) (txBytes : I64)
    (written : Except Errno ℕ) :
    Respects (SameTurn o) (doWrite o fd str txBytes written) := by
  apply respects_catchUnix
  split_ifs
  · exact (respects_emit _).bind fun _ => respects_success _ _ _
  · refine (respects_getFd fd).bind fun ufd => ?_
    cases written with
    | error err => exact .throw _
    | ok i =>
      refine (respects_emit _).bind fun _ => ?_
      split_ifs
      · exact respects_success _ _ _
      · exact .throw _

theorem respects_cgcosTransmit (fd : ℕ) (str : OString) (txBytes : I64)
    (written : Except Errno ℕ) :
    Respects (SameTurn o) (cgcosTransmit o fd str txBytes written) := by
  refine respects_look_bind (fun _ _ _ _ => rfl) fun numTransmits => ?_
  refine (respects_checkDepth _ _).bind fun _ => ?_
  refine respects_update_bind (fun _ _ _ _ => rfl) (fun _ => rfl) fun _ => ?_
  exact respects_doWrite _ _ _ _

theorem respects_readProv (buf len : I64) :
    Respects (SameTurn o) (readProv o buf len) := by
  unfold readProv
  split_ifs
  · exact respects_callPm fun s t h =>
      PointerManagement.findReadProv_same h _ _
  · exact .pure _

theorem respects_hintAt (buf len : I64) (prov : IntervalTree.Provenance) :
    Respects (SameTurn o) (hintAt buf len prov) := by
  cases prov with
  | external => exact respects_emit _
  | random => exact respects_emit _
  | internal => exact .pure _

/-! ### Receiving -/

theorem respects_numRead (ocFd : ℕ) (buf : I64) (count : ℕ) :
    Respects (SameTurn o) (numRead o ocFd buf count) := by
  refine respects_look_bind (fun _ _ _ _ => rfl) fun receivePos => ?_
  split_ifs
  · exact (respects_emit _).bind fun _ => .pure _
  all_goals
    refine (respects_unixRead ocFd count).bind fun readStr => ?_
    exact (respects_emit _).bind fun _ => .pure _

theorem respects_stringCreate (len : ℕ) :
    Respects (SameTurn o) (stringCreate len) := by
  unfold stringCreate
  split_ifs
  · exact .throw _
  · exact .pure _

theorem respects_readThrow (fd : ℕ) (buf : I64) (count : ℕ)
    (numBytesP : I64) :
    Respects (SameTurn o) (readThrow o fd buf count numBytesP) := by
  refine (respects_stringCreate count).bind fun _ => ?_
  refine (respects_getFd fd).bind fun ocFd => ?_
  refine (respects_numRead ocFd buf count).bind fun numRead => ?_
  refine (respects_emit _).bind fun _ => ?_
  refine respects_update_bind (fun _ _ _ _ => rfl) (fun _ => rfl) fun _ => ?_
  refine respects_look_bind (fun _ _ _ _ => rfl) fun receivePos => ?_
  exact (respects_checkDepth _ _).bind fun _ => respects_emit _

theorem respects_cgcosReceive (fd : ℕ) (buf : I64) (count : ℕ)
    (numBytesP : I64) :
    Respects (SameTurn o) (cgcosReceive o fd buf count numBytesP) := by
  refine respects_look_bind (fun _ _ _ _ => rfl) fun numReceives => ?_
  refine (respects_checkDepth _ _).bind fun _ => ?_
  refine respects_update_bind (fun _ _ _ _ => rfl) (fun _ => rfl) fun _ => ?_
  exact respects_catchUnix (respects_readThrow _ _ _ _)

/-! ### Memory -/

theorem respects_cgcosAllocate (unpaddedLength addrP : I64) :
    Respects (SameTurn o) (cgcosAllocate o unpaddedLength addrP) := by
  unfold cgcosAllocate freshAddr
  refine Respects.bind ?_ fun fresh => ?_
  · refine respects_look_bind (fun _ _ _ _ => rfl) fun ret => ?_
    exact respects_update_bind (fun _ _ _ _ => rfl) (fun _ => rfl)
      fun _ => .pure _
  · refine (Respects.when fun _ => ?_).bind fun _ => ?_
    · exact respects_callPm fun s t h => PointerManagement.addAlloc_same h _ _
    · refine (respects_zeroRegion _ _).bind fun _ => ?_
      exact (respects_emit _).bind fun _ => respects_emit _

theorem respects_cgcosDeallocate (addr len : I64) :
    Respects (SameTurn o) (cgcosDeallocate o addr len) := by
  refine (Respects.when fun _ => ?_).bind fun _ => respects_emit _
  exact respects_callPm fun s t h => PointerManagement.addDealloc_same h _ _

/-! ### Waiting -/

theorem respects_writeBitmap (fdBm : I64) (fdL : List ℕ) (nfds : ℕ)
    (loaded : ℕ → I64) :
    Respects (SameTurn o) (writeBitmap o wild fdBm fdL nfds loaded) := by
  refine (respects_zeroRegion _ _).bind fun _ => .forM (fun i => ?_) _
  refine (respects_getFd i).bind fun fd => ?_
  exact .when fun _ => respects_emit _

theorem respects_cgcosFdwait (nfds : ℕ) (readfds writefds readyCntP : I64)
    (rl wl : List ℕ) (selected : Except Errno (List ℕ × List ℕ))
    (loaded : I64 → ℕ → I64) :
    Respects (SameTurn o) (cgcosFdwait o wild nfds readfds writefds readyCntP
      rl wl selected loaded) := by
  apply respects_catchUnix
  refine (Respects.mapM respects_getFd rl).bind fun _ => ?_
  refine (Respects.mapM respects_getFd wl).bind fun _ => ?_
  cases selected with
  | error err => exact .throw _
  | ok fds =>
    refine (Respects.when fun _ => respects_writeBitmap _ _ _ _).bind
      fun _ => ?_
    refine (Respects.when fun _ => respects_writeBitmap _ _ _ _).bind
      fun _ => ?_
    exact (respects_emit _).bind fun _ => respects_emit _

/-! ### Random bytes -/

theorem respects_drawBits : Respects (SameTurn o) drawBits := by
  refine respects_look_bind (fun _ _ _ _ => rfl) fun drawn => ?_
  exact respects_update_bind (fun _ _ _ _ => rfl) (fun _ => rfl)
    fun _ => .pure _

theorem respects_randomByte (words : ℕ → I64) (i : ℕ) :
    Respects (SameTurn o) (randomByte o words i) := by
  unfold randomByte
  split_ifs
  · exact respects_drawBits.bind fun _ => .pure _
  · exact .pure _

theorem respects_cgcosRandom (buf : I64) (count : ℕ) (countOutP : I64)
    (words : ℕ → I64) :
    Respects (SameTurn o) (cgcosRandom o buf count countOutP words) := by
  have hrest : Respects (SameTurn o) (do
      storeWord .random countOutP 0 (I64.ofInt count)
      putReturn 0) :=
    (respects_emit _).bind fun _ => respects_emit _
  unfold cgcosRandom
  refine respects_look_bind (fun _ _ _ _ => rfl) fun randomPos => ?_
  split_ifs
  · refine (respects_emit _).bind fun _ => ?_
    exact respects_update_bind (fun _ _ _ _ => rfl) (fun _ => rfl)
      fun _ => hrest
  · refine Respects.bind (Respects.mapM (fun _ => ?_) _) fun rChars => ?_
    · exact respects_drawBits.bind fun _ => .pure _
    · refine (respects_emit _).bind fun _ => ?_
      exact respects_update_bind (fun _ _ _ _ => rfl) (fun _ => rfl)
        fun _ => hrest
  · refine Respects.bind (Respects.forM (fun i => ?_) _) fun _ => hrest
    exact (respects_randomByte words i).bind fun byte => respects_emit _

/-! ### Calls -/

theorem respects_handleCgcosSyscall (c : Call) :
    Respects (SameTurn o) (handleCgcosSyscall o wild c) := by
  refine (respects_emit _).bind fun _ => ?_
  cases c with
  | nosys => exact respects_emit _
  | terminate status => exact respects_countRepeats.bind fun _ => .throw _
  | transmit fd buf bytes txBytes written =>
    refine (respects_readProv _ _).bind fun prov => ?_
    exact (respects_hintAt _ _ _).bind fun _ => respects_cgcosTransmit _ _ _ _
  | receive fd buf count numBytesP => exact respects_cgcosReceive _ _ _ _
  | fdwait nfds readfds writefds readyCntP rl wl selected loaded =>
    exact respects_cgcosFdwait _ _ _ _ _ _ _ _
  | allocate len addrP => exact respects_cgcosAllocate _ _
  | deallocate addr len => exact respects_cgcosDeallocate _ _
  | random buf count countOutP words => exact respects_cgcosRandom _ _ _ _

theorem respects_handleSpecial (c : Call) :
    Respects (SameTurn o) (handleSpecial o wild c) := by
  refine (respects_handleCgcosSyscall c).tryCatch fun e => ?_
  split
  · split
    · refine Respects.bind (.modify ?_) fun _ => respects_emit _
      rintro _ _ ⟨h⟩
      exact .alike h
    · exact .throw _
  · exact .throw _

end Respects

/-- Handlers that are alike do the same in every run. -/
theorem same_bisimulation (o : Options) (wild : WildShift) :
    Machine.Bisimulation (step o wild) (Same o) := by
  intro s t op h
  cases op with
  | call c fault =>
    have hcall : Stateful.Respects (SameTurn o) (handleSpecial o wild c) :=
      respects_handleSpecial c
    obtain ⟨hanswer, hturn⟩ :=
      hcall (.start s fault) (.start t fault) (.alike h)
    dsimp only [step]
    generalize (handleSpecial o wild c).run (.start s fault) = r at *
    generalize (handleSpecial o wild c).run (.start t fault) = r' at *
    obtain ⟨answer, turn⟩ := r
    obtain ⟨answer', turn'⟩ := r'
    obtain rfl : answer = answer' := hanswer
    obtain ⟨hsame⟩ := hturn
    exact ⟨rfl, hsame⟩
  | access op =>
    obtain ⟨hp, hfd, hl⟩ := h
    obtain ⟨hobs, hnext⟩ :=
      PointerManagement.same_bisimulation o.pm _ _ op hp
    refine ⟨congrArg Observation.access hobs, ?_⟩
    exact .alike (s := { s with pm := _ }) hnext hfd hl
  | makeSnap =>
    obtain ⟨hp, hfd, hl⟩ := h
    have hsnap := (PointerManagement.same_bisimulation o.pm _ _ .makeSnap hp).2
    exact ⟨rfl, .alike (s := makeSnap s) hsnap hfd hl⟩
  | reset =>
    obtain ⟨hp, hfd, hl⟩ := h
    have hreset := (PointerManagement.same_bisimulation o.pm _ _ .reset hp).2
    exact ⟨rfl, .alike (s := reset s) hreset hfd hl⟩

/-! ## What calls leave alone -/

/-- The property of handlers holds after a command when it did before. -/
abbrev Kept {α : Type} (I : Handler → Prop) (x : Sys α) : Prop :=
  Stateful.Preserves (fun t : Turn => I t.handler) x

/-- A property that does not look at what `make_snap` saves, pointer management
apart, and at the opening of descriptors. -/
structure Stable (o : Options) (I : Handler → Prop) : Prop where
  advance : ∀ s, I s → ∀ (addr : I64) (nr nt tp rp rnd : ℕ),
    I { s with
      nextFreshAddr := addr
      numReceives := nr
      numTransmits := nt
      transmitPos := tp
      receivePos := rp
      randomPos := rnd }
  opened : ∀ s n, I s → fdAnswer o s.unixFds n = .ok () → I (s.opened n)

section Kept

variable {o : Options} {wild : WildShift} {I : Handler → Prop}

open Stateful (Preserves)

theorem kept_look {α : Type} (f : Handler → α) : Kept I (look f) := .gets _

theorem kept_update {f : Handler → Handler} (hf : ∀ s, I s → I (f s)) :
    Kept I (update f) := .modify fun t => hf t.handler

theorem kept_emit (e : Effect) : Kept I (emit e) := by
  refine (Preserves.gets _).bind fun patience => ?_
  split_ifs
  · exact (Preserves.gets _).bind fun _ => .throw _
  · exact .modify fun _ h => h

theorem kept_catchUnix {x : Sys Unit} (hx : Kept I x) :
    Kept I (catchUnix x) := by
  refine hx.tryCatch fun e => ?_
  cases e with
  | unix err => exact kept_emit _
  | _ => exact .throw _

theorem kept_callPm {α : Type} {f : Manager → PointerManagement.Result α}
    (hf : ∀ s, I s → I { s with pm := (f s.pm).manager }) :
    Kept I (callPm f) := by
  intro t h
  rw [run_callPm]
  exact hf t.handler h

theorem kept_gAssert {assertion : Bool} (h : assertion = true)
    (sawAt : String) : Kept I (gAssert o assertion sawAt) := by
  apply kept_callPm
  intro s hs
  rw [PointerManagement.gAssert_true h]
  exact hs

theorem kept_zeroRegion {base : I64} {len : ℤ}
    (h : Kept I (gAssert o (0 ≤ len ∧ len ≤ 0x20000000)
      "cgc_syscalls.zero_region")) : Kept I (zeroRegion o base len) :=
  h.bind fun _ => .forM (fun _ => kept_emit _) _

theorem kept_checkDepth (bound : Option ℤ) (test : ℤ → Bool) :
    Kept I (checkDepth bound test) := by
  cases bound with
  | none => exact .pure _
  | some m =>
    dsimp only [checkDepth]
    split_ifs
    · exact .throw _
    · exact .pure _

theorem kept_readProv (buf len : I64) : Kept I (readProv o buf len) := by
  unfold readProv
  split_ifs
  · apply kept_callPm
    intro s hs
    have hmanager : (PointerManagement.findReadProv s.pm buf len).manager =
        s.pm := by
      unfold PointerManagement.findReadProv
      split <;> rfl
    rw [hmanager]
    exact hs
  · exact .pure _

theorem kept_hintAt (buf len : I64) (prov : IntervalTree.Provenance) :
    Kept I (hintAt buf len prov) := by
  cases prov with
  | external => exact kept_emit _
  | random => exact kept_emit _
  | internal => exact .pure _

variable (hI : Stable o I)

include hI

theorem kept_getFd (n : ℕ) : Kept I (getFd o n) := by
  intro t h
  cases hfd : fdAnswer o t.handler.unixFds n with
  | error err =>
    rw [getFd_error hfd]
    exact h
  | ok u =>
    rw [getFd_ok hfd]
    exact hI.opened _ n h hfd

theorem kept_success {str : OString} {txBytes : I64} {numBytes : ℕ}
    (hrem : Kept I (remember str)) :
    Kept I (success o str txBytes numBytes) := by
  refine (Preserves.when fun _ => kept_emit _).bind fun _ => ?_
  refine Preserves.bind (kept_update fun s h => ?_) fun _ => ?_
  · exact hI.advance s h _ _ _ _ _ _
  · refine hrem.bind fun _ => (kept_look _).bind fun transmitPos => ?_
    exact (kept_checkDepth _ _).bind fun _ => kept_emit _

theorem kept_cgcosTransmit {fd : ℕ} {str : OString} {txBytes : I64}
    {written : Except Errno ℕ}
    (hrem : sink fd = 1 ∨ sink fd = 2 ∨ written = .ok str.length →
      Kept I (remember str)) :
    Kept I (cgcosTransmit o fd str txBytes written) := by
  refine (kept_look _).bind fun numTransmits => ?_
  refine (kept_checkDepth _ _).bind fun _ => ?_
  refine Preserves.bind (kept_update fun s h => ?_) fun _ => ?_
  · exact hI.advance s h _ _ _ _ _ _
  apply kept_catchUnix
  split_ifs with hout
  · refine (kept_emit _).bind fun _ => kept_success hI (hrem ?_)
    exact hout.imp_right Or.inl
  · refine (kept_getFd hI _).bind fun ufd => ?_
    cases written with
    | error err => exact .throw _
    | ok i =>
      refine (kept_emit _).bind fun _ => ?_
      split_ifs with hall
      · subst hall
        exact kept_success hI (hrem (.inr (.inr rfl)))
      · exact .throw _

theorem kept_cgcosReceive {fd : ℕ} {buf : I64} {count : ℕ} {numBytesP : I64}
    (hread : o.symbolicReceive = false →
      Kept I (unixRead (source fd) count)) :
    Kept I (cgcosReceive o fd buf count numBytesP) := by
  refine (kept_look _).bind fun numReceives => ?_
  refine (kept_checkDepth _ _).bind fun _ => ?_
  refine Preserves.bind (kept_update fun s h => ?_) fun _ => ?_
  · exact hI.advance s h _ _ _ _ _ _
  apply kept_catchUnix
  refine Preserves.bind ?_ fun _ => ?_
  · unfold stringCreate
    split_ifs
    · exact .throw _
    · exact .pure _
  refine (kept_getFd hI _).bind_returns (P := (· = source fd)) ?_ ?_
  · intro t t' ocFd hrun
    cases hfd : fdAnswer o t.handler.unixFds (source fd) with
    | error err =>
      rw [getFd_error hfd] at hrun
      cases hrun
    | ok u =>
      rw [getFd_ok hfd] at hrun
      cases hrun
      rfl
  · rintro _ rfl
    refine Preserves.bind ?_ fun numRead => ?_
    · refine (kept_look _).bind fun receivePos => ?_
      cases hsymbolic : o.symbolicReceive with
      | true => exact (kept_emit _).bind fun _ => .pure _
      | false =>
        refine (hread hsymbolic).bind fun readStr => ?_
        exact (kept_emit _).bind fun _ => .pure _
    · refine (kept_emit _).bind fun _ => ?_
      refine Preserves.bind (kept_update fun s h => ?_) fun _ => ?_
      · exact hI.advance s h _ _ _ _ _ _
      refine (kept_look _).bind fun receivePos => ?_
      exact (kept_checkDepth _ _).bind fun _ => kept_emit _

theorem kept_cgcosAllocate {unpaddedLength addrP : I64}
    (hadd : ∀ fresh, Kept I (callPm fun s =>
      PointerManagement.addAlloc o.pm s fresh (padded unpaddedLength)))
    (hzero : Kept I (gAssert o (0 ≤ (padded unpaddedLength).toOCamlInt ∧
      (padded unpaddedLength).toOCamlInt ≤ 0x20000000)
      "cgc_syscalls.zero_region")) :
    Kept I (cgcosAllocate o unpaddedLength addrP) := by
  refine Preserves.bind ?_ fun fresh => ?_
  · refine (kept_look _).bind fun ret => ?_
    refine Preserves.bind (kept_update fun s h => ?_) fun _ => .pure _
    exact hI.advance s h _ _ _ _ _ _
  · refine (Preserves.when fun _ => hadd fresh).bind fun _ => ?_
    refine (kept_zeroRegion hzero).bind fun _ => ?_
    exact (kept_emit _).bind fun _ => kept_emit _

theorem kept_writeBitmap {fdBm : I64} {fdL : List ℕ} {nfds : ℕ}
    {loaded : ℕ → I64}
    (hzero : Kept I (gAssert o (0 ≤ (nfds : ℤ) ∧ (nfds : ℤ) ≤ 0x20000000)
      "cgc_syscalls.zero_region")) :
    Kept I (writeBitmap o wild fdBm fdL nfds loaded) := by
  refine (kept_zeroRegion hzero).bind fun _ => .forM (fun i => ?_) _
  refine (kept_getFd hI i).bind fun fd => ?_
  exact .when fun _ => kept_emit _

theorem kept_cgcosFdwait {nfds : ℕ} {readfds writefds readyCntP : I64}
    {rl wl : List ℕ} {selected : Except Errno (List ℕ × List ℕ)}
    {loaded : I64 → ℕ → I64}
    (hzero : (∀ err, selected ≠ .error err) → readfds ≠ 0 ∨ writefds ≠ 0 →
      Kept I (gAssert o (0 ≤ (nfds : ℤ) ∧ (nfds : ℤ) ≤ 0x20000000)
        "cgc_syscalls.zero_region")) :
    Kept I (cgcosFdwait o wild nfds readfds writefds readyCntP rl wl selected
      loaded) := by
  apply kept_catchUnix
  refine (Preserves.mapM (kept_getFd hI) rl).bind fun _ => ?_
  refine (Preserves.mapM (kept_getFd hI) wl).bind fun _ => ?_
  cases selected with
  | error err => exact .throw _
  | ok fds =>
    have hzero := hzero fun _ h => nomatch h
    refine (Preserves.when fun hne => kept_writeBitmap hI
      (hzero (.inl hne))).bind fun _ => ?_
    refine (Preserves.when fun hne => kept_writeBitmap hI
      (hzero (.inr hne))).bind fun _ => ?_
    exact (kept_emit _).bind fun _ => kept_emit _

theorem kept_cgcosRandom {buf : I64} {count : ℕ} {countOutP : I64}
    {words : ℕ → I64}
    (hdraw : o.symbolicRandom = false →
      (o.concolicRandom = true ∨ o.oneRandom = true) → count ≠ 0 →
      Kept I drawBits) :
    Kept I (cgcosRandom o buf count countOutP words) := by
  have hrest : Kept I (do
      storeWord .random countOutP 0 (I64.ofInt count)
      putReturn 0) :=
    (kept_emit _).bind fun _ => kept_emit _
  have hpos : Kept I (update fun h =>
      { h with randomPos := h.randomPos + count }) :=
    kept_update fun s h => hI.advance s h _ _ _ _ _ _
  refine (kept_look _).bind fun randomPos => ?_
  cases hsymbolic : o.symbolicRandom with
  | true => exact (kept_emit _).bind fun _ => hpos.bind fun _ => hrest
  | false =>
    cases hconcolic : o.concolicRandom with
    | true =>
      refine Preserves.bind ?_ fun rChars => ?_
      · cases count with
        | zero => exact .pure _
        | succ n =>
          refine .mapM (fun _ => ?_) _
          exact (hdraw hsymbolic (.inl hconcolic)
            n.succ_ne_zero).bind fun _ => .pure _
      · exact (kept_emit _).bind fun _ => hpos.bind fun _ => hrest
    | false =>
      refine Preserves.bind ?_ fun _ => hrest
      cases count with
      | zero => exact .pure _
      | succ n =>
        refine .forM (fun i => ?_) _
        refine Preserves.bind ?_ fun byte => kept_emit _
        cases hone : o.oneRandom with
        | false =>
          rw [randomByte, hone]
          exact .pure _
        | true =>
          rw [randomByte, hone]
          exact (hdraw hsymbolic (.inr hone)
            n.succ_ne_zero).bind fun _ => .pure _

omit hI in
theorem kept_handleSpecial {c : Call}
    (hc : Kept I (handleCgcosSyscall o wild c)) :
    Kept I (handleSpecial o wild c) := by
  refine hc.tryCatch fun e => ?_
  split
  · split
    · exact Preserves.bind (.modify fun _ h => h) fun _ => kept_emit _
    · exact .throw _
  · exact .throw _

end Kept

/-- The commands of a call that may change what is not saved keep the
property. -/
def Harmless (o : Options) (I : Handler → Prop) : Call → Prop
  | .nosys => True
  | .terminate _ => Kept I (countRepeats o)
  | .transmit fd _ bytes _ written =>
      sink fd.toNat = 1 ∨ sink fd.toNat = 2 ∨ written = .ok bytes.length →
        Kept I (remember bytes)
  | .receive fd _ count _ =>
      o.symbolicReceive = false →
        Kept I (unixRead (source fd.toNat) count.toNat)
  | .fdwait nfds readfds writefds _ _ _ selected _ =>
      (∀ err, selected ≠ .error err) → readfds ≠ 0 ∨ writefds ≠ 0 →
        Kept I (gAssert o (0 ≤ (nfds.toNat : ℤ) ∧
          (nfds.toNat : ℤ) ≤ 0x20000000) "cgc_syscalls.zero_region")
  | .allocate len _ =>
      let length := padded (len.setWidth 64)
      (∀ fresh, Kept I (callPm fun s =>
        PointerManagement.addAlloc o.pm s fresh length)) ∧
        Kept I (gAssert o (0 ≤ length.toOCamlInt ∧
          length.toOCamlInt ≤ 0x20000000) "cgc_syscalls.zero_region")
  | .deallocate addr len =>
      o.memoryWatching = true → Kept I (callPm fun s =>
        PointerManagement.addDealloc o.pm s (addr.setWidth 64)
          (len.setWidth 64))
  | .random _ count _ _ =>
      o.symbolicRandom = false →
        (o.concolicRandom = true ∨ o.oneRandom = true) → count.toNat ≠ 0 →
        Kept I drawBits

theorem setWidth_ne_zero {x : BitVec 32} (h : x.setWidth 64 ≠ 0) : x ≠ 0 := by
  rintro rfl
  exact h rfl

theorem Harmless.kept {o : Options} {wild : WildShift} {I : Handler → Prop}
    (hI : Stable o I) {c : Call} (h : Harmless o I c) :
    Kept I (handleCgcosSyscall o wild c) := by
  refine (kept_emit _).bind fun _ => ?_
  cases c with
  | nosys => exact kept_emit _
  | terminate status =>
    exact Stateful.Preserves.bind h fun _ => .throw _
  | transmit fd buf bytes txBytes written =>
    refine (kept_readProv _ _).bind fun prov => ?_
    exact (kept_hintAt _ _ _).bind fun _ => kept_cgcosTransmit hI h
  | receive fd buf count numBytesP => exact kept_cgcosReceive hI h
  | fdwait nfds readfds writefds readyCntP rl wl selected loaded =>
    refine kept_cgcosFdwait hI fun hsel hne => h hsel ?_
    exact hne.imp setWidth_ne_zero setWidth_ne_zero
  | allocate len addrP => exact kept_cgcosAllocate hI h.1 h.2
  | deallocate addr len =>
    exact (Stateful.Preserves.when h).bind fun _ => kept_emit _
  | random buf count countOutP words => exact kept_cgcosRandom hI h

/-! ## Messages -/

/-- One of the patterns is found when the text is sent. -/
def Found (s : Handler) (str : OString) : Prop :=
  ∃ pat ∈ s.stopOnErrorMsgs, (strstr (s.checkBuf ++ str) pat).isSome

theorem run_lookFor (fullStr pat : OString) (t : Turn) :
    (lookFor fullStr pat).run t =
      (if (strstr fullStr pat).isSome then .error (.sentErrorMessage pat)
        else .ok (), t) := by
  unfold lookFor
  cases strstr fullStr pat <;> rfl

theorem run_checkMsgs_of_found {str : OString} {t : Turn}
    (h : Found t.handler str) :
    ∃ pat, (checkMsgs str).run t = (.error (.sentErrorMessage pat), t) := by
  obtain ⟨pat, hpat, hfound⟩ := h
  unfold checkMsgs
  rw [run_look_bind, run_look_bind]
  have hloop : ∀ pats : List OString, pat ∈ pats →
      ∃ pat', Stateful.run (pats.forM
        (lookFor (t.handler.checkBuf ++ str))) t =
          (.error (.sentErrorMessage pat'), t) := by
    intro pats hmem
    induction pats with
    | nil => cases hmem
    | cons first rest ih =>
      have hfirst := run_lookFor (t.handler.checkBuf ++ str) first t
      cases hstr : strstr (t.handler.checkBuf ++ str) first with
      | some tail =>
        rw [hstr] at hfirst
        exact ⟨first, Stateful.run_bind_error hfirst⟩
      | none =>
        have hrest : pat ∈ rest := by
          rcases List.mem_cons.mp hmem with rfl | hrest
          · rw [hstr] at hfound
            cases hfound
          · exact hrest
        rw [hstr] at hfirst
        obtain ⟨pat', hrun⟩ := ih hrest
        exact ⟨pat', (Stateful.run_bind_ok hfirst).trans hrun⟩
  obtain ⟨pat', hrun⟩ := hloop _ hpat
  exact ⟨pat', Stateful.run_bind_error hrun⟩

theorem run_checkMsgs_of_nil {str : OString} {t : Turn}
    (h : t.handler.stopOnErrorMsgs = []) :
    (checkMsgs str).run t =
      (.ok (), { t with handler := { t.handler with checkBuf := [] } }) := by
  unfold checkMsgs
  rw [run_look_bind, run_look_bind, h]
  have hlast : lastPart [] (t.handler.checkBuf ++ str) = [] := by
    simp [lastPart]
  dsimp only
  rw [hlast]
  rfl

/-- The texts of earlier calls are kept only where messages are looked for. -/
def Tidy (s : Handler) : Prop := s.stopOnErrorMsgs = [] → s.checkBuf = []

theorem kept_checkMsgs {I : Handler → Prop}
    (hI : ∀ s checkBuf, I s → I { s with checkBuf := checkBuf })
    (str : OString) : Kept I (checkMsgs str) := by
  refine (kept_look _).bind fun pats => (kept_look _).bind fun checkBuf => ?_
  refine (Stateful.Preserves.forM (fun pat => ?_) pats).bind
    fun _ => kept_update fun s h => hI s _ h
  intro t h
  rw [run_lookFor]
  exact h

theorem kept_remember_tidy (str : OString) : Kept Tidy (remember str) := by
  refine (kept_look _).bind fun pats => ?_
  refine Stateful.Preserves.bind
    (.when fun _ => kept_update fun s h => h) fun _ => ?_
  intro t h
  by_cases hnil : t.handler.stopOnErrorMsgs = []
  · rw [run_checkMsgs_of_nil hnil]
    exact fun _ => rfl
  · have hmsgs := kept_checkMsgs
      (I := fun s => s.stopOnErrorMsgs ≠ []) (fun _ _ h => h) str t hnil
    exact fun h' => absurd h' hmsgs

theorem stable_tidy (o : Options) : Stable o Tidy where
  advance _ h _ _ _ _ _ _ := h
  opened _ _ h _ := h

theorem harmless_tidy (o : Options) (c : Call) : Harmless o Tidy c := by
  cases c with
  | nosys => trivial
  | terminate status =>
    refine (kept_look _).bind fun str => (kept_look _).bind fun count => ?_
    cases o.errorMsgThreshold with
    | none => exact .pure _
    | some m =>
      refine Stateful.Preserves.bind (kept_update fun s h => h) fun _ => ?_
      refine .when fun _ => kept_update fun s h hnil => ?_
      exact absurd hnil (by simp)
  | transmit fd buf bytes txBytes written => exact fun _ => kept_remember_tidy _
  | receive fd buf count numBytesP =>
    intro _
    refine (kept_look _).bind fun unread => ?_
    rcases unread with _ | ⟨_ | bytes, rest⟩
    · exact .pure _
    · exact .throw _
    · dsimp only
      split_ifs
      · exact .pure _
      all_goals
        exact Stateful.Preserves.bind (kept_update fun s h => h)
          fun _ => .pure _
  | fdwait nfds readfds writefds readyCntP rl wl selected loaded =>
    exact fun _ _ => kept_callPm fun s h => h
  | allocate len addrP =>
    exact ⟨fun _ => kept_callPm fun s h => h, kept_callPm fun s h => h⟩
  | deallocate addr len => exact fun _ => kept_callPm fun s h => h
  | random buf count countOutP words =>
    intro _ _ _
    refine (kept_look _).bind fun drawn => ?_
    exact Stateful.Preserves.bind (kept_update fun s h => h) fun _ => .pure _

/-! ## Reachable handlers -/

/-- The handlers of runs of any operations. -/
inductive Reachable (o : Options) (wild : WildShift) : Handler → Prop
  | new (make : List ℤ → RandomState) (randomSeed weirdCount : ℤ)
      (stopOnErrorMsgs : List OString)
      (unread : ℕ → List (Except Errno OString)) :
      Reachable o wild
        (.new make randomSeed weirdCount stopOnErrorMsgs unread)
  | step {s : Handler} (op : Op) :
      Reachable o wild s → Reachable o wild (step o wild s op).2

section Reachable

variable {o : Options} {wild : WildShift} {s : Handler}

theorem Reachable.bounded (h : Reachable o wild s) : s.pm.Bounded := by
  suffices hsame : Same o s s from hsame.pm.bounded
  induction h with
  | new make randomSeed weirdCount stopOnErrorMsgs unread =>
    exact .alike (s := .new make randomSeed weirdCount stopOnErrorMsgs unread)
      (PointerManagement.Manager.new_same o.pm weirdCount) rfl fun _ => rfl
  | step op _ ih => exact (same_bisimulation o wild _ _ op ih).2

theorem Reachable.tidy (h : Reachable o wild s) : Tidy s := by
  induction h with
  | new make randomSeed weirdCount stopOnErrorMsgs unread => exact fun _ => rfl
  | step op _ ih =>
    cases op with
    | call c fault =>
      have hc : Kept Tidy (handleCgcosSyscall o wild c) :=
        (harmless_tidy o c).kept (stable_tidy o)
      exact kept_handleSpecial hc (.start _ fault) ih
    | access op => exact ih
    | makeSnap => exact ih
    | reset => exact ih

end Reachable

/-! ## What a snapshot keeps -/

/-- The bound on the number of calls is reached. -/
def Deep (bound : Option ℤ) (n : ℕ) : Prop := ∃ m, bound = some m ∧ m ≤ n

/-- A step that leaves alone what a snapshot does not save: it draws no bytes
from the generator and takes none from a descriptor, it looks for no messages
in a text that it then keeps, it counts no repeated messages, and it fails no
assertion; and an access is undisturbed in the sense of pointer management. -/
def Undisturbed (o : Options) (s : Handler) : Op → Prop
  | .call .nosys _ => True
  | .call (.terminate _) _ => o.errorMsgThreshold = none
  | .call (.transmit fd _ bytes _ written) _ =>
      s.stopOnErrorMsgs = [] ∨ Deep o.maxTransmits s.numTransmits ∨
        (sink fd.toNat ≠ 1 ∧ sink fd.toNat ≠ 2 ∧ written ≠ .ok bytes.length) ∨
        (o.errorMsgThreshold = none ∧ Found s bytes)
  | .call (.receive fd _ count _) _ =>
      o.symbolicReceive = true ∨ Deep o.maxReceives s.numReceives ∨
        count = 0 ∨ ∀ bytes rest, s.unread (source fd.toNat) ≠ .ok bytes :: rest
  | .call (.fdwait nfds readfds writefds _ _ _ selected _) _ =>
      nfds.toNat ≤ 0x20000000 ∨ (readfds = 0 ∧ writefds = 0) ∨
        ∃ err, selected = .error err
  | .call (.allocate len _) _ => len.toNat ≤ 0x20000000
  | .call (.deallocate _ len) _ => o.memoryWatching = true → len ≠ 0
  | .call (.random _ count _ _) _ =>
      o.symbolicRandom = true ∨
        (o.concolicRandom = false ∧ o.oneRandom = false) ∨ count = 0
  | .access op => PointerManagement.Undisturbed o.pm s.pm op
  | .makeSnap => False
  | .reset => True

/-- A handler whose snapshot is the one made at `s`, and that has not changed
what the snapshot does not save. -/
structure Since (o : Options) (s t : Handler) : Prop where
  pm : PointerManagement.Since o.pm s.pm t.pm
  fds : fdAnswer o t.unixFds = fdAnswer o s.unixFds
  checkBuf : t.checkBuf = s.checkBuf
  lastStringWritten : o.errorMsgThreshold ≠ none →
    t.lastStringWritten = s.lastStringWritten
  possibleErrorStrTable : t.possibleErrorStrTable = s.possibleErrorStrTable
  stopOnErrorMsgs : t.stopOnErrorMsgs = s.stopOnErrorMsgs
  savedNextFreshAddr : t.savedNextFreshAddr = s.nextFreshAddr
  savedNumReceives : t.savedNumReceives = s.numReceives
  savedNumTransmits : t.savedNumTransmits = s.numTransmits
  savedTransmitPos : t.savedTransmitPos = s.transmitPos
  savedReceivePos : t.savedReceivePos = s.receivePos
  savedRandomPos : t.savedRandomPos = s.randomPos
  savedRandomness : t.savedRandomness = s.randomness
  generators : t.generators = s.generators
  unread : t.unread = s.unread

theorem since_makeSnap {o : Options} {s : Handler} (hs : s.pm.Bounded) :
    Since o s (makeSnap s) where
  pm := PointerManagement.since_makeSnap hs
  fds := rfl
  checkBuf := rfl
  lastStringWritten _ := rfl
  possibleErrorStrTable := rfl
  stopOnErrorMsgs := rfl
  savedNextFreshAddr := rfl
  savedNumReceives := rfl
  savedNumTransmits := rfl
  savedTransmitPos := rfl
  savedReceivePos := rfl
  savedRandomPos := rfl
  savedRandomness := rfl
  generators := rfl
  unread := rfl

section Since

variable {o : Options} {wild : WildShift} {s t : Handler}

theorem stable_since (o : Options) (s : Handler) : Stable o (Since o s) where
  advance _ h _ _ _ _ _ _ := { h with }
  opened _ _ h hfd := { h with fds := (fdAnswer_opened hfd).trans h.fds }

theorem Since.same_reset (h : Since o s t) (hs : s.pm.Bounded) :
    Same o (makeSnap s) (reset t) := by
  have hreset : reset t = (makeSnap s).recast (PointerManagement.reset t.pm)
      t.unixFds t.lastStringWritten := by
    unfold reset makeSnap Handler.recast
    rw [h.checkBuf, h.possibleErrorStrTable, h.stopOnErrorMsgs,
      h.savedNextFreshAddr, h.savedNumReceives, h.savedNumTransmits,
      h.savedTransmitPos, h.savedReceivePos, h.savedRandomPos,
      h.savedRandomness, h.generators, h.unread]
  rw [hreset]
  exact .alike (h.pm.same_reset hs) h.fds h.lastStringWritten

/-! ### Transmitting -/

/-- Nothing is kept of a text in which no messages are looked for. -/
theorem kept_remember_of_nil (hs : Tidy s) (hnil : s.stopOnErrorMsgs = [])
    (str : OString) : Kept (Since o s) (remember str) := by
  intro u hu
  have hpats : u.handler.stopOnErrorMsgs = [] := hu.stopOnErrorMsgs.trans hnil
  have hrun : (remember str).run u = (checkMsgs str).run u := by
    unfold remember
    rw [run_look_bind, hpats]
    rfl
  rw [hrun, run_checkMsgs_of_nil hpats]
  exact { hu with checkBuf := (hs hnil).symm }

theorem kept_remember_of_found (hnone : o.errorMsgThreshold = none)
    {str : OString} (hfound : Found s str) :
    Kept (Since o s) (remember str) := by
  refine (kept_look _).bind fun pats => ?_
  refine Stateful.Preserves.bind (.when fun _ => kept_update fun u hu => ?_)
    fun _ => ?_
  · exact { hu with lastStringWritten := fun hne => absurd hnone hne }
  · intro u hu
    have hfound' : Found u.handler str := by
      unfold Found
      rw [hu.stopOnErrorMsgs, hu.checkBuf]
      exact hfound
    obtain ⟨pat, hrun⟩ := run_checkMsgs_of_found hfound'
    rw [hrun]
    exact hu

theorem run_checkDepth_of_deep {bound : Option ℤ} {n : ℕ} (h : Deep bound n)
    (u : Turn) :
    (checkDepth bound fun m => m ≤ n).run u = (.error .deepPath, u) := by
  obtain ⟨m, rfl, hm⟩ := h
  unfold checkDepth
  dsimp only
  rw [if_pos (decide_eq_true hm)]
  rfl

theorem kept_transmit_of_deep {I : Handler → Prop} {fd buf : BitVec 32}
    {bytes : OString} {txBytes : BitVec 32} {written : Except Errno ℕ}
    (hdeep : ∀ u, I u → Deep o.maxTransmits u.numTransmits) :
    Kept I (handleCgcosSyscall o wild
      (.transmit fd buf bytes txBytes written)) := by
  refine (kept_emit _).bind fun _ => (kept_readProv _ _).bind fun prov => ?_
  refine (kept_hintAt _ _ _).bind fun _ u hu => ?_
  unfold cgcosTransmit
  rw [run_look_bind, Stateful.run_bind_error
    (run_checkDepth_of_deep (hdeep _ hu) u)]
  exact hu

theorem kept_receive_of_deep {I : Handler → Prop}
    {fd buf count numBytesP : BitVec 32}
    (hdeep : ∀ u, I u → Deep o.maxReceives u.numReceives) :
    Kept I (handleCgcosSyscall o wild (.receive fd buf count numBytesP)) := by
  refine (kept_emit _).bind fun _ u hu => ?_
  unfold cgcosReceive
  dsimp only
  rw [run_look_bind, Stateful.run_bind_error
    (run_checkDepth_of_deep (hdeep _ hu) u)]
  exact hu

/-! ### Other calls -/

theorem kept_unixRead {fd count : ℕ}
    (h : count = 0 ∨ ∀ bytes rest, s.unread fd ≠ .ok bytes :: rest) :
    Kept (Since o s) (unixRead fd count) := by
  intro u hu
  have hunread := congrFun hu.unread fd
  unfold unixRead
  rw [run_look_bind]
  rcases hnext : u.handler.unread fd with _ | ⟨_ | bytes, rest⟩
  · exact hu
  · exact hu
  · rw [hnext] at hunread
    have hcount : count = 0 :=
      h.resolve_right fun hne => hne bytes rest hunread.symm
    dsimp only
    rw [if_pos hcount]
    exact hu

theorem toNat_padded (len : I64) (h : len.toNat ≤ 0x20000000) :
    (padded len).toNat ≤ 0x20000000 := by
  have hmask : (4095 : I64).toNat = 2 ^ 12 - 1 := rfl
  rw [padded, BitVec.toNat_add, BitVec.toNat_and, hmask,
    Nat.and_two_pow_sub_one_eq_mod, BitVec.toNat_neg]
  omega

theorem toOCamlInt_padded {len : BitVec 32} (h : len.toNat ≤ 0x20000000) :
    0 ≤ (padded (len.setWidth 64)).toOCamlInt ∧
      (padded (len.setWidth 64)).toOCamlInt ≤ 0x20000000 := by
  have hle : (padded (len.setWidth 64)).toNat ≤ 0x20000000 := by
    apply toNat_padded
    rw [BitVec.toNat_setWidth]
    omega
  rw [I64.toOCamlInt, BitVec.toInt_eq_toNat_of_lt, BitVec.toNat_setWidth]
  · omega
  · rw [BitVec.toNat_setWidth]
    omega

theorem toInt_setWidth_pos {len : BitVec 32} (h : len ≠ 0) :
    0 < (len.setWidth 64 : I64).toInt := by
  have hpos : len.toNat ≠ 0 := fun h0 => h (BitVec.eq_of_toNat_eq h0)
  rw [BitVec.toInt_eq_toNat_of_lt, BitVec.toNat_setWidth]
  · omega
  · rw [BitVec.toNat_setWidth]
    omega

theorem Since.call (hs : Tidy s) (ht : Since o s t) {c : Call}
    {fault : Option Fault} (hop : Undisturbed o t (.call c fault)) :
    Since o s (step o wild t (.call c fault)).2 := by
  suffices hkept : Kept (Since o s) (handleCgcosSyscall o wild c) ∨
      ∃ P : Handler → Prop, P t ∧
        Kept (fun u => Since o s u ∧ P u) (handleCgcosSyscall o wild c) by
    obtain hkept | ⟨P, hP, hkept⟩ := hkept
    · exact kept_handleSpecial hkept (.start t fault) ht
    · exact (kept_handleSpecial hkept (.start t fault) ⟨ht, hP⟩).1
  have hharmless (h : Harmless o (Since o s) c) :
      Kept (Since o s) (handleCgcosSyscall o wild c) :=
    h.kept (stable_since o s)
  cases c with
  | nosys => exact .inl (hharmless trivial)
  | terminate status =>
    refine .inl (hharmless fun u hu => ?_)
    unfold countRepeats
    rw [run_look_bind, run_look_bind, show o.errorMsgThreshold = none from hop]
    exact hu
  | transmit fd buf bytes txBytes written =>
    obtain hnil | hdeep | ⟨h1, h2, hw⟩ | ⟨hnone, hfound⟩ := hop
    · have hnil' := ht.stopOnErrorMsgs.symm.trans hnil
      exact .inl (hharmless fun _ => kept_remember_of_nil hs hnil' bytes)
    · exact .inr ⟨_, hdeep, kept_transmit_of_deep fun u hu => hu.2⟩
    · refine .inl (hharmless fun hsent => ?_)
      obtain h | h | h := hsent
      · exact absurd h h1
      · exact absurd h h2
      · exact absurd h hw
    · refine .inl (hharmless fun _ => kept_remember_of_found hnone ?_)
      unfold Found at hfound ⊢
      rw [← ht.stopOnErrorMsgs, ← ht.checkBuf]
      exact hfound
  | receive fd buf count numBytesP =>
    obtain hsymbolic | hdeep | hread := hop
    · refine .inl (hharmless fun hfalse => ?_)
      rw [hsymbolic] at hfalse
      cases hfalse
    · exact .inr ⟨_, hdeep, kept_receive_of_deep fun u hu => hu.2⟩
    · refine .inl (hharmless fun _ => kept_unixRead ?_)
      rw [← ht.unread]
      exact hread.imp_left fun h0 => congrArg BitVec.toNat h0
  | fdwait nfds readfds writefds readyCntP rl wl selected loaded =>
    refine .inl (hharmless fun hsel hne => kept_gAssert ?_ _)
    obtain hle | ⟨hread, hwrite⟩ | ⟨err, herr⟩ := hop
    · exact decide_eq_true (by omega)
    · exact absurd hne (by simp [hread, hwrite])
    · exact absurd herr (hsel err)
  | allocate len addrP =>
    refine .inl (hharmless ⟨fun fresh => kept_callPm fun u hu => ?_, ?_⟩)
    · exact { hu with pm := hu.pm.addAlloc _ _ }
    · exact kept_gAssert (decide_eq_true (toOCamlInt_padded hop)) _
  | deallocate addr len =>
    refine .inl (hharmless fun hwatch => kept_callPm fun u hu => ?_)
    exact { hu with pm := hu.pm.addDealloc (toInt_setWidth_pos (hop hwatch)) }
  | random buf count countOutP words =>
    refine .inl (hharmless fun hsymbolic hdraw hcount => ?_)
    obtain h | ⟨hconcolic, hone⟩ | h := hop
    · rw [hsymbolic] at h
      cases h
    · rw [hconcolic, hone] at hdraw
      exact absurd hdraw (by simp)
    · exact absurd (congrArg BitVec.toNat h) hcount

theorem Since.step (hb : s.pm.Bounded) (hs : Tidy s) (ht : Since o s t)
    {op : Op} (hop : Undisturbed o t op) :
    Since o s (step o wild t op).2 := by
  cases op with
  | call c fault => exact ht.call hs hop
  | access op => exact { ht with pm := ht.pm.step hb hop }
  | makeSnap => exact hop.elim
  | reset =>
    exact { ht with pm := ht.pm.reset hb }

end Since

/-! ## Reset -/

/-- The path-dependent state. -/
structure PathState where
  nextFreshAddr : I64
  numReceives : ℕ
  numTransmits : ℕ
  transmitPos : ℕ
  receivePos : ℕ
  randomPos : ℕ
  random : RandomState
  unread : ℕ → List (Except Errno OString)

def Handler.pathState (s : Handler) : PathState where
  nextFreshAddr := s.nextFreshAddr
  numReceives := s.numReceives
  numTransmits := s.numTransmits
  transmitPos := s.transmitPos
  receivePos := s.receivePos
  randomPos := s.randomPos
  random := s.generators s.randomness
  unread := s.unread

theorem Same.pathState {o : Options} {s t : Handler} (h : Same o s t) :
    s.pathState = t.pathState := by
  obtain ⟨-, -, -⟩ := h
  rfl

/-- Accesses are watched, what is received is symbolic, and random bytes come
from the generator of the handler. -/
def watched : Options where
  pm := .default
  memoryWatching := true
  symbolicRandom := false
  concolicRandom := false
  oneRandom := true
  symbolicReceive := true
  concolicReceive := false
  maxTransmitBytes := none
  maxReceiveBytes := none
  maxTransmits := none
  maxReceives := none
  errorMsgThreshold := none
  symbolicSyscallError := none
  numFd := 10
  openError _ := none

/-- What the words are before seeds are mixed in. -/
def unseeded : RandomState := ⟨fun i => i, ⟨0, Nat.succ_pos 54⟩⟩

def fresh (stopOnErrorMsgs : List OString) : Handler :=
  .new (fun _ => unseeded) 0 0 stopOnErrorMsgs fun _ => []

theorem fresh_reachable (wild : WildShift) (stopOnErrorMsgs : List OString) :
    Reachable watched wild (fresh stopOnErrorMsgs) := .new _ _ _ _ _

/-- A text is sent, a page is allocated, data are received in it, and it is
given back. -/
def quietOps : List Op :=
  [.call (.transmit 1 0xbaaaa100 (.ofAscii "hello") 0 (.ok 5)) none,
    .call (.allocate 4096 0xbaaaa000) none,
    .call (.receive 0 0x50000000 16 0xbaaaa004) none,
    .call (.deallocate 0x50000000 4096) none]

/-- The bytes that a call stores. -/
def Observation.storedBytes : Observation → List ℕ
  | .call _ effects => effects.filterMap fun
    | .storeByteIdx _ _ v => some v
    | _ => none
  | _ => []

def Observation.raised : Observation → Bool
  | .call (.error _) _ => true
  | _ => false

end Fuzzball.CgcHandler
