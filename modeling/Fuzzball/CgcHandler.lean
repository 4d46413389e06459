import Fuzzball.PointerSnapshot
import Fuzzball.StatefulBisimulation

/-!
# The handler of CGC system calls

`cgcos_special_handler` of `cgc_syscalls.ml`, on X86 and after the machine has
started its symbolic part.  What a call reads from the machine and from the
operating system comes with the call, and the machine may raise at any of the
effects that the call has on it.  Traces and logs are left out.
-/

namespace Fuzzball.CgcHandler

open PointerManagement (Manager PmExn)
open IntervalTree (Provenance)

/-! ## Pseudo-random numbers -/

/-- `Random.State.t`: words of 30 bits and an index. -/
structure RandomState where
  st : Fin 55 → ℕ
  idx : Fin 55

/-- `Random.State.bits` -/
def RandomState.bits (s : RandomState) : ℕ × RandomState :=
  let idx := s.idx + 1
  let curval := s.st idx
  let newval := s.st (idx + 24) + (curval ^^^ (curval >>> 25 &&& 0x1f))
  let newval30 := newval &&& 0x3fffffff
  (newval30, ⟨Function.update s.st idx newval30, idx⟩)

/-- The two generators the handler is created with. -/
inductive RandomRef
  | randomness
  | savedRandomness
  deriving DecidableEq, Repr

/-! ## The handler -/

inductive Errno
  | ebadf
  | efault
  | einval
  | enomem
  | enosys
  | epipe
  | eunknownerr
  | other
  deriving DecidableEq, Repr

def errno : Errno → I64
  | .ebadf => 1
  | .efault => 2
  | .einval => 3
  | .enomem => 4
  | .enosys => 5
  | .epipe => 6
  | .eunknownerr => 3
  | .other => 3

/-- The options, and why the file of a descriptor cannot be opened. -/
structure Options where
  pm : PointerManagement.Options
  memoryWatching : Bool
  symbolicRandom : Bool
  concolicRandom : Bool
  oneRandom : Bool
  symbolicReceive : Bool
  concolicReceive : Bool
  maxTransmitBytes : Option ℤ
  maxReceiveBytes : Option ℤ
  maxTransmits : Option ℤ
  maxReceives : Option ℤ
  errorMsgThreshold : Option ℤ
  symbolicSyscallError : Option I64
  numFd : ℤ
  openError : ℕ → Option Errno

structure Handler where
  /-- The descriptors that are open, by their virtual numbers. -/
  unixFds : ℕ → Bool
  checkBuf : OString
  lastStringWritten : OString
  possibleErrorStrTable : OString → ℤ
  /-- The global `opt_stop_on_error_msgs`. -/
  stopOnErrorMsgs : List OString
  nextFreshAddr : I64
  pm : Manager
  savedNextFreshAddr : I64
  numReceives : ℕ
  savedNumReceives : ℕ
  numTransmits : ℕ
  savedNumTransmits : ℕ
  transmitPos : ℕ
  savedTransmitPos : ℕ
  receivePos : ℕ
  savedReceivePos : ℕ
  randomPos : ℕ
  savedRandomPos : ℕ
  generators : RandomRef → RandomState
  randomness : RandomRef
  savedRandomness : RandomRef
  /-- What the next reads of a descriptor find, in the operating system. -/
  unread : ℕ → List (Except Errno OString)

/-- A new handler, from the function `Random.State.make`. -/
def Handler.new (make : List ℤ → RandomState) (randomSeed weirdCount : ℤ)
    (stopOnErrorMsgs : List OString)
    (unread : ℕ → List (Except Errno OString)) : Handler where
  unixFds n := n = 0 || n = 1
  checkBuf := []
  lastStringWritten := []
  possibleErrorStrTable _ := 0
  stopOnErrorMsgs := stopOnErrorMsgs
  nextFreshAddr := 0x50000000
  pm := .new weirdCount
  savedNextFreshAddr := 0
  numReceives := 0
  savedNumReceives := 0
  numTransmits := 0
  savedNumTransmits := 0
  transmitPos := 0
  savedTransmitPos := 0
  receivePos := 0
  savedReceivePos := 0
  randomPos := 0
  savedRandomPos := 0
  generators
    | .randomness => make [randomSeed, 1]
    | .savedRandomness => make [0]
  randomness := .randomness
  savedRandomness := .savedRandomness
  unread := unread

/-! ## Effects -/

inductive SysExn
  | unix (err : Errno)
  | deepPath
  | sentErrorMessage (pat : OString)
  | simulatedExit (status : I64)
  | pm (x : PmExn)
  | symbolicSyscall
  /-- An exception of the machine, `NotConcrete` or another one. -/
  | machine (notConcrete : Bool)
  deriving DecidableEq, Repr

inductive Effect
  /-- The registers and the buffers of the arguments are read. -/
  | readArguments
  | storeWord (prov : Provenance) (addr v : I64)
  | storeByteIdx (base : I64) (idx v : ℕ)
  | storeStr (base off : I64) (str : OString)
  | populateSymbolicRegion (prov : Provenance) (name : String) (pos : ℕ)
      (base : I64) (len : ℕ)
  | populateConcolicString (prov : Provenance) (name : String) (pos : ℕ)
      (base : I64) (str : OString)
  | putReturn (v : I64)
  /-- The four details of an event about data that are sent on. -/
  | protocolHint (subtag : String) (start stop : I64)
  | write (fd : ℕ) (str : OString)
  | report (r : PointerManagement.Report)

/-- A call under way: its effects so far, and how many more the machine takes
before it raises. -/
structure Turn where
  handler : Handler
  effects : List Effect
  patience : Option ℕ
  notConcrete : Bool

abbrev Sys (α : Type) := Stateful SysExn Turn α

def look {α : Type} (f : Handler → α) : Sys α :=
  Stateful.gets fun t => f t.handler

def update (f : Handler → Handler) : Sys Unit :=
  modify fun t => { t with handler := f t.handler }

def emit (e : Effect) : Sys Unit := do
  let patience ← Stateful.gets Turn.patience
  if patience = some 0 then
    let notConcrete ← Stateful.gets Turn.notConcrete
    throw (.machine notConcrete)
  else
    modify fun t => { t with
      effects := t.effects ++ [e]
      patience := t.patience.map (· - 1) }

theorem run_look_bind {α β : Type} (f : Handler → α) (g : α → Sys β)
    (t : Turn) : (look f >>= g).run t = (g (f t.handler)).run t := rfl

theorem run_update (f : Handler → Handler) (t : Turn) :
    (update f).run t = (.ok (), { t with handler := f t.handler }) := rfl

theorem run_update_bind {β : Type} (f : Handler → Handler) (g : Unit → Sys β)
    (t : Turn) :
    (update f >>= g).run t = (g ()).run { t with handler := f t.handler } := rfl

def putReturn (v : I64) : Sys Unit := emit (.putReturn v)

def putErrno (err : Errno) : Sys Unit := putReturn (errno err)

/-- `try … with Unix.Unix_error(err, _, _) -> self#put_errno err` -/
def catchUnix (x : Sys Unit) : Sys Unit :=
  tryCatch x fun
    | .unix err => putErrno err
    | e => throw e

def storeWord (prov : Provenance) (base : I64) (idx : ℕ) (v : I64) :
    Sys Unit :=
  emit (.storeWord prov (base + I64.ofInt idx) v)

/-- A method of the object `pm`. -/
def callPm {α : Type} (f : Manager → PointerManagement.Result α) : Sys α := do
  let r ← look fun h => f h.pm
  modify fun t => { t with
    handler := { t.handler with pm := r.manager }
    effects := t.effects ++ r.reports.map .report }
  match r.answer with
  | .ok a => pure a
  | .error x => throw (.pm x)

theorem run_callPm {α : Type} (f : Manager → PointerManagement.Result α)
    (t : Turn) :
    (callPm f).run t =
      ((f t.handler.pm).answer.mapError .pm,
        { t with
          handler := { t.handler with pm := (f t.handler.pm).manager }
          effects := t.effects ++ (f t.handler.pm).reports.map .report }) := by
  unfold callPm
  rw [run_look_bind,
    Stateful.run_bind_ok (Stateful.run_modify _ t)]
  cases (f t.handler.pm).answer <;> rfl

section Source

variable (o : Options)

def gAssert (assertion : Bool) (sawAt : String) : Sys Unit :=
  callPm fun s =>
    PointerManagement.gAssert o.pm s assertion sawAt fun s => ⟨.ok (), [], s⟩

def zeroRegion (base : I64) (len : ℤ) : Sys Unit := do
  gAssert o (0 ≤ len ∧ len ≤ 0x20000000) "cgc_syscalls.zero_region"
  (List.range len.toNat).forM fun i => emit (.storeByteIdx base i 0)

/-! ## Descriptors -/

def getFd (vtFd : ℕ) : Sys ℕ := do
  if 1024 ≤ vtFd then throw (.unix .ebadf)
  else if ← look fun h => h.unixFds vtFd then pure vtFd
  else if o.numFd < vtFd then throw (.unix .ebadf)
  else match o.openError vtFd with
    | some err => throw (.unix err)
    | none =>
      update fun h => { h with unixFds := Function.update h.unixFds vtFd true }
      pure vtFd

/-- `Unix.read` -/
def unixRead (fd count : ℕ) : Sys OString := do
  match ← look fun h => h.unread fd with
  | [] => pure []
  | .error err :: _ => throw (.unix err)
  | .ok bytes :: rest =>
    if count = 0 then pure []
    else
      let unread :=
        if bytes.length ≤ count then rest else .ok (bytes.drop count) :: rest
      update fun h => { h with unread := Function.update h.unread fd unread }
      pure (bytes.take count)

/-! ## Transmitting -/

/-- `strstr`: the rest of a string from where the other one first occurs. -/
def strstr (big little : OString) : Option OString :=
  ((List.range (big.length + 1 - little.length)).find? fun i =>
    (big.drop i).take little.length = little).map big.drop

/-- As much of the end of the string as the longest pattern is long. -/
def lastPart (pats : List OString) (fullStr : OString) : OString :=
  let checkSz := pats.foldl
    (fun max s => let l := s.length; if max < l then l else max) 0
  let fullLen := fullStr.length
  let trimSz := if fullLen < checkSz then fullLen else checkSz
  fullStr.drop (fullLen - trimSz)

def lookFor (fullStr pat : OString) : Sys Unit :=
  match strstr fullStr pat with
  | some _ => throw (.sentErrorMessage pat)
  | none => pure ()

def checkMsgs (str : OString) : Sys Unit := do
  let pats ← look Handler.stopOnErrorMsgs
  let checkBuf ← look Handler.checkBuf
  let fullStr := checkBuf ++ str
  pats.forM (lookFor fullStr)
  update fun h => { h with checkBuf := lastPart pats fullStr }

def countRepeats : Sys Unit := do
  let str ← look Handler.lastStringWritten
  let count ← look fun h => h.possibleErrorStrTable str
  match o.errorMsgThreshold with
  | some m =>
    update fun h => { h with
      possibleErrorStrTable :=
        Function.update h.possibleErrorStrTable str (count + 1) }
    Stateful.when (count = m)
      (update fun h =>
        { h with stopOnErrorMsgs := h.stopOnErrorMsgs ++ [str] })
  | none => pure ()

/-- `raise DeepPath` when there is a bound and the test of it succeeds. -/
def checkDepth (bound : Option ℤ) (test : ℤ → Bool) : Sys Unit :=
  match bound with
  | some m => if test m then throw .deepPath else pure ()
  | none => pure ()

/-- `success` keeps the string and looks for messages in it. -/
def remember (str : OString) : Sys Unit := do
  let pats ← look Handler.stopOnErrorMsgs
  Stateful.when (pats ≠ [])
    (update fun h => { h with lastStringWritten := str })
  checkMsgs str

def success (str : OString) (txBytes : I64) (numBytes : ℕ) : Sys Unit := do
  Stateful.when (txBytes ≠ 0)
    (storeWord .internal txBytes 0 (I64.ofInt numBytes))
  update fun h => { h with transmitPos := h.transmitPos + numBytes }
  remember str
  let transmitPos ← look Handler.transmitPos
  checkDepth o.maxTransmitBytes fun max => max < transmitPos
  putReturn 0

/-- `do_write`, with what `Unix.write` answers. -/
def doWrite (fd : ℕ) (str : OString) (txBytes : I64)
    (written : Except Errno ℕ) : Sys Unit :=
  catchUnix do
    if fd = 1 ∨ fd = 2 then
      emit (.write fd str)
      success o str txBytes str.length
    else
      let ufd ← getFd o fd
      match written with
      | .error err => throw (.unix err)
      | .ok i =>
        emit (.write ufd (str.take i))
        if i = str.length then success o str txBytes str.length
        else throw (.unix .other)

/-- What is sent to descriptor 0 goes to descriptor 1. -/
def sink (fd : ℕ) : ℕ := if fd = 0 then 1 else fd

def cgcosTransmit (fd : ℕ) (str : OString) (txBytes : I64)
    (written : Except Errno ℕ) : Sys Unit := do
  let numTransmits ← look Handler.numTransmits
  checkDepth o.maxTransmits fun m => m ≤ numTransmits
  update fun h => { h with numTransmits := h.numTransmits + 1 }
  doWrite o (sink fd) str txBytes written

/-- The provenance of what is sent. -/
def readProv (buf len : I64) : Sys Provenance :=
  if o.memoryWatching then
    callPm fun s => PointerManagement.findReadProv s buf len
  else pure .internal

/-- The hint about the provenance. -/
def hintAt (buf len : I64) : Provenance → Sys Unit
  | .external => emit (.protocolHint ":echoed-external" buf (buf + len))
  | .random => emit (.protocolHint ":sent-random" buf (buf + len))
  | _ => pure ()

/-! ## Receiving -/

/-- `Sys.max_string_length` on a 64-bit host. -/
def maxStringLength : ℕ := 144115188075855863

def stringCreate (len : ℕ) : Sys Unit :=
  if maxStringLength < len then throw (.unix .efault) else pure ()

/-- What `read_throw` computes as `num_read`. -/
def numRead (ocFd : ℕ) (buf : I64) (count : ℕ) : Sys ℕ := do
  let receivePos ← look Handler.receivePos
  if o.symbolicReceive then
    emit (.populateSymbolicRegion .external "input0" receivePos buf count)
    pure count
  else
    let readStr ← unixRead ocFd count
    emit (if o.concolicReceive then
      .populateConcolicString .external "input0" receivePos buf readStr
      else .storeStr buf 0 readStr)
    pure readStr.length

def readThrow (fd : ℕ) (buf : I64) (count : ℕ) (numBytesP : I64) :
    Sys Unit := do
  stringCreate count
  let ocFd ← getFd o fd
  let numRead ← numRead o ocFd buf count
  storeWord .external numBytesP 0 (I64.ofInt numRead)
  update fun h => { h with receivePos := h.receivePos + numRead }
  let receivePos ← look Handler.receivePos
  checkDepth o.maxReceiveBytes fun max => max < receivePos
  putReturn 0

/-- What is received from descriptor 1 comes from descriptor 0. -/
def source (fd : ℕ) : ℕ := if fd = 1 then 0 else fd

def cgcosReceive (fd : ℕ) (buf : I64) (count : ℕ) (numBytesP : I64) :
    Sys Unit := do
  let numReceives ← look Handler.numReceives
  checkDepth o.maxReceives fun m => m ≤ numReceives
  update fun h => { h with numReceives := h.numReceives + 1 }
  catchUnix (readThrow o (source fd) buf count numBytesP)

/-! ## Memory -/

def freshAddr (size : I64) : Sys I64 := do
  let ret ← look Handler.nextFreshAddr
  update fun h => { h with
    nextFreshAddr := 0xfffffffffffff000 &&& (h.nextFreshAddr + size + 0xfff) }
  pure ret

/-- The length rounded up to whole pages. -/
def padded (unpaddedLength : I64) : I64 :=
  unpaddedLength + (-unpaddedLength &&& 4095)

def cgcosAllocate (unpaddedLength addrP : I64) : Sys Unit := do
  let length := padded unpaddedLength
  let fresh ← freshAddr length
  Stateful.when o.memoryWatching
    (callPm fun s => PointerManagement.addAlloc o.pm s fresh length)
  zeroRegion o fresh length.toOCamlInt
  storeWord .internal addrP 0 fresh
  putReturn 0

def cgcosDeallocate (addr len : I64) : Sys Unit := do
  Stateful.when o.memoryWatching
    (callPm fun s => PointerManagement.addDealloc o.pm s addr len)
  putReturn 0

/-! ## Waiting -/

variable (wild : WildShift)

/-- `write_bitmap`, with the words that it loads. -/
def writeBitmap (fdBm : I64) (fdL : List ℕ) (nfds : ℕ) (loaded : ℕ → I64) :
    Sys Unit := do
  zeroRegion o fdBm nfds
  (List.range nfds).forM fun i => do
    let fd ← getFd o i
    let fdLsh := I64.shiftLeft wild 1 i
    Stateful.when (fd ∈ fdL)
      (storeWord .internal fdBm (i / 32 * 4) (fdLsh ||| loaded i))

/-- `cgcos_fdwait`, with the descriptors of the bitmaps, what `Unix.select`
answers, and the words loaded from the bitmaps. -/
def cgcosFdwait (nfds : ℕ) (readfds writefds readyCntP : I64)
    (rl wl : List ℕ) (selected : Except Errno (List ℕ × List ℕ))
    (loaded : I64 → ℕ → I64) : Sys Unit :=
  catchUnix do
    let _ ← rl.mapM (getFd o)
    let _ ← wl.mapM (getFd o)
    match selected with
    | .error err => throw (.unix err)
    | .ok (rFds, wFds) =>
      Stateful.when (readfds ≠ 0)
        (writeBitmap o wild readfds rFds nfds (loaded readfds))
      Stateful.when (writefds ≠ 0)
        (writeBitmap o wild writefds wFds nfds (loaded writefds))
      storeWord .internal readyCntP 0 (I64.ofInt (rFds.length + wFds.length))
      putReturn 0

/-! ## Random bytes -/

/-- `Random.State.bits randomness` -/
def drawBits : Sys ℕ := do
  let drawn ← look fun h => (h.generators h.randomness).bits
  update fun h =>
    { h with generators := Function.update h.generators h.randomness drawn.2 }
  pure drawn.1

/-- A byte that is neither symbolic nor concolic, from one generator or the
other. -/
def randomByte (words : ℕ → I64) (i : ℕ) : Sys ℕ :=
  if o.oneRandom then do
    let bits ← drawBits
    pure (bits &&& 255)
  else pure (words i &&& 0xff).toNat

/-- `cgcos_random`, with the words of the machine's own generator. -/
def cgcosRandom (buf : I64) (count : ℕ) (countOutP : I64) (words : ℕ → I64) :
    Sys Unit := do
  let randomPos ← look Handler.randomPos
  if o.symbolicRandom then
    emit (.populateSymbolicRegion .random "random" randomPos buf count)
    update fun h => { h with randomPos := h.randomPos + count }
  else if o.concolicRandom then
    let rChars ← (List.range count).mapM fun _ => do
      let bits ← drawBits
      pure (UInt8.ofNat (bits &&& 255))
    emit (.populateConcolicString .random "random" randomPos buf rChars)
    update fun h => { h with randomPos := h.randomPos + count }
  else
    (List.range count).forM fun i => do
      let byte ← randomByte o words i
      emit (.storeByteIdx buf i byte)
  storeWord .random countOutP 0 (I64.ofInt count)
  putReturn 0

/-! ## Calls -/

def cgcosTerminate (status : I64) : Sys Unit := do
  countRepeats o
  throw (.simulatedExit status)

/-- The system calls with the arguments from the registers, and with what they
read elsewhere. -/
inductive Call
  | nosys
  | terminate (status : BitVec 32)
  | transmit (fd buf : BitVec 32) (bytes : OString) (txBytes : BitVec 32)
      (written : Except Errno ℕ)
  | receive (fd buf count numBytesP : BitVec 32)
  | fdwait (nfds readfds writefds readyCntP : BitVec 32) (rl wl : List ℕ)
      (selected : Except Errno (List ℕ × List ℕ)) (loaded : I64 → ℕ → I64)
  | allocate (len addrP : BitVec 32)
  | deallocate (addr len : BitVec 32)
  | random (buf count countOutP : BitVec 32) (words : ℕ → I64)

def handleCgcosSyscall (c : Call) : Sys Unit := do
  emit .readArguments
  match c with
  | .nosys => putErrno .enosys
  | .terminate status => cgcosTerminate o (status.setWidth 64)
  | .transmit fd buf bytes txBytes written =>
    let len := I64.ofInt bytes.length
    let prov ← readProv o (buf.setWidth 64) len
    hintAt (buf.setWidth 64) len prov
    cgcosTransmit o fd.toNat bytes (txBytes.setWidth 64) written
  | .receive fd buf count numBytesP =>
    cgcosReceive o fd.toNat (buf.setWidth 64) count.toNat
      (numBytesP.setWidth 64)
  | .fdwait nfds readfds writefds readyCntP rl wl selected loaded =>
    cgcosFdwait o wild nfds.toNat (readfds.setWidth 64) (writefds.setWidth 64)
      (readyCntP.setWidth 64) rl wl selected loaded
  | .allocate len addrP =>
    cgcosAllocate o (len.setWidth 64) (addrP.setWidth 64)
  | .deallocate addr len =>
    cgcosDeallocate o (addr.setWidth 64) (len.setWidth 64)
  | .random buf count countOutP words =>
    cgcosRandom o (buf.setWidth 64) count.toNat (countOutP.setWidth 64) words

/-- `handle_catch` of `handle_special`. -/
def handleSpecial (c : Call) : Sys Unit :=
  tryCatch (handleCgcosSyscall o wild c) fun
    | .machine true =>
      match o.symbolicSyscallError with
      | some errno => do
        modify fun t => { t with patience := none }
        putReturn errno
      | none => throw .symbolicSyscall
    | e => throw e

end Source

/-! ## Snapshots -/

def makeSnap (s : Handler) : Handler :=
  { s with
    savedNextFreshAddr := s.nextFreshAddr
    pm := PointerManagement.makeSnap s.pm
    savedNumReceives := s.numReceives
    savedNumTransmits := s.numTransmits
    savedTransmitPos := s.transmitPos
    savedReceivePos := s.receivePos
    savedRandomPos := s.randomPos
    savedRandomness := s.randomness }

def reset (s : Handler) : Handler :=
  { s with
    nextFreshAddr := s.savedNextFreshAddr
    pm := PointerManagement.reset s.pm
    numReceives := s.savedNumReceives
    numTransmits := s.savedNumTransmits
    transmitPos := s.savedTransmitPos
    receivePos := s.savedReceivePos
    randomPos := s.savedRandomPos
    randomness := s.savedRandomness }

/-! ## Runs -/

/-- When the machine raises in a call, and what. -/
structure Fault where
  after : ℕ
  notConcrete : Bool

inductive Op
  | call (c : Call) (fault : Option Fault)
  /-- An access of the program, which pointer management looks at. -/
  | access (op : PointerManagement.Op)
  | makeSnap
  | reset

inductive Observation
  | call (answer : Except SysExn Unit) (effects : List Effect)
  | access (x : PointerManagement.Observation)
  | done

def Turn.start (s : Handler) (fault : Option Fault) : Turn :=
  ⟨s, [], fault.map Fault.after, (fault.map Fault.notConcrete).getD false⟩

def step (o : Options) (wild : WildShift) (s : Handler) :
    Op → Observation × Handler
  | .call c fault =>
    let r := (handleSpecial o wild c).run (.start s fault)
    (.call r.1 r.2.effects, r.2.handler)
  | .access op =>
    let r := PointerManagement.step o.pm s.pm op
    (.access r.1, { s with pm := r.2 })
  | .makeSnap => (.done, makeSnap s)
  | .reset => (.done, reset s)

end Fuzzball.CgcHandler
