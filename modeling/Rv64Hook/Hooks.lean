import Rv64Hook.FirstTrampoline
import Rv64Hook.Relocator

/-! Hook handles, hook infos and the registry of hooked functions. An access to an object that is
not live, an abort and a walk that never ends all give `none`. -/
namespace Rv64Hook
open ByteMem Rv64

structure HookHandleExt where
  address : Word
  backup : Word
  info : Word
  previous : Word
  next : Word
  hook : Word
  preHandler : Word
  postHandler : Word
  data : Word
  userBackupAddr : Word
  enabled : Bool

/-- The data behind the code of a second trampoline, zeroed when it is allocated. -/
structure TrampolineData where
  rootHandle : Word := 0
  hook : Word := 0
  backup : Word := 0
  getspecific : Word := 0
  setspecific : Word := 0
  tlsKey : BitVec 32 := 0
  postHandlers : BitVec 16 := 0
  enabled : Bool := false

structure HookInfo where
  address : Word
  rootHandle : Word
  trampoline : Word
  customFree : Word
  customData : Word
  relocated : Word
  handleCount : BitVec 16
  functionBackupSize : BitVec 8
  functionBackup : List Byte

/-- The array `functionBackup` is not initialised before the first write to it. -/
structure FunctionRecord where
  functionBackup : List Byte
  backupTrampoline : Word := 0
  originalFunctionHash : BitVec 16 := 0
  overwriteSize : ℕ := 0

/-- The code memory: its bytes, the bytes written since the last clear of the instruction cache,
the blocks of `Memory::Alloc` that are in use, and those of the allocator of the user. -/
structure CodeMemory where
  mem : Mem
  stale : Addr → Bool
  blocks : Word → Bool
  userBlocks : Word → Bool

namespace CodeMemory

/-- Bytes written to code. -/
def write (c : CodeMemory) (addr : Addr) (bs : List Byte) : CodeMemory :=
  { c with
    mem := store c.mem addr bs
    stale := fun p => c.stale p || decide (InRange addr bs.length p) }

/-- `__builtin___clear_cache` -/
def clearCache (c : CodeMemory) (addr : Addr) (size : ℕ) : CodeMemory :=
  { c with stale := fun p => c.stale p && !decide (InRange addr size p) }

/-- `Memory::Copy` to code. -/
def copy (writable : Addr → ℕ → Bool) (c : CodeMemory) (addr : Addr) (src : List Byte) :
    Bool × CodeMemory :=
  if writable addr src.length then (true, c.write addr src) else (false, c)

/-- A block returned by `Memory::Alloc`. -/
def alloc (c : CodeMemory) (p : Word) : CodeMemory :=
  { c with blocks := Function.update c.blocks p true }

/-- `Memory::Free` -/
def free (c : CodeMemory) (p : Word) : CodeMemory :=
  { c with blocks := Function.update c.blocks p false }

/-- `RV64Relocator::Relocate`, which installs the block it allocates. -/
def relocate (heaps : ℕ → Option Word) (c : CodeMemory) (address : Word) (size : Int) :
    Except Failure (Relocated × CodeMemory) := do
  let r ← Rv64Hook.relocate heaps c.mem address size
  .ok (r, ((c.alloc r.backup).write r.backup r.block).clearCache r.backup r.block.length)

/-- `Trampoline::WriteFirstTrampoline`; it writes as many bytes as `GetFirstTrampolineSize` says. -/
def writeFirstTrampoline (writable : Addr → ℕ → Bool) (c : CodeMemory) (address target : Word)
    (type : TrampolineType) : Option (Bool × CodeMemory) := do
  let w ← Trampoline.writeFirstTrampoline writable c.mem address target type
  let written := fun p => w.copied &&
    decide (InRange address (Trampoline.getFirstTrampolineSize type) p)
  let c := { c with
    mem := w.mem
    stale := fun p => c.stale p || written p }
  some (w.copied, c.clearCache address w.size)

end CodeMemory

/-- The memory and the live objects of the process: `vars` holds the variables of the user that
`user_backup_addr` points to, `trampolines` the data of the second trampolines, `hooks` the map
`HookInfo::hooks_`, and `records` the map `function_records_`. -/
structure Process extends CodeMemory where
  vars : Word → Word
  handles : Word → Option HookHandleExt
  infos : Word → Option HookInfo
  trampolines : Word → Option TrampolineData
  hooks : Word → Option Word
  records : Word → Option FunctionRecord

/-- What the system gives to one call: the results of its allocations and of its memory accesses,
the code of the second trampoline, what memory holds before it is initialised, and the functions
of the thread library. -/
structure System where
  readable : Bool := true
  writable : Addr → ℕ → Bool := fun _ _ => true
  trampoline : Word := 0
  isUserAlloc : Bool := false
  customFree : Word := 0
  customData : Word := 0
  secondTrampoline : List Byte := []
  heaps : ℕ → Option Word := fun _ => none
  info : Word := 0
  handle : Word := 0
  tlsKey : Option (BitVec 32) := none
  uninitialized : List Byte := []
  pthreadGetspecific : Word
  pthreadSetspecific : Word

structure HookArgs where
  hook : Word := 0
  preHandler : Word := 0
  postHandler : Word := 0
  data : Word := 0
  userBackupAddr : Word := 0

/-- A walk over live objects that takes more steps than there are addresses goes on for ever. -/
def maxObjects : ℕ := 2 ^ 64

namespace Process

/-- Before the first call of the library. -/
def initial (mem : Mem) (vars : Word → Word) : Process where
  mem := mem
  stale := fun _ => false
  blocks := fun _ => false
  userBlocks := fun _ => false
  vars := vars
  handles := fun _ => none
  infos := fun _ => none
  trampolines := fun _ => none
  hooks := fun _ => none
  records := fun _ => none

def setHandle (s : Process) (p : Word) (h : HookHandleExt) : Process :=
  { s with handles := Function.update s.handles p (some h) }

def deleteHandle (s : Process) (p : Word) : Process :=
  { s with handles := Function.update s.handles p none }

def setInfo (s : Process) (p : Word) (info : HookInfo) : Process :=
  { s with infos := Function.update s.infos p (some info) }

def setTrampolineData (s : Process) (p : Word) (td : TrampolineData) : Process :=
  { s with trampolines := Function.update s.trampolines p (some td) }

/-- `*addr = v`, for a variable of the user. -/
def setVar (s : Process) (addr v : Word) : Process :=
  { s with vars := Function.update s.vars addr v }

/-- `if (addr) *addr = v` -/
def setBackupVar (s : Process) (addr v : Word) : Process :=
  if addr ≠ 0 then s.setVar addr v else s

def lookup (s : Process) (func : Word) : Option Word := s.hooks func

/-- `HookInfo::Create`; `emplace` keeps an entry that exists. -/
def create (e : System) (s : Process) (address relocated : Word) (functionBackupSize : BitVec 8) :
    Process :=
  let info : HookInfo :=
    { address := address
      rootHandle := 0
      trampoline := e.trampoline
      customFree := if e.isUserAlloc then e.customFree else 0
      customData := if e.isUserAlloc then e.customData else 0
      relocated := relocated
      handleCount := 0
      functionBackupSize := functionBackupSize
      functionBackup := bytesAt s.mem address functionBackupSize.toNat }
  { s.setInfo e.info info with
    hooks := if (s.hooks address).isSome then s.hooks
      else Function.update s.hooks address (some e.info) }

/-- The constructor of `HookHandleExt`. -/
def newHandle (info address : Word) (args : HookArgs) : HookHandleExt where
  address := address
  backup := 0
  info := info
  previous := 0
  next := 0
  hook := args.hook
  preHandler := args.preHandler
  postHandler := args.postHandler
  data := args.data
  userBackupAddr := args.userBackupAddr
  enabled := true

/-- The loop of `NewHookHandle`: find the last handle, keep the last hook passed on the way in
`backup`, and link the new handle behind it. -/
def appendHandle (new : Word) : ℕ → Word → Word → Process → Option (Process × Word)
  | 0, _, _, _ => none
  | n + 1, handle, backup, s =>
    if handle = 0 then some (s, backup)
    else do
      let h ← s.handles handle
      let backup := if h.hook ≠ 0 then h.hook else backup
      if h.next = 0 then
        let s := s.setHandle handle { h with next := new }
        let newHandle ← s.handles new
        some (s.setHandle new { newHandle with previous := handle }, backup)
      else appendHandle new n h.next backup s

/-- What `NewHookHandle` writes to the trampoline data for the first handle.
`STORE_RETURN_ADDRESS_BY_TLS` is set. -/
def firstData (e : System) (td : TrampolineData) (args : HookArgs) (relocated : Word) :
    TrampolineData :=
  let td := { td with rootHandle := e.handle }
  let td := match e.tlsKey with
    | some key =>
      { td with
        tlsKey := key
        getspecific := e.pthreadGetspecific
        setspecific := e.pthreadSetspecific }
    | none => td
  let td :=
    if args.hook ≠ 0 then { td with hook := args.hook }
    else
      { td with
        backup := relocated
        postHandlers := if args.postHandler ≠ 0 then 1 else td.postHandlers }
  { td with enabled := true }

/-- What it writes for any other handle. -/
def laterData (td : TrampolineData) (args : HookArgs) (backup : Word) : TrampolineData :=
  if args.hook ≠ 0 then
    if td.hook ≠ 0 then { td with hook := args.hook } else { td with backup := args.hook }
  else
    { td with
      hook := 0
      backup := backup
      postHandlers := if args.postHandler ≠ 0 then td.postHandlers + 1 else td.postHandlers }

/-- `HookInfo::NewHookHandle` -/
def newHookHandle (e : System) (s : Process) (this : Word) (args : HookArgs) : Option Process := do
  let info ← s.infos this
  let td ← s.trampolines info.trampoline
  let s := s.setHandle e.handle (newHandle this info.address args)
  let info := { info with handleCount := info.handleCount + 1 }
  let s := s.setInfo this info
  if info.rootHandle ≠ 0 then
    let (s, backup) ← appendHandle e.handle maxObjects info.rootHandle info.relocated s
    let h ← s.handles e.handle
    let s := s.setHandle e.handle { h with backup := backup }
    let s := s.setBackupVar args.userBackupAddr backup
    some (s.setTrampolineData info.trampoline (laterData td args backup))
  else
    let s := s.setInfo this { info with rootHandle := e.handle }
    let h ← s.handles e.handle
    let s := s.setHandle e.handle { h with backup := info.relocated }
    let s := s.setBackupVar args.userBackupAddr info.relocated
    some (s.setTrampolineData info.trampoline (firstData e td args info.relocated))

/-- `HookInfo::Unhook`. The key passed to `hooks_.erase` is the pointer to the info itself. -/
def unhookInfo (e : System) (s : Process) (this : Word) (initialized : Bool) : Option Process := do
  let info ← s.infos this
  let size := info.functionBackupSize.toNat
  let c := if initialized then
      (s.copy e.writable info.address (info.functionBackup.take size)).2.clearCache info.address
        size
    else s.toCodeMemory
  let _ ← s.trampolines info.trampoline
  let c := if info.customFree ≠ 0 then
      { c with userBlocks := Function.update c.userBlocks info.trampoline false }
    else c.free info.trampoline
  some { s with
    toCodeMemory := c.free info.relocated
    trampolines := Function.update s.trampolines info.trampoline none
    hooks := Function.update s.hooks this none }

def setEnabledExt (s : Process) (this : Word) (enabled : Bool) : Option (Bool × Process) := do
  let h ← s.handles this
  some (h.enabled, s.setHandle this { h with enabled := enabled })

def setEnabledAllExt (s : Process) (this : Word) (enabled : Bool) : Option (Bool × Process) := do
  let h ← s.handles this
  if h.info = 0 then some (false, s)
  else
    let info ← s.infos h.info
    let td ← s.trampolines info.trampoline
    some (td.enabled, s.setTrampolineData info.trampoline { td with enabled := enabled })

def updateBackup (s : Process) (this newBackup : Word) : Option Process := do
  let h ← s.handles this
  let (s, h) :=
    if h.userBackupAddr ≠ 0 then
      if s.vars h.userBackupAddr = h.backup then (s.setVar h.userBackupAddr newBackup, h)
      else (s, { h with userBackupAddr := 0 })
    else (s, h)
  some (s.setHandle this { h with backup := newBackup })

/-- The hook of the first handle that has one, from `handle` on along `previous_`. -/
def previousHook (s : Process) : ℕ → Word → Option Word
  | 0, _ => none
  | n + 1, handle =>
    if handle = 0 then some 0
    else do
      let h ← s.handles handle
      if h.hook = 0 then previousHook s n h.previous else some h.hook

/-- Update the backups from `handle` on along `next_`, up to the first handle with a hook. -/
def updateBackups (newBackup : Word) : ℕ → Word → Process → Option Process
  | 0, _, _ => none
  | n + 1, handle, s =>
    if handle = 0 then some s
    else do
      let s ← s.updateBackup handle newBackup
      let h ← s.handles handle
      if h.hook ≠ 0 then some s else updateBackups newBackup n h.next s

/-- `if (previous_) previous_->next_ = next_` -/
def relinkPrevious (s : Process) (previous next : Word) : Option Process :=
  if previous ≠ 0 then do
    let h ← s.handles previous
    some (s.setHandle previous { h with next := next })
  else some s

/-- What `UnhookExt` writes to the trampoline data. -/
def unhookData (td : TrampolineData) (h : HookHandleExt) (isRoot : Bool)
    (previousHook newBackup : Word) : TrampolineData :=
  let td := { td with
    postHandlers := if h.postHandler ≠ 0 then td.postHandlers - 1 else td.postHandlers
    rootHandle := if isRoot then h.next else td.rootHandle }
  if h.hook ≠ 0 then
    { td with
      hook := if td.hook = h.hook then previousHook else td.hook
      backup := if td.backup = h.hook then newBackup else td.backup }
  else td

def unhookExt (e : System) (s : Process) (this : Word) : Option (Bool × Process) := do
  let h ← s.handles this
  if h.info = 0 then some (false, s)
  else
    let info ← s.infos h.info
    if info.handleCount = 1 then
      let s ← unhookInfo e (s.deleteHandle this) h.info true
      some (true, s)
    else
      let td ← s.trampolines info.trampoline
      let isRoot := info.rootHandle = this
      let s := s.setInfo h.info { info with
        handleCount := info.handleCount - 1
        rootHandle := if isRoot then h.next else info.rootHandle }
      let previous ← previousHook s maxObjects h.previous
      let newBackup := if previous ≠ 0 then previous else info.relocated
      let s ← updateBackups newBackup maxObjects h.next s
      let s := s.setTrampolineData info.trampoline (unhookData td h isRoot previous newBackup)
      let s ← relinkPrevious s h.previous h.next
      some (true, s.deleteHandle this)

/-- The loop of `UnhookAllExt`. -/
def deleteHandles : ℕ → Word → Process → Option Process
  | 0, _, _ => none
  | n + 1, handle, s => do
    let h ← s.handles handle
    let s := s.deleteHandle handle
    if h.next = 0 then some s else deleteHandles n h.next s

def unhookAllExt (e : System) (s : Process) (this : Word) : Option (Bool × Process) := do
  let h ← s.handles this
  if h.info = 0 then some (false, s)
  else
    let info ← s.infos h.info
    let s ← deleteHandles maxObjects info.rootHandle s
    let s ← unhookInfo e s h.info true
    some (true, s)

end Process

/-! ### The interface of the library -/

/-- The handle that a call returns, or null with the error that it sets itself. -/
abbrev HookResult := Except (Option String) Word

open Process Trampoline

/-- `Trampoline::AllocSecondTrampoline`, when it has found room. -/
def allocSecondTrampoline (e : System) (s : Process) : Process :=
  let c := if e.isUserAlloc then
      { s.toCodeMemory with userBlocks := Function.update s.userBlocks e.trampoline true }
    else s.alloc e.trampoline
  let c := (c.write e.trampoline e.secondTrampoline).clearCache e.trampoline
    e.secondTrampoline.length
  { s with
    toCodeMemory := c
    trampolines := Function.update s.trampolines e.trampoline (some {}) }

/-- `DoHook`, which holds the lock during the whole call. -/
def doHook (e : System) (s : Process) (address : Word) (args : HookArgs) :
    Option (HookResult × Process) :=
  match s.lookup address with
  | some this => do
    let info ← s.infos this
    if info.handleCount = 0xffff then some (.error (some "Too many hooks"), s)
    else
      let s ← newHookHandle e s this args
      some (.ok e.handle, s)
  | none =>
    if !e.readable then some (.error (some "Function is not readable"), s)
    else if e.trampoline = 0 then some (.error none, s)
    else
      let s := allocSecondTrampoline e s
      let type := getSuggestedTrampolineType address e.trampoline
      match s.relocate e.heaps address (getFirstTrampolineSize type) with
      | .error .abort => none
      | .error .refused => some (.error none, s)
      | .ok (r, c) =>
        let s := { s with toCodeMemory := c }
        if r.overwriteSize = 0 then some (.error none, s)
        else do
          let s := create e s address r.backup (BitVec.ofNat 8 r.overwriteSize)
          let (copied, c) ← s.writeFirstTrampoline e.writable address e.trampoline type
          let s := { s with toCodeMemory := c }
          if copied then
            let s ← newHookHandle e s e.info args
            some (.ok e.handle, s)
          else
            let s ← unhookInfo e s e.info false
            some (.error (some "Function is not writable"), s)

def inlineHook (e : System) (s : Process) (address hook backup : Word) :
    Option (HookResult × Process) :=
  if address = 0 ∨ hook = 0 then some (.error (some "Invalid argument"), s)
  else doHook e s address { hook := hook, userBackupAddr := backup }

def inlineInstrument (e : System) (s : Process)
    (address preHandler postHandler data backup : Word) : Option (HookResult × Process) :=
  if address = 0 ∨ (preHandler = 0 ∧ postHandler = 0) then
    some (.error (some "Invalid argument"), s)
  else if address = e.pthreadGetspecific ∨ address = e.pthreadSetspecific then
    some (.error (some "Unsupported function"), s)
  else
    doHook e s address
      { preHandler := preHandler
        postHandler := postHandler
        data := data
        userBackupAddr := backup }

namespace FunctionRecord

/-- `ComputeHash`, on `int16_t` and signed bytes. -/
def computeHash (bytes : List Byte) : BitVec 16 :=
  bytes.foldl (fun hash b => 31 * hash + b.signExtend 16) 17

def isModified (record : FunctionRecord) (m : Mem) (address : Word) : Bool :=
  computeHash (bytesAt m address record.overwriteSize) ≠ record.originalFunctionHash

/-- `FunctionRecord::WriteTrampoline`; `backup` is null or a variable of the user. -/
def writeTrampoline (e : System) (s : Process) (record : FunctionRecord)
    (address hook backup : Word) :
    Option (Except (Option String) ℕ × FunctionRecord × Process) :=
  let s := if record.backupTrampoline ≠ 0 then
      { s with toCodeMemory := s.free record.backupTrampoline }
    else s
  let type := getSuggestedTrampolineType address hook
  let overwriteSize := getFirstTrampolineSize type
  let record := { record with
    backupTrampoline := 0
    overwriteSize := overwriteSize }
  if !e.readable then some (.error (some "Function is not readable"), record, s)
  else
    let bytes := bytesAt s.mem address overwriteSize
    let record := { record with
      functionBackup := bytes ++ record.functionBackup.drop overwriteSize
      originalFunctionHash := computeHash bytes }
    let write (record : FunctionRecord) (s : Process) :
        Option (Except (Option String) ℕ × FunctionRecord × Process) := do
      let (copied, c) ← s.writeFirstTrampoline e.writable address hook type
      let s := { s with toCodeMemory := c }
      if copied then some (.ok overwriteSize, record, s)
      else some (.error (some "Function is not writable"), record, s)
    if backup ≠ 0 then
      match s.relocate e.heaps address overwriteSize with
      | .error .abort => none
      | .error .refused => some (.error none, record, s)
      | .ok (r, c) =>
        let s := ({ s with toCodeMemory := c } : Process).setVar backup r.backup
        if r.overwriteSize = 0 then some (.error none, record, s)
        else write { record with backupTrampoline := r.backup } s
    else write record s

/-- `FunctionRecord::Unhook` -/
def unhook (e : System) (s : Process) (record : FunctionRecord) (address : Word) : Process :=
  let c := (s.copy e.writable address (record.functionBackup.take record.overwriteSize)).2
  { s with
    toCodeMemory :=
      if record.backupTrampoline ≠ 0 then c.free record.backupTrampoline else c }

end FunctionRecord

def inlineUnhook (e : System) (s : Process) (address : Word) : Option (Bool × Process) :=
  if address = 0 then some (false, s)
  else
    let records : Option (Bool × Process) := match s.records address with
      | some record =>
        let s := record.unhook e s address
        some (true, { s with records := Function.update s.records address none })
      | none => some (false, s)
    match s.lookup address with
    | some this => do
      let info ← s.infos this
      if info.rootHandle ≠ 0 then
        let (_, s) ← unhookAllExt e s info.rootHandle
        some (true, s)
      else records
    | none => records

/-- `WriteTrampoline`: the size of the trampoline, or zero with the error that is set. -/
def writeTrampoline (e : System) (s : Process) (address hook backup : Word) :
    Option (Except (Option String) ℕ × Process) :=
  if address = 0 ∨ hook = 0 then some (.error (some "Invalid argument"), s)
  else
    match s.records address with
    | some record =>
      if !record.isModified s.mem address then some (.error (some "Too many hooks"), s)
      else do
        let (r, record, s) ← record.writeTrampoline e s address hook backup
        some (r, { s with records := Function.update s.records address (some record) })
    | none => do
      let (r, record, s) ← FunctionRecord.writeTrampoline e s
        { functionBackup := e.uninitialized } address hook backup
      some (r, { s with records := Function.update s.records address (some record) })

end Rv64Hook
