import Xv6.KernelParameters
import Xv6.SleepWakeupMonitors
import Mathlib.Data.List.FinRange

/-!
# The virtio disk driver

`virtio_disk_rw` and `virtio_disk_intr` of `virtio_disk.c` as a monitor guarded by `vdisk_lock`,
beside the device. The device takes chain heads from the avail ring in order, reads the chain,
performs outstanding requests in any order and appends them to the used ring. Callers hold the
lock of their buffer. Contents of blocks are left out.
-/

namespace Xv6.Virtio
open SleepWakeupMonitors Function

def num : ℕ := 8

instance : NeZero num := ⟨by decide⟩

def vringDescFNext : UInt16 := 1

def vringDescFWrite : UInt16 := 2

variable {B : Type}

/-- What a descriptor's `addr` points to. -/
inductive Addr (B : Type) where
  | null
  /-- `&disk.ops[i]` -/
  | op (i : Fin num)
  /-- `b->data` -/
  | data (b : B)
  /-- `&disk.info[i].status` -/
  | status (i : Fin num)
  deriving DecidableEq

structure Desc (B : Type) where
  addr : Addr B
  len : ℕ
  flags : UInt16
  next : ℕ

/-- The struct `virtio_blk_req`; `out` for the type `VIRTIO_BLK_T_OUT`. -/
structure BlkReq where
  out : Bool
  sector : UInt64

structure Info (B : Type) where
  b : Option B
  status : UInt8

/-- A request as the device sees it: its number, the head of its chain, the buffer and the
direction of the transfer, the sector, and where the status goes. -/
structure Ticket (B : Type) where
  serial : ℕ
  head : ℕ
  buf : B
  out : Bool
  sector : UInt64
  status : Fin num
  deriving DecidableEq

/-- The state of the device: how far it has looked in the avail ring, how many requests it has
taken, those it has not performed, and those it has not yet put into the used ring. -/
structure Device (B : Type) where
  seen : UInt16
  taken : ℕ
  outstanding : List (Ticket B)
  finished : List (Ticket B)

/-- The struct `disk`, the flags `b->disk`, which buffers are locked by a caller, the device, and
the history: the requests that were made visible, those that were performed, and which of
them the entries of the used ring belong to. -/
structure Shared (B : Type) where
  desc : Fin num → Desc B
  availIdx : UInt16
  availRing : Fin num → ℕ
  usedRingIdx : UInt16
  usedRing : Fin num → ℕ
  free : Fin num → Bool
  usedIdx : UInt16
  info : Fin num → Info B
  ops : Fin num → BlkReq
  disk : B → Bool
  locked : B → Bool
  device : Device B
  submitted : List (Ticket B)
  performed : List (Ticket B)
  posted : List (Ticket B)
  handled : Option (Ticket B)

structure Request (B : Type) where
  buf : B
  blockno : UInt32
  write : Bool

/-- The `sector` of `virtio_disk_rw`, computed in 32 bits. -/
def Request.sector (r : Request B) : UInt64 := (r.blockno * UInt32.ofNat (bSize / 512)).toUInt64

def Request.ticket (r : Request B) (serial : ℕ) (i : Fin num) : Ticket B :=
  ⟨serial, i, r.buf, r.write, r.sector, i⟩

inductive Control (B : Type) where
  | idle
  | device
  /-- in front of the `acquire` of `virtio_disk_rw` -/
  | rw (r : Request B)
  /-- the head of the loop that allocates -/
  | retry (r : Request B)
  /-- in `alloc3_desc`, which began with `old` as `free` and has got `idx` -/
  | alloc3 (r : Request B) (old : Fin num → Bool) (idx : List (Fin num))
  /-- the loop of `alloc3_desc` that gives descriptors back -/
  | undo (r : Request B) (old : Fin num → Bool) (idx : List (Fin num))
  /-- `alloc3_desc` has failed -/
  | full (r : Request B) (old : Fin num → Bool)
  | format (r : Request B) (i j k : Fin num)
  /-- in front of the store to `avail->ring` -/
  | ring (r : Request B) (serial : ℕ) (i j k : Fin num)
  /-- in front of `avail->idx += 1` -/
  | publish (r : Request B) (serial : ℕ) (i j k : Fin num)
  /-- the head of the loop that waits for the device -/
  | waitDisk (r : Request B) (serial : ℕ) (i j k : Fin num)
  /-- the head of the loop of `free_chain`, with the descriptors that are left -/
  | freeChain (r : Request B) (t : Ticket B) (i : ℕ) (rest : List (Fin num))
  /-- in front of the `release` of `virtio_disk_rw` -/
  | done (r : Request B) (t : Ticket B)
  | returned (r : Request B) (t : Ticket B)
  /-- in front of the `acquire` of `virtio_disk_intr` -/
  | intr
  /-- the head of the loop of `virtio_disk_intr` -/
  | scan
  /-- in front of `used_idx += 1` -/
  | bump

inductive Panic where
  | freeDesc1
  | freeDesc2
  | intrStatus
  /-- `info[id]` is out of bounds, or its `b` is null -/
  | intrBuf
  deriving DecidableEq, Repr

inductive Chan (B : Type) where
  | free
  | buf (b : B)
  deriving DecidableEq

inductive Choice (B : Type) where
  | rw (r : Request B)
  | unlock
  | intr
  /-- the device takes the next chain head from the avail ring -/
  | take
  /-- the device performs an outstanding request and writes its status -/
  | perform (t : Ticket B)
  /-- the device puts a request that it has performed into the used ring -/
  | post (t : Ticket B)

/-! ### Descriptors -/

def allocDesc (sh : Shared B) : Option (Fin num × Shared B) :=
  ((List.finRange num).find? sh.free).map fun i =>
    (i, { sh with free := update sh.free i false })

/-- `free_desc` without its wakeup. -/
def freeDesc (i : ℕ) (sh : Shared B) : Except Panic (Shared B) :=
  if h : i < num then
    if sh.free ⟨i, h⟩ then .error .freeDesc2
    else .ok { sh with
      desc := update sh.desc ⟨i, h⟩ ⟨.null, 0, 0, 0⟩
      free := update sh.free ⟨i, h⟩ true }
  else .error .freeDesc1

/-- The part of `virtio_disk_rw` that formats the three descriptors and records the buffer. -/
def formatDescs [DecidableEq B] (r : Request B) (i j k : Fin num) (sh : Shared B) : Shared B :=
  let desc := update sh.desc i ⟨.op i, 16, vringDescFNext, j⟩
  let desc := update desc j
    ⟨.data r.buf, bSize, (if r.write then 0 else vringDescFWrite) ||| vringDescFNext, k⟩
  let desc := update desc k ⟨.status i, 1, vringDescFWrite, 0⟩
  { sh with
    ops := update sh.ops i ⟨r.write, r.sector⟩
    desc := desc
    info := update sh.info i ⟨some r.buf, 0xff⟩
    disk := update sh.disk r.buf true }

/-! ### The device -/

def descAt (sh : Shared B) (i : ℕ) : Option (Desc B) :=
  if h : i < num then some (sh.desc ⟨i, h⟩) else none

/-- The chain that the device finds behind a head: an operation, a buffer, and a status byte. -/
def fetch (sh : Shared B) (serial head : ℕ) : Option (Ticket B) := do
  let d₀ ← descAt sh head
  let d₁ ← descAt sh d₀.next
  let d₂ ← descAt sh d₁.next
  match d₀.addr, d₁.addr, d₂.addr with
  | .op i, .data b, .status s =>
    if d₀.flags &&& vringDescFNext ≠ 0 ∧ d₁.flags &&& vringDescFNext ≠ 0 ∧
        d₂.flags &&& vringDescFNext = 0 then
      some ⟨serial, head, b, (sh.ops i).out, (sh.ops i).sector, s⟩
    else none
  | _, _, _ => none

variable [DecidableEq B]

def deviceStep : Choice B → Shared B → Option (Shared B)
  | .take, sh =>
    if sh.device.seen = sh.availIdx then none
    else
      (fetch sh sh.device.taken (sh.availRing (Fin.ofNat num sh.device.seen.toNat))).map fun t =>
        { sh with device := { sh.device with
          seen := sh.device.seen + 1
          taken := sh.device.taken + 1
          outstanding := sh.device.outstanding ++ [t] } }
  | .perform t, sh =>
    if t ∈ sh.device.outstanding then
      some { sh with
        info := update sh.info t.status { sh.info t.status with status := 0 }
        device := { sh.device with
          outstanding := sh.device.outstanding.erase t
          finished := sh.device.finished ++ [t] }
        performed := sh.performed ++ [t] }
    else none
  | .post t, sh =>
    if t ∈ sh.device.finished then
      some { sh with
        usedRing := update sh.usedRing (Fin.ofNat num sh.usedRingIdx.toNat) t.head
        usedRingIdx := sh.usedRingIdx + 1
        device := { sh.device with finished := sh.device.finished.erase t }
        posted := sh.posted ++ [t] }
    else none
  | _, _ => none

/-! ### The driver -/

/-- The points at which a party waits for `vdisk_lock`. -/
def enter : Control B → Option (Control B)
  | .rw r => some (.retry r)
  | .intr => some .scan
  | _ => none

/-- `free_desc` with its wakeup, and what follows. -/
def freeAnd (i : ℕ) (l : Control B) (sh : Shared B) : Move (Chan B) (Control B) (Shared B) Panic :=
  match freeDesc i sh with
  | .error e => .panic e
  | .ok sh' => .wakeup .free l sh'

/-- The body of the loop of `virtio_disk_intr` up to its wakeup. -/
def handle (sh : Shared B) : Move (Chan B) (Control B) (Shared B) Panic :=
  let id := sh.usedRing (Fin.ofNat num sh.usedIdx.toNat)
  if h : id < num then
    if (sh.info ⟨id, h⟩).status ≠ 0 then .panic .intrStatus
    else
      match (sh.info ⟨id, h⟩).b with
      | none => .panic .intrBuf
      | some b =>
        .wakeup (.buf b) .bump { sh with
          disk := update sh.disk b false
          handled := sh.posted.head?
          posted := sh.posted.tail }
  else .panic .intrBuf

def move (l : Control B) (sh : Shared B) : Move (Chan B) (Control B) (Shared B) Panic :=
  match l with
  | .retry r => .stay (.alloc3 r sh.free []) sh
  | .alloc3 r _ [i, j, k] => .stay (.format r i j k) sh
  | .alloc3 r old idx =>
    match allocDesc sh with
    | some (i, sh') => .stay (.alloc3 r old (idx ++ [i])) sh'
    | none => .stay (.undo r old idx) sh
  | .undo r old (i :: idx) => freeAnd i (.undo r old idx) sh
  | .undo r old [] => .stay (.full r old) sh
  | .full r _ => .sleep .free (.retry r)
  | .format r i j k => .stay (.ring r sh.submitted.length i j k) (formatDescs r i j k sh)
  | .ring r serial i j k =>
    .stay (.publish r serial i j k) { sh with
      availRing := update sh.availRing (Fin.ofNat num sh.availIdx.toNat) i }
  | .publish r serial i j k =>
    .stay (.waitDisk r serial i j k) { sh with
      availIdx := sh.availIdx + 1
      submitted := sh.submitted ++ [r.ticket serial i] }
  | .waitDisk r serial i j k =>
    if sh.disk r.buf then .sleep (.buf r.buf) (.waitDisk r serial i j k)
    else .stay (.freeChain r (r.ticket serial i) i [i, j, k])
      { sh with info := update sh.info i { sh.info i with b := none } }
  | .freeChain r t i rest =>
    match descAt sh i with
    | none => .panic .freeDesc1
    | some d =>
      if d.flags &&& vringDescFNext ≠ 0 then freeAnd i (.freeChain r t d.next rest.tail) sh
      else freeAnd i (.done r t) sh
  | .done r t => .release (.returned r t) sh
  | .scan => if sh.usedIdx ≠ sh.usedRingIdx then handle sh else .release .idle sh
  | .bump => .stay .scan { sh with usedIdx := sh.usedIdx + 1, handled := none }
  | l => .stay l sh

/-- A caller locks its buffer and calls `virtio_disk_rw`, calls it again, or unlocks the buffer;
an interrupt comes; or the device runs. -/
def run (k : Choice B) (l : Control B) (sh : Shared B) : Option (Control B × Shared B) :=
  match k, l with
  | .rw r, .idle =>
    if sh.locked r.buf then none
    else some (.rw r, { sh with locked := update sh.locked r.buf true })
  | .rw r, .returned r' _ => if r.buf = r'.buf then some (.rw r, sh) else none
  | .unlock, .returned r _ =>
    some (.idle, { sh with locked := update sh.locked r.buf false })
  | .intr, .idle => some (.intr, sh)
  | k, .device => (deviceStep k sh).map fun sh' => (.device, sh')
  | _, _ => none

/-- Any number of parties that call the driver and handle its interrupts, and the device. -/
abbrev Party (n : ℕ) := Option (Fin n)

def monitor (B : Type) [DecidableEq B] (n : ℕ) :
    Monitor (Party n) (Chan B) (Control B) (Shared B) Panic (Choice B) where
  procs := none :: (List.finRange n).map some
  enter := enter
  move _ := move
  run _ := run

abbrev DiskUsers (B : Type) (n : ℕ) :=
  State (Party n) (Chan B) (Control B) (Shared B) Panic

structure Initial {n : ℕ} (s : DiskUsers B n) : Prop where
  free : ∀ i, s.shared.free i = true
  availIdx : s.shared.availIdx = 0
  usedRingIdx : s.shared.usedRingIdx = 0
  usedIdx : s.shared.usedIdx = 0
  locked : ∀ b, s.shared.locked b = false
  device : s.shared.device = ⟨0, 0, [], []⟩
  submitted : s.shared.submitted = []
  performed : s.shared.performed = []
  posted : s.shared.posted = []
  handled : s.shared.handled = none
  lock : s.lock = none
  user : ∀ p, s.phase (some p) = .outside .idle
  dev : s.phase none = .outside .device
  panicked : s.panicked = none

end Xv6.Virtio
