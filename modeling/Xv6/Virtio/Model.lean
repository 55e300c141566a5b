import Xv6.Ring
import Xv6.Threads.Prog

/-!
# The virtio disk driver and its device

`virtio_disk.c` with the device that it talks to. A thread that runs `virtio_disk_rw` or
`virtio_disk_intr` is at a point of the function (`Pc`); it holds `disk.vdisk_lock` at some of them.
`step` takes a thread to its next point. The device is not bound by the lock: it takes published
entries of the avail ring, finishes requests in any order, and for each writes the status, then the
entry of the used ring, then the index.

A thread calls `virtio_disk_rw` on a buffer whose sleep-lock it holds, as `bread` and `bwrite` do. A
thread that sleeps may go on at any time: its loop tests its condition again.

The field `req` records the requests from the formatting of their descriptors to `free_chain`; no
step reads it.
-/

namespace Xv6.Virtio

open Function (update)
open Xv6.Threads

def num : ℕ := 8

/-- What a descriptor points to. -/
inductive Addr (B : Type) where
  | null
  | op (i : ℕ)
  | data (b : B)
  | status (i : ℕ)

/-- `struct virtq_desc`, with the two flags that are used. -/
structure Desc (B : Type) where
  addr : Addr B := .null
  len : ℕ := 0
  /-- `VRING_DESC_F_WRITE`. -/
  write : Bool := false
  /-- `VRING_DESC_F_NEXT`. -/
  hasNext : Bool := false
  next : ℕ := 0

/-- `struct virtio_blk_req`. -/
structure Op where
  write : Bool
  sector : ℕ

structure Info (B : Type) where
  b : Option B
  status : UInt8

/-- How far a request got. -/
inductive Stage where
  /-- Its descriptors are formatted. -/
  | filled
  /-- Its head is in the avail ring, and the index is not incremented yet. -/
  | ringed
  | published
  /-- The device took it. -/
  | taken
  /-- The device wrote its status. -/
  | done
  /-- Its head is in the used ring, and the index is not incremented yet. -/
  | posted
  | used
  /-- `virtio_disk_intr` saw it. -/
  | handled
  deriving DecidableEq

/-- The device is done with the request. -/
def Stage.finished : Stage → Bool
  | .done | .posted | .used | .handled => true
  | _ => false

/-- A request of thread `t` for buffer `b`, whose chain goes on with `c1` and `c2`. `cleared` counts
how often `b->disk` was cleared for it. -/
structure Req (T B : Type) where
  t : T
  b : B
  c1 : ℕ
  c2 : ℕ
  stage : Stage
  cleared : ℕ

/-- Where a thread is. -/
inductive Pc (B : Type) where
  | idle
  /-- At `acquire` of `virtio_disk_rw`. -/
  | enter (b : B) (write : Bool)
  /-- In `alloc3_desc`, with the descriptors so far. -/
  | alloc (b : B) (write : Bool) (idx : List ℕ)
  /-- In `alloc3_desc` after a failure, with the descriptors that are still to be freed. -/
  | undo (b : B) (write : Bool) (idx : List ℕ)
  /-- Sleeping on `&disk.free[0]`. -/
  | noDesc (b : B) (write : Bool)
  /-- Before `disk.avail->ring[…] = h`. -/
  | ring (b : B) (h : ℕ)
  /-- Before `disk.avail->idx += 1`. -/
  | publish (b : B) (h : ℕ)
  /-- At the test of `b->disk`. -/
  | test (b : B) (h : ℕ)
  /-- Sleeping on `b`. -/
  | wait (b : B) (h : ℕ)
  /-- In `free_chain` at descriptor `i`; `rest`, which no step reads, is what follows it. -/
  | chain (b : B) (i : ℕ) (rest : List ℕ)
  /-- Before `release`. -/
  | leave (b : B)
  /-- At `acquire` of `virtio_disk_intr`. -/
  | intrEnter
  /-- At the test of the loop of `virtio_disk_intr`. -/
  | intr

/-- Where the device is: nowhere, or in the completion of the request with head `h`. -/
inductive DevPc where
  | idle
  | put (h : ℕ)
  | inc (h : ℕ)

structure St (T B : Type) where
  desc : ℕ → Desc B
  free : ℕ → Bool
  info : ℕ → Info B
  ops : ℕ → Op
  availRing : ℕ → ℕ
  /-- `disk.avail->idx`. -/
  availIdx : BitVec 16
  usedRing : ℕ → ℕ
  /-- `disk.used->idx`. -/
  usedIdx : BitVec 16
  /-- `disk.used_idx`. -/
  seenUsed : BitVec 16
  lock : Option T
  disk : B → Bool
  blockno : B → ℕ
  /-- The sleep-locks of the buffers. -/
  owner : B → Option T
  pc : T → Pc B
  /-- How far the device has read the avail ring. -/
  seenAvail : BitVec 16
  /-- The heads of the requests that the device took and has not finished. -/
  work : List ℕ
  dev : DevPc
  req : ℕ → Option (Req T B)

variable {T B : Type} [DecidableEq T] [DecidableEq B]

namespace St

variable (s : St T B)

def setPc (t : T) (p : Pc B) : St T B := { s with pc := update s.pc t p }

def setFree (i : ℕ) (x : Bool) : St T B := { s with free := update s.free i x }

def setDesc (i : ℕ) (d : Desc B) : St T B := { s with desc := update s.desc i d }

def setInfo (i : ℕ) (x : Info B) : St T B := { s with info := update s.info i x }

/-- The request with head `h`, if any, is changed by `f`. -/
def setReq (h : ℕ) (f : Req T B → Req T B) : St T B :=
  { s with req := update s.req h ((s.req h).map f) }

/-- The request with head `h`, if any, is at stage `st`. -/
def setStage (h : ℕ) (st : Stage) : St T B := s.setReq h fun r => { r with stage := st }

/-! ## The functions of the source -/

/-- The descriptor that `alloc_desc` finds. -/
def firstFree : Option ℕ := (List.range num).find? fun i => s.free i

def freeDesc (i : ℕ) : Outcome (St T B) Unit :=
  if num ≤ i then .panic "free_desc 1"
  else if s.free i then .panic "free_desc 2"
  else .done () ((s.setDesc i {}).setFree i true)

/-- `virtio_disk_rw` of thread `t` between `alloc3_desc` and the avail ring. -/
def format (t : T) (b : B) (write : Bool) (i0 i1 i2 : ℕ) : St T B :=
  { ((s.setDesc i0 ⟨.op i0, 16, false, true, i1⟩).setDesc i1 ⟨.data b, 1024, !write, true, i2⟩).setDesc
      i2 ⟨.status i0, 1, true, false, 0⟩ with
    ops := update s.ops i0 ⟨write, s.blockno b * 2⟩
    info := update s.info i0 ⟨some b, 0xff⟩
    disk := update s.disk b true
    req := update s.req i0 (some ⟨t, b, i1, i2, .filled, 0⟩) }

/-- One round of the loop of `virtio_disk_intr`. -/
def handle : Outcome (St T B) Unit :=
  let id := s.usedRing (Ring.slot num s.seenUsed)
  if (s.info id).status ≠ 0 then .panic "virtio_disk_intr status"
  else
    match (s.info id).b with
    -- `b->disk` with a null `b` traps in the kernel
    | none => .panic "kerneltrap"
    | some b => .done () { s.setReq id fun r => { r with stage := .handled, cleared := r.cleared + 1 } with
        disk := update s.disk b false
        seenUsed := s.seenUsed + 1 }

/-- Thread `t` acquires `disk.vdisk_lock` and goes to `p`. -/
def acquire (t : T) (p : Pc B) : Outcome (St T B) Unit :=
  match s.lock with
  | some _ => .wait
  | none => .done () ({ s with lock := some t }.setPc t p)

/-- Thread `t` releases the lock, or sleeps, and goes to `p`. -/
def release (t : T) (p : Pc B) : Outcome (St T B) Unit := .done () ({ s with lock := none }.setPc t p)

/-- Thread `t` goes to `p` after `x`. -/
def goto (t : T) (p : Pc B) : Outcome (St T B) Unit → Outcome (St T B) Unit
  | .wait => .wait
  | .panic m => .panic m
  | .done _ s => .done () (s.setPc t p)

/-- The next step of thread `t`. -/
def step (t : T) : Outcome (St T B) Unit :=
  match s.pc t with
  | .idle => .wait
  | .enter b write => s.acquire t (.alloc b write [])
  | .alloc b write [i0, i1, i2] => .done () ((s.format t b write i0 i1 i2).setPc t (.ring b i0))
  | .alloc b write idx =>
    match s.firstFree with
    | none => .done () (s.setPc t (.undo b write idx))
    | some i => .done () ((s.setFree i false).setPc t (.alloc b write (idx ++ [i])))
  | .undo b write [] => s.release t (.noDesc b write)
  | .undo b write (i :: idx) => goto t (.undo b write idx) (s.freeDesc i)
  | .noDesc b write => s.acquire t (.alloc b write [])
  | .ring b h => .done () ({ s.setStage h .ringed with
      availRing := update s.availRing (Ring.slot num s.availIdx) h }.setPc t (.publish b h))
  | .publish b h => .done () ({ s.setStage h .published with
      availIdx := s.availIdx + 1 }.setPc t (.test b h))
  | .test b h =>
    if s.disk b then s.release t (.wait b h)
    else .done () ({ s.setInfo h { s.info h with b := none } with
      req := update s.req h none }.setPc t
        (.chain b h ((s.req h).elim [] fun r => [r.c1, r.c2])))
  | .wait b h => s.acquire t (.test b h)
  | .chain b i rest =>
    let d := s.desc i
    goto t (if d.hasNext then .chain b d.next rest.tail else .leave b) (s.freeDesc i)
  | .leave _ => s.release t .idle
  | .intrEnter => s.acquire t .intr
  | .intr => if s.seenUsed = s.usedIdx then s.release t .idle else goto t .intr s.handle

end St

/-! ## Runs -/

/-- The steps: calls, steps of threads inside the driver and steps of the device. -/
inductive Step : St T B → St T B → Prop
  | lockBuf {s t b} : s.pc t = .idle → s.owner b = none →
      Step s { s with owner := update s.owner b (some t) }
  | unlockBuf {s t b} : s.pc t = .idle → s.owner b = some t →
      Step s { s with owner := update s.owner b none }
  | rw {s t b} (write) : s.pc t = .idle → s.owner b = some t → Step s (s.setPc t (.enter b write))
  | intr {s t} : s.pc t = .idle → Step s (s.setPc t .intrEnter)
  | step {s s'} (t) : s.step t = .done () s' → Step s s'
  /-- The device takes an entry of the avail ring. -/
  | take {s h} : s.seenAvail ≠ s.availIdx → h = s.availRing (Ring.slot num s.seenAvail) →
      Step s { s.setStage h .taken with seenAvail := s.seenAvail + 1, work := h :: s.work }
  /-- The device has finished a request and writes 0 to where the last descriptor of its chain
  points. -/
  | status {s h i} : s.dev = .idle → h ∈ s.work →
      (s.desc (s.desc (s.desc h).next).next).addr = .status i →
      Step s { (s.setInfo i { s.info i with status := 0 }).setStage h .done with dev := .put h }
  /-- The device appends the head to the used ring. -/
  | put {s h} : s.dev = .put h → Step s { s.setStage h .posted with
      usedRing := update s.usedRing (Ring.slot num s.usedIdx) h
      dev := .inc h }
  | inc {s h} : s.dev = .inc h → Step s { s.setStage h .used with
      usedIdx := s.usedIdx + 1
      work := s.work.erase h
      dev := .idle }

def Reach : St T B → St T B → Prop := Relation.ReflTransGen Step

/-- The state after `virtio_disk_init`. -/
def init (blockno : B → ℕ) : St T B where
  desc := fun _ => {}
  free := fun i => decide (i < num)
  info := fun _ => ⟨none, 0⟩
  ops := fun _ => ⟨false, 0⟩
  availRing := fun _ => 0
  availIdx := 0
  usedRing := fun _ => 0
  usedIdx := 0
  seenUsed := 0
  lock := none
  disk := fun _ => false
  blockno := blockno
  owner := fun _ => none
  pc := fun _ => .idle
  seenAvail := 0
  work := []
  dev := .idle
  req := fun _ => none

end Xv6.Virtio
