import TurrisBuild.Lib.RingBuffer

/-!
# The recycler of network buffers

Buffers that are not needed any more are kept for later allocations. Each CPU has a list of its own
and a spare list. A spare list that is full goes to a ring of pools that all CPUs share, and a CPU
whose own list is empty takes a pool from there. The lists of a CPU are only used by itself, with
interrupts off, and the ring under a lock.
-/

namespace TurrisBuild.SkbRecycler

/-- The constants of the build. -/
structure Config where
  /-- `SKB_RECYCLE_SIZE`, which is the least and the greatest size too. -/
  skbRecycleSize : ℕ
  /-- `NET_SKB_PAD` -/
  netSkbPad : ℕ
  /-- `SMP_CACHE_BYTES` -/
  smpCacheBytes : ℕ
  /-- `SKB_RECYCLE_MAX_SHARED_POOLS` -/
  maxSharedPools : ℕ
  smpCacheBytes_pos : 0 < smpCacheBytes
  maxSharedPools_pos : 0 < maxSharedPools

/-- `SKB_DATA_ALIGN` -/
def Config.skbDataAlign (cfg : Config) (size : ℕ) : ℕ :=
  (size + (cfg.smpCacheBytes - 1)) / cfg.smpCacheBytes * cfg.smpCacheBytes

/-- The next index of the circular list. It is kept in eight bits. -/
def Config.nextPool (cfg : Config) (i : ℕ) : ℕ :=
  ((i + 1) &&& (cfg.maxSharedPools - 1)) % 2 ^ 8

/-! ### Buffers -/

/-- What the recycler reads and writes of `struct sk_buff` and of the shared information. -/
structure Skb where
  zerocopy : Bool
  headFrag : Bool
  dataLen : ℕ
  fragList : Bool
  nrFrags : ℕ
  /-- `SKB_FCLONE_UNAVAILABLE` is 0. -/
  fclone : ℕ
  /-- `skb_end_pointer(skb) - skb->head` -/
  size : ℕ
  cloned : Bool
  pfmemalloc : Bool
  activeExtensions : ℕ
  isFromRecycler : Bool
  fastRecycled : Bool
  recycledForDs : Bool
  dev : ℕ

/-- `consume_skb_can_recycle` -/
def consumeSkbCanRecycle (cfg : Config) (irqsDisabled : Bool) (skb : Skb) : Bool :=
  if irqsDisabled then false
  else if skb.zerocopy then false
  else if skb.headFrag then false
  else if skb.dataLen ≠ 0 then false
  else if skb.fragList then false
  else if skb.nrFrags ≠ 0 then false
  else if skb.fclone ≠ 0 then false
  else if skb.size < cfg.skbDataAlign (cfg.skbRecycleSize + cfg.netSkbPad) then false
  else if cfg.skbDataAlign (cfg.skbRecycleSize + cfg.netSkbPad) < skb.size then false
  else if skb.cloned then false
  else if skb.pfmemalloc then false
  else if skb.activeExtensions ≠ 0 then false
  else true

/-- What `skb_recycler_alloc` makes of a buffer. One that was recycled for a DS ring is reset only
on demand, and the shared information of one that was recycled in the fast path is not. -/
def refresh (dev : ℕ) (resetSkb : Bool) (skb : Skb) : Skb :=
  let isFastRecycled := skb.fastRecycled
  let recycledForDs := skb.recycledForDs
  let skb :=
    if resetSkb || !recycledForDs then
      let skb :=
        if !isFastRecycled then { skb with zerocopy := false, fragList := false, nrFrags := 0 }
        else skb
      { skb with
        headFrag := false
        dataLen := 0
        fclone := 0
        cloned := false
        pfmemalloc := false
        activeExtensions := 0
        isFromRecycler := false
        fastRecycled := false
        recycledForDs := false }
    else skb
  { skb with
    dev := dev
    isFromRecycler := true
    fastRecycled := if isFastRecycled then true else skb.fastRecycled
    recycledForDs := if recycledForDs then true else skb.recycledForDs }

/-! ### Lists -/

section Lists

variable {Cpu B : Type*}

structure Recycler (Cpu B : Type*) where
  /-- `skb_recycling_enable` is not 0. -/
  enable : Bool
  maxSkbsCore : Cpu → ℕ
  maxSpareSkbsCore : Cpu → ℕ
  recycleList : Cpu → List B
  recycleSpareList : Cpu → List B
  globRecycler : RingBuffer B

/-- `skb_recycler_init`, without preallocated buffers -/
def Recycler.init : Recycler Cpu B where
  enable := true
  maxSkbsCore _ := 1024
  maxSpareSkbsCore _ := 256
  recycleList _ := []
  recycleSpareList _ := []
  globRecycler := RingBuffer.empty

variable [DecidableEq Cpu] (cfg : Config)

/-- `skb_recycler_alloc`: the list of the CPU is used first, and filled from the ring when it is
empty. -/
def Recycler.alloc (r : Recycler Cpu B) (cpu : Cpu) (length : ℕ) : Option B × Recycler Cpu B :=
  if !r.enable then (none, r)
  else if cfg.skbRecycleSize < length then (none, r)
  else
    match r.recycleList cpu with
    | skb :: rest => (some skb, { r with recycleList := Function.update r.recycleList cpu rest })
    | [] =>
      match r.globRecycler.pop cfg.nextPool with
      | none => (none, r)
      | some (pool, globRecycler) =>
        match pool with
        | skb :: rest =>
          (some skb, { r with recycleList := Function.update r.recycleList cpu rest, globRecycler })
        | [] => (none, { r with globRecycler })

/-- Where buffers go: to the list of the CPU, its spare list, or the spare list after that was moved
to the ring. -/
inductive Place
  | recycleList
  | recycleSpareList
  | emptiedSpareList

/-- Buffers go to the front of a list, unless all are full. -/
def Recycler.enqueue (r : Recycler Cpu B) (cpu : Cpu) (skbs : List B) :
    Option (Place × Recycler Cpu B) :=
  if (r.recycleList cpu).length < r.maxSkbsCore cpu then
    some (.recycleList,
      { r with recycleList := Function.update r.recycleList cpu (skbs ++ r.recycleList cpu) })
  else if r.maxSpareSkbsCore cpu ≤ (r.recycleSpareList cpu).length then
    (r.globRecycler.push cfg.nextPool (r.recycleSpareList cpu)).map fun globRecycler =>
      (.emptiedSpareList,
        { r with
          recycleSpareList := Function.update r.recycleSpareList cpu (skbs ++ [])
          globRecycler })
  else
    some (.recycleSpareList,
      { r with
        recycleSpareList :=
          Function.update r.recycleSpareList cpu (skbs ++ r.recycleSpareList cpu) })

/-- `skb_recycler_consume`, for a buffer that can be recycled or not -/
def Recycler.consume (r : Recycler Cpu B) (cpu : Cpu) (canRecycle : Bool) (skb : B) :
    Bool × Recycler Cpu B :=
  if !r.enable then (false, r)
  else if !canRecycle then (false, r)
  else
    match r.enqueue cfg cpu [skb] with
    | some (_, r) => (true, r)
    | none => (false, r)

/-- `skb_recycler_consume_list_fast`. The list that was given is emptied only when it goes to the
spare list. -/
def Recycler.consumeListFast (r : Recycler Cpu B) (cpu : Cpu) (skbList : List B) :
    Bool × List B × Recycler Cpu B :=
  if !r.enable then (false, skbList, r)
  else
    match r.enqueue cfg cpu skbList with
    | some (.recycleList, r) => (true, skbList, r)
    | some (_, r) => (true, [], r)
    | none => (false, skbList, r)

/-- What is done to a recycler besides its use. The lists of a CPU are freed by
`skb_recycler_flush_task` there and by `skb_cpu_callback` when it is dead, and the limits of one or
all CPUs are written. -/
inductive Upkeep (Cpu : Type*)
  | freeRecycleList (cpu : Cpu)
  | freeRecycleSpareList (cpu : Cpu)
  | flush
  | writeMaxSkbs (cpu : Option Cpu) (max : ℕ)
  | writeMaxSpareSkbs (cpu : Option Cpu) (max : ℕ)
  | writeEnable (enable : ℕ)

/-- What may happen to the recycler. -/
inductive Op (Cpu B : Type*)
  | alloc (cpu : Cpu) (length : ℕ)
  | consume (cpu : Cpu) (canRecycle : Bool) (skb : B)
  | consumeListFast (cpu : Cpu) (skbList : List B)
  | upkeep (u : Upkeep Cpu)

/-- `skb_recycler_per_cpu_write` and `skb_max_skbs_per_cpu_write_all` -/
def writeCore (cpu : Option Cpu) (max : ℕ) (core : Cpu → ℕ) : Cpu → ℕ :=
  match cpu with
  | some cpu => Function.update core cpu max
  | none => fun _ => max

/-- What `proc_skb_flush_write` makes of the ring. -/
def flushPools (glob : RingBuffer B) : RingBuffer B where
  slot i := if i < cfg.maxSharedPools then [] else glob.slot i
  head := 0
  tail := 0

def Recycler.upkeep (r : Recycler Cpu B) : Upkeep Cpu → Recycler Cpu B
  | .freeRecycleList cpu => { r with recycleList := Function.update r.recycleList cpu [] }
  | .freeRecycleSpareList cpu =>
    { r with recycleSpareList := Function.update r.recycleSpareList cpu [] }
  | .flush => { r with globRecycler := flushPools cfg r.globRecycler }
  | .writeMaxSkbs cpu max => { r with maxSkbsCore := writeCore cpu max r.maxSkbsCore }
  | .writeMaxSpareSkbs cpu max =>
    { r with maxSpareSkbsCore := writeCore cpu max r.maxSpareSkbsCore }
  | .writeEnable enable => { r with enable := enable ≠ 0 }

def Recycler.step (r : Recycler Cpu B) : Op Cpu B → Recycler Cpu B
  | .alloc cpu length => (r.alloc cfg cpu length).2
  | .consume cpu canRecycle skb => (r.consume cfg cpu canRecycle skb).2
  | .consumeListFast cpu skbList => (r.consumeListFast cfg cpu skbList).2.2
  | .upkeep u => r.upkeep cfg u

/-- What is returned. -/
inductive Output (B : Type*)
  | allocated (skb : Option B)
  | consumed (accepted : Bool)
  | consumedList (accepted : Bool) (left : List B)

def Recycler.out (r : Recycler Cpu B) : Op Cpu B → Option (Output B)
  | .alloc cpu length => some (.allocated (r.alloc cfg cpu length).1)
  | .consume cpu canRecycle skb => some (.consumed (r.consume cfg cpu canRecycle skb).1)
  | .consumeListFast cpu skbList =>
    some (.consumedList (r.consumeListFast cfg cpu skbList).1
      (r.consumeListFast cfg cpu skbList).2.1)
  | .upkeep _ => none

/-- The total of `proc_skb_count_show`. -/
def Recycler.count [Fintype Cpu] (r : Recycler Cpu B) : ℕ :=
  ∑ cpu, (r.recycleList cpu).length + ∑ cpu, (r.recycleSpareList cpu).length +
    ∑ i ∈ Finset.range cfg.maxSharedPools, (r.globRecycler.slot i).length

end Lists

end TurrisBuild.SkbRecycler
