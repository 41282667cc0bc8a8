import TurrisBuild.Lib.Runs
import TurrisBuild.SkbRecycler.Recycler

/-!
# The pools that all CPUs share

For its users the recycler is a cache with a list of buffers and a spare list for each CPU, and a
queue of spare lists between them. The ring of pools makes up that queue, which can hold one
pool less than the greatest power of two that divides the size of the ring and that an index
can reach.
-/

namespace TurrisBuild.SkbRecycler

variable {Cpu B : Type*}

/-! ### A cache with a queue -/

/-- The lists of the CPUs, their limits, and the lists that are shared. -/
structure Cache (Cpu B : Type*) where
  enable : Bool
  limit : Cpu → ℕ
  spareLimit : Cpu → ℕ
  own : Cpu → List B
  spare : Cpu → List B
  shared : List (List B)

/-- How many lists can be shared, and one more. -/
def Config.capacity (cfg : Config) : ℕ := Nat.gcd cfg.maxSharedPools (2 ^ 8)

namespace Cache

def init : Cache Cpu B where
  enable := true
  limit _ := 1024
  spareLimit _ := 256
  own _ := []
  spare _ := []
  shared := []

variable [DecidableEq Cpu] (cfg : Config) (c : Cache Cpu B)

/-- A buffer is taken from the list of the CPU, or from the oldest list that is shared, which the
CPU then owns. -/
def take (cpu : Cpu) : Option B × Cache Cpu B :=
  match c.own cpu, c.shared with
  | skb :: rest, _ => (some skb, { c with own := Function.update c.own cpu rest })
  | [], (skb :: rest) :: shared =>
    (some skb, { c with own := Function.update c.own cpu rest, shared })
  | [], [] :: shared => (none, { c with shared })
  | [], [] => (none, c)

/-- Buffers are given to the list of the CPU or to its spare list, which may be shared for
that. -/
def give (cpu : Cpu) (skbs : List B) : Option (Place × Cache Cpu B) :=
  if (c.own cpu).length < c.limit cpu then
    some (.recycleList, { c with own := Function.update c.own cpu (skbs ++ c.own cpu) })
  else if (c.spare cpu).length < c.spareLimit cpu then
    some (.recycleSpareList, { c with spare := Function.update c.spare cpu (skbs ++ c.spare cpu) })
  else if c.shared.length + 1 < cfg.capacity then
    some (.emptiedSpareList,
      { c with
        spare := Function.update c.spare cpu skbs
        shared := c.shared ++ [c.spare cpu] })
  else none

def upkeep : Upkeep Cpu → Cache Cpu B
  | .freeRecycleList cpu => { c with own := Function.update c.own cpu [] }
  | .freeRecycleSpareList cpu => { c with spare := Function.update c.spare cpu [] }
  | .flush => { c with shared := [] }
  | .writeMaxSkbs cpu max => { c with limit := writeCore cpu max c.limit }
  | .writeMaxSpareSkbs cpu max => { c with spareLimit := writeCore cpu max c.spareLimit }
  | .writeEnable enable => { c with enable := enable ≠ 0 }

/-- One operation, with what it returns. -/
def apply : Op Cpu B → Option (Output B) × Cache Cpu B
  | .alloc cpu length =>
    if c.enable ∧ length ≤ cfg.skbRecycleSize then
      (some (.allocated (c.take cpu).1), (c.take cpu).2)
    else (some (.allocated none), c)
  | .consume cpu canRecycle skb =>
    match if c.enable ∧ canRecycle then c.give cfg cpu [skb] else none with
    | some (_, c) => (some (.consumed true), c)
    | none => (some (.consumed false), c)
  | .consumeListFast cpu skbList =>
    match if c.enable then c.give cfg cpu skbList else none with
    | some (.recycleList, c) => (some (.consumedList true skbList), c)
    | some (_, c) => (some (.consumedList true []), c)
    | none => (some (.consumedList false skbList), c)
  | .upkeep u => (none, c.upkeep u)

def step (op : Op Cpu B) : Cache Cpu B := (c.apply cfg op).2

def out (op : Op Cpu B) : Option (Output B) := (c.apply cfg op).1

end Cache

/-! ### The ring -/

/-- The recycler represents a cache. -/
structure Represents (cfg : Config) (r : Recycler Cpu B) (c : Cache Cpu B) : Prop where
  enable_eq : r.enable = c.enable
  limit_eq : r.maxSkbsCore = c.limit
  spareLimit_eq : r.maxSpareSkbsCore = c.spareLimit
  own_eq : r.recycleList = c.own
  spare_eq : r.recycleSpareList = c.spare
  holds : r.globRecycler.Holds cfg.capacity c.shared

section Represents

variable {cfg : Config} {r : Recycler Cpu B} {c : Cache Cpu B}

private theorem nextPool_eq (cfg : Config) : ∀ i < cfg.capacity,
    cfg.nextPool i = (i + 1) % cfg.capacity :=
  fun _ hi => RingBuffer.masked_succ cfg.maxSharedPools_pos hi

/-- There is room for a pool. -/
theorem Config.capacity_pos (cfg : Config) : 0 < cfg.capacity :=
  Nat.gcd_pos_of_pos_left _ cfg.maxSharedPools_pos

/-- There are no more pools than slots. -/
theorem Config.capacity_le (cfg : Config) : cfg.capacity ≤ cfg.maxSharedPools :=
  Nat.gcd_le_left _ cfg.maxSharedPools_pos

/-- In the beginning nothing is kept. -/
theorem represents_init : Represents cfg (Recycler.init : Recycler Cpu B) Cache.init where
  enable_eq := rfl
  limit_eq := rfl
  spareLimit_eq := rfl
  own_eq := rfl
  spare_eq := rfl
  holds := RingBuffer.holds_empty cfg.capacity_pos

/-- The ring is full, or the spare list is shared. -/
theorem Represents.push (h : Represents cfg r c) (items : List B) :
    c.shared.length + 1 = cfg.capacity ∧ r.globRecycler.push cfg.nextPool items = none ∨
      c.shared.length + 1 < cfg.capacity ∧ ∃ glob,
        r.globRecycler.push cfg.nextPool items = some glob ∧
          glob.Holds cfg.capacity (c.shared ++ [items]) := by
  have hlt := h.holds.length_lt
  have hnone := h.holds.push_eq_none_iff (nextPool_eq cfg) items
  cases hpush : r.globRecycler.push cfg.nextPool items with
  | none => exact .inl ⟨hnone.mp hpush, rfl⟩
  | some glob =>
    have hne : ¬c.shared.length + 1 = cfg.capacity := by
      rw [← hnone, hpush]
      exact Option.some_ne_none _
    exact .inr ⟨by omega, glob, rfl, h.holds.push (nextPool_eq cfg) hpush⟩

/-- The ring is empty when all its pools are freed. -/
theorem Represents.flush (h : Represents cfg r c) :
    (flushPools cfg r.globRecycler).Holds cfg.capacity [] := by
  have hempty : flushPools cfg r.globRecycler = RingBuffer.empty := by
    have hslot : (flushPools cfg r.globRecycler).slot = fun _ => [] := by
      funext i
      simp only [flushPools]
      split
      · rfl
      · next hi =>
        refine h.holds.slot_nil i fun j _ heq => hi ?_
        rw [heq]
        exact (Nat.mod_lt _ cfg.capacity_pos).trans_le cfg.capacity_le
    rw [RingBuffer.empty, ← hslot]
    rfl
  rw [hempty]
  exact RingBuffer.holds_empty cfg.capacity_pos

variable [DecidableEq Cpu]

/-- Nothing is taken when recycling is off or the size does not fit. -/
theorem alloc_of_not {length : ℕ} (h : ¬(r.enable ∧ length ≤ cfg.skbRecycleSize)) (cpu : Cpu) :
    r.alloc cfg cpu length = (none, r) := by
  rw [Recycler.alloc]
  cases henable : r.enable with
  | false => rfl
  | true =>
    rw [if_neg (by decide), if_pos]
    exact Nat.not_le.mp fun hlength => h ⟨henable, hlength⟩

/-- Nothing is kept when recycling is off or a buffer is not fit for it. -/
theorem consume_of_not {canRecycle : Bool} (h : ¬(r.enable ∧ canRecycle)) (cpu : Cpu) (skb : B) :
    r.consume cfg cpu canRecycle skb = (false, r) := by
  rw [Recycler.consume]
  cases henable : r.enable with
  | false => rfl
  | true =>
    rw [if_neg (by decide), if_pos]
    simpa [henable] using h

/-- No list is kept when recycling is off. -/
theorem consumeListFast_of_not (h : ¬r.enable) (cpu : Cpu) (skbList : List B) :
    r.consumeListFast cfg cpu skbList = (false, skbList, r) := by
  rw [Recycler.consumeListFast, if_pos (by simpa using h)]

/-- An allocation is the one of the queue. -/
theorem Represents.take (h : Represents cfg r c) (cpu : Cpu) {length : ℕ}
    (henable : r.enable = true) (hlength : length ≤ cfg.skbRecycleSize) :
    (r.alloc cfg cpu length).1 = (c.take cpu).1 ∧
      Represents cfg (r.alloc cfg cpu length).2 (c.take cpu).2 := by
  have hown : r.recycleList cpu = c.own cpu := congrFun h.own_eq cpu
  rw [Recycler.alloc, if_neg (by rw [henable]; decide), if_neg (Nat.not_lt.mpr hlength), hown,
    Cache.take]
  cases hcpu : c.own cpu with
  | cons skb rest =>
    refine ⟨rfl, { h with own_eq := ?_ }⟩
    simp only [h.own_eq]
  | nil =>
    cases hpop : r.globRecycler.pop cfg.nextPool with
    | none =>
      rw [h.holds.pop_eq_none_iff.mp hpop]
      exact ⟨rfl, h⟩
    | some taken =>
      obtain ⟨pool, glob⟩ := taken
      obtain ⟨shared, hshared, hholds⟩ := h.holds.pop (nextPool_eq cfg) hpop
      rw [hshared]
      cases pool with
      | nil => exact ⟨rfl, { h with holds := hholds }⟩
      | cons skb rest =>
        refine ⟨rfl, { h with own_eq := ?_, holds := hholds }⟩
        simp only [h.own_eq]

/-- Buffers go to the same place. -/
theorem Represents.give (h : Represents cfg r c) (cpu : Cpu) (skbs : List B) :
    r.enqueue cfg cpu skbs = none ∧ c.give cfg cpu skbs = none ∨
      ∃ place r' c', r.enqueue cfg cpu skbs = some (place, r') ∧
        c.give cfg cpu skbs = some (place, c') ∧ Represents cfg r' c' := by
  have hown : r.recycleList cpu = c.own cpu := congrFun h.own_eq cpu
  have hspare : r.recycleSpareList cpu = c.spare cpu := congrFun h.spare_eq cpu
  have hmax : r.maxSkbsCore cpu = c.limit cpu := congrFun h.limit_eq cpu
  have hmaxSpare : r.maxSpareSkbsCore cpu = c.spareLimit cpu := congrFun h.spareLimit_eq cpu
  rw [Recycler.enqueue, Cache.give, hown, hspare, hmax, hmaxSpare]
  by_cases hlimit : (c.own cpu).length < c.limit cpu
  · rw [if_pos hlimit, if_pos hlimit]
    refine .inr ⟨_, _, _, rfl, rfl, { h with own_eq := ?_ }⟩
    simp only [h.own_eq]
  rw [if_neg hlimit, if_neg hlimit]
  by_cases hfull : c.spareLimit cpu ≤ (c.spare cpu).length
  · rw [if_pos hfull, if_neg (Nat.not_lt.mpr hfull)]
    rcases h.push (c.spare cpu) with ⟨hlast, hpush⟩ | ⟨hroom, glob, hpush, hholds⟩
    · rw [hpush, if_neg (by omega)]
      exact .inl ⟨rfl, rfl⟩
    · rw [hpush, if_pos hroom]
      refine .inr ⟨_, _, _, rfl, rfl, { h with spare_eq := ?_, holds := hholds }⟩
      simp only [h.spare_eq, List.append_nil]
  · rw [if_neg hfull, if_pos (Nat.not_le.mp hfull)]
    refine .inr ⟨_, _, _, rfl, rfl, { h with spare_eq := ?_ }⟩
    simp only [h.spare_eq]

/-- Upkeep is the one of the queue. -/
theorem Represents.upkeep (h : Represents cfg r c) (u : Upkeep Cpu) :
    Represents cfg (r.upkeep cfg u) (c.upkeep u) := by
  cases u with
  | freeRecycleList cpu =>
    refine { h with own_eq := ?_ }
    simp only [Recycler.upkeep, Cache.upkeep, h.own_eq]
  | freeRecycleSpareList cpu =>
    refine { h with spare_eq := ?_ }
    simp only [Recycler.upkeep, Cache.upkeep, h.spare_eq]
  | flush => exact { h with holds := h.flush }
  | writeMaxSkbs cpu max =>
    refine { h with limit_eq := ?_ }
    simp only [Recycler.upkeep, Cache.upkeep, h.limit_eq]
  | writeMaxSpareSkbs cpu max =>
    refine { h with spareLimit_eq := ?_ }
    simp only [Recycler.upkeep, Cache.upkeep, h.spareLimit_eq]
  | writeEnable enable => exact { h with enable_eq := rfl }

/-- **One operation.** -/
theorem Represents.apply (h : Represents cfg r c) (op : Op Cpu B) :
    r.out cfg op = c.out cfg op ∧ Represents cfg (r.step cfg op) (c.step cfg op) := by
  cases op with
  | alloc cpu length =>
    by_cases hok : c.enable = true ∧ length ≤ cfg.skbRecycleSize
    · obtain ⟨hskb, hnext⟩ := h.take cpu (h.enable_eq.trans hok.1) hok.2
      simp only [Recycler.out, Recycler.step, Cache.out, Cache.step, Cache.apply, if_pos hok, hskb]
      exact ⟨trivial, hnext⟩
    · have hnone : r.alloc cfg cpu length = (none, r) := alloc_of_not (h.enable_eq ▸ hok) cpu
      simp only [Recycler.out, Recycler.step, Cache.out, Cache.step, Cache.apply, if_neg hok, hnone]
      exact ⟨trivial, h⟩
  | consume cpu canRecycle skb =>
    by_cases hok : c.enable = true ∧ canRecycle = true
    · have hgiven := h.give cpu [skb]
      simp only [Recycler.out, Recycler.step, Cache.out, Cache.step, Cache.apply,
        Recycler.consume, h.enable_eq, hok.1, hok.2, Bool.not_true, Bool.false_eq_true, if_false,
        and_self, if_true]
      rcases hgiven with ⟨hnone, hnone'⟩ | ⟨place, r', c', hsome, hsome', hnext⟩
      · rw [hnone, hnone']
        exact ⟨rfl, h⟩
      · rw [hsome, hsome']
        exact ⟨rfl, hnext⟩
    · have hnone : r.consume cfg cpu canRecycle skb = (false, r) :=
        consume_of_not (h.enable_eq ▸ hok) cpu skb
      simp only [Recycler.out, Recycler.step, Cache.out, Cache.step, Cache.apply, if_neg hok, hnone]
      exact ⟨trivial, h⟩
  | consumeListFast cpu skbList =>
    by_cases hok : c.enable = true
    · have hgiven := h.give cpu skbList
      simp only [Recycler.out, Recycler.step, Cache.out, Cache.step, Cache.apply,
        Recycler.consumeListFast, h.enable_eq, hok, Bool.not_true, Bool.false_eq_true, if_false,
        if_true]
      rcases hgiven with ⟨hnone, hnone'⟩ | ⟨place, r', c', hsome, hsome', hnext⟩
      · rw [hnone, hnone']
        exact ⟨rfl, h⟩
      · rw [hsome, hsome']
        cases place with
        | recycleList => exact ⟨rfl, hnext⟩
        | recycleSpareList => exact ⟨rfl, hnext⟩
        | emptiedSpareList => exact ⟨rfl, hnext⟩
    · have hnone : r.consumeListFast cfg cpu skbList = (false, skbList, r) :=
        consumeListFast_of_not (h.enable_eq ▸ hok) cpu skbList
      simp only [Recycler.out, Recycler.step, Cache.out, Cache.step, Cache.apply, if_neg hok, hnone]
      exact ⟨trivial, h⟩
  | upkeep u => exact ⟨rfl, h.upkeep u⟩

end Represents

/-- **The shared pools are a queue.** Whatever the CPUs do in whatever order, the recycler returns
what a cache does whose lists are shared by a queue for `capacity - 1` of them. -/
theorem shared_pools_are_queue [DecidableEq Cpu] (cfg : Config) (ops : List (Op Cpu B)) :
    Runs.outputs (Recycler.step cfg) (Recycler.out cfg) Recycler.init ops =
      Runs.outputs (Cache.step cfg) (Cache.out cfg) Cache.init ops :=
  Runs.outputs_eq_of_simulation (Represents cfg) (fun _ => True)
    (fun _ _ op h _ => (h.apply op).2) (fun _ _ op h _ => (h.apply op).1) represents_init
    fun _ _ => trivial

end TurrisBuild.SkbRecycler
