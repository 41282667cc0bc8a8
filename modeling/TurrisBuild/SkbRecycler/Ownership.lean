import Mathlib.Tactic.Abel
import TurrisBuild.SkbRecycler.SharedPools

/-!
# Who has a buffer

A buffer is held by the code that allocated it until it is given to the recycler or freed. The
recycler hands out what it was given, and it does not look at a buffer again when it does. The
states here also say which buffers are held, of which the code itself keeps no record.
-/

namespace TurrisBuild.SkbRecycler

variable {Cpu B : Type*}

/-! ### Users of the recycler -/

structure World (Cpu B : Type*) where
  recycler : Recycler Cpu B
  skb : B → Skb
  held : Finset B

/-- What happens to buffers. One is created by the allocator of the system, which may reuse the
memory of one that was destroyed, and changed by who holds it. -/
inductive Event (Cpu B : Type*)
  | alloc (cpu : Cpu) (length dev : ℕ) (resetSkb : Bool)
  | consume (cpu : Cpu) (irqsDisabled : Bool) (b : B)
  | consumeListFast (cpu : Cpu) (skbList : List B)
  | create (b : B) (skb : Skb)
  | change (b : B) (skb : Skb)
  | destroy (b : B)
  | upkeep (u : Upkeep Cpu)

variable [DecidableEq Cpu] [DecidableEq B] (cfg : Config)

def World.init (skb : B → Skb) : World Cpu B := ⟨Recycler.init, skb, ∅⟩

/-- A buffer that the recycler does not take is still held. -/
def World.step (w : World Cpu B) : Event Cpu B → World Cpu B
  | .alloc cpu length dev resetSkb =>
    match w.recycler.alloc cfg cpu length with
    | (none, recycler) => { w with recycler }
    | (some b, recycler) =>
      { recycler
        skb := Function.update w.skb b (refresh dev resetSkb (w.skb b))
        held := insert b w.held }
  | .consume cpu irqsDisabled b =>
    match w.recycler.consume cfg cpu (consumeSkbCanRecycle cfg irqsDisabled (w.skb b)) b with
    | (true, recycler) => { w with recycler, held := w.held.erase b }
    | (false, recycler) => { w with recycler }
  | .consumeListFast cpu skbList =>
    match w.recycler.consumeListFast cfg cpu skbList with
    | (true, _, recycler) => { w with recycler, held := w.held \ skbList.toFinset }
    | (false, _, recycler) => { w with recycler }
  | .create b skb => { w with skb := Function.update w.skb b skb, held := insert b w.held }
  | .change b skb => { w with skb := Function.update w.skb b skb }
  | .destroy b => { w with held := w.held.erase b }
  | .upkeep u => { w with recycler := w.recycler.upkeep cfg u }

/-- A buffer is in one of the lists. -/
def Recycler.Keeps (r : Recycler Cpu B) (b : B) : Prop :=
  (∃ cpu, b ∈ r.recycleList cpu ∨ b ∈ r.recycleSpareList cpu) ∨
    ∃ i < cfg.maxSharedPools, b ∈ r.globRecycler.slot i

/-- What the users have to do: give away, change and destroy only what they hold, and give to the
fast path only buffers that need no checks, each of them once. -/
def World.Legal (w : World Cpu B) : Event Cpu B → Prop
  | .alloc .. => True
  | .consume _ _ b => b ∈ w.held
  | .consumeListFast _ skbList =>
    skbList.Nodup ∧ ∀ b ∈ skbList, b ∈ w.held ∧ consumeSkbCanRecycle cfg false (w.skb b) = true
  | .create b _ => b ∉ w.held ∧ ¬w.recycler.Keeps cfg b
  | .change b _ => b ∈ w.held
  | .destroy b => b ∈ w.held
  | .upkeep _ => True

instance Recycler.Keeps.decidable [Fintype Cpu] (r : Recycler Cpu B) (b : B) :
    Decidable (r.Keeps cfg b) :=
  inferInstanceAs (Decidable (_ ∨ ∃ i < cfg.maxSharedPools, _))

instance World.Legal.decidable [Fintype Cpu] (w : World Cpu B) :
    ∀ e, Decidable (w.Legal cfg e)
  | .alloc .. => inferInstanceAs (Decidable True)
  | .consume _ _ b => inferInstanceAs (Decidable (b ∈ w.held))
  | .consumeListFast _ skbList =>
    inferInstanceAs (Decidable (skbList.Nodup ∧ ∀ b ∈ skbList,
      b ∈ w.held ∧ consumeSkbCanRecycle cfg false (w.skb b) = true))
  | .create b _ => inferInstanceAs (Decidable (b ∉ w.held ∧ ¬w.recycler.Keeps cfg b))
  | .change b _ => inferInstanceAs (Decidable (b ∈ w.held))
  | .destroy b => inferInstanceAs (Decidable (b ∈ w.held))
  | .upkeep _ => inferInstanceAs (Decidable True)

/-- What they get: a buffer that nobody holds, that could be recycled at once, and that has room for
what was asked for. -/
def World.Sound (w : World Cpu B) : Event Cpu B → Prop
  | .alloc cpu length dev resetSkb =>
    ∀ b ∈ (w.recycler.alloc cfg cpu length).1,
      b ∉ w.held ∧ consumeSkbCanRecycle cfg false (refresh dev resetSkb (w.skb b)) = true ∧
        length + cfg.netSkbPad ≤ (refresh dev resetSkb (w.skb b)).size
  | _ => True

/-! ### The buffers that are kept -/

section Kept

variable [Fintype Cpu]

/-- All buffers of a list for each CPU. -/
def bagOf (lists : Cpu → List B) : Multiset B := ∑ cpu, (lists cpu : Multiset B)

def Cache.kept (c : Cache Cpu B) : Multiset B :=
  bagOf c.own + bagOf c.spare + (c.shared.flatten : Multiset B)

omit [DecidableEq B]

/-- One list is replaced. -/
theorem bagOf_update (lists : Cpu → List B) (cpu : Cpu) (l : List B) :
    bagOf (Function.update lists cpu l) + (lists cpu : Multiset B) =
      bagOf lists + (l : Multiset B) := by
  have hsplit : ∀ f : Cpu → List B,
      bagOf f = (f cpu : Multiset B) + ∑ i ∈ Finset.univ.erase cpu, (f i : Multiset B) :=
    fun f => (Finset.add_sum_erase _ _ (Finset.mem_univ cpu)).symm
  have hrest : ∑ i ∈ Finset.univ.erase cpu, (Function.update lists cpu l i : Multiset B) =
      ∑ i ∈ Finset.univ.erase cpu, (lists i : Multiset B) :=
    Finset.sum_congr rfl fun i hi => by rw [Function.update_of_ne (Finset.ne_of_mem_erase hi)]
  rw [hsplit (Function.update lists cpu l), hsplit lists, hrest, Function.update_self]
  abel

private theorem bagOf_append (lists : Cpu → List B) (cpu : Cpu) (l : List B) :
    bagOf (Function.update lists cpu (l ++ lists cpu)) = (l : Multiset B) + bagOf lists := by
  have h := bagOf_update lists cpu (l ++ lists cpu)
  rw [← Multiset.coe_add, ← add_assoc] at h
  rw [add_right_cancel h, add_comm]

private theorem bagOf_le (lists : Cpu → List B) (cpu : Cpu) :
    bagOf (Function.update lists cpu []) ≤ bagOf lists := by
  have h := bagOf_update lists cpu []
  rw [Multiset.coe_nil, add_zero] at h
  exact h ▸ Multiset.le_add_right _ _

variable {cfg : Config} {c c' : Cache Cpu B}

/-- What is taken was kept. -/
theorem Cache.kept_take (c : Cache Cpu B) (cpu : Cpu) :
    c.kept = ((c.take cpu).1.toList : Multiset B) + (c.take cpu).2.kept := by
  rw [Cache.take]
  cases hown : c.own cpu with
  | cons skb rest =>
    have hlist : bagOf c.own = {skb} + bagOf (Function.update c.own cpu rest) := by
      have h := bagOf_update c.own cpu rest
      rw [hown, ← Multiset.cons_coe, ← Multiset.singleton_add, ← add_assoc] at h
      rw [← add_right_cancel h, add_comm]
    simp only [Cache.kept, Option.toList_some, Multiset.coe_singleton, hlist]
    abel
  | nil =>
    cases hshared : c.shared with
    | nil => simp only [Option.toList_none, Multiset.coe_nil, zero_add]
    | cons pool shared =>
      cases pool with
      | nil =>
        simp only [Cache.kept, Option.toList_none, Multiset.coe_nil, zero_add, hshared,
          List.flatten_cons, List.nil_append]
      | cons skb rest =>
        have hlist : bagOf (Function.update c.own cpu rest) =
            bagOf c.own + (rest : Multiset B) := by
          have h := bagOf_update c.own cpu rest
          rwa [hown, Multiset.coe_nil, add_zero] at h
        simp only [Cache.kept, Option.toList_some, hlist, hshared, List.flatten_cons,
          List.cons_append, ← Multiset.cons_coe, ← Multiset.coe_add,
          ← Multiset.singleton_add]
        abel

/-- What is given is kept. -/
theorem Cache.kept_give {cpu : Cpu} {skbs : List B} {place : Place}
    (h : c.give cfg cpu skbs = some (place, c')) : c'.kept = (skbs : Multiset B) + c.kept := by
  rw [Cache.give] at h
  split at h
  · cases h
    simp only [Cache.kept, bagOf_append]
    abel
  split at h
  · cases h
    simp only [Cache.kept, bagOf_append]
    abel
  split at h
  · cases h
    have hlist := bagOf_update c.spare cpu skbs
    have hflatten : ((c.shared ++ [c.spare cpu]).flatten : Multiset B) =
        (c.shared.flatten : Multiset B) + (c.spare cpu : Multiset B) := by
      rw [List.flatten_append, List.flatten_singleton, Multiset.coe_add]
    simp only [Cache.kept, hflatten]
    calc bagOf c.own + bagOf (Function.update c.spare cpu skbs) +
          ((c.shared.flatten : Multiset B) + (c.spare cpu : Multiset B))
        = bagOf c.own + (bagOf (Function.update c.spare cpu skbs) + (c.spare cpu : Multiset B)) +
            (c.shared.flatten : Multiset B) := by abel
      _ = (skbs : Multiset B) +
            (bagOf c.own + bagOf c.spare + (c.shared.flatten : Multiset B)) := by
          rw [hlist]
          abel
  · cases h

/-- The upkeep only frees buffers. -/
theorem Cache.kept_upkeep (c : Cache Cpu B) (u : Upkeep Cpu) : (c.upkeep u).kept ≤ c.kept := by
  cases u with
  | freeRecycleList cpu =>
    exact add_le_add_left (add_le_add_left (bagOf_le c.own cpu) _) _
  | freeRecycleSpareList cpu =>
    exact add_le_add_left (add_le_add_right (bagOf_le c.spare cpu) _) _
  | flush =>
    exact add_le_add_right (Multiset.zero_le _) _
  | writeMaxSkbs cpu max => exact le_rfl
  | writeMaxSpareSkbs cpu max => exact le_rfl
  | writeEnable enable => exact le_rfl

variable {r : Recycler Cpu B}

/-- An allocation takes one of the kept buffers at most. -/
theorem Represents.alloc (h : Represents cfg r c) (cpu : Cpu) (length : ℕ) :
    ∃ c', Represents cfg (r.alloc cfg cpu length).2 c' ∧
      c.kept = ((r.alloc cfg cpu length).1.toList : Multiset B) + c'.kept ∧
      ∀ b ∈ (r.alloc cfg cpu length).1, length ≤ cfg.skbRecycleSize := by
  by_cases hok : r.enable ∧ length ≤ cfg.skbRecycleSize
  · obtain ⟨hskb, hnext⟩ := h.take cpu hok.1 hok.2
    exact ⟨_, hnext, hskb ▸ c.kept_take cpu, fun _ _ => hok.2⟩
  · rw [alloc_of_not hok]
    exact ⟨c, h, (zero_add _).symm, fun b hb => nomatch hb⟩

/-- Buffers that are accepted are kept. -/
theorem Represents.consume (h : Represents cfg r c) (cpu : Cpu) (canRecycle : Bool) (b : B) :
    ∃ c', Represents cfg (r.consume cfg cpu canRecycle b).2 c' ∧
      ((r.consume cfg cpu canRecycle b).1 = true ∧ canRecycle = true ∧ c'.kept = b ::ₘ c.kept ∨
        (r.consume cfg cpu canRecycle b).1 = false ∧ c'.kept = c.kept) := by
  by_cases hok : r.enable ∧ canRecycle
  · rw [Recycler.consume, if_neg (by simp [hok.1]), if_neg (by simp [hok.2])]
    rcases h.give cpu [b] with ⟨hnone, -⟩ | ⟨place, r', c', hsome, hgive, hnext⟩
    · rw [hnone]
      exact ⟨c, h, .inr ⟨rfl, rfl⟩⟩
    · rw [hsome]
      exact ⟨c', hnext, .inl ⟨rfl, hok.2, Cache.kept_give hgive⟩⟩
  · rw [consume_of_not hok]
    exact ⟨c, h, .inr ⟨rfl, rfl⟩⟩

/-- A list of buffers is kept as a whole or not at all. -/
theorem Represents.consumeListFast (h : Represents cfg r c) (cpu : Cpu) (skbList : List B) :
    ∃ c', Represents cfg (r.consumeListFast cfg cpu skbList).2.2 c' ∧
      ((r.consumeListFast cfg cpu skbList).1 = true ∧
          c'.kept = (skbList : Multiset B) + c.kept ∨
        (r.consumeListFast cfg cpu skbList).1 = false ∧ c'.kept = c.kept) := by
  by_cases hok : r.enable
  · rw [Recycler.consumeListFast, if_neg (by simp [hok])]
    rcases h.give cpu skbList with ⟨hnone, -⟩ | ⟨place, r', c', hsome, hgive, hnext⟩
    · rw [hnone]
      exact ⟨c, h, .inr ⟨rfl, rfl⟩⟩
    · rw [hsome]
      cases place <;> exact ⟨c', hnext, .inl ⟨rfl, Cache.kept_give hgive⟩⟩
  · rw [consumeListFast_of_not hok]
    exact ⟨c, h, .inr ⟨rfl, rfl⟩⟩

omit [DecidableEq Cpu] in
/-- What the lists of the cache keep is in the lists of the recycler. -/
theorem Represents.keeps (h : Represents cfg r c) {b : B} (hb : b ∈ c.kept) : r.Keeps cfg b := by
  have hbag : ∀ {lists : Cpu → List B}, b ∈ bagOf lists → ∃ cpu, b ∈ lists cpu := by
    intro lists hmem
    obtain ⟨cpu, -, hcpu⟩ := Multiset.mem_sum.mp hmem
    exact ⟨cpu, Multiset.mem_coe.mp hcpu⟩
  rw [Cache.kept, Multiset.mem_add, Multiset.mem_add] at hb
  rcases hb with (hown | hspare) | hshared
  · obtain ⟨cpu, hcpu⟩ := hbag hown
    exact .inl ⟨cpu, .inl (h.own_eq ▸ hcpu)⟩
  · obtain ⟨cpu, hcpu⟩ := hbag hspare
    exact .inl ⟨cpu, .inr (h.spare_eq ▸ hcpu)⟩
  · obtain ⟨pool, hpool, hmem⟩ := List.mem_flatten.mp (Multiset.mem_coe.mp hshared)
    obtain ⟨i, hi, rfl⟩ := List.getElem_of_mem hpool
    refine .inr ⟨(r.globRecycler.head + i) % cfg.capacity, ?_, ?_⟩
    · exact (Nat.mod_lt _ cfg.capacity_pos).trans_le cfg.capacity_le
    · rwa [h.holds.slot_eq i hi]

end Kept

/-! ### Buffers that can be recycled -/

structure Skb.Recyclable (cfg : Config) (skb : Skb) : Prop where
  zerocopy : skb.zerocopy = false
  headFrag : skb.headFrag = false
  dataLen : skb.dataLen = 0
  fragList : skb.fragList = false
  nrFrags : skb.nrFrags = 0
  fclone : skb.fclone = 0
  size : skb.size = cfg.skbDataAlign (cfg.skbRecycleSize + cfg.netSkbPad)
  cloned : skb.cloned = false
  pfmemalloc : skb.pfmemalloc = false
  activeExtensions : skb.activeExtensions = 0

section Recyclable

variable {cfg : Config} {skb : Skb}

private theorem canRecycle_iff {irqsDisabled : Bool} :
    consumeSkbCanRecycle cfg irqsDisabled skb = true ↔
      irqsDisabled = false ∧ skb.Recyclable cfg := by
  constructor
  · intro h
    simp only [consumeSkbCanRecycle, Bool.if_false_left, Bool.and_eq_true, Bool.not_eq_true',
      decide_eq_false_iff_not, Nat.not_lt, not_not, Bool.if_true_right, Bool.decide_eq_true,
      Bool.or_false] at h
    obtain ⟨hirqs, hzerocopy, hheadFrag, hdataLen, hfragList, hnrFrags, hfclone, hmin, hmax,
      hcloned, hpfmemalloc, hextensions⟩ := h
    exact ⟨hirqs, hzerocopy, hheadFrag, hdataLen, hfragList, hnrFrags, hfclone,
      le_antisymm hmax hmin, hcloned, hpfmemalloc, hextensions⟩
  · rintro ⟨hirqs, h⟩
    simp [consumeSkbCanRecycle, hirqs, h.zerocopy, h.headFrag, h.dataLen, h.fragList, h.nrFrags,
      h.fclone, h.size, h.cloned, h.pfmemalloc, h.activeExtensions]

/-- What is not reset was in order already. -/
theorem Skb.Recyclable.refresh (h : skb.Recyclable cfg) (dev : ℕ) (resetSkb : Bool) :
    (refresh dev resetSkb skb).Recyclable cfg := by
  rw [SkbRecycler.refresh]
  split
  · split
    · exact ⟨rfl, rfl, rfl, rfl, rfl, rfl, h.size, rfl, rfl, rfl⟩
    · exact ⟨h.zerocopy, rfl, rfl, h.fragList, h.nrFrags, rfl, h.size, rfl, rfl, rfl⟩
  · exact ⟨h.zerocopy, h.headFrag, h.dataLen, h.fragList, h.nrFrags, h.fclone, h.size, h.cloned,
      h.pfmemalloc, h.activeExtensions⟩

private theorem Config.le_skbDataAlign (cfg : Config) (size : ℕ) :
    size ≤ cfg.skbDataAlign size := by
  have hpos := cfg.smpCacheBytes_pos
  have h := Nat.lt_div_mul_add (a := size + (cfg.smpCacheBytes - 1)) hpos
  rw [Config.skbDataAlign]
  omega

private theorem Skb.Recyclable.le_size (h : skb.Recyclable cfg) {length : ℕ}
    (hlength : length ≤ cfg.skbRecycleSize) : length + cfg.netSkbPad ≤ skb.size := by
  rw [h.size]
  exact (Nat.add_le_add_right hlength _).trans (cfg.le_skbDataAlign _)

end Recyclable

/-! ### Buffers that are handed out -/

/-- No buffer is kept twice or kept and held, and all that are kept could be recycled. -/
structure World.Exclusive [Fintype Cpu] (cfg : Config) (w : World Cpu B) (c : Cache Cpu B) :
    Prop where
  represents : Represents cfg w.recycler c
  nodup : c.kept.Nodup
  not_held : ∀ b ∈ c.kept, b ∉ w.held
  recyclable : ∀ b ∈ c.kept, (w.skb b).Recyclable cfg

section Exclusive

variable {cfg : Config} [Fintype Cpu] {w : World Cpu B} {c c' : Cache Cpu B}

omit [DecidableEq Cpu] [DecidableEq B] in
private theorem exclusive_init (skb : B → Skb) :
    (World.init skb : World Cpu B).Exclusive cfg Cache.init where
  represents := represents_init
  nodup := by simp [Cache.kept, Cache.init, bagOf]
  not_held b _ := Finset.notMem_empty b
  recyclable b hb := by simp [Cache.kept, Cache.init, bagOf] at hb

omit [DecidableEq Cpu] [DecidableEq B] in
/-- Fewer buffers may be kept. -/
theorem World.Exclusive.of_le (h : w.Exclusive cfg c) {recycler : Recycler Cpu B}
    (hrepresents : Represents cfg recycler c') (hle : c'.kept ≤ c.kept) :
    World.Exclusive cfg { w with recycler } c' where
  represents := hrepresents
  nodup := Multiset.nodup_of_le hle h.nodup
  not_held b hb := h.not_held b (Multiset.mem_of_le hle hb)
  recyclable b hb := h.recyclable b (Multiset.mem_of_le hle hb)

omit [DecidableEq Cpu] in
/-- A buffer that is not kept may change, and be held. -/
theorem World.Exclusive.update (h : w.Exclusive cfg c) {b : B} (hb : b ∉ c.kept) (skb : Skb)
    {held : Finset B} (hheld : held ⊆ insert b w.held) :
    World.Exclusive cfg { w with skb := Function.update w.skb b skb, held } c where
  represents := h.represents
  nodup := h.nodup
  not_held x hx hmem := by
    rcases Finset.mem_insert.mp (hheld hmem) with rfl | hmem
    · exact hb hx
    · exact h.not_held x hx hmem
  recyclable x hx := by
    have hne : x ≠ b := fun heq => hb (heq ▸ hx)
    simp only [Function.update_of_ne hne]
    exact h.recyclable x hx

omit [DecidableEq Cpu] in
/-- Buffers that were held may be kept. -/
theorem World.Exclusive.add (h : w.Exclusive cfg c) {skbs : List B} (hnodup : skbs.Nodup)
    (hheld : ∀ b ∈ skbs, b ∈ w.held) (hrecyclable : ∀ b ∈ skbs, (w.skb b).Recyclable cfg)
    {recycler : Recycler Cpu B} (hrepresents : Represents cfg recycler c')
    (hkept : c'.kept = (skbs : Multiset B) + c.kept) :
    World.Exclusive cfg { w with recycler, held := w.held \ skbs.toFinset } c' where
  represents := hrepresents
  nodup := by
    rw [hkept, Multiset.nodup_add]
    refine ⟨Multiset.coe_nodup.mpr hnodup, h.nodup, ?_⟩
    rw [Multiset.disjoint_left]
    intro b hb hmem
    exact h.not_held b hmem (hheld b (Multiset.mem_coe.mp hb))
  not_held b hb hmem := by
    obtain ⟨hmem, hnew⟩ := Finset.mem_sdiff.mp hmem
    rw [hkept, Multiset.mem_add, Multiset.mem_coe] at hb
    rcases hb with hb | hb
    · exact hnew (List.mem_toFinset.mpr hb)
    · exact h.not_held b hb hmem
  recyclable b hb := by
    rw [hkept, Multiset.mem_add, Multiset.mem_coe] at hb
    exact hb.elim (hrecyclable b) (h.recyclable b)

/-- **One event.** -/
theorem World.Exclusive.step (h : w.Exclusive cfg c) (e : Event Cpu B) (hlegal : w.Legal cfg e) :
    (∃ c', (w.step cfg e).Exclusive cfg c') ∧ w.Sound cfg e := by
  cases e with
  | alloc cpu length dev resetSkb =>
    obtain ⟨c', hrepresents, hkept, hlength⟩ := h.represents.alloc cpu length
    simp only [World.step, World.Sound]
    rcases halloc : w.recycler.alloc cfg cpu length with ⟨skb, recycler⟩
    rw [halloc] at hrepresents hkept hlength
    have hle : c'.kept ≤ c.kept := hkept ▸ Multiset.le_add_left _ _
    have hnext := h.of_le hrepresents hle
    cases skb with
    | none => exact ⟨⟨c', hnext⟩, fun b hb => nomatch hb⟩
    | some b =>
      have hmem : b ∈ c.kept := by simp [hkept]
      have hnew : b ∉ c'.kept := by
        have hnodup := h.nodup
        rw [hkept] at hnodup
        exact (Multiset.nodup_cons.mp hnodup).1
      refine ⟨⟨c', hnext.update hnew _ Finset.Subset.rfl⟩, fun x hx => ?_⟩
      obtain rfl := Option.mem_some.mp hx
      have hrecyclable := (h.recyclable b hmem).refresh dev resetSkb
      exact ⟨h.not_held b hmem, canRecycle_iff.mpr ⟨rfl, hrecyclable⟩,
        hrecyclable.le_size (hlength b rfl)⟩
  | consume cpu irqsDisabled b =>
    refine ⟨?_, trivial⟩
    obtain ⟨c', hrepresents, hcases⟩ :=
      h.represents.consume cpu (consumeSkbCanRecycle cfg irqsDisabled (w.skb b)) b
    simp only [World.step]
    rcases hconsume :
      w.recycler.consume cfg cpu (consumeSkbCanRecycle cfg irqsDisabled (w.skb b)) b
      with ⟨accepted, recycler⟩
    rw [hconsume] at hrepresents hcases
    rcases hcases with ⟨rfl, hcan, hkept⟩ | ⟨rfl, hkept⟩
    · have hheld : ∀ x ∈ [b], x ∈ w.held := fun x hx => List.mem_singleton.mp hx ▸ hlegal
      have hadd := h.add (List.nodup_singleton b) hheld
        (by simpa using (canRecycle_iff.mp hcan).2) hrepresents hkept
      rw [List.toFinset_cons, List.toFinset_nil, insert_empty_eq, Finset.sdiff_singleton_eq_erase]
        at hadd
      exact ⟨c', hadd⟩
    · exact ⟨c', h.of_le hrepresents hkept.le⟩
  | consumeListFast cpu skbList =>
    refine ⟨?_, trivial⟩
    obtain ⟨hnodup, hall⟩ := hlegal
    obtain ⟨c', hrepresents, hcases⟩ := h.represents.consumeListFast cpu skbList
    simp only [World.step]
    rcases hconsume : w.recycler.consumeListFast cfg cpu skbList with ⟨accepted, left, recycler⟩
    rw [hconsume] at hrepresents hcases
    rcases hcases with ⟨rfl, hkept⟩ | ⟨rfl, hkept⟩
    · exact ⟨c', h.add hnodup (fun b hb => (hall b hb).1)
        (fun b hb => (canRecycle_iff.mp (hall b hb).2).2) hrepresents hkept⟩
    · exact ⟨c', h.of_le hrepresents hkept.le⟩
  | create b skb =>
    have hnew : b ∉ c.kept := fun hb => hlegal.2 (h.represents.keeps hb)
    exact ⟨⟨c, h.update hnew skb Finset.Subset.rfl⟩, trivial⟩
  | change b skb =>
    have hnew : b ∉ c.kept := fun hb => h.not_held b hb hlegal
    exact ⟨⟨c, h.update hnew skb (Finset.subset_insert b w.held)⟩, trivial⟩
  | destroy b =>
    refine ⟨⟨c, { h with not_held := fun x hx hmem => ?_ }⟩, trivial⟩
    exact h.not_held x hx (Finset.mem_of_mem_erase hmem)
  | upkeep u => exact ⟨⟨_, h.of_le (h.represents.upkeep u) (c.kept_upkeep u)⟩, trivial⟩

end Exclusive

/-- **Buffers are handed out to one holder at a time.** Whatever the CPUs do in whatever order, a
buffer that is allocated is held by nobody else, as long as only buffers that are held are given
back; and it is as good as new. -/
theorem allocations_exclusive [Fintype Cpu] (cfg : Config) (skb : B → Skb)
    (events : List (Event Cpu B))
    (hlegal : Runs.Along (World.step cfg) (World.Legal cfg) (World.init skb) events) :
    Runs.Along (World.step cfg) (World.Sound cfg) (World.init skb) events := by
  have hstep : ∀ (w : World Cpu B) e, (∃ c, World.Exclusive cfg w c) → w.Legal cfg e →
      (∃ c, (w.step cfg e).Exclusive cfg c) ∧ w.Sound cfg e :=
    fun _ e ⟨_, h⟩ he => h.step e he
  exact Runs.along_of_step hstep ⟨Cache.init, exclusive_init skb⟩ hlegal

/-- The constants of the build for ipq95xx. -/
def ipq95xx : Config where
  skbRecycleSize := 2304
  netSkbPad := 64
  smpCacheBytes := 64
  maxSharedPools := 8
  smpCacheBytes_pos := by decide
  maxSharedPools_pos := by decide

/-- A buffer as the allocator of the system makes it. -/
def newSkb : Skb where
  zerocopy := false
  headFrag := false
  dataLen := 0
  fragList := false
  nrFrags := 0
  fclone := 0
  size := 2368
  cloned := false
  pfmemalloc := false
  activeExtensions := 0
  isFromRecycler := false
  fastRecycled := false
  recycledForDs := false
  dev := 0

/-- Two buffers that one CPU does not need any more, one of which goes to another CPU. -/
def sharedBuffer : List (Event Bool ℕ) :=
  [.upkeep (.writeMaxSkbs none 0), .upkeep (.writeMaxSpareSkbs none 1), .create 0 newSkb,
    .create 1 newSkb, .consume false false 0, .consume false false 1, .alloc true 1500 7 true]

/-- A buffer that one CPU gives back and another one takes. -/
theorem allocations_exclusive_shared :
    Runs.Along (World.step ipq95xx) (World.Sound ipq95xx)
        (World.init fun _ => newSkb) sharedBuffer ∧
      (sharedBuffer.foldl (World.step ipq95xx) (World.init fun _ => newSkb)).held = {0} :=
  ⟨allocations_exclusive ipq95xx _ sharedBuffer (by decide), by decide⟩

end TurrisBuild.SkbRecycler
