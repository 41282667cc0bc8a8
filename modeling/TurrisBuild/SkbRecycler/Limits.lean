import Mathlib.Algebra.Order.BigOperators.Group.Finset
import Mathlib.Algebra.Order.BigOperators.Group.List
import TurrisBuild.SkbRecycler.Ownership

/-!
# Limits and misses

The limits of the lists are looked at only before buffers are put in, so that a list may grow past
its limit when it is given several at once, or a whole pool. The limits bound what all lists keep
together nevertheless. A spare list that may hold nothing is shared when it is empty, and what is
behind an empty pool is not looked for.
-/

namespace TurrisBuild.SkbRecycler

variable {Cpu B : Type*} [DecidableEq Cpu] {cfg : Config}

/-! ### Steps of the cache -/

/-- The buffers that are given to the recycler. -/
def Op.given : Op Cpu B → List B
  | .consume _ _ skb => [skb]
  | .consumeListFast _ skbList => skbList
  | _ => []

/-- A step takes a buffer, gives some or is upkeep, if it does anything. -/
theorem Cache.step_of {c : Cache Cpu B} {op : Op Cpu B} (motive : Cache Cpu B → Prop)
    (hc : motive c) (htake : ∀ cpu, motive (c.take cpu).2)
    (hgive : ∀ cpu place c', c.give cfg cpu op.given = some (place, c') → motive c')
    (hupkeep : ∀ u, op = .upkeep u → motive (c.upkeep u)) : motive (c.step cfg op) := by
  cases op with
  | alloc cpu length =>
    simp only [Cache.step, Cache.apply]
    split
    · exact htake cpu
    · exact hc
  | consume cpu canRecycle skb =>
    simp only [Cache.step, Cache.apply]
    split
    · next heq =>
      split at heq
      · exact hgive cpu _ _ heq
      · cases heq
    · exact hc
  | consumeListFast cpu skbList =>
    simp only [Cache.step, Cache.apply]
    split
    · next heq =>
      split at heq
      · exact hgive cpu _ _ heq
      · cases heq
    · next heq =>
      split at heq
      · exact hgive cpu _ _ heq
      · cases heq
    · exact hc
  | upkeep u => exact hupkeep u rfl

/-! ### Limits -/

/-- The limits that are written and the lists that are given are not larger than this. -/
def Op.Within (maxSkbs maxSpareSkbs maxList : ℕ) : Op Cpu B → Prop
  | .consumeListFast _ skbList => skbList.length ≤ maxList
  | .upkeep (.writeMaxSkbs _ max) => max ≤ maxSkbs
  | .upkeep (.writeMaxSpareSkbs _ max) => max ≤ maxSpareSkbs
  | _ => True

/-- Each limit is kept, but for a list that was put in when one more buffer would have been. -/
structure Cache.Bounded (maxSkbs maxSpareSkbs maxList : ℕ) (c : Cache Cpu B) : Prop where
  limit_le : ∀ cpu, c.limit cpu ≤ maxSkbs
  spareLimit_le : ∀ cpu, c.spareLimit cpu ≤ maxSpareSkbs
  own_le : ∀ cpu, (c.own cpu).length ≤ max maxSkbs maxSpareSkbs - 1 + maxList
  spare_le : ∀ cpu, (c.spare cpu).length ≤ maxSpareSkbs - 1 + maxList
  shared_le : ∀ pool ∈ c.shared, pool.length ≤ maxSpareSkbs - 1 + maxList

section Bounded

variable {maxSkbs maxSpareSkbs maxList : ℕ} {c c' : Cache Cpu B}

private theorem writeCore_le {core : Cpu → ℕ} {bound n : ℕ} (hcore : ∀ cpu, core cpu ≤ bound)
    (hn : n ≤ bound) (written : Option Cpu) (cpu : Cpu) : writeCore written n core cpu ≤ bound := by
  cases written with
  | none => exact hn
  | some written =>
    rw [writeCore, Function.update_apply]
    split
    · exact hn
    · exact hcore cpu

/-- A list that is replaced by one that is not too long. -/
theorem length_update_le {lists : Cpu → List B} {bound : ℕ} {l : List B}
    (hlists : ∀ cpu, (lists cpu).length ≤ bound) (hl : l.length ≤ bound) (replaced cpu : Cpu) :
    (Function.update lists replaced l cpu).length ≤ bound := by
  rw [Function.update_apply]
  split
  · exact hl
  · exact hlists cpu

/-- Taking a buffer keeps the limits. -/
theorem Cache.Bounded.take (h : c.Bounded maxSkbs maxSpareSkbs maxList) (cpu : Cpu) :
    (c.take cpu).2.Bounded maxSkbs maxSpareSkbs maxList := by
  rw [Cache.take]
  cases hown : c.own cpu with
  | cons skb rest =>
    have hlength := h.own_le cpu
    rw [hown, List.length_cons] at hlength
    exact { h with own_le := length_update_le h.own_le (by omega) cpu }
  | nil =>
    cases hshared : c.shared with
    | nil => exact h
    | cons pool shared =>
      have hpools := h.shared_le
      rw [hshared] at hpools
      obtain ⟨hpool, hrest⟩ := List.forall_mem_cons.mp hpools
      cases pool with
      | nil => exact { h with shared_le := hrest }
      | cons skb rest =>
        rw [List.length_cons] at hpool
        have hlength : rest.length ≤ max maxSkbs maxSpareSkbs - 1 + maxList := by omega
        exact { h with own_le := length_update_le h.own_le hlength cpu, shared_le := hrest }

/-- Giving buffers back keeps the limits. -/
theorem Cache.Bounded.give (h : c.Bounded maxSkbs maxSpareSkbs maxList) {cpu : Cpu}
    {skbs : List B} {place : Place} (hskbs : skbs.length ≤ maxList)
    (hgive : c.give cfg cpu skbs = some (place, c')) :
    c'.Bounded maxSkbs maxSpareSkbs maxList := by
  have hlimit := h.limit_le cpu
  have hspareLimit := h.spareLimit_le cpu
  rw [Cache.give] at hgive
  split at hgive
  · next hroom =>
    cases hgive
    refine { h with own_le := length_update_le h.own_le ?_ cpu }
    rw [List.length_append]
    omega
  split at hgive
  · next hroom =>
    cases hgive
    refine { h with spare_le := length_update_le h.spare_le ?_ cpu }
    rw [List.length_append]
    omega
  split at hgive
  · cases hgive
    refine { h with spare_le := length_update_le h.spare_le (by omega) cpu, shared_le := ?_ }
    intro pool hpool
    rcases List.mem_append.mp hpool with hpool | hpool
    · exact h.shared_le pool hpool
    · rw [List.mem_singleton.mp hpool]
      exact h.spare_le cpu
  · cases hgive

/-- So does upkeep within the limits. -/
theorem Cache.Bounded.upkeep (h : c.Bounded maxSkbs maxSpareSkbs maxList) {u : Upkeep Cpu}
    (hu : (Op.upkeep u : Op Cpu B).Within maxSkbs maxSpareSkbs maxList) :
    (c.upkeep u).Bounded maxSkbs maxSpareSkbs maxList := by
  cases u with
  | freeRecycleList cpu =>
    exact { h with own_le := length_update_le h.own_le (Nat.zero_le _) cpu }
  | freeRecycleSpareList cpu =>
    exact { h with spare_le := length_update_le h.spare_le (Nat.zero_le _) cpu }
  | flush => exact { h with shared_le := fun _ hpool => nomatch hpool }
  | writeMaxSkbs cpu max => exact { h with limit_le := writeCore_le h.limit_le hu cpu }
  | writeMaxSpareSkbs cpu max =>
    exact { h with spareLimit_le := writeCore_le h.spareLimit_le hu cpu }
  | writeEnable enable => exact { h with }

/-- **Bounds of one step.** -/
theorem Cache.Bounded.step (h : c.Bounded maxSkbs maxSpareSkbs maxList) (hlist : 1 ≤ maxList)
    {op : Op Cpu B} (hop : op.Within maxSkbs maxSpareSkbs maxList) :
    (c.step cfg op).Bounded maxSkbs maxSpareSkbs maxList := by
  have hgiven : op.given.length ≤ maxList := by
    cases op with
    | consumeListFast cpu skbList => exact hop
    | consume cpu canRecycle skb => exact hlist
    | alloc cpu length => exact Nat.zero_le _
    | upkeep u => exact Nat.zero_le _
  refine c.step_of _ h h.take (fun cpu place c' hgive => h.give hgiven hgive) ?_
  rintro u rfl
  exact h.upkeep hop

variable [Fintype Cpu] {r : Recycler Cpu B}

omit [DecidableEq Cpu] in
/-- All lists together. -/
theorem Represents.count_le (h : Represents cfg r c)
    (hbounded : c.Bounded maxSkbs maxSpareSkbs maxList) :
    r.count cfg ≤ Fintype.card Cpu * (max maxSkbs maxSpareSkbs - 1 + maxList) +
      (Fintype.card Cpu + (cfg.capacity - 1)) * (maxSpareSkbs - 1 + maxList) := by
  have hown : ∑ cpu, (r.recycleList cpu).length ≤
      Fintype.card Cpu * (max maxSkbs maxSpareSkbs - 1 + maxList) := by
    rw [h.own_eq]
    exact Finset.sum_le_card_nsmul _ _ _ fun cpu _ => hbounded.own_le cpu
  have hspare : ∑ cpu, (r.recycleSpareList cpu).length ≤
      Fintype.card Cpu * (maxSpareSkbs - 1 + maxList) := by
    rw [h.spare_eq]
    exact Finset.sum_le_card_nsmul _ _ _ fun cpu _ => hbounded.spare_le cpu
  have hshared : ∑ i ∈ Finset.range cfg.maxSharedPools, (r.globRecycler.slot i).length ≤
      (cfg.capacity - 1) * (maxSpareSkbs - 1 + maxList) := by
    rw [h.holds.sum_slot cfg.capacity_le List.length_nil]
    have hlt := h.holds.length_lt
    calc (c.shared.map List.length).sum
        ≤ (c.shared.map List.length).length • (maxSpareSkbs - 1 + maxList) :=
          List.sum_le_card_nsmul _ _ (by simpa using hbounded.shared_le)
      _ ≤ (cfg.capacity - 1) * (maxSpareSkbs - 1 + maxList) := by
          rw [List.length_map, smul_eq_mul]
          exact Nat.mul_le_mul_right _ (by omega)
  rw [Recycler.count, Nat.add_mul, ← Nat.add_assoc]
  exact Nat.add_le_add (Nat.add_le_add hown hspare) hshared

end Bounded

omit [DecidableEq Cpu] in
private theorem bounded_init {maxSkbs maxSpareSkbs : ℕ} (maxList : ℕ) (hmaxSkbs : 1024 ≤ maxSkbs)
    (hmaxSpareSkbs : 256 ≤ maxSpareSkbs) :
    (Cache.init : Cache Cpu B).Bounded maxSkbs maxSpareSkbs maxList where
  limit_le _ := hmaxSkbs
  spareLimit_le _ := hmaxSpareSkbs
  own_le _ := Nat.zero_le _
  spare_le _ := Nat.zero_le _
  shared_le _ h := nomatch h

/-- **The recycler keeps a bounded number of buffers.** Whatever the CPUs do in whatever order, and
whenever limits are written, all lists together are not longer than what the greatest limits
allow. -/
theorem kept_bounded [Fintype Cpu] (cfg : Config) {maxSkbs maxSpareSkbs maxList : ℕ}
    (hmaxSkbs : 1024 ≤ maxSkbs) (hmaxSpareSkbs : 256 ≤ maxSpareSkbs) (hmaxList : 1 ≤ maxList)
    (ops : List (Op Cpu B)) (hops : ∀ op ∈ ops, op.Within maxSkbs maxSpareSkbs maxList) :
    ∀ r ∈ Runs.states (Recycler.step cfg) Recycler.init ops,
      r.count cfg ≤ Fintype.card Cpu * (max maxSkbs maxSpareSkbs - 1 + maxList) +
        (Fintype.card Cpu + (cfg.capacity - 1)) * (maxSpareSkbs - 1 + maxList) := by
  have hstep : ∀ (r : Recycler Cpu B) op,
      (∃ c, Represents cfg r c ∧ c.Bounded maxSkbs maxSpareSkbs maxList) →
      op.Within maxSkbs maxSpareSkbs maxList →
      ∃ c, Represents cfg (r.step cfg op) c ∧ c.Bounded maxSkbs maxSpareSkbs maxList := by
    rintro r op ⟨c, hrepresents, hbounded⟩ hop
    exact ⟨c.step cfg op, (hrepresents.apply op).2, hbounded.step hmaxList hop⟩
  intro r hr
  obtain ⟨c, hrepresents, hbounded⟩ := Runs.forall_states_of_invariant hstep
    ⟨Cache.init, represents_init, bounded_init maxList hmaxSkbs hmaxSpareSkbs⟩ hops r hr
  exact hrepresents.count_le hbounded

/-- Two CPUs with the limits of the start, of which one is given two buffers. -/
def twoCpus : List (Op Bool ℕ) :=
  [.consume false true 0, .consume false true 1, .alloc true 1500]

/-- The bound for two CPUs of one chip. -/
theorem kept_bounded_twoCpus :
    (twoCpus.foldl (Recycler.step ipq95xx) Recycler.init).count ipq95xx ≤
      2 * 1024 + (2 + (ipq95xx.capacity - 1)) * 256 :=
  kept_bounded ipq95xx le_rfl le_rfl le_rfl twoCpus (by simp [twoCpus, Op.Within]) _
    (by simp [twoCpus])

/-! ### Misses -/

/-- No spare list is told to hold nothing. -/
def Op.KeepsSpare : Op Cpu B → Prop
  | .upkeep (.writeMaxSpareSkbs _ max) => 0 < max
  | _ => True

/-- An allocation that could be served is, unless there is no buffer in the list of the CPU and in
the pools. -/
def Recycler.MissesOnlyWhenEmpty (cfg : Config) (r : Recycler Cpu B) : Op Cpu B → Prop
  | .alloc cpu length =>
    r.enable = true → length ≤ cfg.skbRecycleSize → (r.alloc cfg cpu length).1 = none →
      r.recycleList cpu = [] ∧ ∀ i < cfg.maxSharedPools, r.globRecycler.slot i = []
  | _ => True

/-- Spare lists hold something when they are shared. -/
structure Cache.NoEmptyPool (c : Cache Cpu B) : Prop where
  spareLimit_pos : ∀ cpu, 0 < c.spareLimit cpu
  shared_ne_nil : ∀ pool ∈ c.shared, pool ≠ []

section Misses

variable {c c' : Cache Cpu B} {r : Recycler Cpu B}

/-- Taking a buffer leaves no empty pool. -/
theorem Cache.NoEmptyPool.take (h : c.NoEmptyPool) (cpu : Cpu) : (c.take cpu).2.NoEmptyPool := by
  rw [Cache.take]
  cases hown : c.own cpu with
  | cons skb rest => exact { h with }
  | nil =>
    cases hshared : c.shared with
    | nil => exact h
    | cons pool shared =>
      have hpools := h.shared_ne_nil
      rw [hshared] at hpools
      have hrest := (List.forall_mem_cons.mp hpools).2
      cases pool with
      | nil => exact { h with shared_ne_nil := hrest }
      | cons skb rest => exact { h with shared_ne_nil := hrest }

/-- Giving buffers back leaves no empty pool. -/
theorem Cache.NoEmptyPool.give (h : c.NoEmptyPool) {cpu : Cpu} {skbs : List B} {place : Place}
    (hgive : c.give cfg cpu skbs = some (place, c')) : c'.NoEmptyPool := by
  rw [Cache.give] at hgive
  split at hgive
  · cases hgive
    exact { h with }
  split at hgive
  · cases hgive
    exact { h with }
  split at hgive
  · next hfull hroom =>
    cases hgive
    refine { h with shared_ne_nil := fun pool hpool => ?_ }
    rcases List.mem_append.mp hpool with hpool | hpool
    · exact h.shared_ne_nil pool hpool
    · have hpos := h.spareLimit_pos cpu
      rw [List.mem_singleton.mp hpool, ← List.length_pos_iff_ne_nil]
      omega
  · cases hgive

/-- Neither does upkeep that keeps the spare lists. -/
theorem Cache.NoEmptyPool.upkeep (h : c.NoEmptyPool) {u : Upkeep Cpu}
    (hu : (Op.upkeep u : Op Cpu B).KeepsSpare) : (c.upkeep u).NoEmptyPool := by
  cases u with
  | freeRecycleList cpu => exact { h with }
  | freeRecycleSpareList cpu => exact { h with }
  | flush => exact { h with shared_ne_nil := fun _ hpool => nomatch hpool }
  | writeMaxSkbs cpu max => exact { h with }
  | writeMaxSpareSkbs written max =>
    refine { h with spareLimit_pos := fun cpu => ?_ }
    cases written with
    | none => exact hu
    | some written =>
      simp only [Cache.upkeep, writeCore, Function.update_apply]
      split
      · exact hu
      · exact h.spareLimit_pos cpu
  | writeEnable enable => exact { h with }

/-- No operation leaves an empty pool. -/
theorem Cache.NoEmptyPool.step (h : c.NoEmptyPool) {op : Op Cpu B} (hop : op.KeepsSpare) :
    (c.step cfg op).NoEmptyPool := by
  refine c.step_of _ h h.take (fun cpu place c' hgive => h.give hgive) ?_
  rintro u rfl
  exact h.upkeep hop

/-- Nothing is taken only when there is nothing. -/
theorem Cache.NoEmptyPool.take_eq_none (h : c.NoEmptyPool) {cpu : Cpu}
    (hnone : (c.take cpu).1 = none) : c.own cpu = [] ∧ c.shared = [] := by
  rw [Cache.take] at hnone
  split at hnone
  · cases hnone
  · cases hnone
  · next hshared =>
    have hne := h.shared_ne_nil [] (by rw [hshared]; exact List.mem_cons_self)
    exact absurd rfl hne
  · next hown hshared => exact ⟨hown, hshared⟩

private theorem Represents.missesOnlyWhenEmpty (h : Represents cfg r c) (hpools : c.NoEmptyPool)
    (op : Op Cpu B) : r.MissesOnlyWhenEmpty cfg op := by
  cases op with
  | alloc cpu length =>
    intro henable hlength hnone
    rw [(h.take cpu henable hlength).1] at hnone
    obtain ⟨hown, hshared⟩ := hpools.take_eq_none hnone
    have hholds := hshared ▸ h.holds
    exact ⟨h.own_eq ▸ hown, fun i _ => hholds.slot_nil i fun j hj => nomatch hj⟩
  | consume cpu canRecycle skb => trivial
  | consumeListFast cpu skbList => trivial
  | upkeep u => trivial

end Misses

/-- **Misses.** In a run in which no spare list is told to hold nothing, an allocation that could be
served misses only if the list of the CPU and all pools are empty. -/
theorem misses_only_when_empty (cfg : Config) (ops : List (Op Cpu B))
    (hops : ∀ op ∈ ops, op.KeepsSpare) :
    Runs.Along (Recycler.step cfg) (Recycler.MissesOnlyWhenEmpty cfg) Recycler.init ops := by
  have hstep : ∀ (r : Recycler Cpu B) op, (∃ c, Represents cfg r c ∧ c.NoEmptyPool) →
      op.KeepsSpare → (∃ c, Represents cfg (r.step cfg op) c ∧ c.NoEmptyPool) ∧
        r.MissesOnlyWhenEmpty cfg op := by
    rintro r op ⟨c, hrepresents, hpools⟩ hop
    exact ⟨⟨c.step cfg op, (hrepresents.apply op).2, hpools.step hop⟩,
      hrepresents.missesOnlyWhenEmpty hpools op⟩
  have hinit : (Cache.init : Cache Cpu B).NoEmptyPool :=
    ⟨fun _ => Nat.succ_pos 255, fun _ hpool => nomatch hpool⟩
  exact Runs.along_of_step hstep ⟨Cache.init, represents_init, hinit⟩
    (Runs.along_of_forall_mem hops)

/-- A pool is taken after which there is none. -/
theorem misses_only_when_empty_twoCpus :
    Runs.Along (Recycler.step ipq95xx) (Recycler.MissesOnlyWhenEmpty ipq95xx) Recycler.init
      ([.upkeep (.writeMaxSkbs none 0), .upkeep (.writeMaxSpareSkbs none 1), .consume false true 0,
        .consume false true 1, .alloc true 1500, .alloc true 1500] : List (Op Bool ℕ)) :=
  misses_only_when_empty ipq95xx _ (by simp [Op.KeepsSpare])

/-- With a limit of 0 an empty spare list is shared, and the pool behind it is not found. -/
def emptyPoolFirst : Recycler Bool ℕ :=
  ([.upkeep (.writeMaxSkbs none 0), .upkeep (.writeMaxSpareSkbs none 0), .consume false true 0,
    .consume false true 1] : List (Op Bool ℕ)).foldl (Recycler.step ipq95xx) Recycler.init

example : (emptyPoolFirst.alloc ipq95xx true 1500).1 = none ∧
    emptyPoolFirst.globRecycler.slot 1 = [0] := by decide

end TurrisBuild.SkbRecycler
