import TurrisBuild.Npt.Checksum

/-!
# Replies to translated packets

Nothing is kept of a translation. A reply is translated by the expression with the prefixes
exchanged, and that is the inverse for addresses in the prefix, so that two hosts never get the
same address. The verification of the reply may refuse it all the same when the prefixes are
long, since the adjustment can make the interface identifier zero.
-/

namespace TurrisBuild.Npt

open OnesComplement

variable {net : Net} {order : ByteOrder} {npt : NptInfo} {addr addr' : Address}

/-- The expression for the other direction. -/
def NptInfo.reverse (npt : NptInfo) : NptInfo where
  srcPfx := npt.dstPfx
  dstPfx := npt.srcPfx
  srcPfxLen := npt.dstPfxLen
  dstPfxLen := npt.srcPfxLen
  adjustment := npt.adjustment

/-- The address is in the source prefix, and has no bits that only the other prefix covers. -/
def InPrefix (order : ByteOrder) (npt : NptInfo) (addr : Address) : Prop :=
  replaced order npt addr = npt.srcPfx

/-! ### The word that is adjusted -/

private theorem adjustedIdx_cases {pfxLen : ℕ} {addr : Address} {idx : Fin 8}
    (h : adjustedIdx pfxLen addr = some idx) :
    pfxLen ≤ 48 ∧ idx = 3 ∨ 48 < pfxLen ∧ 4 ≤ idx ∧ addr idx ≠ 0xffff := by
  unfold adjustedIdx at h
  split at h
  · next hle => exact .inl ⟨hle, (Option.some.inj h).symm⟩
  · next hlt =>
    have hne := List.find?_some h
    have hmem := List.mem_of_find?_eq_some h
    have hge : ∀ idx ∈ [4, 5, 6, 7], (4 : Fin 8) ≤ idx := by decide
    exact .inr ⟨by omega, hge idx hmem, of_decide_eq_true hne⟩

/-- It is not in the prefix. -/
theorem mask16_adjustedIdx {pfxLen : ℕ} (hle : pfxLen ≤ 64) {addr : Address} {idx : Fin 8}
    (h : adjustedIdx pfxLen addr = some idx) : mask16 order pfxLen idx = 0xffff := by
  rcases adjustedIdx_cases h with ⟨hshort, rfl⟩ | ⟨-, hidx, -⟩
  · exact mask16_subnet hshort
  · apply mask16_of_le
    have hval : 4 ≤ idx.val := hidx
    omega

private theorem find?_update {p : BitVec 16 → Bool} {addr : Address} {idx : Fin 8}
    {w : BitVec 16} (hw : p w = true) {idxs : List (Fin 8)}
    (h : idxs.find? (fun i => p (addr i)) = some idx) :
    idxs.find? (fun i => p (Function.update addr idx w i)) = some idx := by
  induction idxs with
  | nil => cases h
  | cons i idxs ih =>
    rw [List.find?_cons] at h ⊢
    rcases eq_or_ne i idx with rfl | hne
    · rw [Function.update_self, hw]
    · rw [Function.update_of_ne hne]
      split at h
      · exact absurd (Option.some.inj h) hne
      · exact ih h

/-- It stays the one to adjust, because all ones are never left. -/
theorem adjustedIdx_update {pfxLen : ℕ} {addr : Address} {idx : Fin 8} {w : BitVec 16}
    (hw : w ≠ 0xffff) (h : adjustedIdx pfxLen addr = some idx) :
    adjustedIdx pfxLen (Function.update addr idx w) = some idx := by
  unfold adjustedIdx at h ⊢
  split at h
  · next hle => rw [if_pos hle, h]
  · next hlt =>
    rw [if_neg hlt]
    exact find?_update (p := fun w => decide (w ≠ csumMangled0)) (decide_eq_true hw) h

/-! ### The way back -/

private theorem reverse_pfxLen (npt : NptInfo) : npt.reverse.pfxLen = npt.pfxLen := Nat.max_comm _ _

private theorem adjustCsum_reverse {npt' : NptInfo} (h : adjustCsum net order npt = some npt') :
    ∃ rev, adjustCsum net order npt.reverse = some rev := by
  unfold adjustCsum at h
  split at h
  · cases h
  · next hlen =>
    split at h
    · cases h
    · next hsrc =>
      split at h
      · cases h
      · next hdst =>
        unfold adjustCsum
        rw [if_neg fun hlen' => hlen hlen'.symm, NptInfo.reverse, if_neg hdst, if_neg hsrc]
        exact ⟨_, rfl⟩

/-- Replacing the prefix of an address twice gives it back. -/
theorem replacePfx_replacePfx {npt rev : NptInfo} (hlen : rev.pfxLen = npt.pfxLen)
    (hsrc : rev.dstPfx = npt.srcPfx) {addr : Address} (hin : InPrefix order npt addr)
    {idx : Fin 8} (hmask : mask16 order npt.pfxLen idx = 0xffff) (w : BitVec 16) :
    replacePfx order rev (Function.update (replacePfx order npt addr) idx w) =
      Function.update addr idx w := by
  have hback : ∀ a d m : BitVec 16,
      (a &&& m ||| d &&& ~~~m) &&& m ||| (a &&& ~~~m) &&& ~~~m = a := by
    intro a d m
    ext j hj
    cases hm : m[j] <;> simp [hm]
  have hself : ∀ w s : BitVec 16, w &&& 0xffff ||| s &&& ~~~0xffff = w := by
    intro w s
    rw [and_ones, show s &&& ~~~(0xffff : BitVec 16) = 0 from BitVec.and_zero]
    exact BitVec.or_zero
  funext i
  have hpfx : addr i &&& ~~~mask16 order npt.pfxLen i = rev.dstPfx i :=
    (congrFun hin i).trans (congrFun hsrc i).symm
  rw [replacePfx_apply, hlen]
  rcases eq_or_ne i idx with rfl | hne
  · rw [Function.update_self, Function.update_self, hmask, hself]
  · rw [Function.update_of_ne hne, Function.update_of_ne hne, replacePfx_apply, ← hpfx, hback]

/-- A word outside the prefix is not replaced. -/
theorem replacePfx_of_mask {npt : NptInfo} {addr : Address} {idx : Fin 8}
    (hmask : mask16 order npt.pfxLen idx = 0xffff) : replacePfx order npt addr idx = addr idx := by
  rw [replacePfx_apply, hmask, and_ones,
    show npt.dstPfx idx &&& ~~~(0xffff : BitVec 16) = 0 from BitVec.and_zero]
  exact BitVec.or_zero

private theorem adjustedIdx_replacePfx {npt : NptInfo} (hle : npt.pfxLen ≤ 64) (addr : Address) :
    adjustedIdx npt.pfxLen (replacePfx order npt addr) = adjustedIdx npt.pfxLen addr := by
  have hwords : ∀ idx ∈ [4, 5, 6, 7], replacePfx order npt addr idx = addr idx := by
    intro idx hidx
    have hge : ∀ idx ∈ [4, 5, 6, 7], 32 * ((idx : Fin 8).val / 2) ≥ 64 := by decide
    exact replacePfx_of_mask (mask16_of_le (hle.trans (hge idx hidx)))
  unfold adjustedIdx
  split
  · rfl
  · simp only [List.find?_cons, List.find?_nil, hwords 4 (by decide), hwords 5 (by decide),
      hwords 6 (by decide), hwords 7 (by decide)]

/-- The adjustment is taken back. -/
theorem adjustedWord_adjustedWord (hnet : net.Lawful) {npt rev : NptInfo}
    (hresidue : residue rev.adjustment = -residue npt.adjustment) {w : BitVec 16}
    (hw : w ≠ 0xffff) : adjustedWord net rev (adjustedWord net npt w) = w := by
  refine residue_injective (adjustedWord_ne _) hw ?_
  rw [residue_adjustedWord hnet, residue_adjustedWord hnet, hresidue]
  ring

private theorem mapPfx_reverse (hnet : net.Lawful) {npt rev : NptInfo}
    (hadjusted : Adjusted order npt)
    (hlen : rev.pfxLen = npt.pfxLen) (hpfx : rev.dstPfx = npt.srcPfx)
    (hresidue : residue rev.adjustment = -residue npt.adjustment)
    (hin : InPrefix order npt addr) (hsubnet : npt.pfxLen ≤ 48 → addr 3 ≠ 0xffff)
    (h : mapPfx net order npt addr = (true, addr')) :
    mapPfx net order rev addr' = (true, addr) := by
  obtain ⟨idx, hidx, rfl⟩ := mapPfx_spec h
  have hmask : mask16 order npt.pfxLen idx = 0xffff :=
    mask16_adjustedIdx hadjusted.pfxLen_le hidx
  have hword : replacePfx order npt addr idx = addr idx := replacePfx_of_mask hmask
  have hne : addr idx ≠ 0xffff := by
    rcases adjustedIdx_cases hidx with ⟨hshort, rfl⟩ | ⟨-, -, hne⟩
    · exact hsubnet hshort
    · rwa [hword] at hne
  rw [hword]
  have hreplace := replacePfx_replacePfx hlen hpfx hin hmask (adjustedWord net npt (addr idx))
  have hagain : adjustedIdx rev.pfxLen
      (Function.update addr idx (adjustedWord net npt (addr idx))) = some idx := by
    refine adjustedIdx_update (adjustedWord_ne _) ?_
    rwa [hlen, ← adjustedIdx_replacePfx hadjusted.pfxLen_le]
  rw [mapPfx]
  simp only [hreplace]
  rw [← NptInfo.pfxLen, hagain]
  simp only [Function.update_self, Function.update_idem]
  have hback := adjustedWord_adjustedWord hnet hresidue hne
  refine Prod.ext rfl ?_
  exact (congrArg (Function.update addr idx) hback).trans (Function.update_eq_self idx addr)

/-! ### Verification -/

private theorem verifyAddr_iff {pfxLen : ℕ} {addr : Address} :
    verifyAddr pfxLen addr = true ↔
      (∃ idx : Fin 8, 4 ≤ idx ∧ addr idx ≠ 0) ∧ (∃ idx : Fin 8, 4 ≤ idx ∧ addr idx ≠ 0xffff) ∧
        (pfxLen ≤ 48 → addr 3 ≠ 0xffff) := by
  have hwords : ∀ w : BitVec 16, (∃ idx : Fin 8, 4 ≤ idx ∧ addr idx ≠ w) ↔
      ¬(addr 4 = w ∧ addr 5 = w ∧ addr 6 = w ∧ addr 7 = w) := by
    intro w
    constructor
    · rintro ⟨idx, hidx, hne⟩ ⟨h4, h5, h6, h7⟩
      have hcases : ∀ idx : Fin 8, 4 ≤ idx → idx = 4 ∨ idx = 5 ∨ idx = 6 ∨ idx = 7 := by decide
      rcases hcases idx hidx with rfl | rfl | rfl | rfl
      · exact hne h4
      · exact hne h5
      · exact hne h6
      · exact hne h7
    · intro h
      by_contra hall
      push Not at hall
      exact h ⟨hall 4 (by decide), hall 5 (by decide), hall 6 (by decide), hall 7 (by decide)⟩
  rw [hwords, hwords, verifyAddr]
  split
  · next hzero => exact iff_of_false Bool.false_ne_true fun h => h.1 hzero
  · next hzero =>
    split
    · next hones => exact iff_of_false Bool.false_ne_true fun h => h.2.1 hones
    · next hones =>
      split
      · next hsubnet => exact iff_of_false Bool.false_ne_true fun h => h.2.2 hsubnet.1 hsubnet.2
      · next hsubnet => exact iff_of_true rfl ⟨hzero, hones, fun hle heq => hsubnet ⟨hle, heq⟩⟩

/-- An address that is translated comes back by the other prefixes. -/
theorem mapPfx_of_translated (hnet : net.Lawful) (hin : InPrefix order npt addr)
    (h : eval net order .src npt addr = (.translated, addr')) :
    ∃ rev, adjustCsum net order npt.reverse = some rev ∧
      mapPfx net order rev addr' = (true, addr) := by
  obtain ⟨hverify, npt', hadjust, hmap⟩ := trans_spec h
  obtain ⟨hadjusted, hsrc, hdst, hlen⟩ := adjustCsum_spec hnet hadjust
  obtain ⟨rev, hrev⟩ := adjustCsum_reverse hadjust
  obtain ⟨hadjusted', hsrc', hdst', hlen'⟩ := adjustCsum_spec hnet hrev
  refine ⟨rev, hrev, ?_⟩
  have hin' : InPrefix order npt' addr := by
    rwa [InPrefix, replaced, hlen, hsrc]
  refine mapPfx_reverse hnet hadjusted ?_ ?_ ?_ hin' (fun hshort => ?_) hmap
  · rw [hlen', reverse_pfxLen, hlen]
  · rw [hdst', hsrc]
    rfl
  · rw [hadjusted'.residue_eq, hadjusted.residue_eq, hsrc', hdst', hsrc, hdst]
    exact (neg_sub _ _).symm
  · have hle : npt.srcPfxLen ≤ 48 := by
      rw [hlen] at hshort
      exact (Nat.le_max_left _ _).trans hshort
    exact (verifyAddr_iff.mp hverify).2.2 hle

/-- The interface identifier is left when the word for the subnet is adjusted. -/
theorem translated_words (hnet : net.Lawful)
    (h : eval net order .src npt addr = (.translated, addr')) :
    (npt.pfxLen ≤ 48 → addr' 3 ≠ 0xffff ∧ ∀ idx : Fin 8, 4 ≤ idx → addr' idx = addr idx) ∧
      ∃ idx : Fin 8, 4 ≤ idx ∧ addr' idx ≠ 0xffff := by
  obtain ⟨hverify, npt', hadjust, hmap⟩ := trans_spec h
  obtain ⟨hadjusted, -, -, hlen⟩ := adjustCsum_spec hnet hadjust
  obtain ⟨idx, hidx, rfl⟩ := mapPfx_spec hmap
  have hleft : ∀ i : Fin 8, 4 ≤ i → i ≠ idx →
      Function.update (replacePfx order npt' addr) idx
        (adjustedWord net npt' (replacePfx order npt' addr idx)) i = addr i := by
    intro i hi hne
    rw [Function.update_of_ne hne]
    refine replacePfx_of_mask (mask16_of_le ?_)
    have hval : 4 ≤ i.val := hi
    have hle := hadjusted.pfxLen_le
    omega
  rcases adjustedIdx_cases hidx with ⟨hshort, rfl⟩ | ⟨hlong, hge, -⟩
  · have hwords : ∀ i : Fin 8, 4 ≤ i → i ≠ 3 := by decide
    refine ⟨fun _ => ⟨?_, fun i hi => hleft i hi (hwords i hi)⟩, ?_⟩
    · rw [Function.update_self]
      exact adjustedWord_ne _
    · obtain ⟨i, hi, hne⟩ := (verifyAddr_iff.mp hverify).2.1
      refine ⟨i, hi, ?_⟩
      rwa [hleft i hi (hwords i hi)]
  · refine ⟨fun hshort => absurd hshort (by omega), idx, hge, ?_⟩
    rw [Function.update_self]
    exact adjustedWord_ne _

private theorem siteHost_inPrefix : InPrefix .little (siteNpt .little) (siteHost .little) := by
  rw [InPrefix]
  decide

/-- With a longer prefix the identifier may be lost, and the reply is not verified. -/
example :
    let npt : NptInfo := { siteNpt .big with srcPfxLen := 56, dstPfxLen := 56 }
    let addr := ofWords .big ![0xfd01, 0x0203, 0x0405, 0x0001, 0x2ab0, 0, 0, 0]
    ∃ addr', eval genericNet .big .src npt addr = (.translated, addr') ∧
      eval genericNet .big .dst npt.reverse addr' = (.invalidIp, addr') := by
  intro npt addr
  exact ⟨(eval genericNet .big .src npt addr).2, by decide, by decide⟩

/-- The addresses of the source prefix that are translated. -/
def Translated (net : Net) (order : ByteOrder) (npt : NptInfo) : Set Address :=
  {addr | InPrefix order npt addr ∧ (eval net order .src npt addr).1 = .translated}

/-- **No address is given twice.** Hosts with different addresses in the source prefix keep
different addresses. -/
theorem translation_injective (hnet : net.Lawful) :
    Set.InjOn (fun addr => (eval net order .src npt addr).2) (Translated net order npt) := by
  intro addr₁ h₁ addr₂ h₂ heq
  obtain ⟨rev₁, hrev₁, hmap₁⟩ := mapPfx_of_translated hnet h₁.1 (Prod.ext h₁.2 rfl)
  obtain ⟨rev₂, hrev₂, hmap₂⟩ := mapPfx_of_translated hnet h₂.1 (Prod.ext h₂.2 rfl)
  obtain rfl := Option.some.inj (hrev₁.symm.trans hrev₂)
  have hsame : mapPfx net order rev₁ (eval net order .src npt addr₁).2 =
      mapPfx net order rev₁ (eval net order .src npt addr₂).2 :=
    congrArg (mapPfx net order rev₁) heq
  exact (Prod.mk.inj (hmap₁.symm.trans (hsame.trans hmap₂))).2

/-- No two hosts of that network share an address. -/
theorem translation_injective_site :
    siteHost .little ∈ Translated genericNet .little (siteNpt .little) ∧
      Set.InjOn (fun addr => (eval genericNet .little .src (siteNpt .little) addr).2)
        (Translated genericNet .little (siteNpt .little)) :=
  ⟨⟨siteHost_inPrefix, congrArg Prod.fst siteHost_translated⟩,
    translation_injective genericNet_lawful⟩

end TurrisBuild.Npt
