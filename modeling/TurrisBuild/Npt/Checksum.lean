import TurrisBuild.Npt.Translate

/-!
# The checksum of a translated address

A translation leaves the one's complement sum of the address, and with it every checksum over a
pseudo-header, exactly when the bits that it replaces have the sum of the source prefix. This is
so for the addresses in that prefix.
-/

namespace TurrisBuild.Npt

open OnesComplement

variable {net : Net} {order : ByteOrder}

/-! ### Masks -/

private theorem htons_and (w w' : BitVec 16) :
    order.htons (w &&& w') = order.htons w &&& order.htons w' := by
  cases order with
  | big => rfl
  | little =>
    ext i hi
    simp only [ByteOrder.htons, BitVec.getElem_and, BitVec.getElem_rotateLeft]
    split <;> rfl

private theorem htons_allOnes : order.htons 0xffff = 0xffff := by
  cases order with
  | big => rfl
  | little => decide

private theorem mask_getLsbD {pfxLen i : ℕ} (h : i < pfxLen) (j : ℕ) :
    (mask pfxLen i).getLsbD j = decide (j + pfxLen < i + 32) := by
  unfold mask
  split
  · next hlong =>
    rw [show (0 : BitVec 32).getLsbD j = false from BitVec.getLsbD_zero, eq_comm,
      decide_eq_false_iff_not]
    omega
  · next hshort =>
    have hlt : i + 32 - pfxLen < 32 := by omega
    have hpow : 2 ^ (i + 32 - pfxLen) < 2 ^ 32 := Nat.pow_lt_pow_right (by omega) hlt
    have hpos : 0 < 2 ^ (i + 32 - pfxLen) := Nat.two_pow_pos _
    have hval : ((1 : BitVec 32) <<< (i + 32 - pfxLen) - 1).toNat = 2 ^ (i + 32 - pfxLen) - 1 := by
      rw [BitVec.toNat_sub, BitVec.toNat_shiftLeft, Nat.shiftLeft_eq]
      simp
      omega
    rw [BitVec.getLsbD, hval, Nat.testBit_two_pow_sub_one]
    exact decide_eq_decide.mpr (by omega)

private theorem mask_and {p q i : ℕ} (h : p ≤ q) (hp : i < p) :
    mask q i &&& mask p i = mask q i := by
  apply BitVec.eq_of_getLsbD_eq
  intro j hj
  rw [BitVec.getLsbD_and, mask_getLsbD (hp.trans_le h), mask_getLsbD hp, ← Bool.decide_and]
  exact decide_eq_decide.mpr (by omega)

/-- The full mask keeps a word. -/
theorem and_ones (w : BitVec 16) : w &&& 0xffff = w := BitVec.and_allOnes

/-- A word behind the prefix is kept. -/
theorem mask16_of_le {pfxLen : ℕ} {idx : Fin 8} (h : pfxLen ≤ 32 * (idx.val / 2)) :
    mask16 order pfxLen idx = 0xffff := if_pos h

private theorem mask16_of_lt {pfxLen : ℕ} {idx : Fin 8} (h : 32 * (idx.val / 2) < pfxLen) :
    mask16 order pfxLen idx = order.htons ((mask pfxLen (32 * (idx.val / 2))).extractLsb'
      (if idx.val % 2 = 0 then 16 else 0) 16) := if_neg h.not_ge

/-- A longer prefix leaves fewer bits. -/
theorem mask16_and {p q : ℕ} (h : p ≤ q) (idx : Fin 8) :
    mask16 order q idx &&& mask16 order p idx = mask16 order q idx := by
  rcases Nat.lt_or_ge (32 * (idx.val / 2)) p with hp | hp
  · rw [mask16_of_lt hp, mask16_of_lt (hp.trans_le h), ← htons_and, ← BitVec.extractLsb'_and,
      mask_and h hp]
  · rw [mask16_of_le hp, and_ones]

/-- The word for the subnet is not in a short prefix. -/
theorem mask16_subnet {pfxLen : ℕ} (h : pfxLen ≤ 48) : mask16 order pfxLen 3 = 0xffff := by
  rcases Nat.lt_or_ge 32 pfxLen with hlt | hle
  · have hmask : (mask pfxLen 32).extractLsb' 0 16 = 0xffff := by
      apply BitVec.eq_of_getLsbD_eq
      intro j hj
      have hones : (0xffff : BitVec 16).getLsbD j = true := by
        rw [show (0xffff : BitVec 16) = BitVec.allOnes 16 from rfl, BitVec.getLsbD_allOnes,
          decide_eq_true hj]
      rw [BitVec.getLsbD_extractLsb', Nat.zero_add, mask_getLsbD hlt, hones, decide_eq_true hj,
        Bool.true_and, decide_eq_true (by omega)]
    rw [mask16_of_lt hlt]
    exact (congrArg order.htons hmask).trans htons_allOnes
  · exact mask16_of_le hle

/-! ### What a translation does -/

variable {npt : NptInfo} {addr addr' : Address}

/-- The length that both prefixes are taken to have. -/
def NptInfo.pfxLen (npt : NptInfo) : ℕ := max npt.srcPfxLen npt.dstPfxLen

/-- The bits of an address that are replaced. -/
def replaced (order : ByteOrder) (npt : NptInfo) (addr : Address) : Address :=
  ipv6AddrPrefix order addr npt.pfxLen

/-- The part of a word that is replaced. -/
theorem replaced_apply (npt : NptInfo) (addr : Address) (idx : Fin 8) :
    replaced order npt addr idx = addr idx &&& ~~~mask16 order npt.pfxLen idx := rfl

/-- A word with the bits of the new prefix. -/
theorem replacePfx_apply (npt : NptInfo) (addr : Address) (idx : Fin 8) :
    replacePfx order npt addr idx =
      addr idx &&& mask16 order npt.pfxLen idx |||
        npt.dstPfx idx &&& ~~~mask16 order npt.pfxLen idx :=
  rfl

/-- The prefixes of an expression, which have no bits after their lengths. -/
structure Adjusted (order : ByteOrder) (npt : NptInfo) : Prop where
  pfxLen_le : npt.pfxLen ≤ 64
  src_eq : replaced order npt npt.srcPfx = npt.srcPfx
  dst_eq : replaced order npt npt.dstPfx = npt.dstPfx
  residue_eq : residue npt.adjustment = sum npt.srcPfx - sum npt.dstPfx

/-- A prefix is also one of a greater length. -/
theorem ipv6AddrPrefix_of_le {p q : ℕ} (h : p ≤ q) {pfx : Address}
    (hpfx : ipv6AddrPrefix order pfx p = pfx) : ipv6AddrPrefix order pfx q = pfx := by
  funext idx
  have hp : pfx idx &&& ~~~mask16 order p idx = pfx idx := congrFun hpfx idx
  have hmask : mask16 order q idx &&& mask16 order p idx = mask16 order q idx := mask16_and h idx
  rw [ipv6AddrPrefix, ← hp]
  ext j hj
  have hbit := congrArg (·[j]) hmask
  simp only [BitVec.getElem_and, BitVec.getElem_not] at hbit ⊢
  cases hq : (mask16 order q idx)[j] with
  | false => simp
  | true =>
    rw [hq, Bool.true_and] at hbit
    simp [hbit]

/-- The adjustment is computed from the prefixes, which are kept. -/
theorem adjustCsum_spec (hnet : net.Lawful) {npt' : NptInfo}
    (h : adjustCsum net order npt = some npt') :
    Adjusted order npt' ∧ npt'.srcPfx = npt.srcPfx ∧ npt'.dstPfx = npt.dstPfx ∧
      npt'.pfxLen = npt.pfxLen := by
  unfold adjustCsum at h
  split at h
  · cases h
  · next hlen =>
    split at h
    · cases h
    · next hsrc =>
      split at h
      · cases h
      · next hdst =>
        obtain rfl := Option.some.inj h
        refine ⟨⟨?_, ?_, ?_, ?_⟩, rfl, rfl, rfl⟩
        · have hle : max npt.srcPfxLen npt.dstPfxLen ≤ 64 := by omega
          exact hle
        · exact ipv6AddrPrefix_of_le (Nat.le_max_left _ _) (not_not.mp hsrc)
        · exact ipv6AddrPrefix_of_le (Nat.le_max_right _ _) (not_not.mp hdst)
        · rw [hnet.csumFold_eq, hnet.csumSub_eq, hnet.csumPartial_eq, hnet.csumPartial_eq]

private theorem unfolded_csumUnfold (w : BitVec 16) : unfolded (csumUnfold w) = residue w := by
  have hlt := w.isLt
  rw [unfolded, csumUnfold, BitVec.toNat_setWidth, Nat.mod_eq_of_lt (by omega), residue]

/-- The word that takes up the adjustment. -/
def adjustedWord (net : Net) (npt : NptInfo) (w : BitVec 16) : BitVec 16 :=
  normalize (~~~net.csumFold (net.csumAdd (csumUnfold w) (csumUnfold npt.adjustment)))

/-- The adjusted word makes up for the prefixes. -/
theorem residue_adjustedWord (hnet : net.Lawful) (w : BitVec 16) :
    residue (adjustedWord net npt w) = residue w + residue npt.adjustment := by
  rw [adjustedWord, residue_normalize, hnet.csumFold_eq, hnet.csumAdd_eq, unfolded_csumUnfold,
    unfolded_csumUnfold]

/-- An adjusted word is not all ones. -/
theorem adjustedWord_ne (w : BitVec 16) : adjustedWord net npt w ≠ 0xffff :=
  normalize_ne (by decide) _

/-- A mapped address has the new prefix and one adjusted word. -/
theorem mapPfx_spec (h : mapPfx net order npt addr = (true, addr')) :
    ∃ idx, adjustedIdx npt.pfxLen (replacePfx order npt addr) = some idx ∧
      addr' = Function.update (replacePfx order npt addr) idx
        (adjustedWord net npt (replacePfx order npt addr idx)) := by
  unfold mapPfx at h
  simp only at h
  split at h
  · cases (Prod.mk.inj h).1
  · next idx hidx => exact ⟨idx, hidx, ((Prod.mk.inj h).2).symm⟩

private theorem sum_replacePfx (hadjusted : Adjusted order npt) (addr : Address) :
    sum (replacePfx order npt addr) =
      sum addr - sum (replaced order npt addr) + sum npt.dstPfx := by
  have hdst : (fun idx => npt.dstPfx idx &&& ~~~mask16 order npt.pfxLen idx) = npt.dstPfx :=
    hadjusted.dst_eq
  exact (sum_replace addr npt.dstPfx (mask16 order npt.pfxLen)).trans (by rw [hdst]; rfl)

private theorem sum_mapPfx (hnet : net.Lawful) (hadjusted : Adjusted order npt)
    (h : mapPfx net order npt addr = (true, addr')) :
    sum addr' = sum addr - sum (replaced order npt addr) + sum npt.srcPfx := by
  obtain ⟨idx, -, rfl⟩ := mapPfx_spec h
  rw [sum_update, residue_adjustedWord hnet, hadjusted.residue_eq, sum_replacePfx hadjusted]
  ring

/-- The length that is verified. -/
def NptInfo.verifyLen (npt : NptInfo) : ManipType → ℕ
  | .src => npt.srcPfxLen
  | .dst => npt.dstPfxLen

private theorem eval_eq (manip : ManipType) :
    eval net order manip npt addr = trans net order (npt.verifyLen manip) npt addr := by
  cases manip with
  | src => rfl
  | dst => rfl

/-- An address is translated when it is verified, the expression is one of two prefixes, and
there is a word to adjust. -/
theorem trans_spec {verifyLen : ℕ} (h : trans net order verifyLen npt addr = (.translated, addr')) :
    verifyAddr verifyLen addr = true ∧ ∃ npt', adjustCsum net order npt = some npt' ∧
      mapPfx net order npt' addr = (true, addr') := by
  unfold trans at h
  split at h
  · cases (Prod.mk.inj h).1
  · next hverify =>
    refine ⟨by simpa using hverify, ?_⟩
    split at h
    · cases (Prod.mk.inj h).1
    · next npt' hadjust =>
      split at h
      · cases (Prod.mk.inj h).1
      · next addr'' hmap =>
        obtain rfl : addr'' = addr' := (Prod.mk.inj h).2
        exact ⟨npt', hadjust, hmap⟩

/-- **Translations are neutral to checksums.** A translated address has the sum that it had exactly
when the bits that were replaced have the sum of the source prefix. -/
theorem translation_neutral (hnet : net.Lawful) {manip : ManipType}
    (h : eval net order manip npt addr = (.translated, addr')) :
    sum addr' = sum addr ↔ sum (replaced order npt addr) = sum npt.srcPfx := by
  rw [eval_eq] at h
  obtain ⟨-, npt', hadjust, hmap⟩ := trans_spec h
  obtain ⟨hadjusted, hsrc, -, hlen⟩ := adjustCsum_spec hnet hadjust
  have hreplaced : replaced order npt' addr = replaced order npt addr := by
    rw [replaced, hlen, replaced]
  rw [sum_mapPfx hnet hadjusted hmap, hsrc, hreplaced, sub_add, sub_eq_self, sub_eq_zero]

/-! ### The checksums of the kernel -/

/-- The functions as the kernel has them for any machine. -/
def genericNet : Net where
  csumPartial addr := BitVec.ofNat 32 (∑ idx, (addr idx).toNat)
  csumFold s :=
    let s := (s &&& 0xffff#32) + (s >>> 16)
    let s := (s &&& 0xffff#32) + (s >>> 16)
    ~~~s.setWidth 16
  csumAdd s t := if s + t < t then s + t + 1 else s + t
  csumSub s t := if s + ~~~t < ~~~t then s + ~~~t + 1 else s + ~~~t

/-- A carry is worth one. -/
theorem unfolded_eq {s : BitVec 32} {m n : ℕ} (h : m = s.toNat + n * (2 ^ 16 - 1)) :
    unfolded s = (m : ZMod (2 ^ 16 - 1)) := by
  rw [unfolded, h, Nat.cast_add, Nat.cast_mul, ZMod.natCast_self, mul_zero, add_zero]

private theorem genericNet_csumAdd (s t : BitVec 32) :
    unfolded (genericNet.csumAdd s t) = unfolded s + unfolded t := by
  have hs := s.isLt
  have ht := t.isLt
  have hsum : unfolded s + unfolded t = ((s.toNat + t.toNat : ℕ) : ZMod (2 ^ 16 - 1)) :=
    (Nat.cast_add _ _).symm
  rw [hsum, genericNet]
  simp only [BitVec.lt_def, BitVec.toNat_add]
  split
  · next hcarry =>
    refine unfolded_eq (n := 2 ^ 16 + 1) ?_
    rw [BitVec.toNat_add, BitVec.toNat_add, show (1 : BitVec 32).toNat = 1 from rfl]
    omega
  · next hcarry =>
    refine unfolded_eq (n := 0) ?_
    rw [BitVec.toNat_add]
    omega

private theorem unfolded_not (t : BitVec 32) : unfolded (~~~t) = -unfolded t := by
  have ht := t.isLt
  have hzero : ((2 ^ 32 - 1 : ℕ) : ZMod (2 ^ 16 - 1)) = 0 :=
    (ZMod.natCast_eq_zero_iff _ _).mpr ⟨2 ^ 16 + 1, by decide⟩
  rw [eq_neg_iff_add_eq_zero, unfolded, unfolded, ← Nat.cast_add, BitVec.toNat_not,
    Nat.sub_add_cancel (by omega), hzero]

private theorem genericNet_csumFold (s : BitVec 32) :
    residue (~~~genericNet.csumFold s) = unfolded s := by
  have hround : ∀ s : BitVec 32,
      ((s &&& 0xffff#32) + (s >>> 16)).toNat = s.toNat % 2 ^ 16 + s.toNat / 2 ^ 16 := by
    intro s
    have hs := s.isLt
    have hlow : (s &&& 0xffff#32).toNat = s.toNat % 2 ^ 16 :=
      Nat.and_two_pow_sub_one_eq_mod s.toNat 16
    rw [BitVec.toNat_add, hlow, BitVec.toNat_ushiftRight, Nat.shiftRight_eq_div_pow,
      Nat.mod_eq_of_lt (by omega)]
  have hs := s.isLt
  have hone := hround s
  have htwo := hround ((s &&& 0xffff#32) + (s >>> 16))
  rw [hone] at htwo
  simp only [genericNet, BitVec.not_not]
  rw [residue, BitVec.toNat_setWidth, htwo, Nat.mod_eq_of_lt (by omega), cast_fold, cast_fold]
  rfl

/-- The generic functions of the kernel are lawful. -/
theorem genericNet_lawful : genericNet.Lawful where
  csumPartial_eq addr := by
    have hlt : ∑ idx, (addr idx).toNat < 2 ^ 32 := by
      refine (Finset.sum_lt_sum_of_nonempty Finset.univ_nonempty
        fun idx _ => (addr idx).isLt).trans ?_
      simp
    rw [unfolded, genericNet, BitVec.toNat_ofNat, Nat.mod_eq_of_lt hlt, Nat.cast_sum]
    rfl
  csumFold_eq := genericNet_csumFold
  csumAdd_eq := genericNet_csumAdd
  csumSub_eq s t := by
    rw [sub_eq_add_neg, ← unfolded_not]
    exact genericNet_csumAdd s (~~~t)

/-- An address from its words in network order. -/
def ofWords (order : ByteOrder) (words : Fin 8 → BitVec 16) : Address :=
  fun idx => order.htons (words idx)

/-- The prefix of a site and one of its provider. -/
def siteNpt (order : ByteOrder) : NptInfo where
  srcPfx := ofWords order ![0xfd01, 0x0203, 0x0405, 0, 0, 0, 0, 0]
  dstPfx := ofWords order ![0x2001, 0x0db8, 0x0001, 0, 0, 0, 0, 0]
  srcPfxLen := 48
  dstPfxLen := 48
  adjustment := 0

def siteHost (order : ByteOrder) : Address :=
  ofWords order ![0xfd01, 0x0203, 0x0405, 0x0001, 0, 0, 0, 0x1234]

def translatedHost (order : ByteOrder) : Address :=
  ofWords order ![0x2001, 0x0db8, 0x0001, 0xd550, 0, 0, 0, 0x1234]

/-- The address of a host is translated. -/
theorem siteHost_translated : eval genericNet .little .src (siteNpt .little) (siteHost .little) =
    (.translated, translatedHost .little) := by
  decide

/-- The checksum of that address is kept. -/
theorem translation_neutral_site :
    sum (translatedHost .little) = sum (siteHost .little) := by
  have hreplaced : replaced .little (siteNpt .little) (siteHost .little) =
      (siteNpt .little).srcPfx := by
    decide
  exact (translation_neutral genericNet_lawful siteHost_translated).mpr (congrArg sum hreplaced)

end TurrisBuild.Npt
