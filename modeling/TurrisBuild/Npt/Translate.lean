import TurrisBuild.Lib.OnesComplement

/-!
# Network prefix translation

The expression `npt` of nftables replaces the prefix of an IPv6 address, in outgoing packets the
prefix of the source and in incoming ones that of the destination. It keeps no state: another
word of the address is changed with the prefix, so that checksums stay what they are.
-/

namespace TurrisBuild.Npt

/-- A machine has the bytes of a word in one of two orders. -/
inductive ByteOrder
  | big
  | little

/-- `htons`: a word as it lies in the memory of the machine. -/
def ByteOrder.htons : ByteOrder → BitVec 16 → BitVec 16
  | big, w => w
  | little, w => w.rotateLeft 8

/-- The words `s6_addr16` of an address, in the byte order of the machine. -/
abbrev Address := Fin 8 → BitVec 16

/-- `struct nf_npt_info` -/
structure NptInfo where
  srcPfx : Address
  dstPfx : Address
  srcPfxLen : ℕ
  dstPfxLen : ℕ
  adjustment : BitVec 16

/-- The functions of the kernel for checksums. -/
structure Net where
  csumPartial : Address → BitVec 32
  csumFold : BitVec 32 → BitVec 16
  csumAdd : BitVec 32 → BitVec 32 → BitVec 32
  csumSub : BitVec 32 → BitVec 32 → BitVec 32

/-- A checksum that is not folded. -/
def unfolded (s : BitVec 32) : ZMod (2 ^ 16 - 1) := (s.toNat : ZMod (2 ^ 16 - 1))

/-- Checksums are one's complement sums of words. -/
structure Net.Lawful (net : Net) : Prop where
  csumPartial_eq : ∀ addr, unfolded (net.csumPartial addr) = OnesComplement.sum addr
  csumFold_eq : ∀ s, OnesComplement.residue (~~~net.csumFold s) = unfolded s
  csumAdd_eq : ∀ s t, unfolded (net.csumAdd s t) = unfolded s + unfolded t
  csumSub_eq : ∀ s t, unfolded (net.csumSub s t) = unfolded s - unfolded t

/-- `csum_unfold` -/
def csumUnfold (w : BitVec 16) : BitVec 32 := w.setWidth 32

/-- `CSUM_MANGLED_0` -/
def csumMangled0 : BitVec 16 := 0xffff

/-- The mask of one round in `nft_npt_map_pfx` before `htonl`: the bits from `i` on that are not
in the prefix. -/
def mask (pfxLen i : ℕ) : BitVec 32 :=
  if 32 ≤ pfxLen - i then 0 else ((1 : BitVec 32) <<< (i + 32 - pfxLen)) - 1

variable (net : Net) (order : ByteOrder)

/-- The half of the mask for a word `s6_addr16`. Where no round comes to, the mask has all
bits. -/
def mask16 (pfxLen : ℕ) (idx : Fin 8) : BitVec 16 :=
  let i := 32 * (idx.val / 2)
  if pfxLen ≤ i then 0xffff
  else order.htons ((mask pfxLen i).extractLsb' (if idx.val % 2 = 0 then 16 else 0) 16)

/-- `ipv6_addr_prefix` -/
def ipv6AddrPrefix (addr : Address) (plen : ℕ) : Address :=
  fun idx => addr idx &&& ~~~mask16 order plen idx

/-- `nft_npt_verify_addr` -/
def verifyAddr (pfxLen : ℕ) (addr : Address) : Bool :=
  if addr 4 = 0 ∧ addr 5 = 0 ∧ addr 6 = 0 ∧ addr 7 = 0 then false
  else if addr 4 = 0xffff ∧ addr 5 = 0xffff ∧ addr 6 = 0xffff ∧ addr 7 = 0xffff then false
  else if pfxLen ≤ 48 ∧ addr 3 = 0xffff then false
  else true

/-- What a reply to the address needs to be verified. -/
def Answerable (npt : NptInfo) (addr : Address) : Prop :=
  (∃ idx : Fin 8, 4 ≤ idx ∧ addr idx ≠ 0) ∧
    (npt.srcPfxLen ≤ 48 → 48 < npt.dstPfxLen → addr 3 ≠ 0xffff)

/-- `nft_npt_adjust_csum`, or nothing for `-EINVAL` -/
def adjustCsum (npt : NptInfo) : Option NptInfo :=
  if npt.srcPfxLen > 64 ∨ npt.dstPfxLen > 64 then none
  else if ipv6AddrPrefix order npt.srcPfx npt.srcPfxLen ≠ npt.srcPfx then none
  else if ipv6AddrPrefix order npt.dstPfx npt.dstPfxLen ≠ npt.dstPfx then none
  else
    let srcSum := net.csumPartial npt.srcPfx
    let dstSum := net.csumPartial npt.dstPfx
    some { npt with adjustment := ~~~net.csumFold (net.csumSub srcSum dstSum) }

/-- The loop of `nft_npt_map_pfx` -/
def replacePfx (npt : NptInfo) (addr : Address) : Address :=
  let pfxLen := max npt.srcPfxLen npt.dstPfxLen
  fun idx => addr idx &&& mask16 order pfxLen idx ||| npt.dstPfx idx &&& ~~~mask16 order pfxLen idx

/-- The word that `nft_npt_map_pfx` adjusts. -/
def adjustedIdx (pfxLen : ℕ) (addr : Address) : Option (Fin 8) :=
  if pfxLen ≤ 48 then some 3 else [4, 5, 6, 7].find? fun idx => addr idx ≠ csumMangled0

/-- `nft_npt_map_pfx`, with the address that it leaves -/
def mapPfx (npt : NptInfo) (addr : Address) : Bool × Address :=
  let addr := replacePfx order npt addr
  match adjustedIdx (max npt.srcPfxLen npt.dstPfxLen) addr with
  | none => (false, addr)
  | some idx =>
    let sum := ~~~net.csumFold (net.csumAdd (csumUnfold (addr idx)) (csumUnfold npt.adjustment))
    let sum := if sum = csumMangled0 then 0 else sum
    (true, Function.update addr idx sum)

/-- `enum nf_nat_manip_type` -/
inductive ManipType
  | src
  | dst

/-- How an expression ends. -/
inductive Verdict
  | invalidIp
  | noAdjustment
  | paramProb
  | translated
  deriving DecidableEq

/-- `nft_npt_src_trans` and `nft_npt_dst_trans`, for the source or the destination of a packet.
They verify it with their own lengths. -/
def trans (verifyLen : ℕ) (npt : NptInfo) (addr : Address) : Verdict × Address :=
  if !verifyAddr verifyLen addr then (.invalidIp, addr)
  else
    match adjustCsum net order npt with
    | none => (.noAdjustment, addr)
    | some npt =>
      match mapPfx net order npt addr with
      | (false, addr) => (.paramProb, addr)
      | (true, addr) => (.translated, addr)

/-- `nft_npt_src_trans` -/
def srcTrans (npt : NptInfo) (saddr : Address) : Verdict × Address :=
  trans net order npt.srcPfxLen npt saddr

/-- `nft_npt_dst_trans` -/
def dstTrans (npt : NptInfo) (daddr : Address) : Verdict × Address :=
  trans net order npt.dstPfxLen npt daddr

/-- `nft_npt_eval` -/
def eval : ManipType → NptInfo → Address → Verdict × Address
  | .src => srcTrans net order
  | .dst => dstTrans net order

end TurrisBuild.Npt
