import TurrisBuild.Lib.Handshake
import TurrisBuild.Lib.Runs
import TurrisBuild.TmelQmp.Driver

/-!
# Delivery of packets

Once the link is up, as long as it stays up and the client does not shut the channel down, every
packet is delivered once, in order and as it was, whatever the order in which both cores and the
parts of the worker run. This goes for packets to the remote core only while it answers in time, for
the driver does not tell a late answer from one to the next packet.
-/

namespace TurrisBuild.TmelQmp

open Handshake

/-! ### Packets in mailboxes -/

/-- What was written to a mailbox is read from it. -/
theorem memcpy32Fromio_memcpy32Toio (dest : ℕ → Word) (pkt : QmpPkt) :
    memcpy32Fromio (memcpy32Toio dest pkt.data) pkt.size = pkt.data := by
  rw [memcpy32Fromio, ← pkt.length_eq]
  refine List.ext_getElem (by simp) fun i hi hi' => ?_
  simp [memcpy32Toio, hi']

/-- The size of a packet fits into the descriptor. -/
theorem pktOf_memcpy32Toio (dest : ℕ → Word) {pkt : QmpPkt} (hsize : pkt.size < 256) :
    pktOf (BitVec.ofNat 8 pkt.size) (memcpy32Toio dest pkt.data) = pkt := by
  have htoNat : (BitVec.ofNat 8 pkt.size).toNat = pkt.size := by
    rw [BitVec.toNat_ofNat, Nat.mod_eq_of_lt hsize]
  refine QmpPkt.ext htoNat ?_
  simp only [pktOf, htoNat]
  exact memcpy32Fromio_memcpy32Toio dest pkt

/-! ### The exchange -/

/-- What the exchange of packets depends on: the bits of both cores, what the worker last saw of the
remote core, and the mailboxes. -/
structure Exchange where
  txSent : Bool
  tx : Bool
  txAck : Bool
  rxDoneAck : Bool
  fragSize : BitVec 8
  data : ℕ → Word
  remoteTx : Bool
  remoteTxAck : Bool
  remoteRxDone : Bool
  remoteFragSize : BitVec 8
  remoteData : ℕ → Word
  seenTx : Bool
  seenRxDone : Bool
  seenFragSize : BitVec 8
  accepted : List QmpPkt
  received : List QmpPkt
  done : ℕ
  sent : List QmpPkt
  delivered : List QmpPkt

def System.exchange (s : System) : Exchange where
  txSent := s.mdev.txSent
  tx := s.mdev.mcore.tx
  txAck := s.mdev.mcore.txAck
  rxDoneAck := s.mdev.mcore.rxDoneAck
  fragSize := s.mdev.mcore.fragSize
  data := s.mcoreDesc.data
  remoteTx := s.ucoreDesc.desc.tx
  remoteTxAck := s.ucoreDesc.desc.txAck
  remoteRxDone := s.ucoreDesc.desc.rxDone
  remoteFragSize := s.ucoreDesc.desc.fragSize
  remoteData := s.ucoreDesc.data
  seenTx := s.mdev.ucore.tx
  seenRxDone := s.mdev.ucore.rxDone
  seenFragSize := s.mdev.ucore.fragSize
  accepted := s.accepted
  received := s.received
  done := s.done
  sent := s.sent
  delivered := s.delivered

/-- The steps of the exchange. Answers may be late or not. -/
inductive Exchange.Step (maxPktSize : ℕ) (late : Prop) (x : Exchange) : Exchange → Prop
  | idle : Step maxPktSize late x x
  | sendData (pkt : QmpPkt) (hsize : pkt.size ≤ maxPktSize) (hidle : x.txSent = false) :
    Step maxPktSize late x
      { x with
        txSent := true
        tx := !x.tx
        fragSize := BitVec.ofNat 8 pkt.size
        data := memcpy32Toio x.data pkt.data
        accepted := x.accepted ++ [pkt] }
  | txTimeout (hlate : late) : Step maxPktSize late x { x with txSent := false }
  | look :
    Step maxPktSize late x
      { x with
        seenTx := x.remoteTx
        seenRxDone := x.remoteRxDone
        seenFragSize := x.remoteFragSize }
  | txDone (hsent : x.txSent = true) (hdone : x.seenRxDone ≠ x.rxDoneAck) :
    Step maxPktSize late x
      { x with
        txSent := false
        rxDoneAck := x.seenRxDone
        done := x.done + 1 }
  | recvData (htx : x.seenTx ≠ x.txAck)
      (hsize : 0 < x.seenFragSize.toNat ∧ x.seenFragSize.toNat ≤ maxPktSize) :
    Step maxPktSize late x
      { x with
        txAck := x.seenTx
        delivered := x.delivered ++ [pktOf x.seenFragSize x.remoteData] }
  | remoteRead (htx : x.tx ≠ x.remoteTxAck) :
    Step maxPktSize late x
      { x with
        remoteTxAck := x.tx
        remoteRxDone := !x.remoteRxDone
        received := x.received ++ [pktOf x.fragSize x.data] }
  | remoteSend (pkt : QmpPkt) (hsize : pkt.size < 256) (hfree : x.remoteTx = x.txAck) :
    Step maxPktSize late x
      { x with
        remoteTx := !x.remoteTx
        remoteFragSize := BitVec.ofNat 8 pkt.size
        remoteData := memcpy32Toio x.remoteData pkt.data
        sent := x.sent ++ [pkt] }

/-- A handshake for the packets to the remote core. -/
structure Exchange.Sending (x : Exchange) : Prop where
  wait : StopAndWait x.txSent x.tx x.remoteTxAck x.remoteRxDone x.rxDoneAck
    (pktOf x.fragSize x.data) x.accepted x.received x.done
  seen : x.seenRxDone ≠ x.rxDoneAck → x.remoteRxDone = x.seenRxDone

/-- A handshake for those from it, which fit into the buffer for them. -/
structure Exchange.Receiving (maxPktSize : ℕ) (x : Exchange) : Prop where
  carries : Carries x.remoteTx x.txAck (pktOf x.remoteFragSize x.remoteData) x.sent x.delivered
  seen : x.seenTx ≠ x.txAck → x.remoteTx = x.seenTx ∧ x.remoteFragSize = x.seenFragSize
  fits : ∀ pkt ∈ x.delivered, 0 < pkt.size ∧ pkt.size ≤ maxPktSize

namespace Exchange

variable {maxPktSize : ℕ} {late : Prop} {x x' : Exchange}

/-- A step keeps what holds of received packets. -/
theorem Receiving.step (h : x.Receiving maxPktSize) (hstep : x.Step maxPktSize late x') :
    x'.Receiving maxPktSize := by
  cases hstep with
  | idle => exact h
  | sendData pkt hsize hidle => exact { h with }
  | txTimeout hlate => exact { h with }
  | look => exact { h with seen := fun _ => ⟨rfl, rfl⟩ }
  | txDone hsent hdone => exact { h with }
  | recvData htx hsize =>
    obtain ⟨hremote, hfragSize⟩ := h.seen htx
    have htaken := h.carries.take (hremote ▸ htx)
    rw [hremote, hfragSize] at htaken
    refine ⟨?_, fun hne => absurd rfl hne, fun pkt hpkt => ?_⟩
    · simp only [hremote, hfragSize]
      exact htaken
    · rcases List.mem_append.mp hpkt with hpkt | hpkt
      · exact h.fits pkt hpkt
      · rw [List.mem_singleton.mp hpkt]
        exact hsize
  | remoteRead htx => exact { h with }
  | remoteSend pkt hsize hfree =>
    refine { h with carries := ?_, seen := fun hne => ?_ }
    · simp only [pktOf_memcpy32Toio _ hsize]
      exact h.carries.give hfree pkt
    · exact absurd ((h.seen hne).1.symm.trans hfree) hne

/-- A step keeps what holds of sent packets. -/
theorem Sending.step (h : x.Sending) (hmax : maxPktSize < 256) (hlate : ¬late)
    (hstep : x.Step maxPktSize late x') : x'.Sending := by
  cases hstep with
  | idle => exact h
  | sendData pkt hsize hidle =>
    refine ⟨?_, h.seen⟩
    simp only [pktOf_memcpy32Toio _ (Nat.lt_of_le_of_lt hsize hmax)]
    exact h.wait.give hidle pkt
  | txTimeout hlate' => exact absurd hlate' hlate
  | look => exact ⟨h.wait, fun _ => rfl⟩
  | txDone hsent hdone =>
    have hheard := h.wait.hear (h.seen hdone ▸ hdone)
    rw [h.seen hdone] at hheard
    refine ⟨?_, fun hne => absurd rfl hne⟩
    simp only [h.seen hdone]
    exact hheard
  | recvData htx hsize => exact ⟨h.wait, h.seen⟩
  | remoteRead htx =>
    refine ⟨h.wait.take htx, fun hne => ?_⟩
    have hdone := h.seen hne
    exact absurd (hdone.symm.trans (h.wait.turn.resolve_left htx)) hne
  | remoteSend pkt hsize hfree => exact ⟨h.wait, h.seen⟩

/-- A packet that was read and not yet reported is seen to be done. -/
theorem Sending.answered (h : x.Sending) (hfree : x.tx = x.remoteTxAck) :
    (x.txSent && x.remoteRxDone == x.rxDoneAck) = false := by
  cases hsent : x.txSent with
  | false => exact Bool.false_and _
  | true =>
    rw [Bool.true_and, beq_eq_false_iff_ne]
    exact (h.wait.busy_iff.mp hsent).resolve_left (not_not.mpr hfree)

end Exchange

/-! ### The connection -/

/-- What the connection of a driver is like that has not been shut down: nothing is exchanged before
the channel is complete, and the link stays. -/
structure Connection (s : System) : Prop where
  desc_tx : s.mcoreDesc.desc.tx = s.mdev.mcore.tx
  desc_txAck : s.mcoreDesc.desc.txAck = s.mdev.mcore.txAck
  desc_fragSize : s.mcoreDesc.desc.fragSize = s.mdev.mcore.fragSize
  ucore_linkState : s.mdev.localState.linked = true → s.mdev.ucore.linkState = true
  remote_linkState : s.mdev.ucore.linkState = true → s.ucoreDesc.desc.linkState = true
  complete : s.mdev.chComplete = true →
    s.mdev.localState = .localConnecting ∨ s.mdev.localState = .channelConnected
  state_eq : s.mdev.localState = .linkDisconnected ∨ s.mdev.localState = .linkNegotiation ∨
    s.mdev.localState = .linkConnected ∨ s.mdev.localState = .localConnecting ∨
    s.mdev.localState = .channelConnected ∧ s.mdev.chComplete = true
  mcore_eq : s.mdev.chComplete = false → s.mdev.mcore.tx = false ∧ s.mdev.mcore.txAck = false ∧
    s.mdev.mcore.rxDoneAck = false ∧ s.mdev.mcore.fragSize = 0
  locked : s.worker = .locked → s.mdev.chComplete = true

/-- The events of a connection: the client keeps the channel, and the remote core keeps its link up
and sends packets whose size it can tell. -/
def Permitted : Event → Prop
  | .shutdown => False
  | .remoteLinkDown => False
  | .remoteSend pkt => pkt.size < 256
  | _ => True

/-- A step keeps the connection, and what it exchanges is a step of the exchange. -/
def Exchanges (maxPktSize : ℕ) (late : Prop) (s s' : System) : Prop :=
  Connection s' ∧ s.exchange.Step maxPktSize late s'.exchange

section Steps

variable {maxPktSize : ℕ} {late : Prop} {s : System}

private theorem exchanges_startup (h : Connection s) :
    Exchanges maxPktSize late s s.qmpStartup := by
  rw [System.qmpStartup]
  split
  · split
    · next hstate =>
      exact
        ⟨{ desc_tx := rfl
           desc_txAck := rfl
           desc_fragSize := rfl
           ucore_linkState := fun _ => h.ucore_linkState (hstate ▸ rfl)
           remote_linkState := h.remote_linkState
           complete := fun _ => .inl rfl
           state_eq := .inr (.inr (.inr (.inl rfl)))
           mcore_eq := h.mcore_eq
           locked := h.locked }, .idle⟩
    · exact ⟨h, .idle⟩
  · exact ⟨h, .idle⟩

/-- Sending a packet is a step of the exchange. -/
theorem exchanges_sendData (h : Connection s) (pkt : QmpPkt) :
    Exchanges maxPktSize late s ((s.qmpSendData maxPktSize pkt).toOption.getD s) := by
  rw [System.qmpSendData]
  split
  · exact ⟨h, .idle⟩
  · next hcomplete =>
    rw [Bool.not_eq_true, Bool.not_eq_false'] at hcomplete
    split
    · exact ⟨h, .idle⟩
    · next hsize =>
      split
      · exact ⟨h, .idle⟩
      · next hidle =>
        refine
          ⟨{ h with
             desc_tx := rfl
             desc_txAck := rfl
             desc_fragSize := rfl
             mcore_eq := fun hnot => ?_ },
            .sendData pkt (Nat.le_of_not_lt hsize) (Bool.not_eq_true _ ▸ hidle)⟩
        exact absurd (hcomplete.symm.trans hnot) (by decide)

private theorem exchanges_txTimeout (h : Connection s) (hlate : late) :
    Exchanges maxPktSize late s s.qmpNotifyTimeout :=
  ⟨{ h with }, .txTimeout hlate⟩

private theorem exchanges_workerRead (h : Connection s) :
    Exchanges maxPktSize late s s.rxWorkerRead :=
  ⟨{ h with
     ucore_linkState := fun hlinked => h.remote_linkState (h.ucore_linkState hlinked)
     remote_linkState := id
     locked := fun hlocked => nomatch hlocked }, .look⟩

/-- The transmission is looked at. -/
theorem exchanges_txDone (h : Connection s) (hcomplete : s.mdev.chComplete = true) :
    Exchanges maxPktSize late s { s.rxWorkerTxDone with worker := .locked } := by
  rw [System.rxWorkerTxDone]
  split
  · next hdone =>
    obtain ⟨hsent, hne⟩ := Bool.and_eq_true_iff.mp hdone
    exact
      ⟨{ h with
         mcore_eq := fun hnot => absurd (hcomplete.symm.trans hnot) (by decide)
         locked := fun _ => hcomplete }, .txDone hsent (bne_iff_ne.mp hne)⟩
  · exact ⟨{ h with locked := fun _ => hcomplete }, .idle⟩

/-- Releasing the worker keeps the connection. -/
theorem Connection.release (h : Connection s) : Connection s.release :=
  { h with locked := fun hlocked => nomatch hlocked }

private theorem Connection.not_complete (h : Connection s)
    (hconnecting : s.mdev.localState ≠ .localConnecting)
    (hconnected : s.mdev.localState ≠ .channelConnected) : s.mdev.chComplete = false := by
  by_contra hne
  exact (h.complete (Bool.not_eq_false _ ▸ hne)).elim hconnecting hconnected

private theorem exchanges_negotiate (h : Connection s) (hnot : s.mdev.chComplete = false) :
    Exchanges maxPktSize late s s.rxNegotiate.release :=
  ⟨{ h with
     desc_tx := rfl
     desc_txAck := rfl
     desc_fragSize := rfl
     ucore_linkState := fun hlinked => nomatch hlinked
     complete := fun hcomplete => absurd (hcomplete.symm.trans hnot) (by decide)
     state_eq := .inr (.inl rfl)
     locked := fun hlocked => nomatch hlocked }, .idle⟩

/-- There is nothing to be cleared yet. -/
theorem exchange_clrMcoreChState (h : Connection s) (hnot : s.mdev.chComplete = false) :
    s.clrMcoreChState.exchange = s.exchange := by
  obtain ⟨htx, htxAck, hrxDoneAck, hfragSize⟩ := h.mcore_eq hnot
  simp only [System.exchange, System.clrMcoreChState, System.setMcore, htx, htxAck, hrxDoneAck,
    hfragSize]

private theorem exchanges_linkConnected (h : Connection s) (hnot : s.mdev.chComplete = false)
    (hlink : s.mdev.ucore.linkState = true) :
    Exchanges maxPktSize late s s.rxLinkConnected.release := by
  obtain ⟨htx, htxAck, hrxDoneAck, hfragSize⟩ := h.mcore_eq hnot
  have hexchange : s.rxLinkConnected.release.exchange = s.exchange :=
    exchange_clrMcoreChState h hnot
  constructor
  · exact
      { h with
        desc_tx := h.desc_tx.trans htx
        desc_txAck := h.desc_txAck.trans htxAck
        desc_fragSize := h.desc_fragSize.trans hfragSize
        ucore_linkState := fun _ => hlink
        complete := fun hcomplete => absurd (hcomplete.symm.trans hnot) (by decide)
        state_eq := .inr (.inr (.inl rfl))
        mcore_eq := fun _ => ⟨rfl, rfl, rfl, rfl⟩
        locked := fun hlocked => nomatch hlocked }
  · rw [hexchange]
    exact .idle

private theorem exchanges_channelConnected (h : Connection s)
    (hstate : s.mdev.localState = .localConnecting) :
    Exchanges maxPktSize late s s.rxChannelConnected.release :=
  ⟨{ h with
     desc_tx := rfl
     desc_txAck := rfl
     desc_fragSize := rfl
     ucore_linkState := fun _ => h.ucore_linkState (hstate ▸ rfl)
     complete := fun _ => .inr rfl
     state_eq := .inr (.inr (.inr (.inr ⟨rfl, rfl⟩)))
     mcore_eq := fun hnot => nomatch hnot
     locked := fun hlocked => nomatch hlocked }, .idle⟩

private theorem connection_remoteDisconnect (h : Connection s)
    (hstate : s.mdev.localState = .channelConnected) : Connection s.rxRemoteDisconnect :=
  { h with
    desc_tx := rfl
    desc_txAck := rfl
    desc_fragSize := rfl
    ucore_linkState := fun _ => h.ucore_linkState (hstate ▸ rfl)
    complete := fun _ => .inl rfl
    state_eq := .inr (.inr (.inr (.inl rfl))) }

private theorem exchanges_workerLock (h : Connection s) :
    Exchanges maxPktSize late s s.rxWorkerLock := by
  have hlink : (s.mdev.localState.linked && !s.mdev.ucore.linkState) = false := by
    cases hlinked : s.mdev.localState.linked with
    | false => rfl
    | true =>
      rw [h.ucore_linkState hlinked]
      rfl
  simp only [System.rxWorkerLock, hlink, Bool.false_eq_true, if_false]
  rcases h.state_eq with hstate | hstate | hstate | hstate | ⟨hstate, hcomplete⟩
  · have hnot := h.not_complete (by rw [hstate]; decide) (by rw [hstate]; decide)
    simp only [hstate]
    exact exchanges_negotiate h hnot
  · have hnot := h.not_complete (by rw [hstate]; decide) (by rw [hstate]; decide)
    simp only [hstate]
    split
    · exact ⟨h.release, .idle⟩
    · next hstates =>
      rw [Bool.not_eq_true, Bool.or_eq_false_iff, Bool.not_eq_false', Bool.not_eq_false'] at hstates
      exact exchanges_linkConnected h hnot hstates.2
  · simp only [hstate]
    exact ⟨h.release, .idle⟩
  · simp only [hstate]
    exact exchanges_channelConnected h hstate
  · simp only [hstate]
    split
    · exact exchanges_txDone (connection_remoteDisconnect h hstate) hcomplete
    · exact exchanges_txDone h hcomplete

private theorem exchanges_workerReceive (h : Connection s) (hlocked : s.worker = .locked) :
    Exchanges maxPktSize late s (s.rxWorkerReceive maxPktSize) := by
  have hcomplete := h.locked hlocked
  rw [System.rxWorkerReceive]
  split
  · next htx =>
    split
    · exact ⟨h.release, .idle⟩
    · next hsize =>
      have hfits : 0 < s.mdev.ucore.fragSize.toNat ∧ s.mdev.ucore.fragSize.toNat ≤ maxPktSize := by
        obtain ⟨hne, hle⟩ := not_or.mp hsize
        exact ⟨Nat.pos_of_ne_zero fun heq => hne (BitVec.eq_of_toNat_eq heq), Nat.le_of_not_lt hle⟩
      exact
        ⟨{ h with
           desc_tx := rfl
           desc_txAck := rfl
           desc_fragSize := rfl
           mcore_eq := fun hnot => absurd (hcomplete.symm.trans hnot) (by decide)
           locked := fun hlocked => nomatch hlocked }, .recvData (bne_iff_ne.mp htx) hfits⟩
  · exact ⟨h.release, .idle⟩

/-! ### The remote core -/

private theorem exchanges_remoteLinkUp (h : Connection s) :
    Exchanges maxPktSize late s (s.setUcoreDesc ({ · with linkState := true })) :=
  ⟨{ h with remote_linkState := fun _ => rfl }, .idle⟩

private theorem exchanges_remoteChState (h : Connection s) (up : Bool) :
    Exchanges maxPktSize late s (s.setUcoreDesc ({ · with chState := up })) :=
  ⟨{ h with }, .idle⟩

private theorem exchanges_remoteRead (h : Connection s) :
    Exchanges maxPktSize late s s.remoteRead := by
  rw [System.remoteRead, Mailbox.pkt, h.desc_tx, h.desc_fragSize]
  split
  · exact ⟨h, .idle⟩
  · next htx => exact ⟨{ h with }, .remoteRead htx⟩

/-- A packet of the remote core is a step of the exchange. -/
theorem exchanges_remoteSend (h : Connection s) {pkt : QmpPkt} (hsize : pkt.size < 256) :
    Exchanges maxPktSize late s (s.remoteSend pkt) := by
  rw [System.remoteSend, h.desc_txAck]
  split
  · next hfree => exact ⟨{ h with }, .remoteSend pkt hsize hfree⟩
  · exact ⟨h, .idle⟩

/-- Each step of the system is one of the exchange. -/
theorem exchanges_step (h : Connection s) {e : Event} (hpermitted : Permitted e) :
    Exchanges maxPktSize (e = .txTimeout) s (step maxPktSize s e) := by
  cases e with
  | startup =>
    rw [step]
    split
    · exact ⟨h, .idle⟩
    · exact exchanges_startup h
  | shutdown => exact hpermitted.elim
  | sendData pkt => exact exchanges_sendData h pkt
  | txTimeout => exact exchanges_txTimeout h rfl
  | workerRead =>
    rw [step]
    split
    · exact exchanges_workerRead h
    · exact ⟨h, .idle⟩
  | workerLock =>
    rw [step]
    split
    · exact exchanges_workerLock h
    · exact ⟨h, .idle⟩
  | workerReceive =>
    rw [step]
    split
    · next hlocked => exact exchanges_workerReceive h hlocked
    · exact ⟨h, .idle⟩
  | remoteLinkUp => exact exchanges_remoteLinkUp h
  | remoteLinkDown => exact hpermitted.elim
  | remoteChState up => exact exchanges_remoteChState h up
  | remoteRead => exact exchanges_remoteRead h
  | remoteSend pkt => exact exchanges_remoteSend h hpermitted

end Steps

/-! ### Runs -/

section Runs

variable {maxPktSize : ℕ} {events : List Event} {s₀ : System}

/-- The connection in the beginning. -/
theorem connection_start : Connection start where
  desc_tx := rfl
  desc_txAck := rfl
  desc_fragSize := rfl
  ucore_linkState h := nomatch h
  remote_linkState h := nomatch h
  complete h := nomatch h
  state_eq := .inl rfl
  mcore_eq _ := ⟨rfl, rfl, rfl, rfl⟩
  locked h := nomatch h

/-- Nothing was sent in the beginning. -/
theorem sending_start : start.exchange.Sending :=
  ⟨StopAndWait.start false false _, fun h => absurd rfl h⟩

/-- Nothing was received in the beginning. -/
theorem receiving_start : start.exchange.Receiving maxPktSize :=
  ⟨carries_nil false _, fun h => absurd rfl h, fun _ h => nomatch h⟩

private theorem receiving_run (h₀ : Connection s₀) (hreceiving₀ : s₀.exchange.Receiving maxPktSize)
    (hevents : ∀ e ∈ events, Permitted e) :
    ∀ s ∈ Runs.states (step maxPktSize) s₀ events,
      Connection s ∧ s.exchange.Receiving maxPktSize := by
  refine Runs.forall_states_of_invariant ?_ ⟨h₀, hreceiving₀⟩ hevents
  rintro s e ⟨h, hreceiving⟩ he
  obtain ⟨h', hstep⟩ := exchanges_step h he
  exact ⟨h', hreceiving.step hstep⟩

private theorem sending_run (h₀ : Connection s₀) (hsending₀ : s₀.exchange.Sending)
    (hmax : maxPktSize < 256) (hevents : ∀ e ∈ events, Permitted e ∧ e ≠ .txTimeout) :
    ∀ s ∈ Runs.states (step maxPktSize) s₀ events, Connection s ∧ s.exchange.Sending := by
  refine Runs.forall_states_of_invariant ?_ ⟨h₀, hsending₀⟩ hevents
  rintro s e ⟨h, hsending⟩ ⟨he, hlate⟩
  obtain ⟨h', hstep⟩ := exchanges_step h he
  exact ⟨h', hsending.step hmax hlate hstep⟩

end Runs

/-- The channel is opened, and both cores send a packet. -/
def openedChannel : List Event :=
  [.remoteLinkUp, .workerRead, .workerLock, .workerRead, .workerLock, .startup, .remoteChState true,
    .workerRead, .workerLock, .sendData ⟨8, [1, 2], rfl⟩, .remoteSend ⟨4, [3], rfl⟩]

private theorem openedChannel_permitted : ∀ e ∈ openedChannel, Permitted e ∧ e ≠ .txTimeout := by
  simp [openedChannel, Permitted]

/-- Both packets are taken, and the remote core sends another one. -/
def exchangedPackets : List Event :=
  openedChannel ++
    [.remoteRead, .workerRead, .workerLock, .workerReceive, .remoteSend ⟨8, [4, 5], rfl⟩]

private theorem exchangedPackets_permitted :
    ∀ e ∈ exchangedPackets, Permitted e ∧ e ≠ .txTimeout := by
  simp [exchangedPackets, openedChannel, Permitted]

/-- One packet was delivered and one was read. -/
example :
    let s := exchangedPackets.foldl (step 24) start
    s.delivered.map QmpPkt.data = [[3]] ∧ s.received.map QmpPkt.data = [[1, 2]] := by
  decide

section Progress

variable {maxPktSize : ℕ} {s : System}

/-- The remote core takes what is announced, and the worker runs once. -/
def round : List Event := [.remoteRead, .workerRead, .workerLock, .workerReceive]

/-- A transmission that the remote core has answered is done. -/
theorem rxWorkerTxDone_spec (s : System) :
    s.rxWorkerTxDone.mdev.txSent =
        (s.mdev.txSent && s.mdev.ucore.rxDone == s.mdev.mcore.rxDoneAck) ∧
      s.rxWorkerTxDone.mdev.ucore = s.mdev.ucore ∧
      s.rxWorkerTxDone.mdev.mcore.txAck = s.mdev.mcore.txAck ∧
      s.rxWorkerTxDone.ucoreDesc = s.ucoreDesc := by
  rw [System.rxWorkerTxDone]
  cases hsent : s.mdev.txSent with
  | false => exact ⟨hsent, rfl, rfl, rfl⟩
  | true =>
    by_cases hdone : s.mdev.ucore.rxDone = s.mdev.mcore.rxDoneAck
    · rw [hdone, bne_self_eq_false, Bool.and_false, if_neg Bool.false_ne_true, beq_self_eq_true]
      exact ⟨hsent, rfl, rfl, rfl⟩
    · rw [bne_iff_ne.mpr hdone, beq_eq_false_iff_ne.mpr hdone]
      exact ⟨rfl, rfl, rfl, rfl⟩

private theorem rxWorkerLock_spec (hstate : s.mdev.localState = .channelConnected)
    (hlink : s.mdev.ucore.linkState = true) :
    s.rxWorkerLock.mdev.txSent =
        (s.mdev.txSent && s.mdev.ucore.rxDone == s.mdev.mcore.rxDoneAck) ∧
      s.rxWorkerLock.mdev.ucore = s.mdev.ucore ∧
      s.rxWorkerLock.mdev.mcore.txAck = s.mdev.mcore.txAck ∧
      s.rxWorkerLock.ucoreDesc = s.ucoreDesc ∧ s.rxWorkerLock.worker = .locked := by
  simp only [System.rxWorkerLock, hstate, hlink, Bool.not_true, Bool.and_false, Bool.false_eq_true,
    if_false]
  split
  · obtain ⟨hsent, hucore, htxAck, hdesc⟩ := rxWorkerTxDone_spec s.rxRemoteDisconnect
    exact ⟨hsent, hucore, htxAck, hdesc, trivial⟩
  · obtain ⟨hsent, hucore, htxAck, hdesc⟩ := rxWorkerTxDone_spec s
    exact ⟨hsent, hucore, htxAck, hdesc, trivial⟩

/-- A packet that fits is taken. -/
theorem rxWorkerReceive_spec (hsize : s.mdev.ucore.tx ≠ s.mdev.mcore.txAck →
      0 < s.mdev.ucore.fragSize.toNat ∧ s.mdev.ucore.fragSize.toNat ≤ maxPktSize) :
    (s.rxWorkerReceive maxPktSize).mdev.mcore.txAck = s.mdev.ucore.tx ∧
      (s.rxWorkerReceive maxPktSize).ucoreDesc = s.ucoreDesc := by
  rw [System.rxWorkerReceive]
  by_cases htx : s.mdev.ucore.tx = s.mdev.mcore.txAck
  · rw [htx, bne_self_eq_false, if_neg Bool.false_ne_true]
    exact ⟨rfl, rfl⟩
  · obtain ⟨hpos, hle⟩ := hsize htx
    have hfits : ¬(s.mdev.ucore.fragSize = 0 ∨ maxPktSize < s.mdev.ucore.fragSize.toNat) := by
      rintro (hzero | hlt)
      · rw [hzero] at hpos
        exact absurd hpos (by decide)
      · omega
    rw [if_pos (bne_iff_ne.mpr htx), if_neg hfits]
    exact ⟨rfl, rfl⟩

private theorem txSent_rxWorkerReceive (s : System) :
    (s.rxWorkerReceive maxPktSize).mdev.txSent = s.mdev.txSent := by
  rw [System.rxWorkerReceive]
  split
  · split <;> rfl
  · rfl

/-- A run of the worker reports what was answered and takes a packet that fits. -/
theorem worker_spec (maxPktSize : ℕ) (hstate : s.mdev.localState = .channelConnected)
    (hlink : s.ucoreDesc.desc.linkState = true) :
    let t := s.rxWorkerRead.rxWorkerLock.rxWorkerReceive maxPktSize
    t.mdev.txSent = (s.mdev.txSent && s.ucoreDesc.desc.rxDone == s.mdev.mcore.rxDoneAck) ∧
      ((s.ucoreDesc.desc.tx ≠ s.mdev.mcore.txAck →
          0 < s.ucoreDesc.desc.fragSize.toNat ∧ s.ucoreDesc.desc.fragSize.toNat ≤ maxPktSize) →
        t.ucoreDesc.desc.tx = t.mdev.mcore.txAck) := by
  obtain ⟨hsent, hucore, htxAck, hdesc, -⟩ := rxWorkerLock_spec (s := s.rxWorkerRead) hstate hlink
  refine ⟨(txSent_rxWorkerReceive _).trans hsent, fun hfits => ?_⟩
  obtain ⟨htaken, hsame⟩ := rxWorkerReceive_spec (s := s.rxWorkerRead.rxWorkerLock) (by
    rw [hucore, htxAck]
    exact hfits)
  rw [htaken, hsame, hdesc, hucore]
  rfl

/-- What the remote core changes when it reads. -/
theorem remoteRead_spec (s : System) :
    s.remoteRead.mcoreDesc.desc.tx = s.remoteRead.ucoreDesc.desc.txAck ∧
      s.remoteRead.mdev = s.mdev ∧ s.remoteRead.worker = s.worker ∧
      s.remoteRead.ucoreDesc.desc.tx = s.ucoreDesc.desc.tx ∧
      s.remoteRead.ucoreDesc.pkt = s.ucoreDesc.pkt := by
  rw [System.remoteRead]
  split
  · next hfree => exact ⟨hfree, rfl, rfl, rfl, rfl⟩
  · exact ⟨rfl, rfl, rfl, rfl, rfl⟩

/-- The worker runs once. -/
def workerRun : List Event := [.workerRead, .workerLock, .workerReceive]

/-- The parts of the worker follow one another. -/
theorem workerRun_eq (hworker : s.worker = .idle)
    (hstate : s.mdev.localState = .channelConnected)
    (hlink : s.ucoreDesc.desc.linkState = true) :
    workerRun.foldl (step maxPktSize) s =
      s.rxWorkerRead.rxWorkerLock.rxWorkerReceive maxPktSize := by
  obtain ⟨-, -, -, -, hlocked⟩ := rxWorkerLock_spec (s := s.rxWorkerRead) hstate hlink
  have hread : s.rxWorkerRead.worker = .read := rfl
  simp only [workerRun, List.foldl_cons, List.foldl_nil, step, hworker, if_true]
  rw [if_pos hread, if_pos hlocked]

private theorem round_eq (hworker : s.worker = .idle)
    (hstate : s.mdev.localState = .channelConnected)
    (hlink : s.remoteRead.ucoreDesc.desc.linkState = true) :
    round.foldl (step maxPktSize) s =
      s.remoteRead.rxWorkerRead.rxWorkerLock.rxWorkerReceive maxPktSize := by
  obtain ⟨-, hmdev, hidle, -, -⟩ := remoteRead_spec s
  exact workerRun_eq (hidle.trans hworker)
    ((congrArg QmpDevice.localState hmdev).trans hstate) hlink

end Progress

/-- An answer that comes late is taken for one to the next packet, which was not read. -/
example :
    let s := ([.txTimeout, .remoteRead, .sendData ⟨4, [5], rfl⟩, .workerRead, .workerLock] :
      List Event).foldl (step 24) (openedChannel.foldl (step 24) start)
    s.mdev.txSent = false ∧ s.received.length < s.accepted.length := by
  decide

end TurrisBuild.TmelQmp
