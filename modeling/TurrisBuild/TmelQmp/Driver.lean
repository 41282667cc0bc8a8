import Mathlib.Data.List.Basic

/-!
# The QMP mailbox

The driver `tmel_qmp.c` exchanges packets with a remote core. Each of the two cores has a
descriptor and a mailbox that only it writes, and tells the other one of changes by interrupts. A
worker reads the descriptor of the remote core and then takes what to do from its own state.
-/

namespace TurrisBuild.TmelQmp

abbrev Word := BitVec 32

/-- `enum qmp_local_state` -/
inductive LocalState
  | linkDisconnected
  | linkNegotiation
  | linkConnected
  | localConnecting
  | localConnected
  | channelConnected
  | localDisconnecting
  deriving DecidableEq

/-- From `LINK_CONNECTED` on. -/
def LocalState.linked : LocalState → Bool
  | .linkDisconnected => false
  | .linkNegotiation => false
  | _ => true

/-- `union channel_desc` -/
structure ChannelDesc where
  linkState : Bool
  linkStateAck : Bool
  chState : Bool
  chStateAck : Bool
  tx : Bool
  txAck : Bool
  rxDone : Bool
  rxDoneAck : Bool
  fragSize : BitVec 8

/-- `struct qmp_pkt`, with the words of its buffer that are copied -/
@[ext]
structure QmpPkt where
  size : ℕ
  data : List Word
  length_eq : data.length = size / 4

/-- The descriptor of a core and its mailbox. -/
structure Mailbox where
  desc : ChannelDesc
  data : ℕ → Word

/-- `struct qmp_device` -/
structure QmpDevice where
  mcore : ChannelDesc
  ucore : ChannelDesc
  localState : LocalState
  linkComplete : Bool
  chComplete : Bool
  txSent : Bool

/-- Where the worker is: it holds `state_lock` while it looks for a packet. -/
inductive Worker
  | idle
  | read
  | locked
  deriving DecidableEq

/-- The driver, the mailboxes, and what has been exchanged. -/
structure System where
  mdev : QmpDevice
  mcoreDesc : Mailbox
  ucoreDesc : Mailbox
  worker : Worker
  /-- The packets that `qmp_send_data` has accepted. -/
  accepted : List QmpPkt
  /-- Those of them that the remote core has read. -/
  received : List QmpPkt
  /-- How many of them were reported as sent. -/
  done : ℕ
  /-- The packets that the remote core has sent. -/
  sent : List QmpPkt
  /-- Those of them that were given to the client. -/
  delivered : List QmpPkt

/-! ### Mailboxes -/

/-- `memcpy32_toio` -/
def memcpy32Toio (dest : ℕ → Word) (src : List Word) : ℕ → Word := fun i => src.getD i (dest i)

/-- `memcpy32_fromio` -/
def memcpy32Fromio (src : ℕ → Word) (size : ℕ) : List Word := (List.range (size / 4)).map src

/-- A packet of some size in a mailbox. -/
def pktOf (fragSize : BitVec 8) (data : ℕ → Word) : QmpPkt where
  size := fragSize.toNat
  data := memcpy32Fromio data fragSize.toNat
  length_eq := by rw [memcpy32Fromio, List.length_map, List.length_range]

def Mailbox.pkt (mbox : Mailbox) : QmpPkt := pktOf mbox.desc.fragSize mbox.data

/-! ### The driver -/

namespace System

variable (s : System)

/-- A change of the driver's own descriptor in memory. -/
def setMcore (f : ChannelDesc → ChannelDesc) : System :=
  { s with mdev := { s.mdev with mcore := f s.mdev.mcore } }

def setState (localState : LocalState) : System :=
  { s with mdev := { s.mdev with localState := localState } }

/-- `send_irq`, which writes the descriptor -/
def sendIrq : System := { s with mcoreDesc := { s.mcoreDesc with desc := s.mdev.mcore } }

/-- `qmp_notify_timeout` -/
def qmpNotifyTimeout : System := { s with mdev := { s.mdev with txSent := false } }

/-- `qmp_startup` up to where it waits for the channel -/
def qmpStartup : System :=
  if s.mdev.linkComplete then
    if s.mdev.localState = .linkConnected then
      ((s.setMcore ({ · with chState := true })).setState .localConnecting).sendIrq
    else s
  else s

/-- The errors of `qmp_send_data` -/
inductive Errno
  | einval
  | eagain

/-- `qmp_send_data` -/
def qmpSendData (maxPktSize : ℕ) (pkt : QmpPkt) : Except Errno System :=
  if !s.mdev.chComplete then .error .einval
  else if maxPktSize < pkt.size then .error .einval
  else if s.mdev.txSent then .error .eagain
  else .ok
    { s with
      mdev :=
        { s.mdev with
          mcore :=
            { s.mdev.mcore with
              fragSize := BitVec.ofNat 8 pkt.size
              tx := !s.mdev.mcore.tx }
          txSent := true }
      mcoreDesc := { s.mcoreDesc with data := memcpy32Toio s.mcoreDesc.data pkt.data }
      accepted := s.accepted ++ [pkt] }.sendIrq

/-- `qmp_shutdown` -/
def qmpShutdown : System :=
  if s.mdev.localState ≠ .linkDisconnected then
    ((s.setState .localDisconnecting).setMcore ({ · with chState := false })).sendIrq
  else s

/-- `clr_mcore_ch_state` -/
def clrMcoreChState : System :=
  s.setMcore fun mcore =>
    { mcore with
      chState := false
      chStateAck := false
      tx := false
      txAck := false
      rxDone := false
      rxDoneAck := false
      fragSize := 0 }

/-- `qmp_recv_data` -/
def qmpRecvData : System :=
  let pkt := pktOf s.mdev.ucore.fragSize s.ucoreDesc.data
  let s := (s.setMcore fun mcore =>
    { mcore with txAck := s.mdev.ucore.tx, rxDone := !mcore.rxDone }).sendIrq
  { s with delivered := s.delivered ++ [pkt] }

/-- `__qmp_rx_worker` reads the descriptor of the remote core. -/
def rxWorkerRead : System :=
  { s with mdev := { s.mdev with ucore := s.ucoreDesc.desc }, worker := .read }

/-- The part of the worker for a transmission that is done. -/
def rxWorkerTxDone : System :=
  if s.mdev.txSent && s.mdev.ucore.rxDone != s.mdev.mcore.rxDoneAck then
    let s := s.setMcore ({ · with rxDoneAck := s.mdev.ucore.rxDone })
    { s with mdev := { s.mdev with txSent := false }, done := s.done + 1 }
  else s

/-- The worker ends. -/
def release : System := { s with worker := .idle }

/-- The link of the remote core is down. -/
def rxLinkDown : System :=
  ((s.setState .linkNegotiation).setMcore
    ({ · with linkStateAck := s.mdev.ucore.linkState })).sendIrq

/-- The driver's own link comes up. -/
def rxNegotiate : System :=
  ((s.setMcore ({ · with linkState := true })).setState .linkNegotiation).sendIrq

/-- Both links are up. -/
def rxLinkConnected : System :=
  let s := (s.clrMcoreChState.setMcore ({ · with linkStateAck := s.mdev.ucore.linkState })).setState
    .linkConnected
  { s with mdev := { s.mdev with linkComplete := true } }

/-- The remote core has answered that the channel is opened. -/
def rxChannelConnected : System :=
  let s := (s.setMcore ({ · with chStateAck := s.mdev.ucore.chState })).setState .channelConnected
  { s with mdev := { s.mdev with chComplete := true } }.sendIrq

/-- The remote core has closed the channel. -/
def rxRemoteDisconnect : System :=
  ((s.setState .localConnecting).setMcore ({ · with chStateAck := s.mdev.ucore.chState })).sendIrq

/-- The channel was shut down. -/
def rxChannelClosed : System :=
  let s := s.clrMcoreChState.setState .linkConnected
  { s with mdev := { s.mdev with chComplete := false } }

/-- `__qmp_rx_worker` with `state_lock` taken, up to where it looks for a packet. The branches that
return or break release the lock. -/
def rxWorkerLock : System :=
  if s.mdev.localState.linked && !s.mdev.ucore.linkState then s.rxLinkDown.release
  else
    match s.mdev.localState with
    | .linkDisconnected => s.rxNegotiate.release
    | .linkNegotiation =>
      if !s.mdev.mcore.linkState || !s.mdev.ucore.linkState then s.release
      else s.rxLinkConnected.release
    | .linkConnected => s.release
    | .localConnecting => s.rxChannelConnected.release
    | .localConnected => s.release
    | .channelConnected =>
      let s := if !s.mdev.ucore.chState then s.rxRemoteDisconnect else s
      { s.rxWorkerTxDone with worker := .locked }
    | .localDisconnecting =>
      if !s.mdev.mcore.chState then s.rxChannelClosed.release else s.release

/-- The last part of `__qmp_rx_worker`. -/
def rxWorkerReceive (maxPktSize : ℕ) : System :=
  if s.mdev.ucore.tx != s.mdev.mcore.txAck then
    if s.mdev.ucore.fragSize = 0 ∨ maxPktSize < s.mdev.ucore.fragSize.toNat then s.release
    else s.qmpRecvData.release
  else s.release

/-! ### The remote core -/

/-- It takes the packet that was announced to it, and says so. -/
def remoteRead : System :=
  if s.mcoreDesc.desc.tx = s.ucoreDesc.desc.txAck then s
  else
    { s with
      ucoreDesc :=
        { s.ucoreDesc with
          desc :=
            { s.ucoreDesc.desc with
              txAck := s.mcoreDesc.desc.tx
              rxDone := !s.ucoreDesc.desc.rxDone } }
      received := s.received ++ [s.mcoreDesc.pkt] }

/-- It announces a packet when the last one was taken. -/
def remoteSend (pkt : QmpPkt) : System :=
  if s.ucoreDesc.desc.tx = s.mcoreDesc.desc.txAck then
    { s with
      ucoreDesc :=
        { desc :=
            { s.ucoreDesc.desc with
              fragSize := BitVec.ofNat 8 pkt.size
              tx := !s.ucoreDesc.desc.tx }
          data := memcpy32Toio s.ucoreDesc.data pkt.data }
      sent := s.sent ++ [pkt] }
  else s

/-- A change of its link or of its side of the channel. -/
def setUcoreDesc (f : ChannelDesc → ChannelDesc) : System :=
  { s with ucoreDesc := { s.ucoreDesc with desc := f s.ucoreDesc.desc } }

end System

/-! ### Runs -/

/-- What happens, in any order: the client's calls, the three parts of the worker, a transmission
that was not answered in time, and what the remote core does. -/
inductive Event
  | startup
  | shutdown
  | sendData (pkt : QmpPkt)
  | txTimeout
  | workerRead
  | workerLock
  | workerReceive
  | remoteLinkUp
  | remoteLinkDown
  | remoteChState (up : Bool)
  | remoteRead
  | remoteSend (pkt : QmpPkt)

/-- What needs `state_lock` or another part of the worker first waits for it. -/
def step (maxPktSize : ℕ) (s : System) : Event → System
  | .startup => if s.worker = .locked then s else s.qmpStartup
  | .shutdown => if s.worker = .locked then s else s.qmpShutdown
  | .sendData pkt => (s.qmpSendData maxPktSize pkt).toOption.getD s
  | .txTimeout => s.qmpNotifyTimeout
  | .workerRead => if s.worker = .idle then s.rxWorkerRead else s
  | .workerLock => if s.worker = .read then s.rxWorkerLock else s
  | .workerReceive => if s.worker = .locked then s.rxWorkerReceive maxPktSize else s
  | .remoteLinkUp => s.setUcoreDesc ({ · with linkState := true })
  | .remoteLinkDown => s.setUcoreDesc ({ · with linkState := false })
  | .remoteChState up => s.setUcoreDesc ({ · with chState := up })
  | .remoteRead => s.remoteRead
  | .remoteSend pkt => s.remoteSend pkt

/-- After `qmp_mbox_probe`, with a remote core that has not done anything yet. -/
def start : System :=
  let desc : ChannelDesc := ⟨false, false, false, false, false, false, false, false, 0⟩
  { mdev := ⟨desc, desc, .linkDisconnected, false, false, false⟩
    mcoreDesc := ⟨desc, fun _ => 0⟩
    ucoreDesc := ⟨desc, fun _ => 0⟩
    worker := .idle
    accepted := []
    received := []
    done := 0
    sent := []
    delivered := [] }

end TurrisBuild.TmelQmp
