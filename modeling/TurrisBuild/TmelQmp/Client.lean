import TurrisBuild.TmelQmp.Delivery

/-!
# Requests to the remote core

The client `tmelcom.c` sends a request as one packet, waits until that is reported as sent, and
takes the next packet for the answer. A message that does not fit into a packet is left in a buffer
that the remote core may write. As long as nothing times out and no signal comes, the requests are
answered as if each had been handed to the remote core by a call.
-/

namespace TurrisBuild.TmelQmp

variable {σ : Type*}

/-! ### Packets of the client -/

/-- `struct ipc_header` -/
structure IpcHeader where
  ipcType : BitVec 1
  msgLen : BitVec 7
  msgType : BitVec 8
  actionId : BitVec 8
  response : BitVec 8

def IpcHeader.word (hdr : IpcHeader) : Word :=
  hdr.response ++ hdr.actionId ++ hdr.msgType ++ hdr.msgLen ++ hdr.ipcType

/-- `MBOX_IPC_MAX_PARAMS` -/
def mboxIpcMaxParams : ℕ := 5

/-- `sizeof(struct tmel_ipc_pkt)` -/
def ipcPktSize : ℕ := 24

/-- `MBOX_IPC_PACKET_SIZE` -/
def mboxIpcPacketSize : ℕ := 24

/-- `SRAM_IPC_MAX_BUF_SIZE` -/
def sramIpcMaxBufSize : ℕ := 168

/-- `struct tmel_ipc_pkt`, which is zero where nothing is written -/
def ipcPkt (hdr : IpcHeader) (payload : List Word) : QmpPkt where
  size := ipcPktSize
  data := hdr.word :: (List.range mboxIpcMaxParams).map fun i => payload.getD i 0
  length_eq := by simp [ipcPktSize, mboxIpcMaxParams]

/-! ### The client -/

/-- `struct tmelcom`. A packet and the buffer are taken with what they contain. -/
structure Tmelcom where
  pkt : QmpPkt
  sramCoherentBuf : Option (List Word)
  rxDone : Bool

/-- A message, and where `dma_alloc_coherent` finds place for it. -/
structure Request where
  msgUid : Word
  msgBuf : List Word
  sramDmaAddr : Option Word

/-- The errors of `tmelcom_process_request` -/
inductive RequestErrno
  | einval
  | enomem
  | eagain
  | etimedout
  | eproto
  deriving DecidableEq

/-- The message that is left in `msg_buf`, and what is returned. -/
abbrev Response := Except RequestErrno (List Word × BitVec 8)

namespace Tmelcom

variable (tdev : Tmelcom)

/-- `tmelcom_prepare_msg`. A message that is too long is reported, but an empty one is sent. -/
def prepareMsg (req : Request) : Except RequestErrno Unit × Tmelcom :=
  let msgSize := 4 * req.msgBuf.length
  let hdr (ipcType : BitVec 1) (msgLen : ℕ) : IpcHeader :=
    { ipcType
      msgLen := BitVec.ofNat 7 msgLen
      msgType := req.msgUid.extractLsb' 8 8
      actionId := req.msgUid.extractLsb' 0 8
      response := 0 }
  if 4 + msgSize ≤ mboxIpcPacketSize then
    (.ok (), { tdev with pkt := ipcPkt (hdr 0 msgSize) req.msgBuf })
  else if msgSize ≤ sramIpcMaxBufSize then
    match req.sramDmaAddr with
    | none => (.error .enomem, { tdev with sramCoherentBuf := none })
    | some addr =>
      (.ok (),
        { tdev with
          pkt := ipcPkt (hdr 1 8) [addr, BitVec.ofNat 32 msgSize]
          sramCoherentBuf := some req.msgBuf })
  else (.ok (), { tdev with pkt := ipcPkt (hdr 0 0) [] })

/-- `tmelcom_unprepare_message`. What lies behind a packet or a buffer is not known. -/
def unprepareMessage (msgBuf : List Word) : List Word × Tmelcom :=
  if (tdev.pkt.data.headD 0).extractLsb' 0 1 = (0 : BitVec 1) then
    ((tdev.pkt.data.drop 1).take msgBuf.length, tdev)
  else
    match tdev.sramCoherentBuf with
    | some buf => (buf.take msgBuf.length, { tdev with sramCoherentBuf := none })
    | none => (msgBuf, tdev)

/-- `tmelcom_process_request` up to where the packet is sent -/
def processRequest (req : Request) : Except RequestErrno Unit × Tmelcom :=
  if req.msgBuf = [] then (.error .einval, tdev)
  else { tdev with rxDone := false }.prepareMsg req

/-- `tmelcom_process_request` after it has waited for the answer -/
def processResponse (req : Request) : Response × Tmelcom :=
  if tdev.pkt.size ≠ ipcPktSize then (.error .eproto, tdev)
  else
    let unprepared := tdev.unprepareMessage req.msgBuf
    (.ok (unprepared.1, (tdev.pkt.data.headD 0).extractLsb' 24 8),
      { unprepared.2 with rxDone := false })

/-- `tmelcom_receive_message` -/
def receiveMessage (pkt : QmpPkt) : Tmelcom :=
  if tdev.rxDone then tdev else { tdev with pkt := pkt, rxDone := true }

end Tmelcom

/-- What the remote core does with a request. It may write the buffer of the client. -/
structure Service (σ : Type*) where
  serve : σ → QmpPkt → Option (List Word) → QmpPkt × σ × Option (List Word)
  size_lt : ∀ remote pkt buf, (serve remote pkt buf).1.size < 256

/-- The client and the remote core, and how the requests have ended. -/
structure Peers (σ : Type*) where
  tdev : Tmelcom
  remote : σ
  results : List (Request × Response)

namespace Peers

variable (svc : Service σ) (p : Peers σ)

def processRequest (req : Request) : Except RequestErrno Unit × Peers σ :=
  ((p.tdev.processRequest req).1, { p with tdev := (p.tdev.processRequest req).2 })

def answer (pkt : QmpPkt) : QmpPkt × Peers σ :=
  let served := svc.serve p.remote pkt p.tdev.sramCoherentBuf
  (served.1,
    { p with remote := served.2.1, tdev := { p.tdev with sramCoherentBuf := served.2.2 } })

def receiveMessage (pkt : QmpPkt) : Peers σ := { p with tdev := p.tdev.receiveMessage pkt }

def processResponse (req : Request) : Peers σ :=
  { p with
    tdev := (p.tdev.processResponse req).2
    results := p.results ++ [(req, (p.tdev.processResponse req).1)] }

def fail (req : Request) (errno : RequestErrno) : Peers σ :=
  { p with results := p.results ++ [(req, .error errno)] }

/-- A request that is answered at once. -/
def call (req : Request) : Peers σ :=
  match p.processRequest req with
  | (.error errno, p) => p.fail req errno
  | (.ok (), p) =>
    ((p.answer svc p.tdev.pkt).2.receiveMessage (p.answer svc p.tdev.pkt).1).processResponse req

/-- After `tmelcom_probe`. -/
def start (remote : σ) : Peers σ := ⟨⟨⟨0, [], rfl⟩, none, false⟩, remote, []⟩

/-- One request after the other is answered at once. -/
def calls (remote : σ) (reqs : List Request) : Peers σ := reqs.foldl (call svc) (start remote)

end Peers

/-! ### Sessions -/

/-- What the holder of the lock does: `mbox_send_message` waits until the packet is reported as
sent, and then there is a wait for the answer. -/
inductive Phase
  | idle
  | sending (req : Request)
  | waiting (req : Request)

/-- The client on top of the driver. -/
structure Session (σ : Type*) where
  qmp : System
  phase : Phase
  peers : Peers σ

/-- What happens: steps of the driver, those of the client, and an answer of the remote core. A wait
of the client may also end without an answer. -/
inductive SessionEvent
  | qmp (e : Event)
  | request (req : Request)
  | txDone
  | response
  | timeout
  | signal
  | answer

namespace Session

variable (svc : Service σ) (maxPktSize : ℕ) (c : Session σ)

/-- A step of the driver, which gives the packets that it takes to the client. -/
def stepQmp (e : Event) : Session σ :=
  { c with
    qmp := step maxPktSize c.qmp e
    peers := ((step maxPktSize c.qmp e).delivered.drop c.qmp.delivered.length).foldl
      Peers.receiveMessage c.peers }

/-- A request with the lock. Nothing else is queued as long as nothing has timed out, so
`mbox_send_message` hands the packet to the driver at once. -/
def request (req : Request) : Session σ :=
  match c.peers.processRequest req with
  | (.error errno, peers) => { c with peers := peers.fail req errno }
  | (.ok (), peers) =>
    match c.qmp.qmpSendData maxPktSize peers.tdev.pkt with
    | .error _ => { c with peers := peers.fail req .eagain }
    | .ok qmp => { qmp, phase := .sending req, peers }

/-- The remote core answers the first request that it has not answered. -/
def answer : Session σ :=
  match c.qmp.received[c.qmp.sent.length]? with
  | none => c
  | some pkt =>
    if c.qmp.ucoreDesc.desc.tx = c.qmp.mcoreDesc.desc.txAck then
      { c with
        qmp := c.qmp.remoteSend (c.peers.answer svc pkt).1
        peers := (c.peers.answer svc pkt).2 }
    else c

/-- The client is there once the channel is complete. -/
def step (c : Session σ) (e : SessionEvent) : Session σ :=
  match e, c.phase with
  | .qmp e, _ => c.stepQmp maxPktSize e
  | .request req, .idle => if c.qmp.mdev.chComplete then c.request maxPktSize req else c
  | .txDone, .sending req => if c.qmp.mdev.txSent then c else { c with phase := .waiting req }
  | .response, .waiting req =>
    if c.peers.tdev.rxDone then { c with phase := .idle, peers := c.peers.processResponse req }
    else c
  | .timeout, .sending req => { c with phase := .idle, peers := c.peers.fail req .eagain }
  | .timeout, .waiting req => { c with phase := .idle, peers := c.peers.fail req .etimedout }
  | .signal, .waiting req => { c with phase := .idle, peers := c.peers.processResponse req }
  | .answer, _ => c.answer svc
  | _, _ => c

def start (remote : σ) : Session σ := ⟨TmelQmp.start, .idle, .start remote⟩

end Session

end TurrisBuild.TmelQmp
