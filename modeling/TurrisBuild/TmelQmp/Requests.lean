import TurrisBuild.TmelQmp.Client

/-!
# Answers to requests

At most one packet is on its way in each direction, so the packet that the client takes for an
answer is the one to its request. The steps of the driver and of both peers may be taken in any
order.
-/

namespace TurrisBuild.TmelQmp

open Handshake

variable {σ : Type*} {svc : Service σ} {maxPktSize : ℕ}

/-! ### The channel -/

/-- What holds of a channel in use. -/
structure Channel (maxPktSize : ℕ) (s : System) : Prop where
  connection : Connection s
  sending : s.exchange.Sending
  receiving : s.exchange.Receiving maxPktSize

private theorem channel_start : Channel maxPktSize start :=
  ⟨connection_start, sending_start, receiving_start⟩

/-- A step of the exchange keeps the channel. -/
theorem Channel.step {s s' : System} (h : Channel maxPktSize s) (hmax : maxPktSize < 256)
    (hstep : Exchanges maxPktSize False s s') : Channel maxPktSize s' :=
  ⟨hstep.1, h.sending.step hmax id hstep.2, h.receiving.step hstep.2⟩

private theorem Channel.received_prefix {s : System} (h : Channel maxPktSize s) :
    s.received <+: s.accepted :=
  ⟨_, h.sending.wait.carries.symm⟩

private theorem Channel.delivered_prefix {s : System} (h : Channel maxPktSize s) :
    s.delivered <+: s.sent :=
  ⟨_, h.receiving.carries.symm⟩

/-- What the driver and a remote core with its link up do by themselves. -/
def Event.Internal : Event → Prop
  | .shutdown => False
  | .sendData _ => False
  | .txTimeout => False
  | .remoteSend _ => False
  | .remoteLinkDown => False
  | _ => True

private theorem permitted_of_internal {e : Event} (he : e.Internal) :
    Permitted e ∧ e ≠ .txTimeout := by
  cases e with
  | shutdown => exact he.elim
  | sendData pkt => exact he.elim
  | txTimeout => exact he.elim
  | remoteSend pkt => exact he.elim
  | remoteLinkDown => exact he.elim
  | startup => exact ⟨trivial, Event.noConfusion⟩
  | workerRead => exact ⟨trivial, Event.noConfusion⟩
  | workerLock => exact ⟨trivial, Event.noConfusion⟩
  | workerReceive => exact ⟨trivial, Event.noConfusion⟩
  | remoteLinkUp => exact ⟨trivial, Event.noConfusion⟩
  | remoteChState up => exact ⟨trivial, Event.noConfusion⟩
  | remoteRead => exact ⟨trivial, Event.noConfusion⟩

private theorem rxWorkerTxDone_frame (s : System) :
    s.rxWorkerTxDone.accepted = s.accepted ∧ s.rxWorkerTxDone.sent = s.sent := by
  rw [System.rxWorkerTxDone]
  split
  · exact ⟨rfl, rfl⟩
  · exact ⟨rfl, rfl⟩

private theorem rxWorkerLock_frame (s : System) :
    s.rxWorkerLock.accepted = s.accepted ∧ s.rxWorkerLock.sent = s.sent := by
  rw [System.rxWorkerLock]
  split
  · exact ⟨rfl, rfl⟩
  cases s.mdev.localState with
  | channelConnected =>
    dsimp only
    split
    · exact rxWorkerTxDone_frame s.rxRemoteDisconnect
    · exact rxWorkerTxDone_frame s
  | linkNegotiation => dsimp only; split <;> exact ⟨rfl, rfl⟩
  | localDisconnecting => dsimp only; split <;> exact ⟨rfl, rfl⟩
  | linkDisconnected => exact ⟨rfl, rfl⟩
  | linkConnected => exact ⟨rfl, rfl⟩
  | localConnecting => exact ⟨rfl, rfl⟩
  | localConnected => exact ⟨rfl, rfl⟩

/-- The driver accepts no packet by itself, and the remote core sends none. -/
theorem step_frame (maxPktSize : ℕ) (s : System) {e : Event} (he : e.Internal) :
    (step maxPktSize s e).accepted = s.accepted ∧ (step maxPktSize s e).sent = s.sent := by
  cases e with
  | shutdown => exact he.elim
  | sendData pkt => exact he.elim
  | txTimeout => exact he.elim
  | remoteSend pkt => exact he.elim
  | remoteLinkDown => exact he.elim
  | startup =>
    rw [step, System.qmpStartup]
    repeat' split
    all_goals exact ⟨rfl, rfl⟩
  | workerRead =>
    rw [step]
    split <;> exact ⟨rfl, rfl⟩
  | workerLock =>
    rw [step]
    split
    · exact rxWorkerLock_frame s
    · exact ⟨rfl, rfl⟩
  | workerReceive =>
    rw [step, System.rxWorkerReceive]
    repeat' split
    all_goals exact ⟨rfl, rfl⟩
  | remoteLinkUp => exact ⟨rfl, rfl⟩
  | remoteChState up => exact ⟨rfl, rfl⟩
  | remoteRead =>
    rw [step, System.remoteRead]
    split <;> exact ⟨rfl, rfl⟩

/-- Packets are only added to those that were delivered, and only a new packet makes the driver
busy. -/
theorem Exchange.Step.quiet {late : Prop} {x x' : Exchange} (hstep : x.Step maxPktSize late x') :
    x.delivered <+: x'.delivered ∧
      (x'.accepted = x.accepted → x.txSent = false → x'.txSent = false) := by
  cases hstep with
  | idle => exact ⟨List.prefix_rfl, fun _ => id⟩
  | sendData pkt hsize hidle =>
    refine ⟨List.prefix_rfl, fun haccepted => ?_⟩
    exact absurd (List.append_right_eq_self.mp haccepted) (List.cons_ne_nil pkt [])
  | txTimeout hlate => exact ⟨List.prefix_rfl, fun _ _ => rfl⟩
  | look => exact ⟨List.prefix_rfl, fun _ => id⟩
  | txDone hsent hdone => exact ⟨List.prefix_rfl, fun _ _ => rfl⟩
  | recvData htx hsize => exact ⟨List.prefix_append _ _, fun _ => id⟩
  | remoteRead htx => exact ⟨List.prefix_rfl, fun _ => id⟩
  | remoteSend pkt hsize hfree => exact ⟨List.prefix_rfl, fun _ => id⟩

/-- A step of the driver on a channel in use. -/
theorem Channel.step_internal {s : System} (h : Channel maxPktSize s) (hmax : maxPktSize < 256)
    {e : Event} (he : e.Internal) :
    Channel maxPktSize (TmelQmp.step maxPktSize s e) ∧
      s.delivered <+: (TmelQmp.step maxPktSize s e).delivered ∧
      (s.mdev.txSent = false → (TmelQmp.step maxPktSize s e).mdev.txSent = false) := by
  obtain ⟨hpermitted, hlate⟩ := permitted_of_internal he
  have hstep : Exchanges maxPktSize False s (TmelQmp.step maxPktSize s e) := by
    rw [← eq_false hlate]
    exact exchanges_step h.connection hpermitted
  obtain ⟨hdelivered, htxSent⟩ := hstep.2.quiet
  exact ⟨h.step hmax hstep, hdelivered, htxSent (step_frame maxPktSize s he).1⟩

/-! ### A request -/

/-- How far a request has come that the client has begun in `p`. -/
inductive Stage (svc : Service σ) (p : Peers σ) (c : Session σ) : Prop
  | asked (hpeers : c.peers = p) (hsent : c.qmp.sent = c.qmp.delivered)
      (haccepted : ∃ l, c.qmp.accepted = l ++ [p.tdev.pkt] ∧ l.length = c.qmp.sent.length)
  | answered (hpeers : c.peers = (p.answer svc p.tdev.pkt).2)
      (hsent : c.qmp.sent = c.qmp.delivered ++ [(p.answer svc p.tdev.pkt).1])
      (haccepted : c.qmp.accepted.length = c.qmp.sent.length)
  | taken (hpeers : c.peers =
        (p.answer svc p.tdev.pkt).2.receiveMessage (p.answer svc p.tdev.pkt).1)
      (hsent : c.qmp.sent = c.qmp.delivered)
      (haccepted : c.qmp.accepted.length = c.qmp.sent.length)

section Stages

variable {c : Session σ} {p : Peers σ}

/-- A client that has got all packets gets none from the driver. -/
theorem stepQmp_of_caught (h : Channel maxPktSize c.qmp) (hmax : maxPktSize < 256) {e : Event}
    (he : e.Internal) (hsent : c.qmp.sent = c.qmp.delivered) :
    (step maxPktSize c.qmp e).delivered = c.qmp.delivered ∧
      c.stepQmp maxPktSize e = { c with qmp := step maxPktSize c.qmp e } := by
  obtain ⟨h', hprefix, -⟩ := h.step_internal hmax he
  have hsent' := h'.delivered_prefix
  rw [(step_frame maxPktSize c.qmp he).2, hsent] at hsent'
  have heq : (step maxPktSize c.qmp e).delivered = c.qmp.delivered :=
    hsent'.eq_of_length (Nat.le_antisymm hsent'.length_le hprefix.length_le)
  refine ⟨heq, ?_⟩
  rw [Session.stepQmp, heq, List.drop_length]
  rfl

/-- An event of the driver keeps the stage of a request. -/
theorem Stage.stepQmp (hstage : Stage svc p c) (h : Channel maxPktSize c.qmp)
    (hmax : maxPktSize < 256) {e : Event} (he : e.Internal) :
    Stage svc p (c.stepQmp maxPktSize e) := by
  obtain ⟨haccepted', hsent'⟩ := step_frame maxPktSize c.qmp he
  cases hstage with
  | asked hpeers hsent haccepted =>
    obtain ⟨hdelivered, heq⟩ := stepQmp_of_caught h hmax he hsent
    rw [heq]
    refine .asked hpeers ?_ ?_
    · rw [hsent', hdelivered, hsent]
    · rw [haccepted', hsent']
      exact haccepted
  | answered hpeers hsent haccepted =>
    obtain ⟨h', hprefix, -⟩ := h.step_internal hmax he
    have hle := h'.delivered_prefix
    rw [hsent', hsent] at hle
    have hlength : (c.stepQmp maxPktSize e).qmp.accepted.length =
        (c.stepQmp maxPktSize e).qmp.sent.length :=
      (congrArg List.length haccepted').trans (haccepted.trans (congrArg List.length hsent'.symm))
    rcases List.prefix_concat_iff.mp hle with hall | hnone
    · refine .taken ?_ (hsent'.trans (hsent.trans hall.symm)) hlength
      rw [Session.stepQmp, hall, List.drop_left, hpeers]
      rfl
    · have heq : (TmelQmp.step maxPktSize c.qmp e).delivered = c.qmp.delivered :=
        hnone.eq_of_length (Nat.le_antisymm hnone.length_le hprefix.length_le)
      refine .answered ?_ ?_ hlength
      · rw [Session.stepQmp, heq, List.drop_length]
        exact hpeers
      · exact hsent'.trans (hsent.trans (congrArg (· ++ [_]) heq.symm))
  | taken hpeers hsent haccepted =>
    obtain ⟨hdelivered, heq⟩ := stepQmp_of_caught h hmax he hsent
    rw [heq]
    refine .taken hpeers ?_ ?_
    · rw [hsent', hdelivered, hsent]
    · rw [haccepted', hsent']
      exact haccepted

/-- The remote core has nothing to answer. -/
theorem answer_of_caught (h : Channel maxPktSize c.qmp)
    (haccepted : c.qmp.accepted.length = c.qmp.sent.length) : c.answer svc = c := by
  have hnone : c.qmp.received[c.qmp.sent.length]? = none :=
    List.getElem?_eq_none (haccepted ▸ h.received_prefix.length_le)
  rw [Session.answer, hnone]

/-- So does the answer of the service. -/
theorem Stage.answer (hstage : Stage svc p c) (h : Channel maxPktSize c.qmp) :
    Stage svc p (c.answer svc) := by
  cases hstage with
  | asked hpeers hsent haccepted =>
    rw [Session.answer]
    split
    · exact .asked hpeers hsent haccepted
    · next pkt hpkt =>
      split
      · next hfree =>
        obtain ⟨l, haccepted, hlength⟩ := haccepted
        -- What the remote core has read is what the client has sent.
        have heq : pkt = p.tdev.pkt := by
          obtain ⟨hlt, -⟩ := List.getElem?_eq_some_iff.mp hpkt
          obtain ⟨rest, hrest⟩ := h.received_prefix
          have hget : c.qmp.accepted[c.qmp.sent.length]? = some pkt := by
            rw [← hrest, List.getElem?_append_left hlt, hpkt]
          rw [haccepted, ← hlength, List.getElem?_concat_length] at hget
          exact (Option.some.inj hget).symm
        rw [heq, hpeers, System.remoteSend, if_pos hfree]
        refine .answered rfl ?_ ?_
        · exact congrArg (· ++ [_]) hsent
        · dsimp only
          rw [haccepted, List.length_append, hlength, List.length_append]
          rfl
      · exact .asked hpeers hsent haccepted
  | answered hpeers hsent haccepted =>
    rw [answer_of_caught h haccepted]
    exact .answered hpeers hsent haccepted
  | taken hpeers hsent haccepted =>
    rw [answer_of_caught h haccepted]
    exact .taken hpeers hsent haccepted

/-- What an answer leaves alone. -/
theorem answer_frame (svc : Service σ) (c : Session σ) :
    (c.answer svc).phase = c.phase ∧ (c.answer svc).qmp.mdev = c.qmp.mdev ∧
      (c.answer svc).qmp.worker = c.qmp.worker ∧
      (c.answer svc).qmp.ucoreDesc.desc.txAck = c.qmp.ucoreDesc.desc.txAck ∧
      (c.answer svc).qmp.ucoreDesc.desc.linkState = c.qmp.ucoreDesc.desc.linkState := by
  rw [Session.answer]
  split
  · exact ⟨rfl, rfl, rfl, rfl, rfl⟩
  · split
    · next hfree =>
      rw [System.remoteSend, if_pos hfree]
      exact ⟨rfl, rfl, rfl, rfl, rfl⟩
    · exact ⟨rfl, rfl, rfl, rfl, rfl⟩

private theorem channel_answer (h : Channel maxPktSize c.qmp) (hmax : maxPktSize < 256) :
    Channel maxPktSize (c.answer svc).qmp := by
  rw [Session.answer]
  split
  · exact h
  · split
    · exact h.step hmax (exchanges_remoteSend h.connection (svc.size_lt _ _ _))
    · exact h

/-- The client waits for its answer until it has taken it. -/
theorem Stage.peers_eq (hstage : Stage svc p c) (hwaiting : p.tdev.rxDone = false)
    (hdone : c.peers.tdev.rxDone = true) :
    c.peers = (p.answer svc p.tdev.pkt).2.receiveMessage (p.answer svc p.tdev.pkt).1 ∧
      c.qmp.sent = c.qmp.delivered ∧ c.qmp.accepted.length = c.qmp.sent.length := by
  cases hstage with
  | asked hpeers hsent haccepted =>
    rw [hpeers, hwaiting] at hdone
    cases hdone
  | answered hpeers hsent haccepted =>
    have hrxDone : (p.answer svc p.tdev.pkt).2.tdev.rxDone = p.tdev.rxDone := rfl
    rw [hpeers, hrxDone, hwaiting] at hdone
    cases hdone
  | taken hpeers hsent haccepted => exact ⟨hpeers, hsent, haccepted⟩

/-- A request ends only with its answer. -/
theorem Stage.results_eq (hstage : Stage svc p c) : c.peers.results = p.results := by
  cases hstage with
  | asked hpeers hsent haccepted => rw [hpeers]
  | answered hpeers hsent haccepted => rw [hpeers]; rfl
  | taken hpeers hsent haccepted => rw [hpeers]; rfl

end Stages

/-! ### Calls -/

section Calls

private theorem calls_concat (svc : Service σ) (remote : σ) (reqs : List Request) (req : Request) :
    Peers.calls svc remote (reqs ++ [req]) = (Peers.calls svc remote reqs).call svc req := by
  rw [Peers.calls, List.foldl_append]
  rfl

private theorem prepareMsg_ok {tdev tdev' : Tmelcom} {req : Request}
    (h : tdev.prepareMsg req = (.ok (), tdev')) :
    tdev'.rxDone = tdev.rxDone ∧ tdev'.pkt.size = ipcPktSize := by
  rw [Tmelcom.prepareMsg] at h
  dsimp only at h
  repeat' split at h
  all_goals
    cases h
    try exact ⟨rfl, rfl⟩

/-- A request that is sent waits for an answer. -/
theorem processRequest_ok {p p' : Peers σ} {req : Request}
    (h : p.processRequest req = (.ok (), p')) :
    p'.tdev.rxDone = false ∧ p'.tdev.pkt.size = ipcPktSize ∧ p'.results = p.results := by
  obtain ⟨hok, hp'⟩ := Prod.mk.inj h
  rw [Tmelcom.processRequest] at hok hp'
  split at hok
  · cases hok
  · next hmsgBuf =>
    rw [if_neg hmsgBuf] at hp'
    obtain ⟨hrxDone, hsize⟩ := prepareMsg_ok (Prod.ext hok rfl)
    rw [← hp']
    exact ⟨hrxDone, hsize, rfl⟩

/-- One that is not sent has ended. -/
theorem processRequest_error (svc : Service σ) {p p' : Peers σ} {req : Request}
    {errno : RequestErrno} (h : p.processRequest req = (.error errno, p')) :
    p'.results = p.results ∧ p.call svc req = p'.fail req errno := by
  constructor
  · obtain ⟨-, hp'⟩ := Prod.mk.inj h
    rw [← hp']
  · rw [Peers.call, h]

private theorem results_call (svc : Service σ) (p : Peers σ) (req : Request) :
    ∃ response, (p.call svc req).results = p.results ++ [(req, response)] := by
  cases hbegun : p.processRequest req with
  | mk result p' =>
    cases result with
    | error errno =>
      obtain ⟨hresults, heq⟩ := processRequest_error svc hbegun
      rw [heq, Peers.fail, hresults]
      exact ⟨_, rfl⟩
    | ok =>
      obtain ⟨-, -, hresults⟩ := processRequest_ok hbegun
      rw [Peers.call, hbegun, ← hresults]
      exact ⟨_, rfl⟩

end Calls

/-! ### Runs -/

/-- The peers are those that the requests make when they are answered at once. -/
def Called (svc : Service σ) (remote : σ) (p : Peers σ) : Prop :=
  p = Peers.calls svc remote (p.results.map Prod.fst)

/-- A call keeps what holds of the calls so far. -/
theorem Called.call {remote : σ} {p : Peers σ} (h : Called svc remote p) (req : Request) :
    Called svc remote (p.call svc req) := by
  obtain ⟨response, hresults⟩ := results_call svc p req
  rw [Called, hresults, List.map_append, List.map_singleton, calls_concat, ← h]

/-- What holds in a run. A request is on its way only while the client waits for it. -/
def Consistent (svc : Service σ) (remote : σ) (c : Session σ) : Prop :=
  match c.phase with
  | .idle => c.qmp.mdev.txSent = false ∧ c.qmp.sent = c.qmp.delivered ∧
      c.qmp.accepted.length = c.qmp.sent.length ∧ Called svc remote c.peers
  | .sending req => ∃ p₀ p, Called svc remote p₀ ∧ p₀.processRequest req = (.ok (), p) ∧
      Stage svc p c
  | .waiting req => c.qmp.mdev.txSent = false ∧ ∃ p₀ p, Called svc remote p₀ ∧
      p₀.processRequest req = (.ok (), p) ∧ Stage svc p c

/-- Nothing times out, no signal comes, and only the client and the service use the channel. -/
def SessionPermitted : SessionEvent → Prop
  | .qmp e => e.Internal
  | .timeout => False
  | .signal => False
  | _ => True

section Steps

variable {remote : σ} {c : Session σ}

private theorem consistent_stepQmp (h : Channel maxPktSize c.qmp) (hc : Consistent svc remote c)
    (hmax : maxPktSize < 256) {e : Event} (he : e.Internal) :
    Consistent svc remote (c.stepQmp maxPktSize e) := by
  obtain ⟨-, -, htxSent⟩ := h.step_internal hmax he
  obtain ⟨haccepted', hsent'⟩ := step_frame maxPktSize c.qmp he
  obtain ⟨qmp, phase, peers⟩ := c
  cases phase with
  | idle =>
    obtain ⟨hidle, hsent, haccepted, hcalled⟩ := hc
    obtain ⟨hdelivered, heq⟩ := stepQmp_of_caught h hmax he hsent
    rw [heq]
    refine ⟨htxSent hidle, ?_, ?_, hcalled⟩
    · rw [hsent', hdelivered, hsent]
    · rw [haccepted', hsent', haccepted]
  | sending req =>
    obtain ⟨p₀, p, hcalled, hbegun, hstage⟩ := hc
    exact ⟨p₀, p, hcalled, hbegun, hstage.stepQmp h hmax he⟩
  | waiting req =>
    obtain ⟨hidle, p₀, p, hcalled, hbegun, hstage⟩ := hc
    exact ⟨htxSent hidle, p₀, p, hcalled, hbegun, hstage.stepQmp h hmax he⟩

private theorem channel_request (h : Channel maxPktSize c.qmp) (hmax : maxPktSize < 256)
    (req : Request) : Channel maxPktSize (c.request maxPktSize req).qmp := by
  rw [Session.request]
  split
  · exact h
  · next peers hbegun =>
    split
    · exact h
    · next qmp hok =>
      have hstep : Exchanges maxPktSize False c.qmp
          ((c.qmp.qmpSendData maxPktSize peers.tdev.pkt).toOption.getD c.qmp) :=
        exchanges_sendData h.connection peers.tdev.pkt
      rw [hok] at hstep
      exact h.step hmax hstep

/-- A request is sent at once, for nothing else is on its way. -/
theorem consistent_request (hsize : ipcPktSize ≤ maxPktSize) (hphase : c.phase = .idle)
    (hc : Consistent svc remote c) (hcomplete : c.qmp.mdev.chComplete = true) (req : Request) :
    Consistent svc remote (c.request maxPktSize req) := by
  rw [Consistent, hphase] at hc
  obtain ⟨hidle, hsent, haccepted, hcalled⟩ := hc
  cases hbegun : c.peers.processRequest req with
  | mk result peers =>
    cases result with
    | error errno =>
      obtain ⟨-, heq⟩ := processRequest_error svc hbegun
      rw [Session.request, hbegun, Consistent, hphase]
      dsimp only
      rw [← heq]
      exact ⟨hidle, hsent, haccepted, hcalled.call req⟩
    | ok =>
      obtain ⟨-, hpkt, -⟩ := processRequest_ok hbegun
      have hfits : ¬maxPktSize < peers.tdev.pkt.size := hpkt ▸ Nat.not_lt_of_le hsize
      rw [Session.request, hbegun]
      dsimp only
      rw [System.qmpSendData, hcomplete, hidle, Bool.not_true, if_neg Bool.false_ne_true,
        if_neg hfits, if_neg Bool.false_ne_true]
      exact ⟨c.peers, peers, hcalled, hbegun,
        .asked rfl hsent ⟨c.qmp.accepted, rfl, haccepted⟩⟩

private theorem consistent_answer (h : Channel maxPktSize c.qmp) (hc : Consistent svc remote c) :
    Consistent svc remote (c.answer svc) := by
  obtain ⟨hphase, hmdev, -, -, -⟩ := answer_frame svc c
  rw [Consistent] at hc ⊢
  rw [hphase, hmdev]
  cases hcase : c.phase with
  | idle =>
    rw [hcase] at hc
    rw [answer_of_caught h hc.2.2.1]
    exact hc
  | sending req =>
    rw [hcase] at hc
    obtain ⟨p₀, p, hcalled, hbegun, hstage⟩ := hc
    exact ⟨p₀, p, hcalled, hbegun, hstage.answer h⟩
  | waiting req =>
    rw [hcase] at hc
    obtain ⟨hidle, p₀, p, hcalled, hbegun, hstage⟩ := hc
    exact ⟨hidle, p₀, p, hcalled, hbegun, hstage.answer h⟩

/-- The packet is reported as sent. -/
theorem consistent_txDone {req : Request} (hphase : c.phase = .sending req)
    (hc : Consistent svc remote c) (hidle : c.qmp.mdev.txSent = false) :
    Consistent svc remote { c with phase := .waiting req } := by
  rw [Consistent, hphase] at hc
  obtain ⟨p₀, p, hcalled, hbegun, hstage⟩ := hc
  refine ⟨hidle, p₀, p, hcalled, hbegun, ?_⟩
  cases hstage with
  | asked hpeers hsent haccepted => exact .asked hpeers hsent haccepted
  | answered hpeers hsent haccepted => exact .answered hpeers hsent haccepted
  | taken hpeers hsent haccepted => exact .taken hpeers hsent haccepted

/-- The client has got the answer to its request. -/
theorem consistent_response {req : Request} (hphase : c.phase = .waiting req)
    (hc : Consistent svc remote c) (hdone : c.peers.tdev.rxDone = true) :
    Consistent svc remote { c with phase := .idle, peers := c.peers.processResponse req } := by
  rw [Consistent, hphase] at hc
  obtain ⟨hidle, p₀, p, hcalled, hbegun, hstage⟩ := hc
  obtain ⟨hwaiting, -, -⟩ := processRequest_ok hbegun
  obtain ⟨hpeers, hsent, haccepted⟩ := hstage.peers_eq hwaiting hdone
  have hcall : p₀.call svc req = c.peers.processResponse req := by
    rw [Peers.call, hbegun, hpeers]
  refine ⟨hidle, hsent, haccepted, ?_⟩
  dsimp only
  rw [← hcall]
  exact hcalled.call req

private theorem stage_of_phase (hc : Consistent svc remote c) {req : Request}
    (hphase : c.phase = .sending req ∨ c.phase = .waiting req) :
    ∃ p₀ p, Called svc remote p₀ ∧ p₀.processRequest req = (.ok (), p) ∧ Stage svc p c := by
  rcases hphase with hphase | hphase
  · rw [Consistent, hphase] at hc
    exact hc
  · rw [Consistent, hphase] at hc
    exact hc.2

/-- **A step of a session.** -/
theorem session_step (hmax : maxPktSize < 256) (hsize : ipcPktSize ≤ maxPktSize)
    (h : Channel maxPktSize c.qmp ∧ Consistent svc remote c) {e : SessionEvent}
    (he : SessionPermitted e) :
    Channel maxPktSize (c.step svc maxPktSize e).qmp ∧
      Consistent svc remote (c.step svc maxPktSize e) := by
  obtain ⟨h, hc⟩ := h
  cases e with
  | qmp e =>
    rw [Session.step]
    exact ⟨(h.step_internal hmax he).1, consistent_stepQmp h hc hmax he⟩
  | request req =>
    cases hphase : c.phase with
    | idle =>
      simp only [Session.step, hphase]
      split
      · next hcomplete =>
        exact ⟨channel_request h hmax req, consistent_request hsize hphase hc hcomplete req⟩
      · exact ⟨h, hc⟩
    | sending req' =>
      simp only [Session.step, hphase]
      exact ⟨h, hc⟩
    | waiting req' =>
      simp only [Session.step, hphase]
      exact ⟨h, hc⟩
  | txDone =>
    cases hphase : c.phase with
    | idle =>
      simp only [Session.step, hphase]
      exact ⟨h, hc⟩
    | sending req =>
      simp only [Session.step, hphase]
      split
      · exact ⟨h, hc⟩
      · next hidle =>
        rw [Bool.not_eq_true] at hidle
        exact ⟨h, consistent_txDone hphase hc hidle⟩
    | waiting req =>
      simp only [Session.step, hphase]
      exact ⟨h, hc⟩
  | response =>
    cases hphase : c.phase with
    | idle =>
      simp only [Session.step, hphase]
      exact ⟨h, hc⟩
    | sending req =>
      simp only [Session.step, hphase]
      exact ⟨h, hc⟩
    | waiting req =>
      simp only [Session.step, hphase]
      split
      · next hdone => exact ⟨h, consistent_response hphase hc hdone⟩
      · exact ⟨h, hc⟩
  | timeout => exact he.elim
  | signal => exact he.elim
  | answer =>
    rw [Session.step]
    exact ⟨channel_answer h hmax, consistent_answer h hc⟩

private theorem session_run {events : List SessionEvent} (hmax : maxPktSize < 256)
    (hsize : ipcPktSize ≤ maxPktSize) (hevents : ∀ e ∈ events, SessionPermitted e) :
    ∀ c ∈ Runs.states (Session.step svc maxPktSize) (Session.start remote) events,
      Channel maxPktSize c.qmp ∧ Consistent svc remote c := by
  refine Runs.forall_states_of_invariant ?_ ⟨channel_start, rfl, rfl, rfl, rfl⟩ hevents
  intro c e hc he
  exact session_step hmax hsize hc he

/-- **Requests are answered as by calls.** In every run, whatever the order in which the driver, the
client and the remote core take their steps, the requests that have ended have ended as if each of
them had been answered at once, in the order in which they were made. -/
theorem requests_answered {events : List SessionEvent} (hmax : maxPktSize < 256)
    (hsize : ipcPktSize ≤ maxPktSize) (hevents : ∀ e ∈ events, SessionPermitted e) :
    ∀ c ∈ Runs.states (Session.step svc maxPktSize) (Session.start remote) events,
      c.peers.results =
        (Peers.calls svc remote (c.peers.results.map Prod.fst)).results := by
  intro c hmem
  obtain ⟨-, hc⟩ := session_run hmax hsize hevents c hmem
  have hbusy : ∀ {req : Request}, c.phase = .sending req ∨ c.phase = .waiting req →
      c.peers.results = (Peers.calls svc remote (c.peers.results.map Prod.fst)).results := by
    intro req hphase
    obtain ⟨p₀, p, hcalled, hbegun, hstage⟩ := stage_of_phase hc hphase
    obtain ⟨-, -, hresults⟩ := processRequest_ok hbegun
    rw [hstage.results_eq, hresults]
    exact congrArg Peers.results hcalled
  cases hphase : c.phase with
  | idle =>
    rw [Consistent, hphase] at hc
    exact congrArg Peers.results hc.2.2.2
  | sending req => exact hbusy (.inl hphase)
  | waiting req => exact hbusy (.inr hphase)

end Steps

/-! ### Progress -/

section Progress

variable {remote : σ} {c : Session σ} {p : Peers σ}

/-- Both peers and the driver take the steps that a request waits for. -/
def answering : List SessionEvent :=
  .qmp .remoteRead :: .answer :: workerRun.map .qmp ++ [.txDone, .response]

/-- Steps of the driver leave the phase and what is on its way. -/
theorem stage_run (hmax : maxPktSize < 256) {es : List Event} (hes : ∀ e ∈ es, e.Internal)
    (h : Channel maxPktSize c.qmp) (hstage : Stage svc p c) :
    let c' := es.foldl (Session.stepQmp maxPktSize) c
    c'.qmp = es.foldl (step maxPktSize) c.qmp ∧ c'.phase = c.phase ∧
      Channel maxPktSize c'.qmp ∧ Stage svc p c' ∧
      c'.qmp.accepted = c.qmp.accepted ∧ c'.qmp.sent = c.qmp.sent := by
  induction es generalizing c with
  | nil => exact ⟨rfl, rfl, h, hstage, rfl, rfl⟩
  | cons e es ih =>
    obtain ⟨he, hes⟩ := List.forall_mem_cons.mp hes
    obtain ⟨haccepted, hsent⟩ := step_frame maxPktSize c.qmp he
    obtain ⟨hqmp, hphase, h', hstage', haccepted', hsent'⟩ :=
      ih hes (h.step_internal hmax he).1 (hstage.stepQmp h hmax he)
    exact ⟨hqmp, hphase, h', hstage', haccepted'.trans haccepted, hsent'.trans hsent⟩

/-- A request that was read is answered, for the answer to the last one was taken. -/
theorem length_answer (h : Channel maxPktSize c.qmp) (hstage : Stage svc p c)
    (hread : c.qmp.accepted = c.qmp.received) :
    (c.answer svc).qmp.accepted.length = (c.answer svc).qmp.sent.length := by
  cases hstage with
  | asked hpeers hsent haccepted =>
    obtain ⟨l, haccepted, hlength⟩ := haccepted
    have hfree : c.qmp.ucoreDesc.desc.tx = c.qmp.mcoreDesc.desc.txAck := by
      rw [h.connection.desc_txAck]
      exact h.receiving.carries.free_of_eq hsent
    have hpkt : c.qmp.received[c.qmp.sent.length]? = some p.tdev.pkt := by
      rw [← hread, haccepted, ← hlength, List.getElem?_concat_length]
    rw [Session.answer, hpkt]
    dsimp only
    rw [if_pos hfree, System.remoteSend, if_pos hfree]
    dsimp only
    rw [haccepted, List.length_append, hlength, List.length_append]
    rfl
  | answered hpeers hsent haccepted =>
    rw [answer_of_caught h haccepted]
    exact haccepted
  | taken hpeers hsent haccepted =>
    rw [answer_of_caught h haccepted]
    exact haccepted

/-- A request that the remote core has answered. -/
theorem Stage.served (hstage : Stage svc p c)
    (haccepted : c.qmp.accepted.length = c.qmp.sent.length) :
    c.qmp.sent = c.qmp.delivered ++ [(p.answer svc p.tdev.pkt).1] ∨
      c.qmp.sent = c.qmp.delivered ∧
        c.peers = (p.answer svc p.tdev.pkt).2.receiveMessage (p.answer svc p.tdev.pkt).1 := by
  cases hstage with
  | asked hpeers hsent haccepted' =>
    obtain ⟨l, haccepted', hlength⟩ := haccepted'
    rw [haccepted', List.length_append, hlength] at haccepted
    exact absurd haccepted (Nat.succ_ne_self _)
  | answered hpeers hsent haccepted' => exact .inl hsent
  | taken hpeers hsent haccepted' => exact .inr ⟨hsent, hpeers⟩

/-- A run of the worker ends what is on its way. -/
theorem Stage.workerRun (hstage : Stage svc p c) (h : Channel maxPktSize c.qmp)
    (hmax : maxPktSize < 256) (hworker : c.qmp.worker = .idle)
    (hstate : c.qmp.mdev.localState = .channelConnected)
    (hlink : c.qmp.ucoreDesc.desc.linkState = true)
    (hread : c.qmp.mdev.mcore.tx = c.qmp.ucoreDesc.desc.txAck)
    (haccepted : c.qmp.accepted.length = c.qmp.sent.length)
    (hfits : 0 < (p.answer svc p.tdev.pkt).1.size ∧
      (p.answer svc p.tdev.pkt).1.size ≤ maxPktSize) :
    let c' := TmelQmp.workerRun.foldl (Session.stepQmp maxPktSize) c
    c'.phase = c.phase ∧ c'.qmp.mdev.txSent = false ∧
      c'.peers = (p.answer svc p.tdev.pkt).2.receiveMessage (p.answer svc p.tdev.pkt).1 := by
  intro c'
  have hinternal : ∀ e ∈ TmelQmp.workerRun, e.Internal := by
    simp [TmelQmp.workerRun, Event.Internal]
  obtain ⟨hqmp, hphase, h', hstage', haccepted', hsent'⟩ := stage_run hmax hinternal h hstage
  rw [workerRun_eq hworker hstate hlink] at hqmp
  obtain ⟨hsent, htaken⟩ := worker_spec maxPktSize hstate hlink
  have hidle : c'.qmp.mdev.txSent = false := by
    rw [hqmp, hsent]
    exact h.sending.answered hread
  refine ⟨hphase, hidle, ?_⟩
  -- The packet that is announced, if there is one, is the answer.
  have hannounced : c.qmp.ucoreDesc.desc.tx ≠ c.qmp.mdev.mcore.txAck →
      0 < c.qmp.ucoreDesc.pkt.size ∧ c.qmp.ucoreDesc.pkt.size ≤ maxPktSize := by
    intro hfull
    have hpending := h.receiving.carries.eq_of_full hfull
    rcases hstage.served haccepted with hserved | ⟨hserved, -⟩
    · have heq : c.qmp.ucoreDesc.pkt = (p.answer svc p.tdev.pkt).1 :=
        List.singleton_inj.mp (List.append_cancel_left (hpending.symm.trans hserved))
      rw [heq]
      exact hfits
    · exact absurd (h.receiving.carries.free_of_eq hserved) hfull
  have hcaught : c'.qmp.sent = c'.qmp.delivered := by
    refine h'.receiving.carries.eq_of_free ?_
    show c'.qmp.ucoreDesc.desc.tx = c'.qmp.mdev.mcore.txAck
    rw [hqmp]
    exact htaken hannounced
  have hlength : c'.qmp.accepted.length = c'.qmp.sent.length := by
    rw [haccepted', hsent', haccepted]
  rcases hstage'.served hlength with hserved | ⟨-, hpeers⟩
  · have hnil := List.self_eq_append_right.mp (hcaught.symm.trans hserved)
    exact absurd hnil (List.cons_ne_nil _ [])
  · exact hpeers

/-- The last steps of a request. -/
theorem response_of_taken {req : Request}
    (hphase : c.phase = .sending req ∨ c.phase = .waiting req)
    (hidle : c.qmp.mdev.txSent = false) (hdone : c.peers.tdev.rxDone = true) :
    [SessionEvent.txDone, .response].foldl (Session.step svc maxPktSize) c =
      { c with phase := .idle, peers := c.peers.processResponse req } := by
  have hwaiting : c.step svc maxPktSize .txDone = { c with phase := .waiting req } := by
    obtain ⟨qmp, phase, peers⟩ := c
    rcases hphase with rfl | rfl
    · exact if_neg (by rw [hidle]; exact Bool.false_ne_true)
    · rfl
  rw [List.foldl_cons, hwaiting]
  exact if_pos hdone

/-- **A request ends.** If the client waits while the channel is connected and the worker is idle,
it has its answer after one step of the remote core, one run of the worker, and its own steps. -/
theorem request_ends {events : List SessionEvent} (hmax : maxPktSize < 256)
    (hsize : ipcPktSize ≤ maxPktSize)
    (hfits : ∀ remote pkt buf, 0 < (svc.serve remote pkt buf).1.size ∧
      (svc.serve remote pkt buf).1.size ≤ maxPktSize)
    (hevents : ∀ e ∈ events, SessionPermitted e) :
    ∀ c ∈ Runs.states (Session.step svc maxPktSize) (Session.start remote) events,
      c.qmp.worker = .idle → c.qmp.mdev.localState = .channelConnected →
      ∀ req, c.phase = .sending req ∨ c.phase = .waiting req →
        let c' := answering.foldl (Session.step svc maxPktSize) c
        c'.phase = .idle ∧
          c'.peers = Peers.calls svc remote (c.peers.results.map Prod.fst ++ [req]) := by
  intro c hmem hworker hstate req hphase
  obtain ⟨h, hc⟩ := session_run hmax hsize hevents c hmem
  obtain ⟨p₀, p, hcalled, hbegun, hstage⟩ := stage_of_phase hc hphase
  obtain ⟨-, -, hresults⟩ := processRequest_ok hbegun
  obtain ⟨hfree, hmdev, hidle, -, -⟩ := remoteRead_spec c.qmp
  have hinternal : Event.remoteRead.Internal := trivial
  obtain ⟨c₁, hc₁⟩ : ∃ c₁, c₁ = c.stepQmp maxPktSize .remoteRead := ⟨_, rfl⟩
  have h₁ : Channel maxPktSize c₁.qmp := hc₁ ▸ (h.step_internal hmax hinternal).1
  have hstage₁ : Stage svc p c₁ := hc₁ ▸ hstage.stepQmp h hmax hinternal
  have hqmp₁ : c₁.qmp = c.qmp.remoteRead := hc₁ ▸ rfl
  have hread : c₁.qmp.mdev.mcore.tx = c₁.qmp.ucoreDesc.desc.txAck := by
    rw [← h₁.connection.desc_tx, hqmp₁]
    exact hfree
  have hstate₁ : c₁.qmp.mdev.localState = .channelConnected := by
    rw [hqmp₁, hmdev]
    exact hstate
  have hlink₁ : c₁.qmp.ucoreDesc.desc.linkState = true :=
    h₁.connection.remote_linkState (h₁.connection.ucore_linkState (hstate₁ ▸ rfl))
  obtain ⟨hphase₂, hmdev₂, hworker₂, htxAck₂, hlink₂⟩ := answer_frame svc c₁
  have hlength := length_answer h₁ hstage₁ (h₁.sending.wait.carries.eq_of_free hread)
  obtain ⟨hphase₃, hidle₃, hpeers⟩ := (hstage₁.answer h₁).workerRun (channel_answer h₁ hmax) hmax
    (by rw [hworker₂, hqmp₁, hidle, hworker]) (by rw [hmdev₂, hstate₁]) (by rw [hlink₂, hlink₁])
    (by rw [hmdev₂, htxAck₂, hread]) hlength (hfits _ _ _)
  obtain ⟨c₃, hc₃⟩ : ∃ c₃, c₃ = workerRun.foldl (Session.stepQmp maxPktSize) (c₁.answer svc) :=
    ⟨_, rfl⟩
  rw [← hc₃] at hphase₃ hidle₃ hpeers
  have hanswering : answering.foldl (Session.step svc maxPktSize) c =
      [SessionEvent.txDone, .response].foldl (Session.step svc maxPktSize) c₃ := by
    rw [hc₃, hc₁]
    rfl
  have hphase' : c₃.phase = .sending req ∨ c₃.phase = .waiting req := by
    rw [hphase₃, hphase₂, hc₁]
    exact hphase
  have hdone : c₃.peers.tdev.rxDone = true := by
    rw [hpeers, Peers.receiveMessage, Tmelcom.receiveMessage]
    split
    · next hrxDone => exact hrxDone
    · rfl
  have hcall : c₃.peers.processResponse req = p₀.call svc req := by
    rw [Peers.call, hbegun, hpeers]
  rw [hanswering, response_of_taken hphase' hidle₃ hdone, hcall]
  refine ⟨rfl, ?_⟩
  rw [calls_concat, hstage.results_eq, hresults, ← hcalled]

end Progress

/-- It answers with the number of the request. -/
def countingService : Service ℕ where
  serve n _ buf := (ipcPkt ⟨0, 4, 0, 0, 0⟩ [BitVec.ofNat 32 n], n + 1, buf)
  size_lt _ _ _ := show ipcPktSize < 256 by decide

/-- The channel is opened, and the client sends a request that is answered. -/
def firstRequest : List SessionEvent :=
  [.qmp .remoteLinkUp, .qmp .workerRead, .qmp .workerLock, .qmp .workerRead, .qmp .workerLock,
    .qmp .startup, .qmp (.remoteChState true), .qmp .workerRead, .qmp .workerLock,
    .request ⟨0x0101, [7], none⟩, .qmp .remoteRead, .qmp .workerRead, .answer, .qmp .workerLock,
    .txDone, .qmp .workerReceive, .qmp .workerRead, .qmp .workerLock, .qmp .workerReceive,
    .response]

private theorem firstRequest_permitted : ∀ e ∈ firstRequest, SessionPermitted e := by
  simp [firstRequest, SessionPermitted, Event.Internal]

/-- The first request of a session. -/
theorem requests_answered_first :
    let c := firstRequest.foldl (Session.step countingService 24) (Session.start 0)
    c.peers.results =
      (Peers.calls countingService 0 (c.peers.results.map Prod.fst)).results :=
  requests_answered (by decide) (by decide) firstRequest_permitted _
    (Runs.foldl_mem_states (by simp [firstRequest]) _)

/-- The same request, in the middle of its way. -/
theorem request_ends_first :
    let c := (firstRequest.take 10).foldl (Session.step countingService 24) (Session.start 0)
    let c' := answering.foldl (Session.step countingService 24) c
    c'.phase = .idle ∧
      c'.peers = Peers.calls countingService 0
        (c.peers.results.map Prod.fst ++ [⟨0x0101, [7], none⟩]) :=
  request_ends (by decide) (by decide)
    (fun _ _ _ => show 0 < ipcPktSize ∧ ipcPktSize ≤ 24 by decide)
    (fun e he => firstRequest_permitted e (List.mem_of_mem_take he)) _
    (Runs.foldl_mem_states (by simp [firstRequest]) _) (by decide) (by decide) _ (.inl rfl)

example :
    let c := firstRequest.foldl (Session.step countingService 24) (Session.start 0)
    c.peers.results.map (fun ended => ended.2.toOption) = [some ([0], 0)] := by
  decide

/-- A client that a signal wakes up takes its own request for the answer, and the answer to it for
that to the next request. -/
example :
    let c := ([.request ⟨0x0101, [7], none⟩, .qmp .remoteRead, .qmp .workerRead, .qmp .workerLock,
      .txDone, .signal, .request ⟨0x0101, [8], none⟩, .answer, .qmp .workerReceive,
      .qmp .workerRead, .qmp .workerLock, .qmp .workerReceive, .qmp .remoteRead, .qmp .workerRead,
      .qmp .workerLock, .txDone, .response] : List SessionEvent).foldl
        (Session.step countingService 24)
        (firstRequest.foldl (Session.step countingService 24) (Session.start 0))
    c.peers.results.map (fun ended => ended.2.toOption) =
      [some ([0], 0), some ([7], 0), some ([1], 0)] := by
  decide

end TurrisBuild.TmelQmp
