import TetraBs.Cmce.Entity
import TetraBs.Cmce.PduCodec
import TetraBs.Daemon.Isolation
import TetraBs.Daemon.SocketServer
import TetraBs.Daemon.State
import TetraBs.Dma.Receive
import TetraBs.Lib.Pacing

/-! The main loop of `sw/main_loop.c` and the cadence of D-NWRK-BROADCAST that it drives with
`sw/cmce/cmce_nwrk_bcast.c`. The upcall of CMCE is not among the callbacks of the bus. -/
namespace TetraBs
open TetraBs.Bits TetraBs.Decoder TetraBs.Pacing TetraBs.Run TetraBs.SocketServer TetraBs.Steps

/-- `last_bcast_tick_mf` and whether a broadcast is due. -/
def cmceNwrkBcastTick (cmce : Cmce) (lastBcastTickMf nowMf : BitVec 64) : Bool × BitVec 64 :=
  let period := cmce.cfg.nwrkBcastPeriodMultiframes
  if cmce.initialised = false then (false, lastBcastTickMf)
  else if period = 0 then (false, lastBcastTickMf)
  else if lastBcastTickMf = 0 then
    if period.setWidth 64 ≤ nowMf then (true, nowMf) else (false, lastBcastTickMf)
  else if period.setWidth 64 ≤ nowMf - lastBcastTickMf then (true, nowMf)
  else (false, lastBcastTickMf)

/-- What is recorded of a tick: the multiframes that have passed, and what `msgbus_post` was given
if a broadcast was due. -/
structure Tick where
  now : Nat
  sent : Option TleSapMsg

/-- The fields of `DaemonState` that the loop works on. `elapsed` and `ticks`, the newest first,
are a record of the run that nothing reads. -/
structure MainLoop where
  daemon : Daemon
  cmce : Cmce
  lastBcastTickMf : BitVec 64 := 0
  mfNow : BitVec 64 := 0
  shutdownRequested : Bool := false
  cleanShutdownFlag : Bool := false
  elapsed : Nat := 0
  ticks : List Tick := []

/-- What `epoll_wait` reports: a signal, the timer with what is read of it, if that is a whole
counter, the clients that wait with what each sends, or a channel with the frames it yields. -/
inductive LoopEvent where
  | signal (whole : Bool)
  | timer (expirations : Option (BitVec 64))
  | listener (clients : List (List Byte))
  | dma (ch : Dma.DmaChan) (frames : List (List Byte))

/-- Dispatches until the bus is empty, `n` at most. -/
def drainBus : Nat → Daemon → Daemon
  | 0, d => d
  | n + 1, d =>
    match msgbusDispatchOne d with
    | (d, 0) => d
    | (d, _) => drainBus n d

/-- The message a broadcast is posted in, if its PDU can be encoded. -/
def broadcastMsg (cfg : CmceCfg) : Option TleSapMsg :=
  match encodeForPost (nwrkBroadcastPdu cfg) .downlink with
  | .ok (enc, n) => some (cmceDownlink 1 { ssi := 0x00FFFFFF, ssiType := .ssi } enc.buffer n)
  | .error _ => none

namespace MainLoop

def sendBroadcast (s : MainLoop) : MainLoop :=
  let env := (cmceSendDNwrkBroadcast ⟨s.cmce, s.daemon.bus⟩).1
  { s with cmce := env.cmce, daemon := { s.daemon with bus := env.bus } }

def mlTimerTick (s : MainLoop) : Option (BitVec 64) → MainLoop
  | none => s
  | some expirations =>
    let s := { s with mfNow := s.mfNow + expirations, elapsed := s.elapsed + expirations.toNat }
    let (due, last) := cmceNwrkBcastTick s.cmce s.lastBcastTickMf s.mfNow
    let sent := if due then broadcastMsg s.cmce.cfg else none
    let s := { s with lastBcastTickMf := last, ticks := ⟨s.elapsed, sent⟩ :: s.ticks }
    let s := if due then s.sendBroadcast else s
    { s with daemon := drainBus 64 s.daemon }

/-- `daemon_request_shutdown`. -/
def daemonRequestShutdown (s : MainLoop) : MainLoop :=
  { s with shutdownRequested := true, cleanShutdownFlag := true }

def mlSignalEvent (s : MainLoop) (whole : Bool) : MainLoop :=
  if whole then s.daemonRequestShutdown else s

variable (jsonLoadb : List Byte → Option JsonText.Value)

/-- One client: of the handlers only that of `daemon.stop` changes the state. -/
def serveClient (s : MainLoop) (stream : List Byte) : MainLoop :=
  match socketServerHandleClient jsonLoadb stream with
  | some entry => if entry.name = CStr.ascii "daemon.stop" then s.daemonRequestShutdown else s
  | none => s

def mlListenerAccept (s : MainLoop) (clients : List (List Byte)) : MainLoop :=
  clients.foldl (serveClient jsonLoadb) s

/-- `ml_drain_dma_chan` with the frames that `dma_recv_frame` yields until it stops. -/
def mlDrainDmaChan (s : MainLoop) (ch : Dma.DmaChan) (frames : List (List Byte)) : MainLoop :=
  if ch = .tmaRx then
    { s with daemon := frames.foldl (fun d body => d.inject (tmaRxInd body)) s.daemon }
  else s

def handle (s : MainLoop) : LoopEvent → MainLoop
  | .signal whole => s.mlSignalEvent whole
  | .timer expirations => s.mlTimerTick expirations
  | .listener clients => s.mlListenerAccept jsonLoadb clients
  | .dma ch frames => s.mlDrainDmaChan ch frames

/-- The events of one wakeup, up to a shutdown. -/
def handleBatch : MainLoop → List LoopEvent → MainLoop
  | s, [] => s
  | s, e :: es => if s.shutdownRequested then s else handleBatch (s.handle jsonLoadb e) es

/-- `main_loop_run`; a list of wakeups that ends before a shutdown is a loop that waits. -/
def mainLoopRun : MainLoop → List (List LoopEvent) → MainLoop
  | s, [] => s
  | s, es :: rest =>
    if s.shutdownRequested then s else mainLoopRun (s.handleBatch jsonLoadb es) rest

end MainLoop

/-! The bits of a broadcast. -/

theorem nwrkBroadcastPdu_passes {cfg : CmceCfg} (hload : cfg.cellLoadCa ≤ 3) :
    Passes (encoderSteps .nwrkBroadcast (nwrkBroadcastPdu cfg)) := by
  exact ⟨decide_eq_true hload, rfl, trivial⟩

theorem nwrkBroadcastPdu_fitting (cfg : CmceCfg) :
    Fitting (writes (encoderSteps .nwrkBroadcast (nwrkBroadcastPdu cfg))) := by
  intro f hf
  have hmem : f ∈ [(cfg.cellReSelectParametersSeed.setWidth 32, 16),
      (cfg.cellLoadCa.setWidth 32 &&& 3, 2), (presentBit false, 1)] := hf
  simp only [List.mem_cons, List.not_mem_nil, or_false] at hmem
  obtain rfl | rfl | rfl := hmem
  · exact fits_widened _ (by decide) (by decide)
  · exact fits_masked _ (by decide) (by decide) (by decide)
  · exact fits_flag false

theorem nwrkBroadcastPdu_length (cfg : CmceCfg) :
    (stepsBits (encoderSteps .nwrkBroadcast (nwrkBroadcastPdu cfg))).length = 19 := by
  simp [encoderSteps, dNwrkBroadcastSteps, nwrkBroadcastPdu, stepsBits, writes]

theorem window_scratchOf (body : List Byte) {m n : Nat} (h : m ≤ 8 * n) :
    window (scratchOf body n) 0 m = window body 0 m := by
  refine window_congr fun k hk => ?_
  have hbyte : (scratchOf body n).getD ((0 + k) / 8) 0 = body.getD ((0 + k) / 8) 0 := by
    rw [scratchOf, List.getD_eq_getElem?_getD, List.getElem?_map,
      List.getElem?_range (by omega)]
    rfl
  rw [bitAt, bitAt, hbyte]

theorem carried_nwrkBroadcastPdu (cfg : CmceCfg) :
    carried .nwrkBroadcast (nwrkBroadcastPdu cfg) {} = nwrkBroadcastPdu cfg := rfl

/-- A message to everybody in timeslot 1, in which the parameters of the cell are read. -/
structure Announces (cfg : CmceCfg) (m : TleSapMsg) : Prop where
  endpoint : m.endpoint = 1
  addr : m.addr = { ssi := 0x00FFFFFF, ssiType := .ssi }
  pduType : m.pdu.pduType = .blData
  reads : ∃ input, cmcePduDecodeDNwrkBroadcast
    (bbInit (scratchOf m.pdu.body ((m.pdu.bodyLenBits + 7) / 8)) m.pdu.bodyLenBits
      (scratchOf_cap m.pdu.body m.pdu.bodyLenBits)) {} m.pdu.bodyLenBits =
    .ok ((nwrkBroadcastPdu cfg).withLength m.pdu.bodyLenBits, input)

/-- A decoder that stands in front of the bits gets the parameters. -/
theorem decodes_broadcast {cfg : CmceCfg} (hload : cfg.cellLoadCa ≤ 3) {input : BitBuffer}
    (hpos : input.pos = 0) (hend : 19 ≤ input.endBits)
    (hwin : window input.buffer 0 19 =
      stepsBits (encoderSteps .nwrkBroadcast (nwrkBroadcastPdu cfg))) :
    ∃ input', cmcePduDecodeDNwrkBroadcast input {} 19 =
      .ok ((nwrkBroadcastPdu cfg).withLength 19, input') := by
  have hlen := nwrkBroadcastPdu_length cfg
  have hwidths : InWidths .nwrkBroadcast (nwrkBroadcastPdu cfg) := by
    intro h
    cases h
  have hget : input.pos + 19 ≤ input.endBits → window input.buffer input.pos 19 = _ → _ :=
    hlen ▸ gets_decodeFrom_nwrkBroadcast {} (nwrkBroadcastPdu_passes hload) hwidths
  rw [hpos, Nat.zero_add] at hget
  exact hget hend hwin

theorem broadcastMsg_announces {cfg : CmceCfg} (hload : cfg.cellLoadCa ≤ 3) :
    ∃ m, broadcastMsg cfg = some m ∧ Announces cfg m ∧ m.pdu.bodyLenBits = 19 := by
  have hlen := nwrkBroadcastPdu_length cfg
  have hroom : cmceEncodeBuffer.pos +
      (stepsBits (encoderSteps .nwrkBroadcast (nwrkBroadcastPdu cfg))).length ≤
      cmceEncodeBuffer.limit := by
    rw [hlen]
    decide
  obtain ⟨enc, n, hinto⟩ := encodeInto_some (nwrkBroadcastPdu_passes hload)
    (nwrkBroadcastPdu_fitting cfg) hroom
  obtain ⟨-, hput, hn, -⟩ := encodeInto_ok hinto
  have henc : encodeForPost (nwrkBroadcastPdu cfg) .downlink = .ok (enc, n) := by
    have htype : (nwrkBroadcastPdu cfg).pduType = .nwrkBroadcast := rfl
    rw [encodeForPost, if_pos htype, ← encodeInto_nwrkBroadcast, hinto]
    rfl
  have hbits := hput.window_eq
  rw [hlen] at hn hbits
  subst hn
  refine ⟨cmceDownlink 1 { ssi := 0x00FFFFFF, ssiType := .ssi } enc.buffer 19,
    by rw [broadcastMsg, henc], ⟨rfl, rfl, rfl, ?_⟩, rfl⟩
  refine decodes_broadcast hload rfl (Nat.le_refl 19) ?_
  simp only [bbInit, cmceDownlink]
  rw [window_scratchOf _ (by decide), window_take _ (by decide)]
  exact hbits

/-! One tick. -/

/-- A `last_bcast_tick_mf` of zero is no special case. -/
theorem cmceNwrkBcastTick_eq {cmce : Cmce} (hinit : cmce.initialised = true)
    (hperiod : cmce.cfg.nwrkBcastPeriodMultiframes ≠ 0) (last now : BitVec 64) :
    cmceNwrkBcastTick cmce last now =
      if cmce.cfg.nwrkBcastPeriodMultiframes.setWidth 64 ≤ now - last then (true, now)
      else (false, last) := by
  have hrunning : ¬ cmce.initialised = false := by rw [hinit]; exact Bool.noConfusion
  rw [cmceNwrkBcastTick]
  simp only [if_neg hrunning, if_neg hperiod]
  by_cases hzero : last = 0
  · have hsub : now - 0 = now := BitVec.sub_zero now
    rw [if_pos hzero, hzero, hsub]
  · rw [if_neg hzero]

/-- The counter wraps, the difference does not. -/
theorem period_le_sub (period : BitVec 16) {last now : Nat} (h : last ≤ now)
    (hnear : now - last < 2 ^ 64) :
    period.setWidth 64 ≤ BitVec.ofNat 64 now - BitVec.ofNat 64 last ↔
      last + period.toNat ≤ now := by
  have hsub : (BitVec.ofNat 64 now - BitVec.ofNat 64 last).toNat = now - last := by
    rw [BitVec.toNat_sub, BitVec.toNat_ofNat, BitVec.toNat_ofNat]
    omega
  have hperiod := period.isLt
  rw [BitVec.le_def, hsub, BitVec.toNat_setWidth]
  omega

theorem cmcePost_keeps (s : CmceEnv) (endpoint : EndpointId) (addr : TetraAddress) (pdu : CmcePdu)
    (dir : CmceDirection) :
    (cmcePostTmaUnitdataReq s endpoint addr pdu dir).1.cmce.cfg = s.cmce.cfg ∧
      (cmcePostTmaUnitdataReq s endpoint addr pdu dir).1.cmce.initialised = s.cmce.initialised := by
  rw [cmcePostTmaUnitdataReq]
  split
  · exact ⟨rfl, rfl⟩
  · split
    · exact ⟨rfl, rfl⟩
    · split
      · exact ⟨rfl, rfl⟩
      · split <;> exact ⟨rfl, rfl⟩

theorem cmceSendDNwrkBroadcast_keeps (s : CmceEnv) :
    (cmceSendDNwrkBroadcast s).1.cmce.cfg = s.cmce.cfg ∧
      (cmceSendDNwrkBroadcast s).1.cmce.initialised = s.cmce.initialised := by
  have hpost := cmcePost_keeps s 1 { ssi := 0x00FFFFFF, ssiType := .ssi }
    (nwrkBroadcastPdu s.cmce.cfg) .downlink
  rw [cmceSendDNwrkBroadcast]
  split
  · exact ⟨rfl, rfl⟩
  · split <;> rename_i hsent <;> rw [hsent] at hpost <;> exact hpost

/-- What is recorded as sent is what is posted; a full bus loses it. -/
theorem cmceSendDNwrkBroadcast_posts {s : CmceEnv} (hinit : s.cmce.initialised = true)
    {m : TleSapMsg} (hm : broadcastMsg s.cmce.cfg = some m)
    (hlen : m.pdu.bodyLenBits ≤ llcPduBodyMaxBytes * 8) :
    (cmceSendDNwrkBroadcast s).1.bus =
      (msgbusPost s.bus (sapPrioDefault .tleSap) (cmceTleMsg m)).1 := by
  have hrunning : ¬ s.cmce.initialised = false := by rw [hinit]; exact Bool.noConfusion
  rw [broadcastMsg] at hm
  split at hm
  · rename_i enc n henc
    cases hm
    have hfits : ¬ llcPduBodyMaxBytes * 8 < n := Nat.not_lt.2 hlen
    rw [cmceSendDNwrkBroadcast, if_neg hrunning, cmcePostTmaUnitdataReq, if_neg hrunning, henc]
    simp only [if_neg hfits]
    cases hpost : msgbusPost s.bus (sapPrioDefault .tleSap)
        (cmceTleMsg (cmceDownlink 1 { ssi := 0x00FFFFFF, ssiType := .ssi } enc.buffer n)) with
    | mk bus e => cases e <;> rfl
  · cases hm

namespace MainLoop

/-! A run. -/

/-- The ticks with whether a broadcast was sent. -/
def instants (s : MainLoop) : List (Nat × Bool) := s.ticks.map fun t => (t.now, t.sent.isSome)

/-- As `tetra_d` starts it with a CMCE of this configuration. -/
structure Started (cfg : CmceCfg) (s : MainLoop) : Prop where
  cfg_eq : s.cmce.cfg = cfg
  initialised : s.cmce.initialised = true
  fields : s.lastBcastTickMf = 0 ∧ s.mfNow = 0 ∧ s.elapsed = 0 ∧ s.ticks = []

/-- The counters stand for the multiframes that have passed and for those at the last broadcast,
since which less than a period has. -/
structure Paced (cfg : CmceCfg) (s : MainLoop) : Prop where
  cfg_eq : s.cmce.cfg = cfg
  initialised : s.cmce.initialised = true
  now_eq : s.mfNow = BitVec.ofNat 64 s.elapsed
  last_eq : s.lastBcastTickMf = BitVec.ofNat 64 (latest s.instants)
  latest_le : latest s.instants ≤ s.elapsed
  near : s.elapsed < latest s.instants + cfg.nwrkBcastPeriodMultiframes.toNat
  cadenced : Cadenced cfg.nwrkBcastPeriodMultiframes.toNat s.instants
  announces : ∀ t ∈ s.ticks, ∀ m ∈ t.sent, Announces cfg m

/-- No read of the timer brings the counter round. -/
def InRange : LoopEvent → Prop
  | .timer (some expirations) => expirations.toNat + 2 ^ 16 ≤ 2 ^ 64
  | _ => True

instance (e : LoopEvent) : Decidable (InRange e) :=
  match e with
  | .timer (some _) => inferInstanceAs (Decidable (_ ≤ _))
  | .timer none | .signal _ | .listener _ | .dma _ _ => isTrue trivial

section
variable {cfg : CmceCfg} {s : MainLoop}

theorem Started.paced (h : s.Started cfg) (hperiod : cfg.nwrkBcastPeriodMultiframes ≠ 0) :
    s.Paced cfg where
  cfg_eq := h.cfg_eq
  initialised := h.initialised
  now_eq := by
    rw [h.fields.2.1, h.fields.2.2.1]
    rfl
  last_eq := by
    rw [h.fields.1, instants, h.fields.2.2.2]
    rfl
  latest_le := by
    rw [instants, h.fields.2.2.2]
    exact Nat.zero_le _
  near := by
    rw [instants, h.fields.2.2.2, h.fields.2.2.1]
    exact Nat.pos_of_ne_zero fun hzero =>
      hperiod (BitVec.eq_of_toNat_eq ((Nat.zero_add _).symm.trans hzero))
  cadenced := by
    rw [instants, h.fields.2.2.2]
    trivial
  announces := by
    rw [h.fields.2.2.2]
    exact fun t ht => absurd ht List.not_mem_nil

/-- Nothing has changed that the broadcasts depend on. -/
structure SameClock (s t : MainLoop) : Prop where
  cmce_eq : t.cmce = s.cmce
  last_eq : t.lastBcastTickMf = s.lastBcastTickMf
  now_eq : t.mfNow = s.mfNow
  elapsed_eq : t.elapsed = s.elapsed
  ticks_eq : t.ticks = s.ticks

theorem SameClock.instants {t : MainLoop} (h : SameClock s t) : t.instants = s.instants := by
  rw [MainLoop.instants, MainLoop.instants, h.ticks_eq]

theorem Paced.keep {t : MainLoop} (h : s.Paced cfg) (hsame : SameClock s t) : t.Paced cfg := by
  constructor
  · rw [hsame.cmce_eq, h.cfg_eq]
  · rw [hsame.cmce_eq, h.initialised]
  · rw [hsame.now_eq, hsame.elapsed_eq, h.now_eq]
  · rw [hsame.last_eq, hsame.instants, h.last_eq]
  · rw [hsame.instants, hsame.elapsed_eq]
    exact h.latest_le
  · rw [hsame.instants, hsame.elapsed_eq]
    exact h.near
  · rw [hsame.instants]
    exact h.cadenced
  · rw [hsame.ticks_eq]
    exact h.announces

theorem mlTimerTick_some (h : s.Paced cfg) (hperiod : cfg.nwrkBcastPeriodMultiframes ≠ 0)
    (hload : cfg.cellLoadCa ≤ 3) {e : BitVec 64} (he : e.toNat + 2 ^ 16 ≤ 2 ^ 64) :
    (s.mlTimerTick (some e)).Paced cfg := by
  obtain ⟨m, hm, hannounces, -⟩ := broadcastMsg_announces hload
  have hperiodPos : 0 < cfg.nwrkBcastPeriodMultiframes.toNat :=
    Nat.pos_of_ne_zero fun hzero => hperiod (BitVec.eq_of_toNat_eq hzero)
  have hnow : s.mfNow + e = BitVec.ofNat 64 (s.elapsed + e.toNat) := by
    rw [h.now_eq, BitVec.ofNat_add, BitVec.ofNat_toNat, BitVec.setWidth_eq]
  have hle : latest s.instants ≤ s.elapsed + e.toNat := Nat.le_add_right_of_le h.latest_le
  have hnear := h.near
  have hshort := cfg.nwrkBcastPeriodMultiframes.isLt
  have hdue := period_le_sub cfg.nwrkBcastPeriodMultiframes hle (by omega)
  have htick := cmceNwrkBcastTick_eq h.initialised (h.cfg_eq ▸ hperiod) s.lastBcastTickMf
    (s.mfNow + e)
  rw [h.cfg_eq, h.last_eq, hnow] at htick
  have hkeeps := cmceSendDNwrkBroadcast_keeps ⟨s.cmce, s.daemon.bus⟩
  rw [mlTimerTick]
  by_cases hfires : latest s.instants + cfg.nwrkBcastPeriodMultiframes.toNat ≤ s.elapsed + e.toNat
  · rw [if_pos (hdue.2 hfires)] at htick
    simp only [hnow, h.last_eq, htick, if_true, h.cfg_eq, hm]
    exact {
      cfg_eq := hkeeps.1.trans h.cfg_eq
      initialised := hkeeps.2.trans h.initialised
      now_eq := rfl
      last_eq := rfl
      latest_le := Nat.le_refl _
      near := Nat.lt_add_of_pos_right hperiodPos
      cadenced := ⟨⟨fun _ => hfires, fun _ => rfl⟩, h.cadenced⟩
      announces := List.forall_mem_cons.2 ⟨fun m' hm' => Option.some.inj hm' ▸ hannounces,
        h.announces⟩ }
  · rw [if_neg fun hd => hfires (hdue.1 hd)] at htick
    simp only [hnow, h.last_eq, htick, if_false, Bool.false_eq_true]
    exact {
      cfg_eq := h.cfg_eq
      initialised := h.initialised
      now_eq := rfl
      last_eq := rfl
      latest_le := hle
      near := Nat.lt_of_not_le hfires
      cadenced := ⟨⟨fun hf => absurd hf Bool.false_ne_true, fun hf => absurd hf hfires⟩, h.cadenced⟩
      announces := List.forall_mem_cons.2 ⟨fun m' hm' => absurd hm' (Option.not_mem_none m'),
        h.announces⟩ }

variable (jsonLoadb : List Byte → Option JsonText.Value)

theorem sameClock_accept (s : MainLoop) (clients : List (List Byte)) :
    SameClock s (s.mlListenerAccept jsonLoadb clients) := by
  rw [mlListenerAccept]
  induction clients generalizing s with
  | nil => exact ⟨rfl, rfl, rfl, rfl, rfl⟩
  | cons stream clients ih =>
    have hserve : SameClock s (serveClient jsonLoadb s stream) := by
      rw [serveClient]
      split
      · split <;> exact ⟨rfl, rfl, rfl, rfl, rfl⟩
      · exact ⟨rfl, rfl, rfl, rfl, rfl⟩
    have h := ih (serveClient jsonLoadb s stream)
    exact ⟨h.cmce_eq.trans hserve.cmce_eq, h.last_eq.trans hserve.last_eq,
      h.now_eq.trans hserve.now_eq, h.elapsed_eq.trans hserve.elapsed_eq,
      h.ticks_eq.trans hserve.ticks_eq⟩

/-- Only a whole read of the timer moves the clock. -/
theorem handle_cases (s : MainLoop) (e : LoopEvent) :
    (∃ n, e = .timer (some n) ∧ s.handle jsonLoadb e = s.mlTimerTick (some n)) ∨
      SameClock s (s.handle jsonLoadb e) := by
  cases e with
  | signal whole => cases whole <;> exact .inr ⟨rfl, rfl, rfl, rfl, rfl⟩
  | timer expirations =>
    cases expirations with
    | none => exact .inr ⟨rfl, rfl, rfl, rfl, rfl⟩
    | some n => exact .inl ⟨n, rfl, rfl⟩
  | listener clients => exact .inr (sameClock_accept jsonLoadb s clients)
  | dma ch frames =>
    rw [handle, mlDrainDmaChan]
    split <;> exact .inr ⟨rfl, rfl, rfl, rfl, rfl⟩

theorem Paced.handle (h : s.Paced cfg) (hperiod : cfg.nwrkBcastPeriodMultiframes ≠ 0)
    (hload : cfg.cellLoadCa ≤ 3) {e : LoopEvent} (he : InRange e) :
    (s.handle jsonLoadb e).Paced cfg := by
  obtain ⟨n, rfl, heq⟩ | hsame := handle_cases jsonLoadb s e
  · rw [heq]
    exact mlTimerTick_some h hperiod hload he
  · exact h.keep hsame

/-- What every event keeps holds after every run. -/
theorem mainLoopRun_invariant {P : MainLoop → Prop} {ok : LoopEvent → Prop}
    (hstep : ∀ s e, P s → ok e → P (s.handle jsonLoadb e)) (h : P s)
    {wakeups : List (List LoopEvent)} (hes : ∀ es ∈ wakeups, ∀ e ∈ es, ok e) :
    P (s.mainLoopRun jsonLoadb wakeups) := by
  have hbatch : ∀ {s es}, P s → (∀ e ∈ es, ok e) → P (s.handleBatch jsonLoadb es) := by
    intro s es h hes
    induction es generalizing s with
    | nil => exact h
    | cons e es ih =>
      obtain ⟨he, hes⟩ := List.forall_mem_cons.1 hes
      rw [handleBatch]
      split
      · exact h
      · exact ih (hstep s e h he) hes
  induction wakeups generalizing s with
  | nil => exact h
  | cons es rest ih =>
    obtain ⟨he, hes⟩ := List.forall_mem_cons.1 hes
    rw [mainLoopRun]
    split
    · exact h
    · exact ih (hbatch h he) hes

theorem broadcasts_paced (hs : s.Started cfg) (hperiod : cfg.nwrkBcastPeriodMultiframes ≠ 0)
    (hload : cfg.cellLoadCa ≤ 3) {wakeups : List (List LoopEvent)}
    (hes : ∀ es ∈ wakeups, ∀ e ∈ es, InRange e) :
    (s.mainLoopRun jsonLoadb wakeups).Paced cfg :=
  mainLoopRun_invariant jsonLoadb (fun _ _ h he => h.handle jsonLoadb hperiod hload he)
    (hs.paced hperiod) hes

/-- The configuration of `tetra_d`. -/
def tetraDCfg : CmceCfg := ⟨10, 0x5655, 0⟩

def booted : MainLoop :=
  { daemon := { bus := rxBus }, cmce := { cfg := tetraDCfg, initialised := true } }

theorem booted_started : booted.Started tetraDCfg := ⟨rfl, rfl, rfl, rfl, rfl, rfl⟩

/-- A timer that is read late, a frame, a timer that is read too early, and a signal with the timer
behind it. -/
def lateWakeups : List (List LoopEvent) :=
  [[.timer (some 4)], [.dma .tmaRx [[0]], .timer (some 7)], [.timer none, .timer (some 9)],
    [.timer (some 1)], [.signal true, .timer (some 30)]]

example : (booted.mainLoopRun (fun _ => none) lateWakeups).instants =
    [(21, true), (20, false), (11, true), (4, false)] := by rfl

theorem mlTimerTick_instants (s : MainLoop) (e : BitVec 64) :
    (s.mlTimerTick (some e)).elapsed = s.elapsed + e.toNat ∧
      ∃ sent, (s.mlTimerTick (some e)).instants = (s.elapsed + e.toNat, sent) :: s.instants := by
  rw [mlTimerTick]
  cases hdue : cmceNwrkBcastTick s.cmce s.lastBcastTickMf (s.mfNow + e) with
  | mk due last => cases due <;> exact ⟨rfl, _, rfl⟩

/-- The timer is read after each multiframe. -/
def ReadsOne : LoopEvent → Prop
  | .timer (some expirations) => expirations = 1
  | _ => True

/-- While no multiframe is missed the broadcasts are sent at the multiples of the period. -/
theorem broadcasts_at_multiples (hs : s.Started cfg)
    (hperiod : cfg.nwrkBcastPeriodMultiframes ≠ 0) (hload : cfg.cellLoadCa ≤ 3)
    {wakeups : List (List LoopEvent)} (hes : ∀ es ∈ wakeups, ∀ e ∈ es, ReadsOne e) :
    ∀ i ∈ (s.mainLoopRun jsonLoadb wakeups).instants,
      i.2 = true ↔ cfg.nwrkBcastPeriodMultiframes.toNat ∣ i.1 := by
  have hrange : ∀ es ∈ wakeups, ∀ e ∈ es, InRange e := by
    intro es hmem e he
    have hone := hes es hmem e he
    cases e with
    | timer expirations =>
      cases expirations with
      | none => trivial
      | some n =>
        rw [ReadsOne] at hone
        rw [InRange, hone]
        decide
    | _ => trivial
  have hevery : EveryInstant (s.mainLoopRun jsonLoadb wakeups).elapsed
      (s.mainLoopRun jsonLoadb wakeups).instants := by
    refine mainLoopRun_invariant jsonLoadb (P := fun s => EveryInstant s.elapsed s.instants)
      (fun s e h he => ?_) ?_ hes
    · obtain ⟨n, rfl, heq⟩ | hsame := handle_cases jsonLoadb s e
      · obtain ⟨helapsed, sent, hinstants⟩ := mlTimerTick_instants s n
        rw [ReadsOne] at he
        have hone : n.toNat = 1 := by rw [he]; rfl
        rw [heq, helapsed, hinstants, hone]
        exact ⟨rfl, Nat.succ_pos _, h⟩
      · rw [hsame.elapsed_eq, hsame.instants]
        exact h
    · rw [instants, hs.fields.2.2.2, hs.fields.2.2.1]
      rfl
  have hpos : 0 < cfg.nwrkBcastPeriodMultiframes.toNat :=
    Nat.pos_of_ne_zero fun hzero => hperiod (BitVec.eq_of_toNat_eq hzero)
  exact ((broadcasts_paced jsonLoadb hs hperiod hload hrange).cadenced.everyInstant hpos hevery).2

end

end MainLoop

end TetraBs
