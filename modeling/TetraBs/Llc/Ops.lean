import TetraBs.Llc.Spec

/-! One specification for each operation of the LLC entity, in terms of endpoint views and of
the messages it adds to the bus. -/
namespace TetraBs
open TetraBs.Bits

/-- Every endpoint reads the same. -/
structure SameViews (l l' : Llc) : Prop where
  view_eq : ∀ id, l'.view id = l.view id
  init_eq : l'.initialised = l.initialised

theorem SameViews.refl (l : Llc) : SameViews l l := ⟨fun _ => rfl, rfl⟩

theorem SameViews.trans {a b c : Llc} (h : SameViews a b) (h' : SameViews b c) : SameViews a c :=
  ⟨fun id => (h'.view_eq id).trans (h.view_eq id), h'.init_eq.trans h.init_eq⟩

/-- Endpoint `id` now is `ep`, every other endpoint reads the same. -/
structure Updated (l l' : Llc) (id : EndpointId) (ep : LlcEndpoint) : Prop where
  view_eq : ∀ id', l'.view id' = if id' = id then ep else l.view id'
  init_eq : l'.initialised = l.initialised

theorem Updated.of_same {l l' : Llc} (h : SameViews l l') (id : EndpointId) :
    Updated l l' id (l.view id) := by
  refine ⟨fun id' => ?_, h.init_eq⟩
  rw [h.view_eq]
  split
  · next heq => rw [heq]
  · rfl

/-- Rewriting in place the endpoint a lookup found. -/
theorem Updated.of_set {l l' : Llc} {id : EndpointId} {i : Fin llcMaxEndpoints}
    {ep : LlcEndpoint} (h : SameViews l l') (hfind : endpointFind l' id = some i)
    (huse : ep.inUse = (l.view id).inUse) (hid : ep.id = (l.view id).id) :
    Updated l (l'.setEndpoint i ep) id ep := by
  have hview := view_inUse l id
  refine ⟨fun id' => ?_, h.init_eq⟩
  rw [view_setEndpoint hfind (huse.trans hview.1) (hid.trans hview.2), h.view_eq]

@[simp] theorem view_countTx (l : Llc) (id : EndpointId) : l.countTx.view id = l.view id := rfl
@[simp] theorem view_countRx (l : Llc) (id : EndpointId) : l.countRx.view id = l.view id := rfl
@[simp] theorem view_countUnknown (l : Llc) (id : EndpointId) :
    l.countUnknown.view id = l.view id := rfl
@[simp] theorem view_countFcsFailure (l : Llc) (id : EndpointId) :
    l.countFcsFailure.view id = l.view id := rfl

theorem hasSlot_congr {l l' : Llc} (h : l'.endpoints = l.endpoints) (id : EndpointId) :
    l'.HasSlot id ↔ l.HasSlot id := by
  unfold Llc.HasSlot llcEndpointLookup endpointAlloc endpointFind
  rw [h]
  cases (List.finRange llcMaxEndpoints).find? fun i =>
      (l.endpoints i).inUse && (l.endpoints i).id == id with
  | some i => exact Iff.rfl
  | none =>
    cases (List.finRange llcMaxEndpoints).find? fun i => !(l.endpoints i).inUse <;> exact Iff.rfl

theorem hasSlot_of_find {l : Llc} {id : EndpointId} {i : Fin llcMaxEndpoints}
    (h : endpointFind l id = some i) : l.HasSlot id := by
  unfold Llc.HasSlot llcEndpointLookup
  rw [h]
  exact Option.some_ne_none i

def ackPdu (nr : Bool) : LlcPdu := { pduType := .blAck, nr := seqByte nr }

def dataPdu (ns : Bool) (body : List Byte) (bodyLenBits : Nat) : LlcPdu :=
  { pduType := .blData, ns := seqByte ns, bodyLenBits := bodyLenBits,
    body := body.take ((bodyLenBits + 7) / 8) }

theorem ackPdu_encodable (nr : Bool) : (ackPdu nr).Encodable :=
  ⟨LlcPduType.noConfusion, Nat.zero_le _, fun _ => rfl⟩

theorem ackPdu_bits_length (nr : Bool) : (ackPdu nr).bits.length = 5 := by
  cases nr <;> decide

theorem dataPdu_encodable (ns : Bool) (body : List Byte) {n : Nat}
    (h : n ≤ llcPduBodyMaxBytes * 8) : (dataPdu ns body n).Encodable := by
  refine ⟨LlcPduType.noConfusion, h, fun h => ?_⟩
  cases h

/-- `req` carries `pdu` to `addr` on endpoint `id`. -/
structure ReqFor (req : TmaUnitdata) (id : EndpointId) (addr : TetraAddress) (pdu : LlcPdu) :
    Prop where
  endpoint_eq : req.endpoint = id
  addr_eq : req.addr = addr
  bits_eq : req.bits = pdu.bits

/-- A request fits the High bucket. Its size does not depend on its content. -/
def TxRoom (bus : Bus) : Prop :=
  84 ≤ (bus.queues .high).maxPayload ∧
    (bus.pending .high).length < (bus.queues .high).ring.cap

/-- An upward message fits the Normal bucket. -/
def UpRoom (bus : Bus) : Prop :=
  60 ≤ (bus.queues .normal).maxPayload ∧
    (bus.pending .normal).length < (bus.queues .normal).ring.cap

instance (bus : Bus) : Decidable (TxRoom bus) := inferInstanceAs (Decidable (_ ∧ _))
instance (bus : Bus) : Decidable (UpRoom bus) := inferInstanceAs (Decidable (_ ∧ _))

theorem accepts_req (bus : Bus) (req : TmaUnitdata) :
    bus.Accepts .high (tmaUnitdataReq req) ↔ TxRoom bus :=
  MsgBus.accepts_addressed SapId.noConfusion SapId.noConfusion

theorem accepts_up (bus : Bus) (m : TleSapMsg) :
    bus.Accepts .normal (tleSapMsgUp m) ↔ UpRoom bus :=
  MsgBus.accepts_addressed SapId.noConfusion SapId.noConfusion

def ifRoom (c : Prop) [Decidable c] (m : SapMsg Payload) : List (SapMsg Payload) :=
  if c then [m] else []

theorem posts_req (bus : Bus) (req : TmaUnitdata) :
    Posts bus (msgbusPost bus .high (tmaUnitdataReq req)).1
      (ifRoom (TxRoom bus) (tmaUnitdataReq req)) [] := by
  have h := posts_high bus (tmaUnitdataReq req)
  simp only [accepts_req] at h
  exact h

theorem posts_up (bus : Bus) (m : TleSapMsg) :
    Posts bus (msgbusPost bus .normal (tleSapMsgUp m)).1 []
      (ifRoom (UpRoom bus) (tleSapMsgUp m)) := by
  have h := posts_normal bus (tleSapMsgUp m)
  simp only [accepts_up] at h
  exact h

theorem post_req_ok (bus : Bus) (req : TmaUnitdata) :
    (msgbusPost bus .high (tmaUnitdataReq req)).2 = none ↔ TxRoom bus :=
  msgbusPost_ok.trans (accepts_req bus req)

/-- Sending an acknowledgement: nothing without an endpoint slot, else one BL-ACK with the
endpoint's N(R), if it fits. -/
theorem llcSendBlAck_spec (s : LlcEnv) (id : EndpointId) (addr : TetraAddress) :
    ¬s.llc.HasSlot id ∧ (llcSendBlAck s id addr).1 = s ∨
      s.llc.HasSlot id ∧ ∃ req, ReqFor req id addr (ackPdu (s.llc.view id).nrExpected) ∧
        SameViews s.llc (llcSendBlAck s id addr).1.llc ∧
        Posts s.bus (llcSendBlAck s id addr).1.bus
          (ifRoom (TxRoom s.bus) (tmaUnitdataReq req)) [] := by
  unfold llcSendBlAck
  obtain ⟨hl, hno⟩ | ⟨i, l, hl, hs, -, hep, hview, hinit⟩ := llcEndpointLookup_cases s.llc id
  · rw [hl]
    exact Or.inl ⟨hno, rfl⟩
  · rw [hl]
    have hlen := ackPdu_bits_length (s.llc.view id).nrExpected
    obtain ⟨req, hid, haddr, -, hbits, hemit⟩ := emitPdu_posts s.bus s.reqHandle id addr
      (ackPdu_encodable (s.llc.view id).nrExpected) (by rw [hlen]; decide : _ ≤ 8 * 8)
      (by rw [hlen]; decide)
    refine Or.inr ⟨hs, req, ⟨hid, haddr, hbits⟩, ?_⟩
    have hposts := posts_req s.bus req
    rw [ackPdu] at hemit
    simp only [hep, hemit]
    cases hrc : (msgbusPost s.bus .high (tmaUnitdataReq req)).2 with
    | none => exact ⟨⟨hview, hinit⟩, hposts⟩
    | some e => exact ⟨⟨hview, hinit⟩, hposts⟩

/-- `llc_send_bl_data` sends its body. -/
structure SendOk (s : LlcEnv) (id : EndpointId) (bodyLenBits : Nat) : Prop where
  body_le : bodyLenBits ≤ llcPduBodyMaxBytes * 8
  slot : s.llc.HasSlot id
  idle : (s.llc.view id).awaitingAck = false
  room : TxRoom s.bus

/-- `llc_send_bl_data` posts its frame and commits the endpoint to it, or does neither. -/
theorem llcSendBlData_spec (s : LlcEnv) (id : EndpointId) (addr : TetraAddress)
    (body : List Byte) (n : Nat) :
    ¬SendOk s id n ∧ (llcSendBlData s id addr body n).2 ≠ none ∧
        SameViews s.llc (llcSendBlData s id addr body n).1.llc ∧
        Posts s.bus (llcSendBlData s id addr body n).1.bus [] [] ∨
      SendOk s id n ∧ (llcSendBlData s id addr body n).2 = none ∧
        ∃ req, ReqFor req id addr (dataPdu (s.llc.view id).nsSend body n) ∧
          Updated s.llc (llcSendBlData s id addr body n).1.llc id
            ((s.llc.view id).commit (dataPdu (s.llc.view id).nsSend body n)) ∧
          Posts s.bus (llcSendBlData s id addr body n).1.bus [tmaUnitdataReq req] [] := by
  unfold llcSendBlData
  by_cases hn : llcPduBodyMaxBytes * 8 < n
  · rw [if_pos hn]
    exact Or.inl ⟨fun h => Nat.not_lt.2 h.body_le hn, by simp, SameViews.refl _, Posts.refl _⟩
  rw [if_neg hn]
  obtain ⟨hl, hno⟩ | ⟨i, l, hl, hs, hfind, hep, hview, hinit⟩ := llcEndpointLookup_cases s.llc id
  · rw [hl]
    exact Or.inl ⟨fun h => hno h.slot, by simp, SameViews.refl _, Posts.refl _⟩
  rw [hl]
  simp only [hep]
  by_cases hbusy : (s.llc.view id).awaitingAck = true
  · rw [if_pos hbusy]
    refine Or.inl ⟨fun h => ?_, by simp, ⟨hview, hinit⟩, Posts.refl _⟩
    exact absurd (h.idle.symm.trans hbusy) (by decide)
  rw [if_neg hbusy]
  have he := dataPdu_encodable (s.llc.view id).nsSend body (Nat.le_of_not_lt hn)
  have hlen := bits_length_le he
  obtain ⟨req, hid, haddr, -, hbits, hemit⟩ := emitPdu_posts s.bus s.reqHandle id addr he
    (le_trans hlen (by decide) : _ ≤ (llcPduBodyMaxBytes + 8) * 8) (le_trans hlen (by decide))
  have hposts := posts_req s.bus req
  have hok := post_req_ok s.bus req
  rw [dataPdu] at hemit
  simp only [hemit]
  cases hrc : (msgbusPost s.bus .high (tmaUnitdataReq req)).2 with
  | none =>
    have hroom := hok.1 hrc
    rw [ifRoom, if_pos hroom] at hposts
    refine Or.inr ⟨⟨Nat.le_of_not_lt hn, hs, by simpa using hbusy, hroom⟩, rfl, req,
      ⟨hid, haddr, hbits⟩, ?_, hposts⟩
    have hupd : Updated s.llc
        (l.setEndpoint i ((s.llc.view id).commit (dataPdu (s.llc.view id).nsSend body n))) id
        ((s.llc.view id).commit (dataPdu (s.llc.view id).nsSend body n)) :=
      Updated.of_set ⟨hview, hinit⟩ hfind rfl rfl
    exact ⟨hupd.view_eq, hupd.init_eq⟩
  | some e =>
    have hroom : ¬TxRoom s.bus := by
      intro h
      have := hok.2 h
      rw [hrc] at this
      cases this
    rw [ifRoom, if_neg hroom] at hposts
    exact Or.inl ⟨fun h => hroom h.room, by simp, ⟨hview, hinit⟩, hposts⟩

/-- `on_tle_msg_from_mle` gets as far as posting. -/
structure TleReady (llc : Llc) (m : TleSapMsg) : Prop where
  initialised : llc.initialised = true
  slot : llc.HasSlot m.endpoint
  encodable : m.pdu.Encodable

/-- The endpoint after a TLE message: committed to a data PDU whatever became of the post. -/
def tleEndpoint (ep : LlcEndpoint) (pdu : LlcPdu) : LlcEndpoint :=
  if isBlData pdu.pduType then ep.commit (stampPdu ep pdu) else ep

theorem handleTleFromMle_spec (s : LlcEnv) (m : TleSapMsg) :
    ¬TleReady s.llc m ∧ SameViews s.llc (handleTleFromMle s m).llc ∧
        Posts s.bus (handleTleFromMle s m).bus [] [] ∨
      TleReady s.llc m ∧
        ∃ req, ReqFor req m.endpoint m.addr (stampPdu (s.llc.view m.endpoint) m.pdu) ∧
          Updated s.llc (handleTleFromMle s m).llc m.endpoint
            (tleEndpoint (s.llc.view m.endpoint) m.pdu) ∧
          Posts s.bus (handleTleFromMle s m).bus (ifRoom (TxRoom s.bus) (tmaUnitdataReq req)) []
            := by
  unfold handleTleFromMle
  by_cases hinit : s.llc.initialised = false
  · rw [if_pos hinit]
    refine Or.inl ⟨fun h => ?_, SameViews.refl _, Posts.refl _⟩
    exact absurd (h.initialised.symm.trans hinit) (by decide)
  rw [if_neg hinit]
  obtain ⟨hl, hno⟩ | ⟨i, l, hl, hs, hfind, hep, hview, hinit'⟩ :=
    llcEndpointLookup_cases s.llc m.endpoint
  · rw [hl]
    exact Or.inl ⟨fun h => hno h.slot, SameViews.refl _, Posts.refl _⟩
  rw [hl]
  simp only [hep]
  by_cases hm : m.pdu.Encodable
  · have he := (stampPdu_encodable (s.llc.view m.endpoint) m.pdu).2 hm
    have hlen := bits_length_le he
    obtain ⟨req, hid, haddr, -, hbits, hemit⟩ := emitPdu_posts s.bus s.reqHandle m.endpoint m.addr
      he (le_trans hlen (by decide) : _ ≤ (llcPduBodyMaxBytes + 8) * 8)
      (le_trans hlen (by decide))
    refine Or.inr ⟨⟨by simpa using hinit, hs, hm⟩, req, ⟨hid, haddr, hbits⟩, ?_⟩
    simp only [hemit, stampPdu_type]
    refine ⟨?_, posts_req s.bus req⟩
    have hcount : ∀ l', l' = l ∨ l' = l.countTx → Updated s.llc
        (if isBlData m.pdu.pduType then
          l'.setEndpoint i ((s.llc.view m.endpoint).commit (stampPdu (s.llc.view m.endpoint) m.pdu))
        else l') m.endpoint (tleEndpoint (s.llc.view m.endpoint) m.pdu) := by
      intro l' hl'
      have hsame : SameViews s.llc l' ∧ endpointFind l' m.endpoint = some i := by
        obtain rfl | rfl := hl' <;> exact ⟨⟨hview, hinit'⟩, hfind⟩
      unfold tleEndpoint
      split
      · exact Updated.of_set hsame.1 hsame.2 rfl rfl
      · exact Updated.of_same hsame.1 _
    cases (msgbusPost s.bus .high (tmaUnitdataReq req)).2 with
    | none => exact hcount _ (Or.inr rfl)
    | some e => exact hcount _ (Or.inl rfl)
  · rw [emitPdu_rejects _ _ _ _ _ (mt (stampPdu_encodable _ _).1 hm)]
    exact Or.inl ⟨fun h => hm h.encodable, ⟨hview, hinit'⟩, Posts.refl _⟩

/-- `ind` carries `pdu`, with a good FCS where its type has one. -/
structure GoodPdu (ind : TmaUnitdata) (pdu : LlcPdu) : Prop where
  parse_eq : llcParseSdu ind = .ok pdu
  fcs_good : ¬(llcPduTypeHasFcs pdu.pduType ∧ pdu.fcsValid = false)

def goodPdu (ind : TmaUnitdata) : Option LlcPdu :=
  match llcParseSdu ind with
  | .ok pdu => if llcPduTypeHasFcs pdu.pduType ∧ pdu.fcsValid = false then none else some pdu
  | .error _ => none

theorem goodPdu_eq_some {ind : TmaUnitdata} {pdu : LlcPdu} :
    goodPdu ind = some pdu ↔ GoodPdu ind pdu := by
  unfold goodPdu
  cases hp : llcParseSdu ind with
  | error e =>
    constructor
    · intro h
      cases h
    · intro h
      have := h.parse_eq.symm.trans hp
      cases this
  | ok q =>
    simp only
    constructor
    · intro h
      split at h
      · cases h
      · next hf =>
        cases h
        exact ⟨hp, hf⟩
    · intro h
      have := h.parse_eq.symm.trans hp
      cases this
      rw [if_neg h.fcs_good]

theorem goodPdu_eq_none {ind : TmaUnitdata} : goodPdu ind = none ↔ ∀ pdu, ¬GoodPdu ind pdu := by
  rw [Option.eq_none_iff_forall_ne_some]
  exact forall_congr' fun pdu => not_congr goodPdu_eq_some

theorem blAck_not_data {t : LlcPduType} (h : isBlAck t = true) : isBlData t = false := by
  cases t <;> first | rfl | cases h

theorem GoodPdu.parses {ind : TmaUnitdata} {pdu : LlcPdu} (h : GoodPdu ind pdu) :
    ParsesTo ind pdu := by
  obtain ⟨e, he, -⟩ | ⟨q, hq, -, -, -, hp⟩ := llcParseSdu_cases ind
  · have := h.parse_eq.symm.trans he
    cases this
  · have := h.parse_eq.symm.trans hq
    cases this
    exact hp

theorem seqByte_bit (b : Bool) : (seqByte b).getLsbD 0 = b := by
  cases b <;> rfl

theorem eq_seqByte_iff {v : Byte} {b : Bool} (h : v = 0 ∨ v = 1) :
    v = seqByte b ↔ v.getLsbD 0 = b :=
  ⟨fun hv => by rw [hv, seqByte_bit], eq_seqByte h⟩

/-- `ind` is the data PDU its endpoint at `llc` expects. -/
def InSequence (llc : Llc) (ind : TmaUnitdata) : Prop :=
  ∃ pdu, GoodPdu ind pdu ∧ llc.HasSlot ind.endpoint ∧ isBlData pdu.pduType = true ∧
    pdu.ns = seqByte (llc.view ind.endpoint).nrExpected

/-- The endpoint after an in-sequence data PDU. -/
def LlcEndpoint.advance (ep : LlcEndpoint) : LlcEndpoint :=
  { ep with nrExpected := !ep.nrExpected }

/-- The endpoint after the acknowledgement it waited for. -/
def LlcEndpoint.release (ep : LlcEndpoint) : LlcEndpoint :=
  { ep with awaitingAck := false, retxCount := 0 }

/-- `pdu` answers the frame `ep` waits for. -/
def Answers (ep : LlcEndpoint) (pdu : LlcPdu) : Prop :=
  ep.awaitingAck = true ∧ pdu.nr = seqByte ep.nsSend

instance (ep : LlcEndpoint) (pdu : LlcPdu) : Decidable (Answers ep pdu) :=
  inferInstanceAs (Decidable (_ ∧ _))

/-- What handling `ind` in `s` can lead to, case by case. -/
inductive Received (s : LlcEnv) (ind : TmaUnitdata) (s' : LlcEnv) : Prop where
  | ignored (why : (∀ pdu, ¬GoodPdu ind pdu) ∨ ¬s.llc.HasSlot ind.endpoint)
      (views : SameViews s.llc s'.llc) (posts : Posts s.bus s'.bus [] [])
  | inSequence (pdu : LlcPdu) (req : TmaUnitdata) (good : GoodPdu ind pdu)
      (slot : s.llc.HasSlot ind.endpoint) (data : isBlData pdu.pduType = true)
      (seq : pdu.ns = seqByte (s.llc.view ind.endpoint).nrExpected)
      (ack : ReqFor req ind.endpoint ind.addr
        (ackPdu (!(s.llc.view ind.endpoint).nrExpected)))
      (upd : Updated s.llc s'.llc ind.endpoint (s.llc.view ind.endpoint).advance)
      (posts : Posts s.bus s'.bus (ifRoom (TxRoom s.bus) (tmaUnitdataReq req))
        (ifRoom (UpRoom s.bus) (tleSapMsgUp ⟨ind.endpoint, ind.addr, pdu⟩)))
  | duplicate (pdu : LlcPdu) (req : TmaUnitdata) (good : GoodPdu ind pdu)
      (slot : s.llc.HasSlot ind.endpoint) (data : isBlData pdu.pduType = true)
      (seq : pdu.ns ≠ seqByte (s.llc.view ind.endpoint).nrExpected)
      (ack : ReqFor req ind.endpoint ind.addr (ackPdu (s.llc.view ind.endpoint).nrExpected))
      (views : SameViews s.llc s'.llc)
      (posts : Posts s.bus s'.bus (ifRoom (TxRoom s.bus) (tmaUnitdataReq req)) [])
  | acked (pdu : LlcPdu) (good : GoodPdu ind pdu) (slot : s.llc.HasSlot ind.endpoint)
      (isAck : isBlAck pdu.pduType = true)
      (answers : Answers (s.llc.view ind.endpoint) pdu)
      (upd : Updated s.llc s'.llc ind.endpoint (s.llc.view ind.endpoint).release)
      (posts : Posts s.bus s'.bus [] [])
  | ackIgnored (pdu : LlcPdu) (good : GoodPdu ind pdu) (slot : s.llc.HasSlot ind.endpoint)
      (isAck : isBlAck pdu.pduType = true)
      (answers : ¬Answers (s.llc.view ind.endpoint) pdu)
      (views : SameViews s.llc s'.llc) (posts : Posts s.bus s'.bus [] [])
  | passed (pdu : LlcPdu) (good : GoodPdu ind pdu) (slot : s.llc.HasSlot ind.endpoint)
      (data : isBlData pdu.pduType = false) (isAck : isBlAck pdu.pduType = false)
      (views : SameViews s.llc s'.llc)
      (posts : Posts s.bus s'.bus []
        (ifRoom (UpRoom s.bus) (tleSapMsgUp ⟨ind.endpoint, ind.addr, pdu⟩)))

theorem goodPdu_unique {ind : TmaUnitdata} {p q : LlcPdu} (hp : GoodPdu ind p)
    (hq : GoodPdu ind q) : p = q := by
  have := hp.parse_eq.symm.trans hq.parse_eq
  cases this
  rfl

theorem llcPostToMle_posts (s : LlcEnv) (m : TleSapMsg) :
    (llcPostToMle s m).1.llc = s.llc ∧
      Posts s.bus (llcPostToMle s m).1.bus [] (ifRoom (UpRoom s.bus) (tleSapMsgUp m)) :=
  ⟨rfl, posts_up s.bus m⟩

theorem txRoom_congr {b b' : Bus} {n : List (SapMsg Payload)} (h : Posts b b' [] n) :
    TxRoom b' ↔ TxRoom b := by
  unfold TxRoom
  rw [h.max_eq, h.cap_eq, h.high_eq, List.append_nil]

/-- The acknowledgement of a data PDU goes out on the endpoint as `l` has it. -/
theorem llcSendBlAck_posts (s : LlcEnv) (id : EndpointId) (addr : TetraAddress)
    (h : s.llc.HasSlot id) :
    ∃ req, ReqFor req id addr (ackPdu (s.llc.view id).nrExpected) ∧
      SameViews s.llc (llcSendBlAck s id addr).1.llc ∧
      Posts s.bus (llcSendBlAck s id addr).1.bus
        (ifRoom (TxRoom s.bus) (tmaUnitdataReq req)) [] := by
  obtain ⟨hno, -⟩ | ⟨-, hreq⟩ := llcSendBlAck_spec s id addr
  · exact absurd h hno
  · exact hreq

theorem Updated.of_sameViews {l l' l'' : Llc} {id : EndpointId} {ep : LlcEndpoint}
    (h : Updated l l' id ep) (h' : SameViews l' l'') : Updated l l'' id ep :=
  ⟨fun id' => (h'.view_eq id').trans (h.view_eq id'), h'.init_eq.trans h.init_eq⟩

theorem llcReceivePdu_cases (s : LlcEnv) {ind : TmaUnitdata} {pdu : LlcPdu}
    (good : GoodPdu ind pdu) : Received s ind (llcReceivePdu s ind pdu).1 := by
  unfold llcReceivePdu
  obtain ⟨hl, hno⟩ | ⟨i, l, hl, hs, hfind, hep, hview, hinit⟩ :=
    llcEndpointLookup_cases s.llc ind.endpoint
  · rw [hl]
    exact .ignored (Or.inr hno) (SameViews.refl _) (Posts.refl _)
  rw [hl]
  have hsame : SameViews s.llc l := ⟨hview, hinit⟩
  simp only [hep]
  by_cases hdata : isBlData pdu.pduType = true
  · simp only [if_pos hdata]
    by_cases hseq : pdu.ns = seqByte (s.llc.view ind.endpoint).nrExpected
    · simp only [if_pos hseq]
      have hupd : Updated s.llc (l.setEndpoint i (s.llc.view ind.endpoint).advance) ind.endpoint
          (s.llc.view ind.endpoint).advance := Updated.of_set hsame hfind rfl rfl
      have hfind' : endpointFind (l.setEndpoint i (s.llc.view ind.endpoint).advance) ind.endpoint =
          some i := by
        have huse : (s.llc.view ind.endpoint).advance.inUse = true ∧
            (s.llc.view ind.endpoint).advance.id = ind.endpoint := view_inUse s.llc ind.endpoint
        rw [endpointFind_setEndpoint hfind huse.1 huse.2]
        exact hfind
      have hup := llcPostToMle_posts
        ⟨l.setEndpoint i (s.llc.view ind.endpoint).advance, s.bus, s.reqHandle⟩
        ⟨ind.endpoint, ind.addr, pdu⟩
      obtain ⟨req, hreq, hviews, hack⟩ := llcSendBlAck_posts (llcPostToMle
        ⟨l.setEndpoint i (s.llc.view ind.endpoint).advance, s.bus, s.reqHandle⟩
        ⟨ind.endpoint, ind.addr, pdu⟩).1 ind.endpoint ind.addr (hasSlot_of_find hfind')
      rw [hup.1, hupd.view_eq, if_pos rfl] at hreq
      have hposts := hup.2.trans hack
      rw [List.nil_append, List.append_nil] at hposts
      simp only [ifRoom, txRoom_congr hup.2] at hposts
      exact .inSequence pdu req good hs hdata hseq hreq (hupd.of_sameViews hviews) hposts
    · simp only [if_neg hseq]
      obtain ⟨req, hreq, hviews, hack⟩ := llcSendBlAck_posts ⟨l, s.bus, s.reqHandle⟩ ind.endpoint
        ind.addr (hasSlot_of_find hfind)
      rw [hview] at hreq
      exact .duplicate pdu req good hs hdata hseq hreq (hsame.trans hviews) hack
  simp only [if_neg hdata]
  by_cases hack : isBlAck pdu.pduType = true
  · simp only [if_pos hack]
    by_cases hans : (s.llc.view ind.endpoint).awaitingAck = true ∧
        pdu.nr = seqByte (s.llc.view ind.endpoint).nsSend
    · rw [if_pos hans]
      exact .acked pdu good hs hack hans (Updated.of_set hsame hfind rfl rfl) (Posts.refl _)
    · rw [if_neg hans]
      exact .ackIgnored pdu good hs hack hans hsame (Posts.refl _)
  · simp only [if_neg hack]
    exact .passed pdu good hs (by simpa using hdata) (by simpa using hack) hsame
      (llcPostToMle_posts ⟨l, s.bus, s.reqHandle⟩ _).2

/-- Counting a received PDU changes nothing an outcome speaks about. -/
theorem Received.of_countRx {s s' : LlcEnv} {ind : TmaUnitdata}
    (h : Received { s with llc := s.llc.countRx } ind s') : Received s ind s' := by
  have hend : s.llc.countRx.endpoints = s.llc.endpoints := rfl
  have hs := hasSlot_congr hend ind.endpoint
  cases h with
  | ignored why views posts =>
    exact .ignored (why.imp_right (mt hs.2)) ⟨views.view_eq, views.init_eq⟩ posts
  | inSequence pdu req good slot data seq ack upd posts =>
    exact .inSequence pdu req good (hs.1 slot) data seq ack ⟨upd.view_eq, upd.init_eq⟩ posts
  | duplicate pdu req good slot data seq ack views posts =>
    exact .duplicate pdu req good (hs.1 slot) data seq ack ⟨views.view_eq, views.init_eq⟩ posts
  | acked pdu good slot isAck answers upd posts =>
    exact .acked pdu good (hs.1 slot) isAck answers ⟨upd.view_eq, upd.init_eq⟩ posts
  | ackIgnored pdu good slot isAck answers views posts =>
    exact .ackIgnored pdu good (hs.1 slot) isAck answers ⟨views.view_eq, views.init_eq⟩ posts
  | passed pdu good slot data isAck views posts =>
    exact .passed pdu good (hs.1 slot) data isAck ⟨views.view_eq, views.init_eq⟩ posts

theorem llcSendBlAck_found {s : LlcEnv} {id : EndpointId} {addr : TetraAddress}
    {i : Fin llcMaxEndpoints} (h : endpointFind s.llc id = some i) :
    (llcSendBlAck s id addr).1.llc.HasSlot id := by
  unfold llcSendBlAck llcEndpointLookup
  rw [h]
  simp only
  generalize emitPdu s.bus s.reqHandle id addr _ 8 = r
  obtain ⟨bus, handle, res⟩ := r
  cases res with
  | posted rc => cases rc <;> exact hasSlot_of_find h
  | _ => exact hasSlot_of_find h

/-- Handling an indication neither takes nor frees a slot its endpoint could count on. -/
theorem llcReceivePdu_slot (s : LlcEnv) (ind : TmaUnitdata) (pdu : LlcPdu) :
    (llcReceivePdu s ind pdu).1.llc.HasSlot ind.endpoint ↔ s.llc.HasSlot ind.endpoint := by
  unfold llcReceivePdu
  obtain ⟨hl, hno⟩ | ⟨i, l, hl, hs, hfind, hep, -, -⟩ := llcEndpointLookup_cases s.llc ind.endpoint
  · rw [hl]
  rw [hl]
  refine ⟨fun _ => hs, fun _ => ?_⟩
  have huse := view_inUse s.llc ind.endpoint
  have hset : ∀ ep : LlcEndpoint, ep.inUse = true → ep.id = ind.endpoint →
      endpointFind (l.setEndpoint i ep) ind.endpoint = some i := by
    intro ep hu hid
    rw [endpointFind_setEndpoint hfind hu hid]
    exact hfind
  simp only [hep]
  split
  · split
    · exact llcSendBlAck_found (hset _ huse.1 huse.2)
    · exact llcSendBlAck_found hfind
  · split
    · split
      · exact hasSlot_of_find (hset _ huse.1 huse.2)
      · exact hasSlot_of_find hfind
    · exact hasSlot_of_find hfind

theorem llcHandleTmaUnitdataInd_slot (s : LlcEnv) (ind : TmaUnitdata) :
    (llcHandleTmaUnitdataInd s ind).1.llc.HasSlot ind.endpoint ↔ s.llc.HasSlot ind.endpoint := by
  unfold llcHandleTmaUnitdataInd
  cases llcParseSdu ind with
  | error e =>
    cases e with
    | unknownPduType =>
      apply hasSlot_congr
      rfl
    | fault f => exact Iff.rfl
  | ok pdu =>
    simp only
    have hcount : s.llc.countRx.HasSlot ind.endpoint ↔ s.llc.HasSlot ind.endpoint := by
      apply hasSlot_congr
      rfl
    split
    · apply hasSlot_congr
      rfl
    · exact (llcReceivePdu_slot _ ind pdu).trans hcount

/-- Handling an indication: every outcome of the receive path. -/
theorem llcHandleTmaUnitdataInd_cases (s : LlcEnv) (ind : TmaUnitdata) :
    Received s ind (llcHandleTmaUnitdataInd s ind).1 := by
  unfold llcHandleTmaUnitdataInd
  cases hp : llcParseSdu ind with
  | error e =>
    have hnone : ∀ pdu, ¬GoodPdu ind pdu := by
      intro pdu h
      have := h.parse_eq.symm.trans hp
      cases this
    cases e with
    | unknownPduType => exact .ignored (Or.inl hnone) ⟨fun _ => rfl, rfl⟩ (Posts.refl _)
    | fault f => exact .ignored (Or.inl hnone) (SameViews.refl _) (Posts.refl _)
  | ok pdu =>
    simp only
    by_cases hfcs : llcPduTypeHasFcs pdu.pduType ∧ pdu.fcsValid = false
    · rw [if_pos hfcs]
      refine .ignored (Or.inl fun q h => ?_) ⟨fun _ => rfl, rfl⟩ (Posts.refl _)
      have := h.parse_eq.symm.trans hp
      cases this
      exact h.fcs_good hfcs
    · rw [if_neg hfcs]
      exact .of_countRx (llcReceivePdu_cases { s with llc := s.llc.countRx } ⟨hp, hfcs⟩)

/-- `ep'` has the retransmission state of `ep`. -/
structure SameTx (ep ep' : LlcEndpoint) : Prop where
  ns_eq : ep'.nsSend = ep.nsSend
  awaiting_eq : ep'.awaitingAck = ep.awaitingAck
  last_eq : ep'.lastSent = ep.lastSent

theorem SameViews.sameTx {l l' : Llc} (h : SameViews l l') (id : EndpointId) :
    SameTx (l.view id) (l'.view id) := by
  rw [h.view_eq]
  exact ⟨rfl, rfl, rfl⟩

theorem Updated.sameTx {l l' : Llc} {id : EndpointId} {ep : LlcEndpoint} (h : Updated l l' id ep)
    (hep : SameTx (l.view id) ep) (id' : EndpointId) : SameTx (l.view id') (l'.view id') := by
  rw [h.view_eq]
  by_cases hid : id' = id
  · rw [if_pos hid, hid]
    exact hep
  · rw [if_neg hid]
    exact ⟨rfl, rfl, rfl⟩

/-- The TLE message `on_tle_msg_from_mle` finds in `msg`. -/
def tleOf (msg : SapMsg Payload) : Option TleSapMsg :=
  match msg.payload.data with
  | .tle m => if msg.len < (SapData.tle m).size then none else some m
  | _ => none

theorem onTleMsgFromMle_eq (msg : SapMsg Payload) (s : LlcEnv) :
    onTleMsgFromMle msg s = (tleOf msg).elim s (handleTleFromMle s) := by
  unfold onTleMsgFromMle tleOf
  cases msg.payload.data with
  | tle m => simp only; split <;> rfl
  | _ => rfl

/-- The message as `on_tma_unitdata_ind` reads it. -/
def indOf (msg : SapMsg Payload) : Option TmaUnitdata :=
  match msg.payload.data with
  | .tmaUnitdata ind => if msg.len < (SapData.tmaUnitdata ind).size then none else some ind
  | _ => none

theorem onTmaUnitdataInd_eq (msg : SapMsg Payload) (s : LlcEnv) :
    onTmaUnitdataInd msg s = (indOf msg).elim s fun ind => (llcHandleTmaUnitdataInd s ind).1 := by
  unfold onTmaUnitdataInd indOf
  cases msg.payload.data with
  | tmaUnitdata ind => simp only; split <;> rfl
  | _ => rfl

/-- What a caller can do with the entity. -/
inductive LlcOp where
  | sendBlData (endpoint : EndpointId) (addr : TetraAddress) (body : List Byte) (bodyLenBits : Nat)
  | sendBlAck (endpoint : EndpointId) (addr : TetraAddress)
  | tleMsg (msg : SapMsg Payload)
  | tmaInd (ind : TmaUnitdata)
deriving DecidableEq

def LlcOp.run (s : LlcEnv) : LlcOp → LlcEnv
  | .sendBlData endpoint addr body n => (llcSendBlData s endpoint addr body n).1
  | .sendBlAck endpoint addr => (llcSendBlAck s endpoint addr).1
  | .tleMsg msg => onTleMsgFromMle msg s
  | .tmaInd ind => (llcHandleTmaUnitdataInd s ind).1

theorem llcInit_ok {bus bus' : Bus} {llc : Llc} (h : llcInit bus = .ok (llc, bus')) :
    llc = { initialised := true } ∧
      bus'.regs = bus.regs ++ [⟨.tmaSap, .tmaSap, .onTmaUnitdataInd⟩,
        ⟨.tmaSap, .tleSap, .onTleMsgFromMle⟩] ∧
      ∀ p, bus'.pending p = bus.pending p := by
  unfold llcInit at h
  cases h1 : msgbusRegister bus .tmaSap .tmaSap Handler.onTmaUnitdataInd with
  | error e =>
    rw [h1] at h
    cases h
  | ok b1 =>
    rw [h1] at h
    cases h2 : msgbusRegister b1 .tmaSap .tleSap Handler.onTleMsgFromMle with
    | error e =>
      simp only [bind, Except.bind, h2] at h
      cases h
    | ok b2 =>
      simp only [bind, Except.bind, h2] at h
      cases h
      refine ⟨rfl, ?_, fun p => (pending_register h2 p).trans (pending_register h1 p)⟩
      rw [(msgbusRegister_ok h2).1, (msgbusRegister_ok h1).1, List.append_assoc]
      rfl

/-- Between `b` and `b'` the entity posted requests at High and TLE messages at Normal. -/
def LlcPosts (b b' : Bus) : Prop :=
  ∃ high normal, Posts b b' high normal ∧ (∀ m ∈ high, ∃ req, m = tmaUnitdataReq req) ∧
    ∀ m ∈ normal, ∃ t, m = tleSapMsgUp t

theorem mem_ifRoom {c : Prop} [Decidable c] {m m' : SapMsg Payload} (h : m' ∈ ifRoom c m) :
    m' = m := by
  unfold ifRoom at h
  by_cases hc : c
  · rw [if_pos hc] at h
    exact List.mem_singleton.1 h
  · rw [if_neg hc] at h
    cases h

def reqOf (msg : SapMsg Payload) : Option TmaUnitdata :=
  match msg.payload.data with
  | .tmaUnitdata req => some req
  | _ => none

/-- The requests added to the High bucket between `b` and `b'`. -/
def emitted (b b' : Bus) : List TmaUnitdata :=
  ((b'.pending .high).drop (b.pending .high).length).filterMap reqOf

theorem emitted_eq {b b' : Bus} {h n : List (SapMsg Payload)} (hp : Posts b b' h n) :
    emitted b b' = h.filterMap reqOf := by
  unfold emitted
  rw [hp.high_eq, List.drop_left]

theorem emitted_req {b b' : Bus} {req : TmaUnitdata} {n : List (SapMsg Payload)}
    (hp : Posts b b' [tmaUnitdataReq req] n) : emitted b b' = [req] := emitted_eq hp

theorem emitted_ifRoom {b b' : Bus} {req : TmaUnitdata} {n : List (SapMsg Payload)}
    (hp : Posts b b' (ifRoom (TxRoom b) (tmaUnitdataReq req)) n) :
    emitted b b' = if TxRoom b then [req] else [] := by
  rw [emitted_eq hp]
  unfold ifRoom
  split <;> rfl

theorem mem_emitted_ifRoom {b b' : Bus} {req r : TmaUnitdata} {n : List (SapMsg Payload)}
    (hp : Posts b b' (ifRoom (TxRoom b) (tmaUnitdataReq req)) n) (hr : r ∈ emitted b b') :
    r = req := by
  rw [emitted_eq hp] at hr
  obtain ⟨m, hm, heq⟩ := List.mem_filterMap.1 hr
  rw [mem_ifRoom hm] at heq
  cases heq
  rfl

theorem ReqFor.type_eq {req : TmaUnitdata} {id : EndpointId} {addr : TetraAddress} {pdu : LlcPdu}
    (h : ReqFor req id addr pdu) (he : pdu.Encodable) : sduType req = pdu.pduType :=
  (sduFits_encoded he h.bits_eq).2.1

theorem LlcPosts.none {b b' : Bus} (h : Posts b b' [] []) : LlcPosts b b' :=
  ⟨[], [], h, fun _ hm => absurd hm List.not_mem_nil, fun _ hm => absurd hm List.not_mem_nil⟩

theorem LlcPosts.req {b b' : Bus} {c : Prop} [Decidable c] {req : TmaUnitdata}
    (h : Posts b b' (ifRoom c (tmaUnitdataReq req)) []) : LlcPosts b b' :=
  ⟨_, [], h, fun _ hm => ⟨req, mem_ifRoom hm⟩, fun _ hm => absurd hm List.not_mem_nil⟩

theorem handleTleFromMle_llcPosts (s : LlcEnv) (m : TleSapMsg) :
    LlcPosts s.bus (handleTleFromMle s m).bus := by
  obtain ⟨-, -, hposts⟩ | ⟨-, req, -, -, hposts⟩ := handleTleFromMle_spec s m
  · exact .none hposts
  · exact .req hposts

theorem onTleMsgFromMle_llcPosts (msg : SapMsg Payload) (s : LlcEnv) :
    LlcPosts s.bus (onTleMsgFromMle msg s).bus := by
  rw [onTleMsgFromMle_eq]
  cases tleOf msg with
  | none => exact .none (Posts.refl _)
  | some m => exact handleTleFromMle_llcPosts s m

theorem llcHandleTmaUnitdataInd_llcPosts (s : LlcEnv) (ind : TmaUnitdata) :
    LlcPosts s.bus (llcHandleTmaUnitdataInd s ind).1.bus := by
  cases llcHandleTmaUnitdataInd_cases s ind with
  | ignored _ _ posts => exact .none posts
  | duplicate _ req _ _ _ _ _ _ posts => exact .req posts
  | acked _ _ _ _ _ _ posts => exact .none posts
  | ackIgnored _ _ _ _ _ _ posts => exact .none posts
  | inSequence pdu req _ _ _ _ _ _ posts =>
    exact ⟨_, _, posts, fun _ hm => ⟨req, mem_ifRoom hm⟩, fun _ hm => ⟨_, mem_ifRoom hm⟩⟩
  | passed pdu _ _ _ _ _ posts =>
    exact ⟨[], _, posts, fun _ hm => absurd hm List.not_mem_nil, fun _ hm => ⟨_, mem_ifRoom hm⟩⟩

theorem onTmaUnitdataInd_llcPosts (msg : SapMsg Payload) (s : LlcEnv) :
    LlcPosts s.bus (onTmaUnitdataInd msg s).bus := by
  rw [onTmaUnitdataInd_eq]
  cases indOf msg with
  | none => exact .none (Posts.refl _)
  | some ind => exact llcHandleTmaUnitdataInd_llcPosts s ind

theorem LlcOp.llcPosts (s : LlcEnv) (op : LlcOp) : LlcPosts s.bus (op.run s).bus := by
  cases op with
  | sendBlData id addr body n =>
    obtain ⟨-, -, -, hposts⟩ | ⟨-, -, req, -, -, hposts⟩ := llcSendBlData_spec s id addr body n
    · exact .none hposts
    · exact ⟨_, [], hposts, fun _ hm => ⟨req, List.mem_singleton.1 hm⟩,
        fun _ hm => absurd hm List.not_mem_nil⟩
  | sendBlAck id addr =>
    obtain ⟨-, heq⟩ | ⟨-, req, -, -, hposts⟩ := llcSendBlAck_spec s id addr
    · rw [LlcOp.run, heq]
      exact .none (Posts.refl _)
    · exact .req hposts
  | tleMsg msg => exact onTleMsgFromMle_llcPosts msg s
  | tmaInd ind => exact llcHandleTmaUnitdataInd_llcPosts s ind

end TetraBs
