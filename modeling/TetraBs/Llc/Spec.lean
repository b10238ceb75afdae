import TetraBs.Lib.Slots
import TetraBs.Llc.Entity

/-! What the parts of the LLC entity do: the endpoint table by endpoint id, sending in terms
of the bits posted, and parsing in terms of the bits received. -/
namespace TetraBs
open TetraBs.Bits

/-! The endpoint table. -/

/-- The endpoint the code works on for `id`: the one in the table, or a fresh one. -/
def Llc.view (llc : Llc) (id : EndpointId) : LlcEndpoint :=
  match endpointFind llc id with
  | some i => llc.endpoints i
  | none => { id := id, inUse := true }

/-- A lookup of `id` finds or takes a slot. -/
def Llc.HasSlot (llc : Llc) (id : EndpointId) : Prop := (llcEndpointLookup llc id).1 ≠ none

instance (llc : Llc) (id : EndpointId) : Decidable (llc.HasSlot id) :=
  inferInstanceAs (Decidable (_ ≠ _))

/-- The endpoint table as a table of slots. -/
def endpointKind : Slots.Kind EndpointId LlcEndpoint where
  owns id ep := ep.inUse && ep.id == id
  free ep := !ep.inUse
  fresh id := { id := id, inUse := true }
  fresh_owns id := by simp
  owns_inj h h' := by
    simp only [Bool.and_eq_true, beq_iff_eq] at h h'
    exact h.2.symm.trans h'.2
  owns_not_free h := by
    simp only [Bool.and_eq_true] at h
    rw [h.1]
    rfl

theorem endpointFind_eq (llc : Llc) (id : EndpointId) :
    endpointFind llc id = Slots.find (endpointKind.owns id) llc.endpoints := rfl

theorem view_eq (llc : Llc) (id : EndpointId) :
    llc.view id = Slots.view endpointKind llc.endpoints id := by
  rw [Llc.view, Slots.view]
  rw [endpointFind_eq]
  cases Slots.find (endpointKind.owns id) llc.endpoints <;> rfl

theorem owns_iff {id : EndpointId} {ep : LlcEndpoint} :
    endpointKind.owns id ep = true ↔ ep.inUse = true ∧ ep.id = id := by
  simp [endpointKind]

theorem view_inUse (llc : Llc) (id : EndpointId) :
    (llc.view id).inUse = true ∧ (llc.view id).id = id := by
  rw [view_eq]
  exact owns_iff.1 (Slots.view_owns endpointKind llc.endpoints id)

/-- Rewriting an endpoint in place does not move any endpoint. -/
theorem endpointFind_setEndpoint {llc : Llc} {id : EndpointId} {i : Fin llcMaxEndpoints}
    {ep : LlcEndpoint} (hi : endpointFind llc id = some i) (huse : ep.inUse = true)
    (hid : ep.id = id) (id' : EndpointId) :
    endpointFind (llc.setEndpoint i ep) id' = endpointFind llc id' :=
  Slots.find_set endpointKind hi (owns_iff.2 ⟨huse, hid⟩) id'

theorem view_setEndpoint {llc : Llc} {id : EndpointId} {i : Fin llcMaxEndpoints}
    {ep : LlcEndpoint} (hi : endpointFind llc id = some i) (huse : ep.inUse = true)
    (hid : ep.id = id) (id' : EndpointId) :
    (llc.setEndpoint i ep).view id' = if id' = id then ep else llc.view id' := by
  rw [view_eq, view_eq]
  exact Slots.view_set endpointKind hi (owns_iff.2 ⟨huse, hid⟩) id'

theorem llcEndpointLookup_eq (llc : Llc) (id : EndpointId) :
    llcEndpointLookup llc id = ((Slots.lookup endpointKind llc.endpoints id).1,
      { llc with endpoints := (Slots.lookup endpointKind llc.endpoints id).2 }) := by
  rw [llcEndpointLookup, Slots.lookup]
  rw [endpointFind_eq]
  cases Slots.find (endpointKind.owns id) llc.endpoints with
  | some i => rfl
  | none =>
    rw [endpointAlloc]
    have hfree : ((List.finRange llcMaxEndpoints).find? fun i => !(llc.endpoints i).inUse) =
        Slots.find endpointKind.free llc.endpoints := rfl
    rw [hfree]
    cases Slots.find endpointKind.free llc.endpoints <;> rfl

/-- A lookup either fails, or ends with the endpoint of `id` in slot `i` and every endpoint
as it was. -/
theorem llcEndpointLookup_cases (llc : Llc) (id : EndpointId) :
    (llcEndpointLookup llc id = (none, llc) ∧ ¬llc.HasSlot id) ∨
      ∃ i llc', llcEndpointLookup llc id = (some i, llc') ∧ llc.HasSlot id ∧
        endpointFind llc' id = some i ∧ llc'.endpoints i = llc.view id ∧
        (∀ id', llc'.view id' = llc.view id') ∧ llc'.initialised = llc.initialised := by
  rw [Llc.HasSlot]
  rw [llcEndpointLookup_eq]
  obtain h | ⟨i, t, h, hfind, hview, hviews⟩ := Slots.lookup_cases endpointKind llc.endpoints id
  · rw [h]
    exact Or.inl ⟨rfl, fun hne => hne rfl⟩
  · rw [h]
    refine Or.inr ⟨i, _, rfl, Option.some_ne_none i, hfind, ?_, fun id' => ?_, rfl⟩
    · rw [view_eq]
      exact hview
    · rw [view_eq, view_eq]
      exact hviews id'

/-! Sending. -/

theorem encodeToBytes_ok {pdu : LlcPdu} {cap : Nat} (he : pdu.Encodable)
    (hroom : pdu.bits.length ≤ cap * 8) :
    ∃ bytes, encodeToBytes pdu cap = .ok (bytes, pdu.bits.length) ∧
      window bytes 0 pdu.bits.length = pdu.bits := by
  obtain ⟨bb, henc, hput⟩ := llcPduEncode_spec (bbInitAutoexpand (List.replicate cap 0) (cap * 8)
    (by rw [List.length_replicate, Nat.mul_comm])) pdu he (by simpa [bbInitAutoexpand, BitBuffer.limit] using hroom)
  refine ⟨bb.buffer, ?_, hput.window_eq⟩
  rw [encodeToBytes]
  rw [henc]
  rfl

theorem encodeToBytes_rejects {pdu : LlcPdu} (cap : Nat) (he : ¬pdu.Encodable) :
    encodeToBytes pdu cap = .error (.errno .EINVAL) := by
  rw [encodeToBytes]
  rw [llcPduEncode_rejects _ he]
  rfl

/-- Emitting an encodable PDU posts exactly its bits, for the given endpoint and address. -/
theorem emitPdu_posts (bus : Bus) (h : BitVec 32) (endpoint : EndpointId) (addr : TetraAddress)
    {pdu : LlcPdu} {cap : Nat} (he : pdu.Encodable) (hroom : pdu.bits.length ≤ cap * 8)
    (hshort : pdu.bits.length ≤ tmaSduMaxBytes * 8) :
    ∃ req : TmaUnitdata, req.endpoint = endpoint ∧ req.addr = addr ∧
      req.sduLenBits = pdu.bits.length ∧ req.bits = pdu.bits ∧
      emitPdu bus h endpoint addr pdu cap = ((msgbusPost bus .high (tmaUnitdataReq req)).1,
        reqHandleNext h, .posted (msgbusPost bus .high (tmaUnitdataReq req)).2) := by
  obtain ⟨bytes, henc, hwin⟩ := encodeToBytes_ok he hroom
  refine ⟨⟨endpoint, addr, reqHandleNext h, pdu.bits.length,
    bytes.take ((pdu.bits.length + 7) / 8)⟩, rfl, rfl, rfl, ?_, ?_⟩
  · have htake := window_take bytes (by omega : pdu.bits.length ≤ 8 * ((pdu.bits.length + 7) / 8))
    exact htake.trans hwin
  · rw [emitPdu]
    rw [henc]
    simp only [if_neg (Nat.not_lt.2 hshort)]
    rfl

theorem emitPdu_rejects (bus : Bus) (h : BitVec 32) (endpoint : EndpointId) (addr : TetraAddress)
    {pdu : LlcPdu} (cap : Nat) (he : ¬pdu.Encodable) :
    emitPdu bus h endpoint addr pdu cap = (bus, h, .notEncoded (.errno .EINVAL)) := by
  rw [emitPdu]
  rw [encodeToBytes_rejects cap he]

/-- No PDU is longer than 294 bits, which the transmit buffers hold. -/
theorem bits_length_le {pdu : LlcPdu} (he : pdu.Encodable) : pdu.bits.length ≤ 294 := by
  have hbody := he.body_le
  have hhead : headerLen pdu.pduType ≤ 6 := by
    cases pdu.pduType <;> decide
  have hfcs : fcsLen pdu.pduType ≤ 32 := by
    rw [fcsLen]
    split <;> decide
  rw [LlcPdu.bits_length]
  unfold llcPduBodyMaxBytes at hbody
  omega

@[simp] theorem stampPdu_type (ep : LlcEndpoint) (pdu : LlcPdu) :
    (stampPdu ep pdu).pduType = pdu.pduType := rfl

@[simp] theorem stampPdu_len (ep : LlcEndpoint) (pdu : LlcPdu) :
    (stampPdu ep pdu).bodyLenBits = pdu.bodyLenBits := rfl

@[simp] theorem stampPdu_body (ep : LlcEndpoint) (pdu : LlcPdu) :
    (stampPdu ep pdu).body = pdu.body := rfl

theorem stampPdu_encodable (ep : LlcEndpoint) (pdu : LlcPdu) :
    (stampPdu ep pdu).Encodable ↔ pdu.Encodable :=
  ⟨fun h => ⟨h.known, h.body_le, h.alSetup⟩, fun h => ⟨h.known, h.body_le, h.alSetup⟩⟩

/-! Receiving. -/

/-- `pdu` holds the bits of the received SDU. -/
structure ParsesTo (ind : TmaUnitdata) (pdu : LlcPdu) : Prop where
  known : pdu.pduType ≠ .unknown
  body_le : pdu.bodyLenBits ≤ llcPduBodyMaxBytes * 8
  nr_bit : pdu.nr = 0 ∨ pdu.nr = 1
  ns_bit : pdu.ns = 0 ∨ pdu.ns = 1
  len_eq : pdu.pduType ≠ .alSetup →
    headerLen pdu.pduType + pdu.bodyLenBits + fcsLen pdu.pduType = ind.sduLenBits
  alSetup_len : pdu.pduType = .alSetup → pdu.bodyLenBits = 0
  covered_eq : pdu.covered = window ind.sduBits 0 (headerLen pdu.pduType + pdu.bodyLenBits)
  fcs_bits : llcPduTypeHasFcs pdu.pduType = true → msbBits pdu.fcs 32 =
    window ind.sduBits (headerLen pdu.pduType + pdu.bodyLenBits) 32
  fcs_valid : pdu.fcsValid =
    (llcPduTypeHasFcs pdu.pduType && pdu.fcs == Crc.crc llcCrc32Poly pdu.covered)

theorem bitAt_append_zeros (bytes : List Byte) (n i : Nat) :
    bitAt (bytes ++ List.replicate n 0) i = bitAt bytes i := by
  rw [bitAt]
  congr 1
  rw [List.getD_eq_getElem?_getD, List.getD_eq_getElem?_getD]
  by_cases h : i / 8 < bytes.length
  · rw [List.getElem?_append_left h]
  · rw [List.getElem?_append_right (Nat.le_of_not_lt h), List.getElem?_replicate,
      List.getElem?_eq_none (Nat.le_of_not_lt h)]
    split <;> rfl

theorem window_sduBuffer {ind : TmaUnitdata} (h : ind.sduLenBits ≤ tmaSduMaxBytes * 8) {s n : Nat}
    (hn : s + n ≤ ind.sduLenBits) : window (sduBuffer ind) s n = window ind.sduBits s n := by
  refine window_congr fun k hk => ?_
  rw [sduBuffer, padTo]
  rw [bitAt_take _ (by omega), bitAt_append_zeros, bitAt_take _ (by omega)]

/-- The SDU lengths `llc_handle_tma_unitdata_ind` takes for a type. -/
structure SduFits (t : LlcPduType) (n : Nat) : Prop where
  known : t ≠ .unknown
  type_fits : 4 ≤ n
  overhead_le : sduOverhead t ≤ n
  body_le : t ≠ .alSetup → n - sduOverhead t ≤ llcPduBodyMaxBytes * 8

theorem sduOverhead_eq {t : LlcPduType} (h : t ≠ .alSetup) :
    sduOverhead t = headerLen t + fcsLen t := by
  rw [sduOverhead, headerLen, fcsLen]
  rw [if_neg h]

theorem peek_and_seek {bb : BitBuffer} (hpos : bb.pos = bb.start) (h4 : 4 ≤ bbRemaining bb) :
    ∃ b1, bbGetBits bb 4 = .ok (bbReadAt bb.buffer bb.pos 4, b1) ∧ bbSeekBits b1 0 = .ok bb := by
  have hend := bb.pos_le
  unfold bbRemaining at h4
  unfold bbGetBits bbSeekBits
  rw [if_pos (by decide), dif_pos (by omega)]
  refine ⟨_, rfl, ?_⟩
  rw [dif_pos (by simp only; omega)]
  cases bb
  simp only at hpos
  subst hpos
  rfl

/-- A parse fails on an SDU that does not fit and otherwise returns its bits. -/
theorem llcParseBuffer_cases (bb : BitBuffer) (hpos : bb.pos = bb.start) :
    (∃ e, llcParseBuffer bb (bbRemaining bb) = .error e ∧
        ¬SduFits (typeAt bb) (bbRemaining bb)) ∨
      ∃ pdu, llcParseBuffer bb (bbRemaining bb) = .ok pdu ∧
        SduFits (typeAt bb) (bbRemaining bb) ∧
        (typeAt bb = .alSetup ∧ pdu = { pduType := .alSetup } ∨
          typeAt bb ≠ .alSetup ∧
            DecodesTo bb (bbRemaining bb - sduOverhead (typeAt bb)) pdu) := by
  rw [llcParseBuffer]
  by_cases h4 : bbRemaining bb < 4
  · rw [if_pos h4]
    exact Or.inl ⟨_, rfl, fun h => Nat.not_lt.2 h.type_fits h4⟩
  obtain ⟨b1, hget, hseek⟩ := peek_and_seek hpos (Nat.le_of_not_lt h4)
  have ht : LlcPduType.ofValue ((bbReadAt bb.buffer bb.pos 4).setWidth 8) = typeAt bb := rfl
  rw [if_neg h4]
  simp only [hget, hseek, llcPduTypeIsValid_eq, ht]
  by_cases hknown : typeAt bb = .unknown
  · rw [if_pos (by simp [hknown])]
    exact Or.inl ⟨_, rfl, fun h => h.known hknown⟩
  rw [if_neg (by simp [hknown])]
  by_cases hover : bbRemaining bb < sduOverhead (typeAt bb)
  · rw [if_pos hover]
    exact Or.inl ⟨_, rfl, fun h => Nat.not_lt.2 h.overhead_le hover⟩
  rw [if_neg hover]
  by_cases hal : typeAt bb = .alSetup
  · simp only [if_pos hal]
    rw [if_neg (by decide)]
    obtain ⟨e, -, hno⟩ | ⟨b, hok, -, -⟩ | ⟨q, b, -, -, hne, -⟩ :=
      llcPduDecode_cases bb { bodyLenBits := 0 }
    · exact absurd ⟨Nat.zero_le _, Nat.le_of_not_lt h4, hknown, fun h => absurd hal h⟩ hno
    · rw [hok]
      exact Or.inr ⟨_, rfl, ⟨hknown, Nat.le_of_not_lt h4, Nat.le_of_not_lt hover,
        fun h => absurd hal h⟩, Or.inl ⟨hal, rfl⟩⟩
    · exact absurd hal hne
  simp only [if_neg hal]
  by_cases hbody : llcPduBodyMaxBytes * 8 < bbRemaining bb - sduOverhead (typeAt bb)
  · rw [if_pos hbody]
    exact Or.inl ⟨_, rfl, fun h => Nat.not_lt.2 (h.body_le hal) hbody⟩
  rw [if_neg hbody]
  obtain ⟨e, -, hno⟩ | ⟨b, -, -, hyes⟩ | ⟨q, b, hok, -, -, hd⟩ :=
    llcPduDecode_cases bb { bodyLenBits := bbRemaining bb - sduOverhead (typeAt bb) }
  · refine absurd ⟨Nat.le_of_not_lt hbody, Nat.le_of_not_lt h4, hknown, fun _ => ?_⟩ hno
    have hsum := sduOverhead_eq hal
    simp only
    omega
  · exact absurd hyes hal
  · rw [hok]
    exact Or.inr ⟨q, rfl, ⟨hknown, Nat.le_of_not_lt h4, Nat.le_of_not_lt hover,
      fun _ => Nat.le_of_not_lt hbody⟩, Or.inr ⟨hal, hd⟩⟩

/-- The PDU type the first four bits of an SDU stand for. -/
def sduType (ind : TmaUnitdata) : LlcPduType :=
  LlcPduType.ofValue ((bbReadAt (sduBuffer ind) 0 4).setWidth 8)

theorem sduType_bits {ind : TmaUnitdata} (hlen : ind.sduLenBits ≤ tmaSduMaxBytes * 8)
    (h4 : 4 ≤ ind.sduLenBits) (hk : sduType ind ≠ .unknown) :
    msbBits (sduType ind).value 4 = window ind.sduBits 0 4 := by
  rw [← window_sduBuffer hlen (by omega)]
  exact typeAt_bits (bbInit (sduBuffer ind) ind.sduLenBits (le_sduBuffer hlen)) hk

theorem sduType_eq {ind : TmaUnitdata} {t : LlcPduType} (ht : t ≠ .unknown)
    (hlen : ind.sduLenBits ≤ tmaSduMaxBytes * 8) (h4 : 4 ≤ ind.sduLenBits)
    (h : window ind.sduBits 0 4 = msbBits t.value 4) : sduType ind = t := by
  rw [← window_sduBuffer hlen (by omega)] at h
  exact typeAt_eq (bbInit (sduBuffer ind) ind.sduLenBits (le_sduBuffer hlen)) ht h

theorem parsesTo_of_decodes {ind : TmaUnitdata} {pdu : LlcPdu}
    (hlen : ind.sduLenBits ≤ tmaSduMaxBytes * 8) (hf : SduFits (sduType ind) ind.sduLenBits)
    (hal : sduType ind ≠ .alSetup)
    (hd : DecodesTo (bbInit (sduBuffer ind) ind.sduLenBits (le_sduBuffer hlen))
      (ind.sduLenBits - sduOverhead (sduType ind)) pdu) :
    pdu.pduType = sduType ind ∧ ParsesTo ind pdu := by
  have ht : pdu.pduType = sduType ind := hd.type_eq
  have hover := hf.overhead_le
  rw [sduOverhead_eq hal] at hover
  have hl : pdu.bodyLenBits = ind.sduLenBits - (headerLen (sduType ind) + fcsLen (sduType ind)) := by
    rw [hd.len_eq, sduOverhead_eq hal]
  refine ⟨ht, by rw [ht]; exact hf.known, ?_, hd.nr_bit, hd.ns_bit, ?_,
    fun h => absurd (ht.symm.trans h) hal, ?_, ?_, ?_⟩
  · rw [hd.len_eq]
    exact hf.body_le hal
  · intro _
    rw [ht]
    omega
  · have hsum : 0 + (headerLen pdu.pduType + pdu.bodyLenBits) ≤ ind.sduLenBits := by
      rw [ht]
      omega
    rw [hd.covered_eq, ← hd.len_eq, ← hd.type_eq]
    exact window_sduBuffer hlen hsum
  · intro hfcs
    have h32 : fcsLen (sduType ind) = 32 := if_pos (ht ▸ hfcs)
    have hb := hd.fcs_bits (hd.type_eq ▸ hfcs)
    rw [← hd.len_eq, ← hd.type_eq] at hb
    have hzero : (bbInit (sduBuffer ind) ind.sduLenBits (le_sduBuffer hlen)).pos = 0 := rfl
    rw [hb, hzero, Nat.zero_add]
    refine window_sduBuffer hlen ?_
    rw [ht]
    omega
  · rw [hd.fcs_valid, ← hd.type_eq]

/-- What an indication parses to depends on its bits alone, and fails only if they do not
fit. -/
theorem llcParseSdu_cases (ind : TmaUnitdata) :
    (∃ e, llcParseSdu ind = .error e ∧
        ¬(ind.sduLenBits ≤ tmaSduMaxBytes * 8 ∧ SduFits (sduType ind) ind.sduLenBits)) ∨
      ∃ pdu, llcParseSdu ind = .ok pdu ∧ ind.sduLenBits ≤ tmaSduMaxBytes * 8 ∧
        SduFits (sduType ind) ind.sduLenBits ∧ pdu.pduType = sduType ind ∧ ParsesTo ind pdu := by
  rw [llcParseSdu]
  by_cases h0 : ind.sduLenBits = 0
  · rw [if_pos h0]
    refine Or.inl ⟨_, rfl, fun h => ?_⟩
    have := h.2.type_fits
    omega
  rw [if_neg h0]
  by_cases hlen : ind.sduLenBits ≤ tmaSduMaxBytes * 8
  · rw [dif_pos hlen]
    have hrem : bbRemaining (bbInit (sduBuffer ind) ind.sduLenBits (le_sduBuffer hlen)) =
        ind.sduLenBits := rfl
    have htype : typeAt (bbInit (sduBuffer ind) ind.sduLenBits (le_sduBuffer hlen)) =
        sduType ind := rfl
    have hcases := llcParseBuffer_cases
      (bbInit (sduBuffer ind) ind.sduLenBits (le_sduBuffer hlen)) rfl
    rw [hrem, htype] at hcases
    obtain ⟨e, herr, hno⟩ | ⟨pdu, hok, hfits, hpdu⟩ := hcases
    · exact Or.inl ⟨e, herr, fun h => hno h.2⟩
    · refine Or.inr ⟨pdu, hok, hlen, hfits, ?_⟩
      obtain ⟨hal, rfl⟩ | ⟨hal, hd⟩ := hpdu
      · have hbits := sduType_bits hlen hfits.type_fits hfits.known
        rw [hal] at hbits
        refine ⟨hal.symm, by decide, by decide, Or.inl rfl, Or.inl rfl, fun h => absurd rfl h,
          fun _ => rfl, ?_, fun h => ?_, rfl⟩
        · exact hbits
        · cases h
      · exact parsesTo_of_decodes hlen hfits hal hd
  · rw [dif_neg hlen]
    exact Or.inl ⟨_, rfl, fun h => hlen h.1⟩

/-- `q` carries the same type, sequence bits and body as `p`; its FCS, if any, is good. -/
structure SamePdu (p q : LlcPdu) : Prop where
  type_eq : q.pduType = p.pduType
  len_eq : q.bodyLenBits = p.bodyLenBits
  body_eq : q.bodyBits = p.bodyBits
  nr_eq : llcPduTypeHasNr p.pduType = true → q.nr = seqByte (p.nr.getLsbD 0)
  ns_eq : llcPduTypeHasNs p.pduType = true → q.ns = seqByte (p.ns.getLsbD 0)
  fcs_valid : llcPduTypeHasFcs p.pduType = true → q.fcsValid = true

theorem eq_seqByte {v : Byte} {b : Bool} (h : v = 0 ∨ v = 1) (hb : v.getLsbD 0 = b) :
    v = seqByte b := by
  obtain rfl | rfl := h <;> subst hb <;> rfl

theorem ctrlBit_inj {u v : Byte} (h : ctrlBit true u = ctrlBit true v) :
    u.getLsbD 0 = v.getLsbD 0 := by
  simpa [ctrlBit] using h

theorem samePdu_of_covered {p q : LlcPdu} (ht : q.pduType = p.pduType)
    (hl : q.bodyLenBits = p.bodyLenBits) (hc : q.covered = p.covered)
    (hnr : q.nr = 0 ∨ q.nr = 1) (hns : q.ns = 0 ∨ q.ns = 1)
    (hf : llcPduTypeHasFcs p.pduType = true → q.fcsValid = true) : SamePdu p q := by
  have hhead : q.header.length = p.header.length := by simp [ht]
  obtain ⟨hh, hbody⟩ := List.append_inj hc hhead
  unfold LlcPdu.header at hh
  rw [ht] at hh
  have hctrl := (List.append_inj hh rfl).2
  obtain ⟨hr, hs⟩ := List.append_inj hctrl (by simp)
  refine ⟨ht, hl, hbody, fun h => ?_, fun h => ?_, hf⟩
  · rw [h] at hr
    exact eq_seqByte hnr (ctrlBit_inj hr)
  · rw [h] at hs
    exact eq_seqByte hns (ctrlBit_inj hs)

/-- The bits of an encodable PDU fit the receive path and show its type. -/
theorem sduFits_encoded {ind : TmaUnitdata} {p : LlcPdu} (he : p.Encodable)
    (hbits : ind.bits = p.bits) : ind.sduLenBits ≤ tmaSduMaxBytes * 8 ∧
      sduType ind = p.pduType ∧ SduFits p.pduType ind.sduLenBits := by
  have hlen : ind.sduLenBits = p.bits.length := by
    rw [← hbits, TmaUnitdata.bits, window_length]
  have hle : ind.sduLenBits ≤ tmaSduMaxBytes * 8 := by
    rw [hlen]
    exact le_trans (bits_length_le he) (by decide)
  rw [TmaUnitdata.bits, LlcPdu.bits] at hbits
  obtain ⟨hcov, -⟩ := window_eq_append hbits
  obtain ⟨hhead, -⟩ := window_eq_append hcov
  obtain ⟨htype, -⟩ := window_eq_append hhead
  have hl := LlcPdu.bits_length p
  have h4 : 4 ≤ headerLen p.pduType := by
    rw [headerLen]
    omega
  refine ⟨hle, ?_, he.known, by omega, ?_, fun h => ?_⟩
  · apply sduType_eq he.known hle (by omega)
    simpa using htype
  · by_cases h : p.pduType = .alSetup
    · rw [h] at h4 hl ⊢
      exact le_trans h4 (by omega)
    · have := sduOverhead_eq h
      omega
  · have := sduOverhead_eq h
    have := he.body_le
    omega

/-- Receiving the bits of a PDU gives that PDU back. -/
theorem llcParseSdu_encoded {ind : TmaUnitdata} {p : LlcPdu} (he : p.Encodable)
    (hbits : ind.bits = p.bits) : ∃ q, llcParseSdu ind = .ok q ∧ SamePdu p q := by
  obtain ⟨hle, ht, hfits⟩ := sduFits_encoded he hbits
  have hlen : ind.sduLenBits = p.bits.length := by
    rw [← hbits, TmaUnitdata.bits, window_length]
  have hl := LlcPdu.bits_length p
  have hsplit := hbits
  rw [TmaUnitdata.bits, LlcPdu.bits] at hsplit
  obtain ⟨hcov, hfcs⟩ := window_eq_append hsplit
  obtain ⟨e, -, hno⟩ | ⟨q, hok, -, -, hq, hp⟩ := llcParseSdu_cases ind
  · exact absurd ⟨hle, ht ▸ hfits⟩ hno
  refine ⟨q, hok, ?_⟩
  have hqt := hq.trans ht
  have hql : q.bodyLenBits = p.bodyLenBits := by
    by_cases h : q.pduType = .alSetup
    · rw [hp.alSetup_len h, he.alSetup (hqt ▸ h)]
    · have := hp.len_eq h
      rw [hqt] at this
      omega
  have hqc : q.covered = p.covered := by
    rw [hp.covered_eq, hqt, hql, ← LlcPdu.covered_length]
    exact hcov
  refine samePdu_of_covered hqt hql hqc hp.nr_bit hp.ns_bit fun hf => ?_
  rw [if_pos hf] at hfcs
  have hb := hp.fcs_bits (hqt ▸ hf)
  rw [hqt, hql, ← LlcPdu.covered_length] at hb
  rw [Nat.zero_add, msbBits_length, ← hb] at hfcs
  have heq : q.fcs = Crc.crc llcCrc32Poly p.covered :=
    BitVec.eq_of_getLsbD_eq fun j hj => msbBits_inj hfcs hj
  rw [hp.fcs_valid, hqt, hf, hqc, heq, beq_self_eq_true]
  rfl

end TetraBs
