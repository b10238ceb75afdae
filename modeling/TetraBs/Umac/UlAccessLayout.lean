import TetraBs.Lib.Bits
import TetraBs.Umac.UlAccess

/-! The MAC-ACCESS layout that the header comment of `tetra_ul_mac_access_parser` documents, and
what the parser makes of a PDU laid out that way. -/
namespace TetraBs.UlAccess
open TetraBs.Bits TetraBs.BitRegister TetraBs.Run

inductive Address where
  | ssi (a : BitVec 24)
  | eventLabel (l : BitVec 10)
  | ussi (a : BitVec 24)
  | smi (a : BitVec 24)

def Address.type : Address → BitVec 2
  | .ssi _ => 0#2
  | .eventLabel _ => 1#2
  | .ussi _ => 2#2
  | .smi _ => 3#2

def Address.bits : Address → List Bool
  | .ssi a | .ussi a | .smi a => msbBits a 24
  | .eventLabel l => msbBits l 10

inductive OptionalField where
  | absent
  | lengthInd (n : BitVec 5)
  | capReq (frag : Bool) (reservation : BitVec 4)

def OptionalField.flag : OptionalField → Bool
  | .absent => false
  | .lengthInd _ | .capReq .. => true

def OptionalField.bits : OptionalField → List Bool
  | .absent => [false]
  | .lengthInd n => true :: false :: msbBits n 5
  | .capReq frag reservation => true :: true :: frag :: msbBits reservation 4

/-! What is not there reads zero. -/

def OptionalField.length : OptionalField → BitVec 5
  | .lengthInd n => n
  | .absent | .capReq .. => 0#5

def OptionalField.frag : OptionalField → Bool
  | .capReq frag _ => frag
  | .absent | .lengthInd _ => false

def OptionalField.reservation : OptionalField → BitVec 4
  | .capReq _ reservation => reservation
  | .absent | .lengthInd _ => 0#4

inductive BlPdu where
  | adata (ns nr : Bool) (mlePd : BitVec 3) (mmPduType : BitVec 4)
  | data (ns : Bool) (mlePd : BitVec 3) (mmPduType : BitVec 4)
  | ack (nr : Bool)

def BlPdu.type : BlPdu → BitVec 2
  | .adata .. => 0b00#2
  | .data .. => 0b01#2
  | .ack _ => 0b11#2

def BlPdu.flow : BlPdu → List Bool
  | .adata ns nr _ _ => [ns, nr]
  | .data ns _ _ => [ns]
  | .ack nr => [nr]

/-- MLE discriminator and MM PDU type of a data PDU. -/
def BlPdu.payload : BlPdu → List Bool
  | .adata _ _ mlePd mmPduType | .data _ mlePd mmPduType => msbBits mlePd 3 ++ msbBits mmPduType 4
  | .ack _ => []

def BlPdu.bits (hasFcs : Bool) (l : BlPdu) : List Bool :=
  [false, hasFcs] ++ (msbBits l.type 2 ++ (l.flow ++ l.payload))

structure MacAccess where
  fillBit : Bool
  encrypted : Bool
  address : Address
  optionalField : OptionalField
  hasFcs : Bool
  llc : BlPdu

/-- The PDU on air, its parts one behind the other. -/
def MacAccess.bits (r : MacAccess) : List Bool :=
  [false, r.fillBit, r.encrypted] ++ (msbBits r.address.type 2 ++ (r.address.bits ++
    (r.optionalField.bits ++ r.llc.bits r.hasFcs)))

/-- The 92 bits in the order in which they are on air. -/
def onAir (info : Info) : List Bool := (List.range 92).map info.getLsbD

/-! What the record says of each output that has its field. -/

def AddressRead (p : Parser) : Address → Prop
  | .ssi a | .ussi a | .smi a => p.ulIssi = a
  | .eventLabel l => p.ulEventLabel = l

def LlcRead (p : Parser) : BlPdu → Prop
  | .adata ns nr mlePd mmPduType =>
    p.ulLlcIsBlData = true ∧ p.ulLlcIsBlAck = false ∧ p.blAckValid = false ∧
    p.ulLlcNsValid = true ∧ p.ulLlcNs = ns ∧ p.ulLlcNrValid = true ∧ p.ulLlcNr = nr ∧
    p.ulMleDisc = mlePd ∧ p.ulLlcMmPduType = mmPduType ∧
    p.ulLlcIsMleMm = decide (mlePd = 0b001#3)
  | .data ns mlePd mmPduType =>
    p.ulLlcIsBlData = true ∧ p.ulLlcIsBlAck = false ∧ p.blAckValid = false ∧
    p.ulLlcNsValid = true ∧ p.ulLlcNs = ns ∧ p.ulLlcNrValid = false ∧
    p.ulMleDisc = mlePd ∧ p.ulLlcMmPduType = mmPduType ∧
    p.ulLlcIsMleMm = decide (mlePd = 0b001#3)
  | .ack nr =>
    p.ulLlcIsBlData = false ∧ p.ulLlcIsBlAck = true ∧ p.blAckValid = true ∧ p.blAckNr = nr ∧
    p.ulLlcNsValid = false ∧ p.ulLlcNrValid = true ∧ p.ulLlcNr = nr ∧ p.ulLlcIsMleMm = false

structure Reported (r : MacAccess) (p : Parser) : Prop where
  pduValid : p.pduValid = true
  pduType : p.pduType = false
  continuation : p.ulPduIsContinuation = false
  fillBit : p.fillBit = r.fillBit
  encryption : p.encryptionMode = r.encrypted
  addrType : p.ulAddrType = r.address.type
  address : AddressRead p r.address
  optFlag : p.optionalFieldFlag = r.optionalField.flag
  fragFlag : p.ulFragFlag = r.optionalField.frag
  reservation : p.ulReservationReq = r.optionalField.reservation
  length : p.ulLengthInd = r.optionalField.length
  hasFcs : p.ulLlcHasFcs = r.hasFcs
  llcType : p.ulLlcPduType = 0#1 ++ BitVec.ofBool r.hasFcs ++ r.llc.type
  llc : LlcRead p r.llc

/-- Whatever the parser has seen before and whatever follows the PDU in its block. -/
def Parses (r : MacAccess) : Prop :=
  ∀ (p : Parser) (i : Input), i.infoValid = true → i.crcOk = true →
    r.bits <+: onAir i.infoBits → Reported r (parserStep p i)

/-! Reading what is laid out. -/

/-- From on-air bit `start` on there is `s`. -/
def At (info : Info) (start : Nat) (s : List Bool) : Prop :=
  ∀ k, (h : k < s.length) → info.getLsbD (start + k) = s[k]

theorem at_zero {info : Info} {s : List Bool} (h : s <+: onAir info) : At info 0 s := by
  intro k hk
  rw [h.getElem hk]
  simp [onAir]

theorem at_append {info : Info} {start : Nat} {s t : List Bool} :
    At info start (s ++ t) ↔ At info start s ∧ At info (start + s.length) t := by
  constructor
  · intro h
    refine ⟨fun k hk => ?_, fun k hk => ?_⟩
    · rw [h k (by rw [List.length_append]; omega), List.getElem_append_left hk]
    · rw [Nat.add_assoc, h (s.length + k) (by rw [List.length_append]; omega),
        List.getElem_append_right (Nat.le_add_right _ _)]
      simp
  · rintro ⟨hs, ht⟩ k hk
    by_cases hlt : k < s.length
    · rw [hs k hlt, List.getElem_append_left hlt]
    · rw [List.length_append] at hk
      have := ht (k - s.length) (by omega)
      rw [List.getElem_append_right (by omega), ← this]
      congr 1
      omega

theorem at_cons {info : Info} {start : Nat} {b : Bool} {s : List Bool} :
    At info start (b :: s) ↔ info.getLsbD start = b ∧ At info (start + 1) s := by
  constructor
  · intro h
    refine ⟨h 0 (Nat.succ_pos _), fun k hk => ?_⟩
    rw [Nat.add_assoc, Nat.add_comm 1 k]
    exact h (k + 1) (Nat.succ_lt_succ hk)
  · rintro ⟨hb, hs⟩ k hk
    cases k with
    | zero => exact hb
    | succ k =>
      rw [← Nat.add_assoc, Nat.add_right_comm]
      exact hs k (Nat.lt_of_succ_lt_succ hk)

theorem field_of_at {info : Info} {start n : Nat} {v : BitVec n} (h : At info start (msbBits v n)) :
    field info start n = v := by
  refine BitVec.eq_of_getLsbD_eq fun j hj => ?_
  have hbit := h (n - 1 - j) (by rw [msbBits_length]; omega)
  have hback : n - 1 - (n - 1 - j) = j := by omega
  simp only [msbBits, List.getElem_map, List.getElem_range, hback] at hbit
  rw [field, BitVec.getLsbD_reverse, BitVec.getMsbD, BitVec.getLsbD_extractLsb', hbit,
    decide_eq_true hj, decide_eq_true (by omega : n - 1 - j < n), Bool.true_and, Bool.true_and]

theorem at_parts {info : Info} {r : MacAccess} (h : At info 0 r.bits) :
    info.getLsbD 0 = false ∧ info.getLsbD 1 = r.fillBit ∧ info.getLsbD 2 = r.encrypted ∧
      fAddrType info = r.address.type ∧ At info 5 r.address.bits ∧
      At info (5 + r.address.bits.length) r.optionalField.bits ∧
      At info (5 + r.address.bits.length + r.optionalField.bits.length) (r.llc.bits r.hasFcs) := by
  obtain ⟨hhead, h⟩ := at_append.1 h
  obtain ⟨h0, hhead⟩ := at_cons.1 hhead
  obtain ⟨h1, hhead⟩ := at_cons.1 hhead
  obtain ⟨h2, -⟩ := at_cons.1 hhead
  obtain ⟨htype, h⟩ := at_append.1 h
  obtain ⟨haddr, h⟩ := at_append.1 h
  obtain ⟨hopt, hllc⟩ := at_append.1 h
  exact ⟨h0, h1, h2, field_of_at htype, haddr, hopt, hllc⟩

/-- The optional field where the parser looks for it. -/
theorem optional_read {info : Info} {o : OptionalField} (h : At info 29 o.bits) :
    fOptFlag info = o.flag ∧ fFragmented info = o.frag ∧
      (if fOptFlag info && fLengthOrCap info then fReservationReq info else 0) = o.reservation ∧
      (if fOptFlag info && !fLengthOrCap info then fLengthInd info else 0) = o.length ∧
      tlSduStart info = 29 + o.bits.length := by
  cases o with
  | absent =>
    obtain ⟨hflag, -⟩ := at_cons.1 h
    have hopt : fOptFlag info = false := hflag
    simp [hopt, fFragmented, tlSduStart, OptionalField.flag, OptionalField.frag,
      OptionalField.reservation, OptionalField.length, OptionalField.bits]
  | lengthInd n =>
    obtain ⟨hflag, h⟩ := at_cons.1 h
    obtain ⟨hcap, hlen⟩ := at_cons.1 h
    have hopt : fOptFlag info = true := hflag
    have hcap : fLengthOrCap info = false := hcap
    have hlen : fLengthInd info = n := field_of_at hlen
    simp [hopt, hcap, hlen, fFragmented, tlSduStart, OptionalField.flag, OptionalField.frag,
      OptionalField.reservation, OptionalField.length, OptionalField.bits]
  | capReq frag reservation =>
    obtain ⟨hflag, h⟩ := at_cons.1 h
    obtain ⟨hcap, h⟩ := at_cons.1 h
    obtain ⟨hfrag, hres⟩ := at_cons.1 h
    have hopt : fOptFlag info = true := hflag
    have hcap : fLengthOrCap info = true := hcap
    have hfrag : fFragFlag info = frag := hfrag
    have hres : fReservationReq info = reservation := field_of_at hres
    simp [hopt, hcap, hfrag, hres, fFragmented, tlSduStart, OptionalField.flag,
      OptionalField.frag, OptionalField.reservation, OptionalField.length, OptionalField.bits]

/-- The LLC header where the parser looks for it. -/
theorem llc_header {info : Info} {hasFcs : Bool} {l : BlPdu}
    (h : At info (tlSduStart info) (l.bits hasFcs)) :
    fLlcLinkType info = false ∧ fLlcHasFcs info = hasFcs ∧ fLlcBlPduType info = l.type ∧
      At info (tlSduStart info + 4) (l.flow ++ l.payload) := by
  obtain ⟨hhead, h⟩ := at_append.1 h
  obtain ⟨hlink, hhead⟩ := at_cons.1 hhead
  obtain ⟨hfcs, -⟩ := at_cons.1 hhead
  obtain ⟨htype, hrest⟩ := at_append.1 h
  exact ⟨hlink, hfcs, field_of_at htype, hrest⟩

/-- Discriminator and MM PDU type at the LLC payload. -/
theorem payload_read {info : Info} {mlePd : BitVec 3} {mmPduType : BitVec 4}
    (h : At info (llcPayloadStart info) (msbBits mlePd 3 ++ msbBits mmPduType 4)) :
    fLlcMlePd info = mlePd ∧ fLlcMmPduType info = mmPduType := by
  obtain ⟨hmle, hmm⟩ := at_append.1 h
  exact ⟨field_of_at hmle, field_of_at hmm⟩

/-- The LLC outputs of a PDU that starts where the parser looks for it. -/
theorem llc_read {p : Parser} {i : Input} (hv : i.infoValid = true) (hc : i.crcOk = true)
    (ha : i.infoBits.getLsbD 0 = false) {hasFcs : Bool} {l : BlPdu}
    (h : At i.infoBits (tlSduStart i.infoBits) (l.bits hasFcs)) :
    LlcRead (parserStep p i) l := by
  obtain ⟨hlink, -, htype, hrest⟩ := llc_header h
  have hend : fIsEndHu i.infoBits = false := ha
  simp only [parserStep, hv, hc, hend, Bool.and_self, Bool.not_false, if_true]
  cases l with
  | adata ns nr mlePd mmPduType =>
    have hadata : fIsBlAdata i.infoBits = true := by
      rw [fIsBlAdata, hlink, htype]
      rfl
    have hdata : fIsBlData i.infoBits = false := by
      rw [fIsBlData, hlink, htype]
      rfl
    have hack : fIsBlAck i.infoBits = false := by
      rw [fIsBlAck, hlink, htype]
      rfl
    obtain ⟨hns, hrest⟩ := at_cons.1 hrest
    obtain ⟨hnr, hrest⟩ := at_cons.1 hrest
    have hstart : llcPayloadStart i.infoBits = tlSduStart i.infoBits + 4 + 1 + 1 := by
      rw [llcPayloadStart, hadata]
      rfl
    rw [← hstart] at hrest
    obtain ⟨hmle, hmm⟩ := payload_read hrest
    have hns : fNsBit i.infoBits = ns := hns
    have hnr : fNrBit i.infoBits = nr := by
      rw [fNrBit, hadata]
      exact hnr
    simp [LlcRead, hadata, hdata, hack, fNsValid, fNrValid, hns, hnr, hmle, hmm, fIsMleMm]
  | data ns mlePd mmPduType =>
    have hadata : fIsBlAdata i.infoBits = false := by
      rw [fIsBlAdata, hlink, htype]
      rfl
    have hdata : fIsBlData i.infoBits = true := by
      rw [fIsBlData, hlink, htype]
      rfl
    have hack : fIsBlAck i.infoBits = false := by
      rw [fIsBlAck, hlink, htype]
      rfl
    obtain ⟨hns, hrest⟩ := at_cons.1 hrest
    have hstart : llcPayloadStart i.infoBits = tlSduStart i.infoBits + 4 + 1 := by
      rw [llcPayloadStart, hadata, hdata]
      rfl
    rw [← hstart] at hrest
    obtain ⟨hmle, hmm⟩ := payload_read hrest
    have hns : fNsBit i.infoBits = ns := hns
    simp [LlcRead, hadata, hdata, hack, fNsValid, fNrValid, hns, hmle, hmm, fIsMleMm]
  | ack nr =>
    have hadata : fIsBlAdata i.infoBits = false := by
      rw [fIsBlAdata, hlink, htype]
      rfl
    have hdata : fIsBlData i.infoBits = false := by
      rw [fIsBlData, hlink, htype]
      rfl
    have hack : fIsBlAck i.infoBits = true := by
      rw [fIsBlAck, hlink, htype]
      rfl
    obtain ⟨hnr, -⟩ := at_cons.1 hrest
    have hnr : fNrBit i.infoBits = nr := by
      rw [fNrBit, hadata]
      exact hnr
    simp [LlcRead, hadata, hdata, hack, fNsValid, fNrValid, hnr]

theorem parses_of_length {r : MacAccess} (haddr : r.address.bits.length = 24) : Parses r := by
  intro p i hv hc hbits
  obtain ⟨h0, h1, h2, htype, haddress, hopt, hllc⟩ := at_parts (at_zero hbits)
  rw [haddr] at hopt hllc
  obtain ⟨hflag, hfrag, hres, hlength, hstart⟩ := optional_read hopt
  rw [← hstart] at hllc
  obtain ⟨hlink, hfcs, hbl, -⟩ := llc_header hllc
  have hread := llc_read (p := p) hv hc h0 hllc
  have hend : fIsEndHu i.infoBits = false := h0
  simp only [parserStep, hv, hc, hend, Bool.and_self, Bool.not_false, if_true] at hread ⊢
  refine ⟨rfl, h0, rfl, h1, h2, htype, ?_, hflag, hfrag, hres, hlength, hfcs, ?_, hread⟩
  · cases hr : r.address with
    | ssi a | ussi a | smi a =>
      rw [hr] at haddress
      exact field_of_at haddress
    | eventLabel l =>
      rw [hr] at haddr
      exact absurd haddr (by rw [Address.bits, msbBits_length]; decide)
  · show BitVec.ofBool (fLlcLinkType i.infoBits) ++ BitVec.ofBool (fLlcHasFcs i.infoBits) ++
      fLlcBlPduType i.infoBits = _
    rw [hlink, hfcs, hbl]
    rfl

/-! An event label is shorter than the address the parser takes it for. -/

/-- A block with the PDU at its start. -/
def block (r : MacAccess) (tail : Nat → Bool) : Info :=
  written 92 fun k => r.bits.getD k (tail k)

theorem begins_block {r : MacAccess} {tail : Nat → Bool} (h : r.bits.length ≤ 92) :
    r.bits <+: onAir (block r tail) := by
  rw [List.prefix_iff_eq_take]
  refine List.ext_getElem (by simp [onAir, h]) fun k hk hk' => ?_
  rw [List.getElem_take]
  simp only [onAir, List.getElem_map, List.getElem_range]
  rw [block, getLsbD_written _ (by omega), List.getD_eq_getElem _ _ hk]

theorem label_lengths {r : MacAccess} {l : BitVec 10} (h : r.address = .eventLabel l) :
    r.bits.length ≤ 35 ∧ (r.optionalField.flag = false → r.bits.length ≤ 29) := by
  obtain ⟨fill, enc, address, o, hasFcs, llc⟩ := r
  cases h
  cases o <;> cases llc <;>
    simp [MacAccess.bits, Address.bits, OptionalField.bits, BlPdu.bits, BlPdu.flow, BlPdu.payload,
      OptionalField.flag]

/-- Bits behind the PDU that the parser takes for other fields of it. -/
def misleading (r : MacAccess) (k : Nat) : Bool :=
  if k = 29 then !r.optionalField.flag else !r.hasFcs

theorem not_parses_label {r : MacAccess} {l : BitVec 10} (h : r.address = .eventLabel l) :
    ¬Parses r := by
  intro hparses
  obtain ⟨hlong, hshort⟩ := label_lengths h
  have hbits : r.bits <+: onAir (block r (misleading r)) := begins_block (by omega)
  have hreported := hparses Parser.reset ⟨block r (misleading r), true, true, 0, 0, false⟩ rfl rfl
    hbits
  have hend : fIsEndHu (block r (misleading r)) = false := (at_parts (at_zero hbits)).1
  have hflag : fOptFlag (block r (misleading r)) = r.optionalField.flag := by
    have := hreported.optFlag
    simpa only [parserStep, hend, Bool.and_self, Bool.not_false, if_true] using this
  have hfcs : fLlcHasFcs (block r (misleading r)) = r.hasFcs := by
    have := hreported.hasFcs
    simpa only [parserStep, hend, Bool.and_self, Bool.not_false, if_true] using this
  -- the bit at 29 is right only if the PDU reaches it, and then the LLC header is looked for at 36
  cases ho : r.optionalField.flag with
  | false =>
    rw [fOptFlag, block, getLsbD_written _ (by decide),
      List.getD_eq_default _ _ (hshort ho), misleading, if_pos rfl] at hflag
    exact (Bool.not_eq_self _).1 hflag
  | true =>
    rw [ho] at hflag
    have hstart : tlSduStart (block r (misleading r)) = 36 := by
      rw [tlSduStart, hflag]
      rfl
    rw [fLlcHasFcs, hstart, block, getLsbD_written _ (by decide),
      List.getD_eq_default _ _ (by omega), misleading, if_neg (by decide)] at hfcs
    exact (Bool.not_eq_self _).1 hfcs

theorem parses_iff (r : MacAccess) : Parses r ↔ r.address.type ≠ 1#2 := by
  cases h : r.address with
  | ssi a | ussi a | smi a =>
    refine iff_of_true (parses_of_length ?_) (by simp [Address.type])
    rw [h]
    exact msbBits_length a 24
  | eventLabel l => exact iff_of_false (not_parses_label h) fun hne => hne rfl

/-! Blocks that are no MAC-ACCESS. -/

/-- No MAC-ACCESS that passed its CRC. -/
def NoAccess (i : Input) : Prop :=
  i.infoValid = false ∨ i.crcOk = false ∨ fIsEndHu i.infoBits = true

/-- The registers but for the PDU type, the raw bits, the strobes and the continuation: address,
optional field, LLC values and counters. -/
def Parser.values (p : Parser) : Parser :=
  { p with
    pduType := false, rawInfoBits := 0#92, pduValid := false, blAckValid := false
    ulLlcIsBlData := false, ulLlcIsBlAck := false, ulLlcNsValid := false, ulLlcNrValid := false
    ulLlcIsMleMm := false, ulPduIsContinuation := false, ulContinuationValid := false
    ulContinuationBits := 0#85, ulContinuationCount := 0#16 }

theorem values_step (p : Parser) {i : Input} (h : NoAccess i) :
    (parserStep p i).values = p.values := by
  have hquiet : p.strobesLow.values = p.values := rfl
  cases hgo : i.infoValid && i.crcOk with
  | false =>
    simp only [parserStep, hgo, Bool.false_eq_true, if_false]
    exact hquiet
  | true =>
    obtain ⟨hv, hc⟩ := Bool.and_eq_true_iff.1 hgo
    have hend : fIsEndHu i.infoBits = true := by
      rcases h with h | h | h
      · exact absurd (hv.symm.trans h) (by decide)
      · exact absurd (hc.symm.trans h) (by decide)
      · exact h
    simp only [parserStep, hgo, hend, Bool.not_true, Bool.false_eq_true, if_true, if_false]
    exact hquiet

theorem values_exec (p : Parser) {is : List Input} (h : ∀ i ∈ is, NoAccess i) :
    (exec parserStep p is).values = p.values := by
  induction is generalizing p with
  | nil => rfl
  | cons i is ih =>
    exact (ih (parserStep p i) fun j hj => h j (List.mem_cons_of_mem i hj)).trans
      (values_step p (h i List.mem_cons_self))

/-- A record is read back exactly if its address is no event label; and blocks that are no
MAC-ACCESS change none of the values. -/
theorem parser_reads_layout (p : Parser) (is : List Input) :
    (∀ r, Parses r ↔ r.address.type ≠ 1#2) ∧
      ((∀ i ∈ is, NoAccess i) → (exec parserStep p is).values = p.values) :=
  ⟨parses_iff, values_exec p⟩

/-- A BL-ACK with an event label and a capacity request, zeros behind it. -/
def labelledRequest : MacAccess :=
  ⟨false, false, .eventLabel 0x2A5#10, .capReq false 5#4, false, .ack true⟩

/-- The capacity request is not seen: the flag is looked for at bit 29. -/
theorem labelledRequest_misread :
    labelledRequest.bits <+: onAir (block labelledRequest fun _ => false) ∧
      ¬Reported labelledRequest (parserStep Parser.reset
        ⟨block labelledRequest fun _ => false, true, true, 0, 0, false⟩) := by
  have hbits : labelledRequest.bits <+: onAir (block labelledRequest fun _ => false) :=
    begins_block (by decide)
  have hend : fIsEndHu (block labelledRequest fun _ => false) = false :=
    (at_parts (at_zero hbits)).1
  refine ⟨hbits, fun h => ?_⟩
  have hflag := h.optFlag
  simp only [parserStep, hend, Bool.and_self, Bool.not_false, if_true] at hflag
  rw [fOptFlag, block, getLsbD_written _ (by decide)] at hflag
  exact absurd hflag (by decide)

end TetraBs.UlAccess
