import TetraBs.Llc.RoundTrip

/-! Error bursts in a PDU on the air against the FCS in the order in which it is sent. -/
namespace TetraBs
open TetraBs.Bits

/-- The received bits: those of `e` are flipped. -/
def corrupt (bits e : List Bool) : List Bool := List.zipWith (· ^^ ·) bits e

/-- The flipped bits in front of the FCS, and those of the FCS. -/
def messagePart (e : List Bool) : List Bool := e.take (e.length - 32)
def fcsPart (e : List Bool) : List Bool := e.drop (e.length - 32)

/-- An error of at most 32 consecutive bits in a PDU of `n` bits that leaves the type as it is. -/
structure BurstError (n : Nat) (e : List Bool) : Prop where
  length : e.length = n
  burst : Crc.Burst 32 e
  nonzero : true ∈ e
  typeKept : true ∉ e.take 4

/-- The burst goes over the boundary between body and FCS, and its FCS part is what its message
part leaves in an empty CRC register, highest bit first. -/
structure Hidden (e : List Bool) : Prop where
  message : true ∈ messagePart e
  fcs : true ∈ fcsPart e
  remainder : fcsPart e = msbBits (Crc.run llcCrc32Poly 0 (messagePart e)) 32

theorem corrupt_length {bits e : List Bool} (h : e.length = bits.length) :
    (corrupt bits e).length = bits.length := by
  rw [corrupt, List.length_zipWith, h, Nat.min_self]

theorem corrupt_zeros (bits : List Bool) :
    corrupt bits (List.replicate bits.length false) = bits := by
  induction bits with
  | nil => rfl
  | cons b bits ih => exact congrArg₂ List.cons (Bool.xor_false b) ih

theorem corrupt_append {x y e f : List Bool} (h : e.length = x.length) :
    corrupt (x ++ y) (e ++ f) = corrupt x e ++ corrupt y f :=
  List.zipWith_append h.symm

theorem corrupt_inj {bits e f : List Bool} (he : e.length = bits.length)
    (hf : f.length = bits.length) : corrupt bits e = corrupt bits f ↔ e = f := by
  refine ⟨fun h => ?_, fun h => h ▸ rfl⟩
  induction bits generalizing e f with
  | nil => rw [List.length_eq_zero_iff.1 he, List.length_eq_zero_iff.1 hf]
  | cons b bits ih =>
    cases e with
    | nil => cases he
    | cons c e => cases f with
      | nil => cases hf
      | cons d f =>
        obtain ⟨hhead, htail⟩ := List.cons.inj h
        have hcd : c = d := by cases b <;> simpa using hhead
        rw [ih (Nat.succ.inj he) (Nat.succ.inj hf) htail, hcd]

theorem msbBits_xor {w : Nat} (x y : BitVec w) (n : Nat) :
    msbBits (x ^^^ y) n = corrupt (msbBits x n) (msbBits y n) := by
  simp [msbBits, corrupt, List.zipWith_map, List.zipWith_self]

/-- The corrupted PDU is read with a valid FCS exactly if the flipped FCS bits make up for the
flipped message bits. -/
theorem corrupted_valid_iff {pdu : LlcPdu} (he : pdu.Encodable)
    (hfcs : llcPduTypeHasFcs pdu.pduType = true) {e : List Bool}
    (hlen : e.length = pdu.bits.length) (htype : true ∉ e.take 4) {bb : BitBuffer} {hint : LlcPdu}
    (hbody : hint.bodyLenBits = pdu.bodyLenBits) (hroom : pdu.bits.length ≤ bbRemaining bb)
    (hw : window bb.buffer bb.pos pdu.bits.length = corrupt pdu.bits e) :
    ∃ q bb', llcPduDecode bb hint = .ok (q, bb') ∧ (q.fcsValid = true ↔
      fcsPart e = msbBits (Crc.run llcCrc32Poly 0 (messagePart e)) 32) := by
  have hbits := pdu.bits_length
  have hflen : fcsLen pdu.pduType = 32 := if_pos hfcs
  have hsplit : pdu.bits = pdu.covered ++ msbBits (Crc.crc llcCrc32Poly pdu.covered) 32 := by
    rw [LlcPdu.bits, if_pos hfcs]
  have hmessage : (messagePart e).length = pdu.covered.length := by
    rw [messagePart, List.length_take, hlen, LlcPdu.covered_length]
    omega
  have hcheck : (fcsPart e).length = 32 := by
    rw [fcsPart, List.length_drop, hlen]
    omega
  have hparts : corrupt pdu.bits e = corrupt pdu.covered (messagePart e) ++
      corrupt (msbBits (Crc.crc llcCrc32Poly pdu.covered) 32) (fcsPart e) := by
    rw [hsplit, ← corrupt_append hmessage, messagePart, fcsPart, List.take_append_drop]
  -- the type is read as it was sent
  have ht : typeAt bb = pdu.pduType := by
    refine typeAt_eq bb he.known ?_
    have hfour : pdu.bits = msbBits pdu.pduType.value 4 ++ pdu.bits.drop 4 := by
      conv_lhs => rw [← List.take_append_drop 4 pdu.bits]
      rw [LlcPdu.bits, LlcPdu.covered, LlcPdu.header, List.append_assoc, List.append_assoc,
        List.take_left' (msbBits_length _ _)]
    have hzero : e.take 4 = List.replicate 4 false := by
      have hfour : (e.take 4).length = 4 := by
        rw [List.length_take, hlen, hbits, headerLen]
        omega
      have heq := Crc.eq_zeros htype
      rwa [hfour] at heq
    have hhead := corrupt_append (y := pdu.bits.drop 4) (f := e.drop 4)
      (by rw [hzero, List.length_replicate, msbBits_length] :
        (e.take 4).length = (msbBits pdu.pduType.value 4).length)
    have hkept := corrupt_zeros (msbBits pdu.pduType.value 4)
    rw [← hfour, List.take_append_drop, hzero] at hhead
    rw [msbBits_length] at hkept
    rw [hhead, hkept, (by rw [hbits, headerLen]; omega :
      pdu.bits.length = 4 + (pdu.bits.length - 4)), window_add] at hw
    exact (List.append_inj hw (by rw [window_length, msbBits_length])).1
  have hfits : Fits bb hint.bodyLenBits := by
    refine ⟨hbody ▸ he.body_le, ?_, ht ▸ he.known, fun _ => ?_⟩
    · rw [headerLen] at hbits
      omega
    · rw [ht, hbody]
      omega
  obtain ⟨err, -, hno⟩ | ⟨bb', -, -, hal⟩ | ⟨q, bb', hok, -, -, hd⟩ := llcPduDecode_cases bb hint
  · exact absurd hfits hno
  · rw [← ht, hal] at hfcs
    cases hfcs
  · refine ⟨q, bb', hok, ?_⟩
    rw [hbits, window_add, hparts] at hw
    obtain ⟨hcov, hsent⟩ := List.append_inj hw
      (by rw [window_length, corrupt_length hmessage, LlcPdu.covered_length])
    have hcovered : q.covered = corrupt pdu.covered (messagePart e) := by
      rw [hd.covered_eq, ht, hbody, hcov]
    rw [hflen] at hsent
    have hgot := hd.fcs_bits (ht ▸ hfcs)
    rw [ht, hbody, hsent] at hgot
    have hcrc : Crc.crc llcCrc32Poly q.covered = Crc.crc llcCrc32Poly pdu.covered ^^^
        Crc.run llcCrc32Poly 0 (messagePart e) := by
      rw [hcovered]
      exact Crc.crc_flip llcCrc32Poly hmessage
    rw [hd.fcs_valid, ht, hfcs, Bool.true_and, beq_iff_eq, hcrc,
      ← corrupt_inj (hcheck.trans (msbBits_length _ _).symm)
        ((msbBits_length _ _).trans (msbBits_length _ _).symm), ← msbBits_xor, ← hgot]
    exact ⟨fun h => congrArg (msbBits · 32) h,
      fun h => BitVec.eq_of_getLsbD_eq fun j hj => msbBits_inj h hj⟩

/-- A burst on one side of the boundary is detected. -/
theorem BurstError.remainder_iff {n : Nat} {e : List Bool} (h : BurstError n e) (hn : 32 ≤ n) :
    fcsPart e = msbBits (Crc.run llcCrc32Poly 0 (messagePart e)) 32 ↔ Hidden e := by
  refine ⟨fun hrem => ?_, Hidden.remainder⟩
  have hzeros : msbBits (0 : BitVec 32) 32 = List.replicate 32 false := by decide
  have hmessage : true ∈ messagePart e := by
    by_contra hno
    rw [Crc.eq_zeros hno, Crc.run_zeros, hzeros] at hrem
    have hmem := h.nonzero
    rw [← List.take_append_drop (e.length - 32) e, List.mem_append] at hmem
    rcases hmem with hmem | hmem
    · exact hno hmem
    · rw [← fcsPart, hrem] at hmem
      simp at hmem
  refine ⟨hmessage, ?_, hrem⟩
  by_contra hno
  have hpoly : llcCrc32Poly.getLsbD (32 - 1) = true := by decide
  have hne := (h.burst.take (e.length - 32)).run_ne_zero hpoly hmessage
  have hlen : (fcsPart e).length = 32 := by
    rw [fcsPart, List.length_drop, h.length]
    omega
  rw [Crc.eq_zeros hno, hlen, ← hzeros] at hrem
  exact hne (BitVec.eq_of_getLsbD_eq fun j hj => (msbBits_inj hrem hj).symm)

/-- An error burst in an emitted PDU is reported exactly if it is not one of the hidden ones, which
all go over the boundary between body and FCS. -/
theorem bursts_reported_iff (pdu : LlcPdu) (hfcs : llcPduTypeHasFcs pdu.pduType = true)
    (hbody : pdu.bodyLenBits ≤ llcPduBodyMaxBytes * 8) (out : BitBuffer)
    (hroom : out.pos + pdu.bits.length ≤ out.limit) :
    ∃ out' n, llcPduEncode out pdu = .ok (out', n) ∧ ∀ e, BurstError n e →
      ∀ (bb : BitBuffer) (hint : LlcPdu), hint.bodyLenBits = pdu.bodyLenBits →
        n ≤ bbRemaining bb → window bb.buffer bb.pos n = corrupt (window out'.buffer out.pos n) e →
        ((∀ q bb', llcPduDecode bb hint = .ok (q, bb') → q.fcsValid = false) ↔ ¬Hidden e) := by
  have he : pdu.Encodable := by
    refine ⟨fun h => ?_, hbody, fun h => ?_⟩
    · rw [h] at hfcs
      cases hfcs
    · rw [h] at hfcs
      cases hfcs
  obtain ⟨out', henc, hput⟩ := llcPduEncode_spec out pdu he hroom
  refine ⟨out', _, henc, fun e hburst bb hint hlen hrem hw => ?_⟩
  rw [hput.window_eq] at hw
  have h32 : 32 ≤ pdu.bits.length := by
    rw [LlcPdu.bits_length, fcsLen, if_pos hfcs]
    omega
  obtain ⟨q, bb', hok, hvalid⟩ :=
    corrupted_valid_iff he hfcs hburst.length hburst.typeKept hlen hrem hw
  rw [← hburst.remainder_iff h32, ← hvalid, Bool.not_eq_true]
  constructor
  · exact fun h => h q bb' hok
  · intro h p b hp
    rw [hok] at hp
    cases hp
    exact h

theorem ack_bursts_reported :
    ∃ out' n, llcPduEncode cursorAt5 { pduType := .blAckFcs, nr := 1 } = .ok (out', n) ∧
      ∀ e, BurstError n e → ∀ (bb : BitBuffer) (hint : LlcPdu), hint.bodyLenBits = 0 →
        n ≤ bbRemaining bb →
        window bb.buffer bb.pos n = corrupt (window out'.buffer cursorAt5.pos n) e →
        ((∀ q bb', llcPduDecode bb hint = .ok (q, bb') → q.fcsValid = false) ↔ ¬Hidden e) :=
  bursts_reported_iff { pduType := .blAckFcs, nr := 1 } rfl (by decide) cursorAt5 (by decide)

/-- N(R) of a BL-ACK+FCS, and 16 of the 27 FCS bits behind it. -/
def hiddenBurst : List Bool := List.replicate 4 false ++ [true] ++ msbBits llcCrc32Poly 32

/-- BL-ACK+FCS with N(R) = 0. -/
def ackReceived : BitBuffer := bbInit [0x70, 0xDB, 0x18, 0x58, 0x90] 37 (by decide)

theorem hidden_burst_valid :
    BurstError 37 hiddenBurst ∧
      (llcPduEncode cursorAt5 { pduType := .blAckFcs, nr := 1 }).map
          (fun r => corrupt (window r.1.buffer 5 r.2) hiddenBurst) =
        .ok (window ackReceived.buffer 0 37) ∧
      (llcPduDecode ackReceived {}).map (fun r => (r.1.nr, r.1.fcsValid)) = .ok (0, true) := by
  refine ⟨⟨by decide, ?_, by decide, by decide⟩, by decide +kernel, by decide +kernel⟩
  exact ⟨4, (hiddenBurst.drop 4).take 28, 5, by decide, by decide⟩

end TetraBs
