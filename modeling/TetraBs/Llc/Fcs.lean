import TetraBs.Llc.Pdu

/-! The LLC frame check sequence against the receiver of `scripts/decode_dl.py`. -/
namespace TetraBs
open TetraBs.Bits

/-- `crc32_check_llc`: the residue test over message and FCS in transmission order. -/
def crc32CheckLlc (bits : List Bool) : Bool :=
  let crc := bits.foldl (fun (crc : BitVec 32) b =>
    let feedback := b != crc.getLsbD 0
    let crc := crc >>> 1
    if feedback then crc ^^^ 0xEDB88320 else crc) (0xFFFFFFFF : BitVec 32)
  crc == 0xDEBB20E3

/-- The CRC of these bits reads the same from both ends. -/
def CrcPalindrome (bits : List Bool) : Prop :=
  (Crc.crc llcCrc32Poly bits).reverse = Crc.crc llcCrc32Poly bits

instance (bits : List Bool) : Decidable (CrcPalindrome bits) :=
  inferInstanceAs (Decidable (_ = _))

/-- What is left at the cursor is a frame of an FCS-bearing type of possible length. -/
structure FcsFrame (bb : BitBuffer) : Prop where
  has_fcs : llcPduTypeHasFcs (typeAt bb) = true
  long_enough : headerLen (typeAt bb) + 32 ≤ bbRemaining bb
  body_le : bbRemaining bb - (headerLen (typeAt bb) + 32) ≤ llcPduBodyMaxBytes * 8

theorem crc32CheckLlc_iff (bits : List Bool) :
    crc32CheckLlc bits = true ↔
      Crc.run llcCrc32Poly (BitVec.allOnes 32) bits = Crc.residue llcCrc32Poly := by
  have hres : Crc.residue llcCrc32Poly = 0xDEBB20E3 := by decide +kernel
  rw [hres]
  exact beq_iff_eq

/-- The receiver wants the FCS lowest bit first. -/
theorem accepts_msb_first (bits : List Bool) (v : BitVec 32) :
    crc32CheckLlc (bits ++ msbBits v 32) = true ↔ v.reverse = Crc.crc llcCrc32Poly bits := by
  rw [crc32CheckLlc_iff, Crc.msbBits_eq_lsbBits_reverse]
  exact Crc.run_eq_residue_iff (by decide) bits v.reverse

theorem hasFcs_known {t : LlcPduType} (h : llcPduTypeHasFcs t = true) :
    t ≠ .unknown ∧ t ≠ .alSetup := by
  cases t <;> simp_all [llcPduTypeHasFcs, LlcPduType.value]

/-- An encoded PDU is accepted exactly if its CRC is a palindrome. -/
theorem encoded_accepted_iff (out : BitBuffer) (pdu : LlcPdu)
    (hfcs : llcPduTypeHasFcs pdu.pduType = true)
    (hbody : pdu.bodyLenBits ≤ llcPduBodyMaxBytes * 8)
    (hroom : out.pos + pdu.bits.length ≤ out.limit) :
    ∃ out' n, llcPduEncode out pdu = .ok (out', n) ∧
      (crc32CheckLlc (window out'.buffer out.pos n) = true ↔ CrcPalindrome pdu.covered) := by
  have hknown := hasFcs_known hfcs
  have he : pdu.Encodable := ⟨hknown.1, hbody, fun h => absurd h hknown.2⟩
  obtain ⟨out', henc, hput⟩ := llcPduEncode_spec out pdu he hroom
  refine ⟨out', pdu.bits.length, henc, ?_⟩
  have hbits : pdu.bits = pdu.covered ++ msbBits (Crc.crc llcCrc32Poly pdu.covered) 32 := by
    rw [LlcPdu.bits, if_pos hfcs]
  rw [hput.window_eq, hbits]
  exact accepts_msb_first _ _

/-- An accepted sequence decodes with a valid FCS exactly if it is an FCS-bearing frame
whose CRC is a palindrome. -/
theorem accepted_decodes_iff (bb : BitBuffer) (hint : LlcPdu)
    (hlen : hint.bodyLenBits =
      bbRemaining bb - (headerLen (typeAt bb) + fcsLen (typeAt bb)))
    (hacc : crc32CheckLlc (window bb.buffer bb.pos (bbRemaining bb)) = true) :
    (∃ pdu bb', llcPduDecode bb hint = .ok (pdu, bb') ∧ pdu.fcsValid = true) ↔
      FcsFrame bb ∧ CrcPalindrome (window bb.buffer bb.pos (bbRemaining bb - 32)) := by
  -- with the FCS at the end of the frame, the accepted FCS is the reversed CRC
  have hfcs : ∀ pdu, llcPduTypeHasFcs (typeAt bb) = true →
      headerLen (typeAt bb) + 32 ≤ bbRemaining bb → DecodesTo bb hint.bodyLenBits pdu →
      pdu.covered = window bb.buffer bb.pos (bbRemaining bb - 32) ∧
        pdu.fcs.reverse = Crc.crc llcCrc32Poly pdu.covered := by
    intro pdu ht hle hd
    rw [fcsLen, if_pos ht] at hlen
    have hn : headerLen (typeAt bb) + hint.bodyLenBits = bbRemaining bb - 32 := by omega
    have hcov := hd.covered_eq
    have hbits := hd.fcs_bits ht
    rw [hn] at hcov hbits
    refine ⟨hcov, (accepts_msb_first _ _).1 ?_⟩
    rwa [hcov, hbits, ← window_add, Nat.sub_add_cancel (by omega)]
  constructor
  · rintro ⟨pdu, bb', hdec, hvalid⟩
    obtain ⟨e, herr, -⟩ | ⟨b, hok, -, -⟩ | ⟨q, b, hok, hfits, hal, hd⟩ := llcPduDecode_cases bb hint
    · rw [herr] at hdec
      cases hdec
    · rw [hok] at hdec
      cases hdec
      cases hvalid
    · rw [hok] at hdec
      cases hdec
      rw [hd.fcs_valid, Bool.and_eq_true, beq_iff_eq] at hvalid
      have hfl : fcsLen (typeAt bb) = 32 := if_pos hvalid.1
      have hle := hfits.fits hal
      obtain ⟨hcov, hrev⟩ := hfcs pdu hvalid.1 (by omega) hd
      refine ⟨⟨hvalid.1, by omega, ?_⟩, ?_⟩
      · have := hfits.body_le
        rwa [hlen, hfl] at this
      · rw [← hcov]
        unfold CrcPalindrome
        rw [← hvalid.2, hrev, hvalid.2]
  · rintro ⟨⟨ht, hle, hbody⟩, hpal⟩
    have hknown := hasFcs_known ht
    have hfl : fcsLen (typeAt bb) = 32 := if_pos ht
    have hfits : Fits bb hint.bodyLenBits := by
      rw [hfl] at hlen
      refine ⟨by omega, ?_, hknown.1, fun _ => by omega⟩
      unfold headerLen at hle
      omega
    obtain ⟨e, -, hno⟩ | ⟨b, -, -, hal⟩ | ⟨q, b, hok, -, -, hd⟩ := llcPduDecode_cases bb hint
    · exact absurd hfits hno
    · exact absurd hal hknown.2
    · obtain ⟨hcov, hrev⟩ := hfcs q ht hle hd
      refine ⟨q, b, hok, ?_⟩
      rw [← hcov] at hpal
      have : q.fcs = Crc.crc llcCrc32Poly q.covered := by
        rw [← hpal, ← hrev, BitVec.reverse_reverse_eq]
      rw [hd.fcs_valid, ht, this, beq_self_eq_true]
      rfl

/-- Sender and receiver agree on the FCS of exactly those PDUs, and those accepted
sequences, whose CRC is a palindrome. -/
theorem fcs_interop_iff (out : BitBuffer) (pdu : LlcPdu) (bb : BitBuffer) (hint : LlcPdu) :
    (llcPduTypeHasFcs pdu.pduType = true → pdu.bodyLenBits ≤ llcPduBodyMaxBytes * 8 →
      out.pos + pdu.bits.length ≤ out.limit →
      ∃ out' n, llcPduEncode out pdu = .ok (out', n) ∧
        (crc32CheckLlc (window out'.buffer out.pos n) = true ↔ CrcPalindrome pdu.covered)) ∧
    (hint.bodyLenBits = bbRemaining bb - (headerLen (typeAt bb) + fcsLen (typeAt bb)) →
      crc32CheckLlc (window bb.buffer bb.pos (bbRemaining bb)) = true →
      ((∃ q bb', llcPduDecode bb hint = .ok (q, bb') ∧ q.fcsValid = true) ↔
        FcsFrame bb ∧ CrcPalindrome (window bb.buffer bb.pos (bbRemaining bb - 32)))) :=
  ⟨encoded_accepted_iff out pdu, accepted_decodes_iff bb hint⟩

/-- A cursor at bit 3 of a fresh 16-byte buffer. -/
def cursorAt3 : BitBuffer := ⟨List.replicate 16 0, 128, 0, 3, 3, true, by decide, by decide,
  by decide, by decide⟩

/-- BL-ACK+FCS, N(R) = 1, with the FCS in the order the receiver wants. -/
def ackLsbFirst : BitBuffer :=
  bbInit [0x7A, 0x60, 0x8E, 0xDB, 0x78] 37 (by decide)

theorem fcs_interop_bl_ack_fcs :
    ∃ out' n, llcPduEncode cursorAt3 { pduType := .blAckFcs, nr := 1 } = .ok (out', n) ∧
      (crc32CheckLlc (window out'.buffer 3 n) = true ↔
        CrcPalindrome (LlcPdu.covered { pduType := .blAckFcs, nr := 1 })) :=
  (fcs_interop_iff cursorAt3 { pduType := .blAckFcs, nr := 1 } ackLsbFirst {}).1 rfl (by decide)
    (by decide)

/-- The receiver rejects the BL-ACK+FCS the encoder emits, and a sequence it accepts is
decoded with `fcs_valid` false. -/
theorem fcs_rejected :
    ((llcPduEncode cursorAt3 { pduType := .blAckFcs, nr := 1 }).map fun r =>
        crc32CheckLlc (window r.1.buffer 3 r.2)) = .ok false ∧
      crc32CheckLlc (window ackLsbFirst.buffer 0 37) = true ∧
      ((llcPduDecode ackLsbFirst {}).map fun r => r.1.fcsValid) = .ok false := by
  decide +kernel

end TetraBs
