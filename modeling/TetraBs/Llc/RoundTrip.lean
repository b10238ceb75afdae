import TetraBs.Llc.Pdu

/-! LLC PDUs through `llc_pdu_encode` and `llc_pdu_decode`, in both directions. -/
namespace TetraBs
open TetraBs.Bits

/-- `q` is `pdu` as far as the type carries it: numbers of one bit, and what is not sent is 0. -/
structure LlcPdu.Same (pdu q : LlcPdu) : Prop where
  pduType : q.pduType = pdu.pduType
  nr : q.nr = if llcPduTypeHasNr pdu.pduType then pdu.nr &&& 1 else 0
  ns : q.ns = if llcPduTypeHasNs pdu.pduType then pdu.ns &&& 1 else 0
  bodyLenBits : q.bodyLenBits = pdu.bodyLenBits
  bodyBits : q.bodyBits = pdu.bodyBits

/-- The bits of `pdu` are at the cursor. -/
structure LlcPdu.At (pdu : LlcPdu) (bb : BitBuffer) : Prop where
  room : pdu.bits.length ≤ bbRemaining bb
  window_eq : window bb.buffer bb.pos pdu.bits.length = pdu.bits

theorem seqField_eq {present : Bool} {v w : Byte} (hv : v = 0 ∨ v = 1)
    (hclean : present = false → v = 0) (h : ctrlBit present v = ctrlBit present w) :
    v = if present then w &&& 1 else 0 := by
  cases present with
  | false => exact hclean rfl
  | true =>
    have hbit : v.getLsbD 0 = w.getLsbD 0 := by simpa [ctrlBit] using h
    have hlow : ∀ x : Byte, x &&& 1 = if x.getLsbD 0 then 1 else 0 := by decide
    rw [if_pos rfl, hlow, ← hbit]
    rcases hv with rfl | rfl <;> rfl

/-- The parts of the covered bits. -/
theorem covered_parts {p q : LlcPdu} (ht : q.pduType = p.pduType) (h : q.covered = p.covered) :
    ctrlBit (llcPduTypeHasNr p.pduType) q.nr = ctrlBit (llcPduTypeHasNr p.pduType) p.nr ∧
      ctrlBit (llcPduTypeHasNs p.pduType) q.ns = ctrlBit (llcPduTypeHasNs p.pduType) p.ns ∧
        q.bodyBits = p.bodyBits := by
  rw [LlcPdu.covered, LlcPdu.covered] at h
  have hlen : q.header.length = p.header.length := by
    rw [LlcPdu.header_length, LlcPdu.header_length, ht]
  obtain ⟨hhead, hbody⟩ := List.append_inj h hlen
  rw [LlcPdu.header, LlcPdu.header, ht] at hhead
  have hctrl := List.append_cancel_left hhead
  have hnr : (ctrlBit (llcPduTypeHasNr p.pduType) q.nr).length =
      (ctrlBit (llcPduTypeHasNr p.pduType) p.nr).length := by
    rw [ctrlBit_length, ctrlBit_length]
  obtain ⟨hnr, hns⟩ := List.append_inj hctrl hnr
  exact ⟨hnr, hns, hbody⟩

theorem LlcPdu.At.typeAt_eq {pdu : LlcPdu} {bb : BitBuffer} (h : pdu.At bb)
    (hknown : pdu.pduType ≠ .unknown) : typeAt bb = pdu.pduType := by
  refine TetraBs.typeAt_eq bb hknown ?_
  have hlen := pdu.bits_length
  have hw := h.window_eq
  have hsplit : pdu.bits.length = 4 + (pdu.bits.length - 4) := by
    rw [hlen, headerLen]
    omega
  rw [hsplit, window_add, LlcPdu.bits, LlcPdu.covered, LlcPdu.header] at hw
  simp only [List.append_assoc] at hw
  exact (List.append_inj hw (by rw [window_length, msbBits_length])).1

/-- What is encoded is decoded, wherever it is found and whatever the record held before. -/
theorem LlcPdu.At.decodes {pdu hint : LlcPdu} {bb : BitBuffer} (h : pdu.At bb)
    (he : pdu.Encodable) (hlen : hint.bodyLenBits = pdu.bodyLenBits) :
    ∃ q bb', llcPduDecode bb hint = .ok (q, bb') ∧ Skip bb bb' pdu.bits.length ∧ pdu.Same q ∧
      q.fcsValid = llcPduTypeHasFcs pdu.pduType := by
  have ht := h.typeAt_eq he.known
  have hbits := pdu.bits_length
  have hroom := h.room
  have hfits : Fits bb hint.bodyLenBits := by
    refine ⟨hlen ▸ he.body_le, ?_, ht ▸ he.known, fun _ => ?_⟩
    · rw [headerLen] at hbits
      omega
    · rw [ht, hlen]
      omega
  obtain ⟨e, -, hno⟩ | ⟨bb', hok, -, hal, hskip⟩ | ⟨q, bb', hok, -, hne, hd, hclean, hskip⟩ :=
    llcPduDecode_moves bb hint
  · exact absurd hfits hno
  · rw [ht] at hal
    have hzero := he.alSetup hal
    refine ⟨_, bb', hok, ?_, ⟨hal.symm, by rw [hal]; rfl, by rw [hal]; rfl, hzero.symm, ?_⟩,
      by rw [hal]; rfl⟩
    · rw [hal, hzero] at hbits
      rwa [hbits]
    · rw [LlcPdu.bodyBits, LlcPdu.bodyBits, hzero]
      rfl
  · have htq : q.pduType = pdu.pduType := hd.type_eq.trans ht
    have hw := h.window_eq
    rw [hbits, LlcPdu.bits, window_add] at hw
    have hcov : q.covered = pdu.covered := by
      rw [hd.covered_eq, ht, hlen]
      exact (List.append_inj hw (by rw [window_length, LlcPdu.covered_length])).1
    obtain ⟨hnr, hns, hbody⟩ := covered_parts htq hcov
    refine ⟨q, bb', hok, ?_, ⟨htq, ?_, ?_, hd.len_eq.trans hlen, hbody⟩, ?_⟩
    · rw [hbits, ← ht, ← hlen]
      exact hskip
    · exact seqField_eq hd.nr_bit (htq ▸ hclean.nr) hnr
    · exact seqField_eq hd.ns_bit (htq ▸ hclean.ns) hns
    · rw [hd.fcs_valid, ht]
      cases hfcs : llcPduTypeHasFcs pdu.pduType with
      | false => rfl
      | true =>
        have hsent := (List.append_inj hw (by rw [window_length, LlcPdu.covered_length])).2
        rw [fcsLen, if_pos hfcs, if_pos hfcs] at hsent
        have hgot := hd.fcs_bits (ht.symm ▸ hfcs)
        rw [ht, hlen, hsent] at hgot
        have heq : q.fcs = Crc.crc llcCrc32Poly q.covered := by
          rw [hcov]
          exact BitVec.eq_of_getLsbD_eq fun j hj => msbBits_inj hgot hj
        rw [Bool.true_and, beq_iff_eq]
        exact heq

/-- A PDU decoded with a valid FCS has exactly the bits that were consumed. -/
theorem decoded_bits {bb bb' : BitBuffer} {hint q : LlcPdu}
    (hok : llcPduDecode bb hint = .ok (q, bb')) (hvalid : q.fcsValid = true) :
    q.Encodable ∧ bb'.pos = bb.pos + q.bits.length ∧
      window bb.buffer bb.pos q.bits.length = q.bits := by
  obtain ⟨e, herr, -⟩ | ⟨b, hal, -, -, -⟩ | ⟨p, b, hdec, hfits, hne, hd, -, hskip⟩ :=
    llcPduDecode_moves bb hint
  · rw [herr] at hok
    cases hok
  · rw [hal] at hok
    cases hok
    cases hvalid
  · rw [hdec] at hok
    cases hok
    rw [hd.fcs_valid, Bool.and_eq_true, beq_iff_eq] at hvalid
    obtain ⟨hfcs, hcrc⟩ := hvalid
    have htype := hd.type_eq
    have hlen := hd.len_eq
    have hbits := q.bits_length
    rw [htype, hlen] at hbits
    refine ⟨⟨htype ▸ hfits.known, hlen ▸ hfits.body_le, fun h => absurd (htype ▸ h) hne⟩, ?_, ?_⟩
    · rw [hbits]
      exact hskip.pos_eq
    · rw [hbits, window_add, ← hd.covered_eq, fcsLen, if_pos hfcs, ← hd.fcs_bits hfcs, LlcPdu.bits,
        htype, if_pos hfcs, hcrc]

/-- What `llc_pdu_encode` writes, any reader that knows the body length decodes to the same PDU,
with `fcs_valid` if the type has an FCS. What decodes with a valid FCS is encoded again bit by
bit. -/
theorem llc_round_trip :
    (∀ (out : BitBuffer) (pdu : LlcPdu), pdu.Encodable → out.pos + pdu.bits.length ≤ out.limit →
      ∃ out' n, llcPduEncode out pdu = .ok (out', n) ∧ out'.pos = out.pos + n ∧
        ∀ (bb : BitBuffer) (hint : LlcPdu), hint.bodyLenBits = pdu.bodyLenBits →
          n ≤ bbRemaining bb → window bb.buffer bb.pos n = window out'.buffer out.pos n →
          ∃ q bb', llcPduDecode bb hint = .ok (q, bb') ∧ bb'.pos = bb.pos + n ∧ pdu.Same q ∧
            q.fcsValid = llcPduTypeHasFcs pdu.pduType) ∧
    ∀ (bb bb' : BitBuffer) (hint q : LlcPdu), llcPduDecode bb hint = .ok (q, bb') →
      q.fcsValid = true → ∃ n, bb'.pos = bb.pos + n ∧
        ∀ out : BitBuffer, out.pos + n ≤ out.limit → ∃ out', llcPduEncode out q = .ok (out', n) ∧
          window out'.buffer out.pos n = window bb.buffer bb.pos n := by
  constructor
  · intro out pdu he hroom
    obtain ⟨out', henc, hput⟩ := llcPduEncode_spec out pdu he hroom
    refine ⟨out', _, henc, hput.pos_eq, fun bb hint hlen hrem hw => ?_⟩
    have hat : pdu.At bb := ⟨hrem, hw.trans hput.window_eq⟩
    obtain ⟨q, bb', hdec, hskip, hsame, hvalid⟩ := hat.decodes he hlen
    exact ⟨q, bb', hdec, hskip.pos_eq, hsame, hvalid⟩
  · intro bb bb' hint q hok hvalid
    obtain ⟨he, hpos, hbits⟩ := decoded_bits hok hvalid
    refine ⟨q.bits.length, hpos, fun out hroom => ?_⟩
    obtain ⟨out', henc, hput⟩ := llcPduEncode_spec out q he hroom
    exact ⟨out', henc, hput.window_eq.trans hbits.symm⟩

/-- A cursor at bit 5 of a fresh 16-byte buffer. -/
def cursorAt5 : BitBuffer := ⟨List.replicate 16 0, 128, 0, 5, 5, true, Nat.zero_le 5,
  Nat.le_refl 5, Nat.le_of_ble_eq_true rfl, Nat.le_refl 128⟩

/-- BL-ADATA+FCS with a body of three bits, written from bit 5 on. -/
theorem adata_fcs_written :
    ∃ out' n, llcPduEncode cursorAt5 ⟨.blAdataFcs, 1, 0, 3, [0xA0], 0, false⟩ = .ok (out', n) ∧
      out'.pos = cursorAt5.pos + n ∧
        ∀ (bb : BitBuffer) (hint : LlcPdu), hint.bodyLenBits = 3 → n ≤ bbRemaining bb →
          window bb.buffer bb.pos n = window out'.buffer cursorAt5.pos n →
          ∃ q bb', llcPduDecode bb hint = .ok (q, bb') ∧ bb'.pos = bb.pos + n ∧
            LlcPdu.Same ⟨.blAdataFcs, 1, 0, 3, [0xA0], 0, false⟩ q ∧ q.fcsValid = true :=
  llc_round_trip.1 cursorAt5 ⟨.blAdataFcs, 1, 0, 3, [0xA0], 0, false⟩
    ⟨by decide, by decide, by decide⟩ (by decide)

/-- BL-DATA is decoded without `fcs_valid`, and AL-SETUP is not encoded with a body. -/
theorem data_without_fcs_valid :
    ((do
      let (out, _) ← llcPduEncode cursorAt5 ⟨.blData, 0, 1, 3, [0xA0], 0, false⟩
      let bb ← bbSeekBits out 5
      let (q, _) ← llcPduDecode bb { bodyLenBits := 3 }
      return (q.pduType, q.ns, q.body, q.fcsValid)) : Except Fault _) =
        .ok (.blData, 1, [0xA0], false) ∧
      (llcPduEncode cursorAt5 { pduType := .alSetup, bodyLenBits := 8, body := [0xA0] }).map
        Prod.snd = .error (.errno .EINVAL) := by
  decide +kernel

end TetraBs
