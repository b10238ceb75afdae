import TetraBs.Scripts.MacReadback
import TetraBs.Umac.BlAckBuilder

/-! What the parsers read of the blocks of whole runs of the two downlink builders, however close
the requests are. -/
namespace TetraBs.MacResourceDl
open TetraBs.Run TetraBs.Serial TetraBs.Requests

/-- The block of every edge that raises `valid`. -/
def reader (P B : Nat) : Reader (Builder P B) Input (BitVec P) where
  next := step
  out s i := if (step s i).valid then [(step s i).pduBits] else []

variable {P B : Nat}

theorem step_waiting {s : Builder P B} (hs : s.state = .idle) {i : Input} (hi : i.start = false) :
    step s i = { s with valid := false } := by
  simp only [step, hs, hi, Bool.false_eq_true, if_false]

/-- Six edges a request, whatever the inputs are at the five behind its start. -/
theorem reader_answers : Requests.Answers (reader P B) Input.start 5 (fun i => built P B i.request)
    fun s => s.state = .idle where
  idle {s i} hs hi := by
    show (if (step s i).valid then _ else _) = _ ∧ (step s i).state = .idle
    rw [step_waiting hs hi]
    exact ⟨rfl, hs⟩
  busy {s i is} hs hi hlen := by
    obtain ⟨a, is, rfl⟩ := List.exists_cons_of_length_eq_add_one hlen
    obtain ⟨b, is, rfl⟩ := List.exists_cons_of_length_eq_add_one (Nat.succ.inj hlen)
    obtain ⟨c, d, e, rfl⟩ := List.length_eq_three.1 (Nat.succ.inj (Nat.succ.inj hlen))
    show (if (step s i).valid then _ else _) ++
        (reader P B).outputs (step s i) [a, b, c, d, e] = _ ∧
      ((reader P B).after (step s i) [a, b, c, d, e]).state = .idle
    rw [step_start hs hi]
    exact ⟨rfl, rfl⟩

end TetraBs.MacResourceDl

namespace TetraBs.DecodeDl
open TetraBs.Bits TetraBs.FieldReader TetraBs.MacResourceDl TetraBs.Run TetraBs.Serial
  TetraBs.Requests

/-- Sent as a full slot and hit by any errors within 20 consecutive bits in the air, the block
comes out with its CRC right and is read as `r`. -/
def Received (block : BitVec 268) (r : SlotRead) : Prop :=
  ∀ (t : Lmac.SchEncoder 268 432) (x : Lmac.SchInput 268) (is : List (Lmac.SchInput 268))
    (err : List Bool), t.state = .idle → x.encodeStart = true → x.infoBits = block →
    x.scrambleInit ≠ 0 → is.length = 990 → err.length = 432 → Crc.Burst 20 err →
    ∃ out, decodeChannel (descramble (Hamming.add
        (msbBits (exec Lmac.schFStep t (x :: is)).codedBits 432) err) x.scrambleInit.toNat)
          432 103 268 = out ∧
      out.crcOk = true ∧ readSchF out.info = r

theorem received_read (block : BitVec 268) : Received block (readSchF (msbBits block 268)) := by
  intro t x is err ht hx hinfo hseed hlen herr hburst
  have hsent : SentBlock 432 103 268 _ _ _ := .schF ht hx hlen
  obtain ⟨hsize, q, hq⟩ := hsent.sizes
  refine ⟨recovered (msbBits x.infoBits 268), ?_, rfl, ?_⟩
  · rw [hsent.air_eq]
    exact block_recovered hq.air hq.checked hq.coprime hq.small hseed hsize herr
      (burst_spaced herr hsent.spread_far hburst)
  · rw [← hinfo]
    rfl

/-! MAC-RESOURCE. -/

/-- A request that fits a block of 268 and whose first header the tool reads, with its channel
allocation element. -/
structure Asks (r : MacResourceDl.Request) (c : ChanAlloc) : Prop where
  inRange : r.InRange
  readable : Readable r.first c
  fits : r.extent ≤ 268

/-- What is read of the block of a request. -/
def askedRead (r : MacResourceDl.Request) (c : ChanAlloc) : SlotRead :=
  ⟨headerFinds r.fill r.lengthInd r.first c, some (llcFinds r.first.length r.llc),
    upperRead (msbBits (built 268 144 r) 268) r.first.length r.llc⟩

theorem Asks.read {r : MacResourceDl.Request} {c : ChanAlloc} (h : Asks r c) :
    readSchF (msbBits (built 268 144 r) 268) = askedRead r c := by
  have hblock := msbBits_built h.inRange (by decide) (by decide) h.fits
  obtain ⟨rest, hsplit⟩ := block_split r
  have hlong := Header.length_le r.first
  have hlen : (msbBits (built 268 144 r) 268).length = 268 := msbBits_length _ _
  exact readSchF_resource h.readable r.fill r.lengthInd r.llc (hblock.trans hsplit) (by omega)

def noAlloc : ChanAlloc := ⟨0, 0, 0, false, false, 0, 0, 0⟩

/-- What is read of an acknowledgement. Behind it the tool goes on in the fill bits. -/
def ackRead (r : BlAck.Request) : SlotRead :=
  ⟨headerFinds false 6 r.header noAlloc,
    some [(.llcType, 3), (.nr, r.nr.toNat), (.payloadStart, 48)],
    some [(.mleDisc, 0), (.payloadStart, 51)]⟩

theorem takes_ackHeader {pos : Nat} (nr : Bool) : Takes pos llcHeader [false, false, true, true, nr]
    [(.llcType, 3), (.nr, nr.toNat), (.payloadStart, pos + 5)] () := by
  have htype : [false, false, true, true].length = 4 := rfl
  rw [llcHeader]
  refine Takes.bits htype ?_
  refine (Takes.onlyIf (by decide) (takes_bitIfRoom nr)).bind_end ?_
  refine (takes_onlyIf_not (by decide)).bind ?_
  refine (Takes.onlyIf (by decide) (takes_findPosition _ rfl)).bind_end ?_
  refine (takes_onlyIf_not (by decide)).bind ?_
  exact takes_onlyIf_not (by decide)

theorem readSchF_ack {r : BlAck.Request} (haddr : r.addrType = 1 ∨ r.addrType = 3) :
    readSchF (msbBits (BlAck.pduBitsC 268 r) 268) = ackRead r := by
  have hr : Readable r.header noAlloc := ⟨haddr, fun hca => by cases hca⟩
  have hbits := BlAck.msbBits_pdu (by decide : 48 ≤ 268) r
  have hlength : (r.header.bits false 6).length = 43 := Header.bits_length r.header false 6
  have hback : 4 ≤ ([false, false, true, true, r.nr] ++ List.replicate 220 false).length := by
    rw [List.length_append, List.length_replicate]
    omega
  have hfits : 4 ≤ (r.header.bits false 6 ++
      ([false, false, true, true, r.nr] ++ List.replicate 220 false)).length := by
    rw [List.length_append, hlength]
    omega
  have hmac := parseMacPdu_header hr false 6 hfits
  have hllc := parseLlc_header (takes_ackHeader r.nr) rfl hlength hback
  have hdisc : numberAt (r.header.bits false 6 ++
      ([false, false, true, true, r.nr] ++ List.replicate 220 false)) 48 3 = 0 := by
    have hfront : (r.header.bits false 6 ++ [false, false, true, true, r.nr]).length = 48 := by
      rw [List.length_append, hlength]
      rfl
    have h := numberAt_middle hfront (List.replicate 3 false) (List.replicate 217 false)
    rw [List.append_assoc] at h
    exact h
  have hlen : (msbBits (BlAck.pduBitsC 268 r) 268).length = 268 := msbBits_length _ _
  have hmle : parseMle (msbBits (BlAck.pduBitsC 268 r) 268) 48 =
      [(.mleDisc, 0), (.payloadStart, 51)] := by
    rw [← hbits] at hdisc
    rw [parseMle, if_neg (by omega)]
    simp only [hdisc]
    rfl
  rw [← hbits] at hmac hllc
  obtain ⟨htype, hnull, hstart⟩ := headerFinds_lookup false 6 r.header noAlloc
  have hheader : r.header.length = 43 := rfl
  rw [readSchF]
  simp only [hmac, htype, hnull, hstart, hheader, and_self, if_true, Option.getD_some, hlen, hllc]
  rw [ackRead, ← hmle]
  rfl

/-- The acknowledgement of a BL-DATA with N(S) `ns`. -/
def ackInput (start ns : Bool) : BlAck.Input := ⟨start, ⟨0x282F4C, 1, true, ns⟩⟩

end TetraBs.DecodeDl
