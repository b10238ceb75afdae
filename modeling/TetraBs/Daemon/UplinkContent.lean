import TetraBs.Daemon.Isolation
import TetraBs.Infra.TmasapRxFramer
import TetraBs.Umac.UlInterleaving

/-! What becomes of a fragmented uplink PDU between the air and the LLC: reassembly, TMAS frame,
and the dispatcher of the main loop that makes a TMA-UNITDATA indication of the frame's body. -/
namespace TetraBs
open TetraBs.Bits TetraBs.Infra TetraBs.Run TetraBs.UlAccess

/-- The bytes of a frame behind its magic and length, to the end the frame declares. -/
def frameBody (r : TmasapRx.Request) : List Byte :=
  let bytes := r.words.flatMap wordBytes
  match r with
  | .tmas _ pduLen _ _ _ _ => (bytes.take (36 + (pduLen.toNat + 7) / 8)).drop 8
  | .tmar _ _ => bytes.drop 8

/-- The indication that a body on the output of the reassembly leads to; SSI type, endpoint and
scrambling code reach the framer on wires of their own. -/
def handed (s : UlAccess.State) (ssiType : BitVec 3) (endpointId scramblingCode : Word) :
    Option TmaUnitdata :=
  if s.reasm.valid then
    some (tmaRxInd
      (frameBody (.tmas s.reasm.body 129 s.reasm.ssi ssiType endpointId scramblingCode)))
  else none

/-- The LLC header of a BL-DATA PDU. -/
def blDataHeader (hasFcs : Bool) : List Bool := [false, hasFcs, false, true]

/-- The body of a TMAS frame begins with the SSI word, whose first byte is zero. -/
theorem frameBody_tmas (pdu : BitVec 129) (ssi : BitVec 24) (ssiType : BitVec 3)
    (endpointId scramblingCode : Word) :
    ∃ rest, frameBody (.tmas pdu 129 ssi ssiType endpointId scramblingCode) = 0 :: rest := by
  have hfirst : frameBody (.tmas pdu 129 ssi ssiType endpointId scramblingCode) =
      (0#8 ++ ssi).extractLsb' 24 8 ::
        (frameBody (.tmas pdu 129 ssi ssiType endpointId scramblingCode)).tail := rfl
  rw [BitVec.extractLsb'_append_eq_left] at hfirst
  exact ⟨_, hfirst⟩

theorem bits_zero_cons (rest : List Byte) :
    ∃ bs, (tmaRxInd (0 :: rest)).bits = [false, false, false, false] ++ bs := by
  have hlen : (0 :: rest.take 63 : List Byte).length * 8 = 8 + (rest.take 63).length * 8 := by
    rw [List.length_cons]
    omega
  refine ⟨[false, false, false, false] ++ window (rest.take 63) 0 ((rest.take 63).length * 8), ?_⟩
  have hmin : min (0 :: rest).length tmaSduMaxBytes = (0 :: rest.take 63 : List Byte).length := by
    simp only [List.length_cons, List.length_take, tmaSduMaxBytes]
    omega
  change window (0 :: rest.take 63) 0 (min (0 :: rest).length tmaSduMaxBytes * 8) = _
  rw [hmin, hlen, window_cons_byte]
  rfl

/-- No body on the output of the reassembly, in any run, leads to an indication with the mobile's
address and the LLC PDU it sent: the dispatcher clears the address, and the SDU it hands on starts
with the SSI word of the frame. -/
theorem uplink_content_never (is : List Input) (x : BitVec 24) (hasFcs : Bool) (rest : List Bool)
    (ssiType : BitVec 3) (endpointId scramblingCode : Word) :
    ¬ ∃ ind, handed (exec step reset is) ssiType endpointId scramblingCode = some ind ∧
      ind.addr.ssi = x.setWidth 32 ∧ blDataHeader hasFcs ++ rest <+: ind.bits := by
  rintro ⟨ind, hind, -, hbegins⟩
  rw [handed] at hind
  split at hind
  · cases hind
    obtain ⟨tail, htail⟩ := frameBody_tmas (exec step reset is).reasm.body
      (exec step reset is).reasm.ssi ssiType endpointId scramblingCode
    rw [htail] at hbegins
    obtain ⟨bs, hbs⟩ := bits_zero_cons tail
    rw [hbs] at hbegins
    obtain ⟨more, hmore⟩ := hbegins
    cases hmore
  · cases hind

/-- Station 5 sends a BL-DATA PDU in two bursts: both are joined under its address, and the
indication has address 0 and starts with four zero bits. -/
theorem uplink_content_lost :
    let first := burst 5 ((8#92 <<< 36) ||| frag1Info 5 9)
    let t := exec step reset [first, quiet, burst 5 (endHuInfo 3), quiet]
    fIsBlData first.infoBits = true ∧ t.reasm.valid = true ∧ t.reasm.ssi = 5 ∧
      (handed t 1 0 0).map (fun ind => (ind.addr.ssi, ind.bits.take 4)) =
        some (0, [false, false, false, false]) := by
  decide +kernel

end TetraBs
