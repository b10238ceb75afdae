import TetraBs.Mle.Entity
import TetraBs.Mle.Spec
import TetraBs.Mm.AcceptBuilder

/-! The MM entity of `sw/mm/mm.c`. -/
namespace TetraBs
open TetraBs.Bits

structure MmStats where
  acceptBuilt : Nat := 0
  grpAckBuilt : Nat := 0
deriving DecidableEq, Repr

structure Mm where
  stats : MmStats := {}
  initialised : Bool := false
deriving DecidableEq, Repr

structure MmEnv where
  mm : Mm
  bus : Bus
  db : SubscriberDb

/-- MLE discriminator 001 in front of an MM body. -/
def prependMleDiscMm (mmBits : List Byte) (mmLenBits outCapBits : Nat) :
    Except Errno (List Byte × Nat) :=
  if outCapBits < 3 + mmLenBits then .error .ENOSPC
  else .ok (orBits mmBits 0 ((List.replicate ((outCapBits + 7) / 8) 0).set 0 ((1 : Byte) <<< 5)) 3
      mmLenBits,
    3 + mmLenBits)

/-- GILA class and lifetime: from the profile, else 4 and 1. -/
def lookupProfileDefaults (db : SubscriberDb) (issi : BitVec 32) : Byte × Byte :=
  match profileOf db (issi &&& tetraSsiMask24) with
  | none => (4, 1)
  | some pr => (pr.gilaClass, pr.gilaLifetime)

/-- The GSSI to answer with: the first one demanded, if it is a plain or extended GSSI. -/
def acceptGssi (demand : MmDecoded) (fallbackGssi : BitVec 32) : BitVec 32 :=
  let first := demand.gild.giu.getD 0 {}
  if demand.gildPresent && decide (0 < demand.gild.numGiu) &&
      (first.addressType == 0 || first.addressType == 1) then first.gssi &&& tetraSsiMask24
  else fallbackGssi

def composeAcceptParams (demand : MmDecoded) (gilaClass gilaLifetime : Byte)
    (fallbackGssi : BitVec 32) : MmAcceptParams :=
  { acceptType := .itsiAttach
    energySavingInfoPresent := true
    energySavingMode := .stayAlive
    gilaPresent := true
    gilaAcceptReject := 0
    numGid := 1
    gid := [{ isAttach := true, attach := ⟨gilaLifetime, gilaClass⟩, addressType := 0,
              gssi := acceptGssi demand fallbackGssi }] }

def answerGiu (src : MmGroupIdentityUplink) : MmGroupIdentityDownlink :=
  { isAttach := src.isAttach
    attach := if src.isAttach then ⟨1, src.classOfUsage⟩ else {}
    detachmentType := if src.isAttach then 0 else src.detachment
    addressType := src.addressType
    gssi := src.gssi
    addressExtension := src.addressExtension
    vgssi := src.vgssi }

def composeGrpAckParams (d : MmDecoded) : MmGrpAckParams :=
  { acceptReject := 0
    gidDownlinkPresent := decide (0 < d.numGiu)
    numGid := min d.numGiu mmGidMax
    gid := (List.range (min d.numGiu mmGidMax)).map fun i => answerGiu (d.giu.getD i {}) }

/-- The capacity of the buffer the builders get. -/
def mmBodyCapBits : Nat := 64 * 8

def Mm.countAccept (mm : Mm) : Mm :=
  { mm with stats := { mm.stats with acceptBuilt := mm.stats.acceptBuilt + 1 } }

def Mm.countGrpAck (mm : Mm) : Mm :=
  { mm with stats := { mm.stats with grpAckBuilt := mm.stats.grpAckBuilt + 1 } }

/-- The MM body that answers a request, if one is built. -/
def mmAnswer (s : MmEnv) (pl : TlaSapPayload) : Mm × Option (List Byte × Nat) :=
  match pl.decoded.pduType with
  | .uLocationUpdateDemand =>
    let (gilaClass, gilaLifetime) := lookupProfileDefaults s.db pl.addr.ssi
    match mmBuildDLocUpdateAccept mmBodyCapBits
        (composeAcceptParams pl.decoded gilaClass gilaLifetime 0) with
    | .ok r => (s.mm.countAccept, some r)
    | .error _ => (s.mm, none)
  | .uAttachDetachGroupIdentity =>
    match mmBuildDAttachDetachGrpIdAck mmBodyCapBits (composeGrpAckParams pl.decoded) with
    | .ok r => (s.mm.countGrpAck, some r)
    | .error _ => (s.mm, none)
  | _ => (s.mm, none)

def mmDownlinkMsg (m : TleSapMsg) : SapMsg Payload :=
  sapmsgInit .mm .tmaSap .tmaSap .tleSap (.tle m)

/-- The BL-ADATA an MM body travels in. -/
def mmDownlink (pl : TlaSapPayload) (llcBody : List Byte) (bits : Nat) : TleSapMsg :=
  { endpoint := pl.endpoint, addr := pl.addr,
    pdu := { pduType := .blAdata, bodyLenBits := bits, body := llcBody.take ((bits + 7) / 8) } }

def mmHandleRequest (s : MmEnv) (pl : TlaSapPayload) : MmEnv :=
  match mmAnswer s pl with
  | (mm, none) => { s with mm := mm }
  | (mm, some (mmBody, mmBits)) =>
    match prependMleDiscMm mmBody mmBits (llcPduBodyMaxBytes * 8) with
    | .error _ => { s with mm := mm }
    | .ok (llcBody, bits) =>
      if llcPduBodyMaxBytes * 8 < bits then { s with mm := mm }
      else
        { s with mm := mm,
                 bus := (msgbusPost s.bus (sapPrioDefault .tleSap)
                   (mmDownlinkMsg (mmDownlink pl llcBody bits))).1 }

def onMmRequest (msg : SapMsg Payload) (s : MmEnv) : MmEnv :=
  match msg.payload.data with
  | .tla pl =>
    if msg.len < (SapData.tla pl).size then s
    else if s.mm.initialised = false then s
    else mmHandleRequest s pl
  | _ => s

def mmInit (bus : Bus) : Except Errno (Mm × Bus) := do
  let bus ← msgbusRegister bus .tmaSap .tlmcSap .onMmRequest
  return ({ initialised := true }, bus)

end TetraBs

/-! What MM answers to a request, as bits the MLE discriminator and the MM type can be read
from. -/
namespace TetraBs
open TetraBs.Bits

/-- The 4-bit type of the MM PDU a TLE message carries. -/
def mmTypeOf (m : TleSapMsg) : Option (BitVec 32) :=
  match stripMlePd m.pdu (llcPduBodyMaxBytes * 8) with
  | .ok (.mm, body, bits) => if bits < 4 then none else some (mmPduType body bits)
  | _ => none

/-- A request is of one of the two types that decode. -/
theorem mleRequest_type {m : TleSapMsg} {d : MmDecoded} (h : mleRequest m = some d) :
    mmTypeOf m = some MmPduTypeUl.uLocationUpdateDemand.value ∧
        requestEvt d = .demandReceived ∧ d.pduType = .uLocationUpdateDemand ∨
      mmTypeOf m = some MmPduTypeUl.uAttachDetachGroupIdentity.value ∧
        requestEvt d = .grpDemandReceived ∧ d.pduType = .uAttachDetachGroupIdentity := by
  unfold mleRequest at h
  rw [mmTypeOf]
  cases hs : stripMlePd m.pdu (llcPduBodyMaxBytes * 8) with
  | error e =>
    rw [hs] at h
    cases h
  | ok r =>
    obtain ⟨disc, body, bits⟩ := r
    rw [hs] at h
    cases disc with
    | mm =>
      simp only at h ⊢
      have hdec : mmIepDecode body bits = .ok d := by
        cases hd : mmIepDecode body bits with
        | error e =>
          rw [hd] at h
          cases h
        | ok d' =>
          rw [hd] at h
          cases h
          rfl
      have h4 : ¬bits < 4 := by
        intro hlt
        rw [mmIepDecode, if_pos hlt] at hdec
        cases hdec
      rw [if_neg h4]
      obtain ⟨hty, hd⟩ | ⟨hty, hd⟩ := mmIepDecode_ok hdec
      · exact Or.inl ⟨congrArg some hty, by rw [requestEvt, if_pos hd], hd⟩
      · refine Or.inr ⟨congrArg some hty, ?_, hd⟩
        rw [requestEvt, hd]
        rfl
    | _ => cases h

/-! The bits of an answer. -/

/-- Bits 001 at the start of a body are the discriminator of MM. -/
theorem mleDisc_mm {body : List Byte} (h : window body 0 3 = [false, false, true]) :
    MleDisc.ofValue ((body.getD 0 0 >>> 5) &&& 7) = .mm := by
  have hbits : window body 0 3 = [bitAt body 0, bitAt body 1, bitAt body 2] := rfl
  rw [hbits] at h
  obtain ⟨h0, h1, h2, -⟩ : bitAt body 0 = false ∧ bitAt body 1 = false ∧ bitAt body 2 = true ∧
    True := by simpa using h
  have hone : (body.getD 0 0 >>> 5) &&& 7 = (1 : Byte) := by
    apply BitVec.eq_of_getLsbD_eq
    intro j hj
    rw [BitVec.getLsbD_and, BitVec.getLsbD_ushiftRight]
    have hcases : j = 0 ∨ j = 1 ∨ j = 2 ∨ 3 ≤ j := by omega
    obtain rfl | rfl | rfl | hj3 := hcases
    · exact (congrArg (· && true) h2)
    · exact (congrArg (· && true) h1)
    · exact (congrArg (· && true) h0)
    · have hhigh : ∀ j < 8, 3 ≤ j →
          (7 : Byte).getLsbD j = false ∧ (1 : Byte).getLsbD j = false := by decide
      rw [(hhigh j hj hj3).1, (hhigh j hj hj3).2, Bool.and_false]
  rw [hone]
  rfl

/-- A 4-bit type at the start of an MM PDU. -/
theorem mmPduType_eq {bits : List Byte} {n : Nat} {t : BitVec 64} (ht : t.toNat < 2 ^ 4)
    (hn : 4 ≤ n) (h : window bits 0 4 = msbBits t 4) : mmPduType bits n = t.setWidth 32 := by
  rw [mmPduType, rbufRead]
  rw [if_neg (by decide), if_neg (by simp only [Nat.zero_add]; omega)]
  have hread := holds_readBits 32 bits 0 4
  have htoNat : (t.setWidth 32).toNat = t.toNat := by
    rw [BitVec.toNat_setWidth]
    exact Nat.mod_eq_of_lt (by omega)
  apply hread.eq_of_msbBits (by decide) (by rw [htoNat]; exact ht)
  rw [h]
  refine List.map_congr_left fun k hk => ?_
  have := List.mem_range.1 hk
  rw [BitVec.getLsbD_setWidth, (by simp; omega : decide (4 - 1 - k < 32) = true), Bool.true_and]

/-- The MM discriminator and an MM type in front of a body. -/
theorem mmTypeOf_of_window {m : TleSapMsg} {t : BitVec 64} (ht : t.toNat < 2 ^ 4)
    (h7 : 7 ≤ m.pdu.bodyLenBits) (hle : m.pdu.bodyLenBits ≤ llcPduBodyMaxBytes * 8)
    (hw : window m.pdu.body 0 7 = [false, false, true] ++ msbBits t 4) :
    mmTypeOf m = some (t.setWidth 32) := by
  obtain ⟨hdisc, htype⟩ := window_eq_append hw
  rw [msbBits_length] at htype
  rw [mmTypeOf, stripMlePd]
  rw [if_neg (by omega), if_neg (by omega), mleDisc_mm hdisc]
  simp only
  rw [if_neg (by omega)]
  apply congrArg some
  apply mmPduType_eq ht (by omega)
  have hlen : 0 + (m.pdu.bodyLenBits - 3) ≤
      8 * (List.replicate ((llcPduBodyMaxBytes * 8 + 7) / 8) (0 : Byte)).length := by
    rw [List.length_replicate]
    omega
  have hcopy := wrote_orBits m.pdu.body 3 hlen fun i _ => bitAt_zeros _ i
  rw [← htype]
  apply window_congr
  intro k hk
  rw [hcopy.bits, if_pos (by omega), Nat.sub_zero, Nat.zero_add]
  rfl

/-- The body behind the discriminator is copied bit by bit. -/
theorem prependMleDiscMm_window {mmBits : List Byte} {n : Nat} {out : List Byte × Nat}
    (hout : prependMleDiscMm mmBits n (llcPduBodyMaxBytes * 8) = .ok out) :
    out.2 = 3 + n ∧ 3 + n ≤ llcPduBodyMaxBytes * 8 ∧
      window out.1 0 (3 + n) = [false, false, true] ++ window mmBits 0 n := by
  unfold prependMleDiscMm at hout
  by_cases hfit : llcPduBodyMaxBytes * 8 < 3 + n
  · rw [if_pos hfit] at hout
    cases hout
  rw [if_neg hfit] at hout
  cases hout
  refine ⟨rfl, Nat.le_of_not_lt hfit, ?_⟩
  have hzero : ∀ i, 3 ≤ i → bitAt ((List.replicate ((llcPduBodyMaxBytes * 8 + 7) / 8)
      (0 : Byte)).set 0 ((1 : Byte) <<< 5)) i = false := by
    intro i hi
    rw [bitAt_set _ _ _ _ (by rw [List.length_replicate]; decide)]
    by_cases hb : i / 8 = 0
    · have hlow : ∀ i < 8, 3 ≤ i → ((1 : Byte) <<< 5).getLsbD (7 - i % 8) = false := by decide
      rw [if_pos hb]
      exact hlow i (by omega) hi
    · rw [if_neg hb]
      exact bitAt_zeros _ i
  have hlen : 3 + n ≤ 8 * ((List.replicate ((llcPduBodyMaxBytes * 8 + 7) / 8)
      (0 : Byte)).set 0 ((1 : Byte) <<< 5)).length := by
    rw [List.length_set, List.length_replicate]
    omega
  have hcopy := wrote_orBits mmBits 0 hlen hzero
  rw [window_add, hcopy.window_frame (Or.inl (by decide))]
  apply congrArg
  apply window_congr
  intro k hk
  rw [hcopy.bits, if_pos (by omega)]
  congr 1
  omega

theorem prependMleDiscMm_ok {t : BitVec 64} {cap : Nat} {r out : List Byte × Nat}
    (h : BuiltAs t cap r)
    (hout : prependMleDiscMm r.1 r.2 (llcPduBodyMaxBytes * 8) = .ok out) :
    out.2 = 3 + r.2 ∧ 3 + r.2 ≤ llcPduBodyMaxBytes * 8 ∧
      window out.1 0 7 = [false, false, true] ++ msbBits t 4 := by
  obtain ⟨hlen, hfit, hw⟩ := prependMleDiscMm_window hout
  refine ⟨hlen, hfit, ?_⟩
  have h4 := h.past
  obtain ⟨n, hn⟩ := Nat.exists_eq_add_of_le h4
  rw [hn, window_add r.1 0 4 n, ← Nat.add_assoc, h.type_eq, ← List.append_assoc] at hw
  exact (window_eq_append hw).1

/-- The downlink MM posts: a body that starts with the discriminator and a built PDU. -/
theorem mmTypeOf_mmDownlink {t : BitVec 64} {cap : Nat} {r out : List Byte × Nat}
    (ht : t.toNat < 2 ^ 4) (h : BuiltAs t cap r)
    (hout : prependMleDiscMm r.1 r.2 (llcPduBodyMaxBytes * 8) = .ok out) (pl : TlaSapPayload) :
    mmTypeOf (mmDownlink pl out.1 out.2) = some (t.setWidth 32) := by
  obtain ⟨hlen, hfit, hw⟩ := prependMleDiscMm_ok h hout
  have h4 := h.past
  apply mmTypeOf_of_window ht
  · simp only [mmDownlink]
    omega
  · simp only [mmDownlink]
    omega
  · rw [← hw]
    apply window_congr
    intro k hk
    simp only [mmDownlink]
    exact bitAt_take out.1 (by omega)

/-! The accept is always built. -/

/-- Nothing was dropped so far and `n` bits are written. -/
structure Complete (n : Nat) (w : WBuf) : Prop where
  ok : w.overflow = false
  pos_eq : w.pos = n
  cap_eq : w.capBits = mmBodyCapBits

theorem Complete.put {k : Nat} {w : WBuf} (h : Complete k w) (v : BitVec 64) {n : Nat}
    (hn : n ≤ 64) (hfit : k + n ≤ mmBodyCapBits) : Complete (k + n) (wbufPut w v n) := by
  rw [wbufPut]
  by_cases h0 : n = 0
  · rw [if_pos h0, h0]
    exact h
  · have hpos := h.pos_eq
    have hcap := h.cap_eq
    rw [if_neg h0, if_neg (by omega)]
    exact ⟨h.ok, by rw [← hpos], hcap⟩

theorem Complete.patch {k : Nat} {w : WBuf} (h : Complete k w) {pos : Nat} (v : BitVec 16)
    (hfit : pos + 11 ≤ mmBodyCapBits) : Complete k (wbufPatch11 w pos v) := by
  rw [wbufPatch11]
  rw [if_neg (by rw [h.cap_eq]; exact Nat.not_lt.2 hfit)]
  exact ⟨h.ok, h.pos_eq, h.cap_eq⟩

theorem Complete.result {k : Nat} {w : WBuf} (h : Complete k w) :
    ∃ bits, wbufResult w = .ok (bits, k) := by
  rw [wbufResult]
  rw [if_neg (by rw [h.ok]; exact Bool.false_ne_true), h.pos_eq]
  exact ⟨w.bits, rfl⟩

theorem complete_init : Complete 0 (wbufInit mmBodyCapBits) := ⟨rfl, rfl, rfl⟩

/-- An attached group with a plain GSSI. -/
theorem Complete.gidDownlink {k : Nat} {w : WBuf} (h : Complete k w)
    {g : MmGroupIdentityDownlink} (hattach : g.isAttach = true) (hgssi : g.addressType = 0)
    (hfit : k + 32 ≤ mmBodyCapBits) : Complete (k + 32) (putGidDownlink w g) := by
  rw [putGidDownlink]
  simp only [hattach, hgssi]
  have hdet := h.put (boolBit !true) (n := 1) (by decide) (by omega)
  have hlife := hdet.put (g.attach.lifetime.setWidth 64) (n := 2) (by decide) (by omega)
  have hclass := hlife.put (g.attach.classOfUsage.setWidth 64) (n := 3) (by decide) (by omega)
  have htype := hclass.put ((0 : Byte).setWidth 64) (n := 2) (by decide) (by omega)
  exact htype.put (addressField g.gssi) (n := 24) (by decide) (by omega)

theorem Complete.gidDownlinkList {k : Nat} {w : WBuf} (h : Complete k w)
    {g : MmGroupIdentityDownlink} (hattach : g.isAttach = true) (hgssi : g.addressType = 0)
    (hfit : k + 54 ≤ mmBodyCapBits) : Complete (k + 54) (putGidDownlinkList w 1 [g]) := by
  have hm := h.put 1 (n := 1) (by decide) (by omega)
  have hid := hm.put elemDlGroupIdentityDownlink (n := 4) (by decide) (by omega)
  have hlen := hid.put 0 (n := 11) (by decide) (by omega)
  have hnum := hlen.put (BitVec.ofNat 64 1) (n := 6) (by decide) (by omega)
  have hgid := hnum.gidDownlink hattach hgssi (by omega)
  apply hgid.patch
  rw [hid.pos_eq]
  omega

theorem Complete.gidListIf {k : Nat} {w : WBuf} (h : Complete k w) {n : Nat}
    {gs : List MmGroupIdentityDownlink} {g : MmGroupIdentityDownlink} (hnum : n = 1)
    (hgid : gs = [g]) (hattach : g.isAttach = true) (hgssi : g.addressType = 0)
    (hfit : k + 55 ≤ mmBodyCapBits) :
    Complete (k + 55) (putGidListIf w (decide (0 < n)) n gs) := by
  subst hnum hgid
  exact (h.gidDownlinkList hattach hgssi (by omega)).put 0 (n := 1) (by decide) (by omega)

theorem Complete.gilaIf {k : Nat} {w : WBuf} (h : Complete k w) {p : MmAcceptParams}
    {g : MmGroupIdentityDownlink} (hgila : p.gilaPresent = true) (hnum : p.numGid = 1)
    (hgid : p.gid = [g]) (hattach : g.isAttach = true) (hgssi : g.addressType = 0)
    (hfit : k + 74 ≤ mmBodyCapBits) : Complete (k + 74) (putGilaIf w p.gilaPresent p) := by
  have hm := h.put 1 (n := 1) (by decide) (by omega)
  have hid := hm.put elemDlGroupIdentityLocationAccept (n := 4) (by decide) (by omega)
  have hlen := hid.put 0 (n := 11) (by decide) (by omega)
  have hrej := hlen.put (p.gilaAcceptReject.setWidth 64) (n := 1) (by decide) (by omega)
  have hres := hrej.put 0 (n := 1) (by decide) (by omega)
  have hobit := hres.put (boolBit (decide (0 < p.numGid))) (n := 1) (by decide) (by omega)
  have hlist := hobit.gidListIf hnum hgid hattach hgssi (by omega)
  rw [putGilaIf]
  rw [if_pos hgila]
  apply hlist.patch
  rw [hid.pos_eq]
  omega

theorem Complete.type2Absent {k : Nat} {w : WBuf} (h : Complete k w) (v : BitVec 64) (n : Nat)
    (hfit : k + 1 ≤ mmBodyCapBits) : Complete (k + 1) (putType2Generic w false v n) :=
  h.put (boolBit false) (n := 1) (by decide) hfit

theorem Complete.energySaving {k : Nat} {w : WBuf} (h : Complete k w) {p : MmAcceptParams}
    (hp : p.energySavingInfoPresent = true) (hfit : k + 15 ≤ mmBodyCapBits) :
    Complete (k + 15) (putEnergySaving w p) := by
  have hm := h.put 1 (n := 1) (by decide) (by omega)
  have hmode := hm.put (p.energySavingMode.value.setWidth 64) (n := 3) (by decide) (by omega)
  have hframe := hmode.put ((p.energySavingFrameNumber &&& 0x1F).setWidth 64) (n := 5) (by decide)
    (by omega)
  rw [putEnergySaving]
  rw [if_pos hp]
  exact hframe.put _ (n := 6) (by decide) (by omega)

/-- The accept `on_mm_request` composes has 102 bits, so it never runs out of buffer. -/
theorem mmBuildDLocUpdateAccept_composed (demand : MmDecoded) (gilaClass gilaLifetime : Byte)
    (fallbackGssi : BitVec 32) :
    ∃ bits, mmBuildDLocUpdateAccept mmBodyCapBits
      (composeAcceptParams demand gilaClass gilaLifetime fallbackGssi) = .ok (bits, 102) := by
  have hcap : mmBodyCapBits = 512 := rfl
  generalize hp : composeAcceptParams demand gilaClass gilaLifetime fallbackGssi = p
  have htype := complete_init.put dLocationUpdateAccept (n := 4) (by decide) (by omega)
  have hacc := htype.put (p.acceptType.value.setWidth 64) (n := 3) (by decide) (by omega)
  have hobit := hacc.put (boolBit (p.energySavingInfoPresent || p.gilaPresent)) (n := 1)
    (by decide) (by omega)
  have hesi : p.energySavingInfoPresent = true := by rw [← hp]; rfl
  have hgilaPresent : p.gilaPresent = true := by rw [← hp]; rfl
  have hnum : p.numGid = 1 := by rw [← hp]; rfl
  have hgid : p.gid = [⟨true, ⟨gilaLifetime, gilaClass⟩, 0, 0, acceptGssi demand fallbackGssi, 0,
    0⟩] := by rw [← hp]; rfl
  have hopt := ((hobit.type2Absent 0 24 (by omega)).type2Absent 0 24 (by omega)).type2Absent 0 16
    (by omega)
  have hgila := ((hopt.energySaving hesi (by omega)).type2Absent 0 6 (by omega)).gilaIf
    hgilaPresent hnum hgid rfl rfl (by omega)
  have hend := hgila.put 0 (n := 1) (by decide) (by omega)
  rw [mmBuildDLocUpdateAccept]
  rw [if_neg (by decide)]
  simp only
  rw [if_pos (by rw [hesi]; rfl)]
  exact hend.result

/-! One request. -/

/-- The type of the PDU that answers a request. -/
def answerType : MmPduTypeUl → Option (BitVec 64)
  | .uLocationUpdateDemand => some dLocationUpdateAccept
  | .uAttachDetachGroupIdentity => some dAttachDetachGroupIdentityAck
  | _ => none

theorem answerType_lt {t : MmPduTypeUl} {v : BitVec 64} (h : answerType t = some v) :
    v.toNat < 2 ^ 4 := by
  cases t <;> cases h <;> decide

theorem mmAnswer_initialised (s : MmEnv) (pl : TlaSapPayload) :
    (mmAnswer s pl).1.initialised = s.mm.initialised := by
  rw [mmAnswer]
  cases pl.decoded.pduType with
  | uLocationUpdateDemand => simp only; split <;> rfl
  | uAttachDetachGroupIdentity => simp only; split <;> rfl
  | _ => rfl

/-- A demand is always answered, with 102 bits; a group request only if its answer fits. -/
theorem mmAnswer_cases (s : MmEnv) (pl : TlaSapPayload) :
    (mmAnswer s pl).2 = none ∧ pl.decoded.pduType ≠ .uLocationUpdateDemand ∨
      ∃ t r, (mmAnswer s pl).2 = some r ∧ answerType pl.decoded.pduType = some t ∧
        BuiltAs t mmBodyCapBits r ∧ (pl.decoded.pduType = .uLocationUpdateDemand → r.2 = 102) := by
  rw [mmAnswer]
  cases pl.decoded.pduType with
  | uLocationUpdateDemand =>
    obtain ⟨bits, hok⟩ := mmBuildDLocUpdateAccept_composed pl.decoded
      (lookupProfileDefaults s.db pl.addr.ssi).1 (lookupProfileDefaults s.db pl.addr.ssi).2 0
    simp only
    rw [hok]
    exact Or.inr ⟨_, _, rfl, rfl, mmBuildDLocUpdateAccept_ok hok, fun _ => rfl⟩
  | uAttachDetachGroupIdentity =>
    simp only
    cases hb : mmBuildDAttachDetachGrpIdAck mmBodyCapBits (composeGrpAckParams pl.decoded) with
    | error e => exact Or.inl ⟨rfl, MmPduTypeUl.noConfusion⟩
    | ok r =>
      exact Or.inr ⟨_, _, rfl, rfl, mmBuildDAttachDetachGrpIdAck_ok hb,
        fun h => MmPduTypeUl.noConfusion h⟩
  | _ => exact Or.inl ⟨rfl, MmPduTypeUl.noConfusion⟩

/-- `m` answers `pl`. -/
structure AnswerTo (pl : TlaSapPayload) (m : TleSapMsg) : Prop where
  addr_eq : m.addr = pl.addr
  type_eq : ∃ t, answerType pl.decoded.pduType = some t ∧ mmTypeOf m = some (t.setWidth 32)

/-- An answer read as an uplink PDU is no request. -/
theorem AnswerTo.not_request {pl : TlaSapPayload} {m : TleSapMsg} (h : AnswerTo pl m) :
    mleRequest m = none := by
  obtain ⟨t, ht, hm⟩ := h.type_eq
  cases hr : mleRequest m with
  | none => rfl
  | some d =>
    have htype : mmTypeOf m = some MmPduTypeUl.uLocationUpdateDemand.value ∨
        mmTypeOf m = some MmPduTypeUl.uAttachDetachGroupIdentity.value := by
      obtain ⟨h2, -⟩ | ⟨h7, -⟩ := mleRequest_type hr
      · exact Or.inl h2
      · exact Or.inr h7
    rw [hm] at htype
    exfalso
    cases hp : pl.decoded.pduType <;> rw [hp] at ht <;> cases ht <;> revert htype <;> decide

/-- What MM does with a request: nothing but counting, or one attempt to post an answer. Demands
always get the attempt. -/
theorem mmHandleRequest_cases (s : MmEnv) (pl : TlaSapPayload) :
    (mmHandleRequest s pl).db = s.db ∧
      (mmHandleRequest s pl).mm.initialised = s.mm.initialised ∧
      ((mmHandleRequest s pl).bus = s.bus ∧ pl.decoded.pduType ≠ .uLocationUpdateDemand ∨
        ∃ m, AnswerTo pl m ∧
          (mmHandleRequest s pl).bus = (msgbusPost s.bus .normal (mmDownlinkMsg m)).1) := by
  have hinit := mmAnswer_initialised s pl
  have hcases := mmAnswer_cases s pl
  rw [mmHandleRequest]
  generalize mmAnswer s pl = a at hinit hcases
  obtain ⟨mm, o⟩ := a
  obtain ⟨hnone, hne⟩ | ⟨t, r, hsome, htype, hbuilt, hlen⟩ := hcases
  · simp only at hnone
    rw [hnone]
    exact ⟨rfl, hinit, Or.inl ⟨rfl, hne⟩⟩
  simp only at hsome
  rw [hsome]
  obtain ⟨mmBody, mmBits⟩ := r
  simp only
  cases hpre : prependMleDiscMm mmBody mmBits (llcPduBodyMaxBytes * 8) with
  | error e =>
    refine ⟨rfl, hinit, Or.inl ⟨rfl, fun hd => ?_⟩⟩
    have h102 : mmBits = 102 := hlen hd
    rw [h102, prependMleDiscMm, if_neg (by decide)] at hpre
    cases hpre
  | ok out =>
    obtain ⟨hbits, hfit, -⟩ := prependMleDiscMm_ok hbuilt hpre
    simp only
    rw [if_neg (by rw [hbits]; exact Nat.not_lt.2 hfit)]
    refine ⟨rfl, hinit, Or.inr ⟨_, ⟨rfl, t, htype, ?_⟩, rfl⟩⟩
    exact mmTypeOf_mmDownlink (answerType_lt htype) hbuilt hpre pl

theorem mmInit_ok {bus bus' : Bus} {mm : Mm} (h : mmInit bus = .ok (mm, bus')) :
    mm.initialised = true ∧ bus'.regs = bus.regs ++ [⟨.tmaSap, .tlmcSap, .onMmRequest⟩] ∧
      ∀ p, bus'.pending p = bus.pending p := by
  unfold mmInit at h
  cases h1 : msgbusRegister bus .tmaSap .tlmcSap Handler.onMmRequest with
  | error e =>
    rw [h1] at h
    cases h
  | ok b1 =>
    rw [h1] at h
    cases h
    exact ⟨rfl, (msgbusRegister_ok h1).1, pending_register h1⟩

end TetraBs
