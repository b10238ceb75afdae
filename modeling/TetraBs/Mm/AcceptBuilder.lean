import TetraBs.Core.BitBuffer
import TetraBs.Mm.Types

/-! The downlink MM builders of `sw/mm/mm_accept_builder.c`. -/
namespace TetraBs
open TetraBs.Bits

/-- Write cursor; a write past the capacity is dropped and remembered in `overflow`. -/
structure WBuf where
  bits : List Byte
  capBits : Nat
  pos : Nat := 0
  overflow : Bool := false

def wbufPut (w : WBuf) (v : BitVec 64) (n : Nat) : WBuf :=
  if n = 0 then w
  else if 64 < n ∨ w.capBits < w.pos + n then { w with overflow := true }
  else { w with bits := writeBits w.bits w.pos v n, pos := w.pos + n }

/-- Back-fill an 11-bit length field. -/
def wbufPatch11 (w : WBuf) (pos : Nat) (v : BitVec 16) : WBuf :=
  if w.capBits < pos + 11 then { w with overflow := true }
  else { w with bits := writeBits w.bits pos v 11 }

def wbufPutIf (w : WBuf) (c : Bool) (v : BitVec 64) (n : Nat) : WBuf :=
  if c then wbufPut w v n else w

def boolBit (b : Bool) : BitVec 64 := if b then 1 else 0

def putType2Generic (w : WBuf) (present : Bool) (value : BitVec 64) (width : Nat) : WBuf :=
  wbufPutIf (wbufPut w (boolBit present) 1) present value width

def elemDlGroupIdentityLocationAccept : BitVec 64 := 5
def elemDlGroupIdentityDownlink : BitVec 64 := 7

def addressField (v : BitVec 32) : BitVec 64 := (v &&& tetraSsiMask24).setWidth 64

def putGidDownlink (w : WBuf) (g : MmGroupIdentityDownlink) : WBuf :=
  let w := wbufPut w (boolBit !g.isAttach) 1
  let w := wbufPutIf w g.isAttach (g.attach.lifetime.setWidth 64) 2
  let w := wbufPutIf w g.isAttach (g.attach.classOfUsage.setWidth 64) 3
  let w := wbufPutIf w (!g.isAttach) (g.detachmentType.setWidth 64) 2
  let w := wbufPut w (g.addressType.setWidth 64) 2
  let w := wbufPutIf w (g.addressType == 0 || g.addressType == 1 || g.addressType == 3)
    (addressField g.gssi) 24
  let w := wbufPutIf w (g.addressType == 1 || g.addressType == 3)
    (addressField g.addressExtension) 24
  wbufPutIf w (g.addressType == 2 || g.addressType == 3) (addressField g.vgssi) 24

/-- The first `numGid` entries of `gids`. -/
def putGidDownlinkList (w : WBuf) (numGid : Nat) (gids : List MmGroupIdentityDownlink) : WBuf :=
  if numGid = 0 then w
  else
    let w := wbufPut w 1 1
    let w := wbufPut w elemDlGroupIdentityDownlink 4
    let lengthPos := w.pos
    let w := wbufPut w 0 11
    let afterLength := w.pos
    let w := wbufPut w (BitVec.ofNat 64 numGid) 6
    let w := (gids.take numGid).foldl putGidDownlink w
    wbufPatch11 w lengthPos (BitVec.ofNat 16 (w.pos - afterLength))

def putGidListIf (w : WBuf) (c : Bool) (numGid : Nat) (gids : List MmGroupIdentityDownlink) :
    WBuf :=
  if c then wbufPut (putGidDownlinkList w numGid gids) 0 1 else w

def putGila (w : WBuf) (p : MmAcceptParams) : WBuf :=
  let w := wbufPut w 1 1
  let w := wbufPut w elemDlGroupIdentityLocationAccept 4
  let lengthPos := w.pos
  let w := wbufPut w 0 11
  let payloadStart := w.pos
  let w := wbufPut w (p.gilaAcceptReject.setWidth 64) 1
  let w := wbufPut w 0 1
  let innerObit := decide (0 < p.numGid)
  let w := wbufPut w (boolBit innerObit) 1
  let w := putGidListIf w innerObit p.numGid p.gid
  wbufPatch11 w lengthPos (BitVec.ofNat 16 (w.pos - payloadStart))

def putGilaIf (w : WBuf) (c : Bool) (p : MmAcceptParams) : WBuf := if c then putGila w p else w

/-- What the builders return: the bits written and their number, or an errno. -/
def wbufResult (w : WBuf) : Except Errno (List Byte × Nat) :=
  if w.overflow then .error .ENOSPC else .ok (w.bits, w.pos)

/-- The output buffer zeroed. -/
def wbufInit (capBits : Nat) : WBuf :=
  { bits := List.replicate ((capBits + 7) / 8) 0, capBits := capBits }

def dLocationUpdateAccept : BitVec 64 := 5
def dAttachDetachGroupIdentityAck : BitVec 64 := 11

def putEnergySaving (w : WBuf) (p : MmAcceptParams) : WBuf :=
  if p.energySavingInfoPresent then
    let w := wbufPut w 1 1
    let w := wbufPut w (p.energySavingMode.value.setWidth 64) 3
    let w := wbufPut w ((p.energySavingFrameNumber &&& 0x1F).setWidth 64) 5
    wbufPut w ((p.energySavingMultiframe &&& 0x3F).setWidth 64) 6
  else wbufPut w 0 1

/-- The part behind the o-bit. -/
def putAcceptOptions (w : WBuf) (p : MmAcceptParams) : WBuf :=
  let w := putType2Generic w false 0 24
  let w := putType2Generic w false 0 24
  let w := putType2Generic w false 0 16
  let w := putEnergySaving w p
  let w := putType2Generic w false 0 6
  let w := putGilaIf w p.gilaPresent p
  wbufPut w 0 1

def mmBuildDLocUpdateAccept (capBits : Nat) (p : MmAcceptParams) :
    Except Errno (List Byte × Nat) :=
  if capBits < 16 then .error .EINVAL
  else
    let w := wbufPut (wbufInit capBits) dLocationUpdateAccept 4
    let w := wbufPut w (p.acceptType.value.setWidth 64) 3
    let obit := p.energySavingInfoPresent || p.gilaPresent
    let w := wbufPut w (boolBit obit) 1
    wbufResult (if obit then putAcceptOptions w p else w)

def mmBuildDAttachDetachGrpIdAck (capBits : Nat) (p : MmGrpAckParams) :
    Except Errno (List Byte × Nat) :=
  if capBits < 8 then .error .EINVAL
  else
    let w := wbufPut (wbufInit capBits) dAttachDetachGroupIdentityAck 4
    let w := wbufPut w ((p.acceptReject &&& 1).setWidth 64) 1
    let w := wbufPut w 0 1
    let obit := p.gidDownlinkPresent && decide (0 < p.numGid)
    let w := wbufPut w (boolBit obit) 1
    wbufResult (putGidListIf w obit p.numGid p.gid)

/-! What a builder has written stays. -/

/-- The cursor is past the type field, which reads `t`, and the buffer holds the capacity. -/
structure Typed (t : List Bool) (cap : Nat) (w : WBuf) : Prop where
  past : 4 ≤ w.pos
  cap_eq : w.capBits = cap
  fits : w.pos ≤ cap
  cap_le : cap ≤ 8 * w.bits.length
  type_eq : window w.bits 0 4 = t

section
variable {t : List Bool} {cap : Nat} {w : WBuf}

theorem Typed.put (h : Typed t cap w) (v : BitVec 64) (n : Nat) :
    Typed t cap (wbufPut w v n) := by
  rw [wbufPut]
  split
  · exact h
  · split
    · exact ⟨h.past, h.cap_eq, h.fits, h.cap_le, h.type_eq⟩
    · next hfit =>
      have hroom : w.pos + n ≤ cap := by
        have := h.cap_eq
        omega
      have hw := wrote_writeBits v (le_trans hroom h.cap_le)
      refine ⟨le_trans h.past (Nat.le_add_right _ _), h.cap_eq, hroom, ?_, ?_⟩
      · simp only [hw.length_eq]
        exact h.cap_le
      · rw [hw.window_frame (Or.inl (by have := h.past; omega))]
        exact h.type_eq

theorem Typed.putIf (h : Typed t cap w) (c : Bool) (v : BitVec 64) (n : Nat) :
    Typed t cap (wbufPutIf w c v n) := by
  rw [wbufPutIf]
  split
  · exact h.put v n
  · exact h

theorem Typed.patch (h : Typed t cap w) {pos : Nat} (hpos : 4 ≤ pos)
    (v : BitVec 16) : Typed t cap (wbufPatch11 w pos v) := by
  rw [wbufPatch11]
  split
  · exact ⟨h.past, h.cap_eq, h.fits, h.cap_le, h.type_eq⟩
  · next hfit =>
    have hroom : pos + 11 ≤ cap := by
      have := h.cap_eq
      omega
    have hw := wrote_writeBits v (le_trans hroom h.cap_le)
    refine ⟨h.past, h.cap_eq, h.fits, ?_, ?_⟩
    · simp only [hw.length_eq]
      exact h.cap_le
    · rw [hw.window_frame (Or.inl (by omega))]
      exact h.type_eq

theorem Typed.type2 (h : Typed t cap w) (c : Bool) (v : BitVec 64)
    (n : Nat) : Typed t cap (putType2Generic w c v n) := (h.put _ _).putIf _ _ _

theorem Typed.gid (h : Typed t cap w) (g : MmGroupIdentityDownlink) :
    Typed t cap (putGidDownlink w g) :=
  (((((((h.put _ _).putIf _ _ _).putIf _ _ _).putIf _ _ _).put _ _).putIf _ _ _).putIf _ _ _).putIf
    _ _ _

theorem Typed.gids (gs : List MmGroupIdentityDownlink) (h : Typed t cap w) :
    Typed t cap (gs.foldl putGidDownlink w) := by
  induction gs generalizing w with
  | nil => exact h
  | cons g gs ih => exact ih (h.gid g)

theorem Typed.gidList (h : Typed t cap w) (n : Nat)
    (gs : List MmGroupIdentityDownlink) : Typed t cap (putGidDownlinkList w n gs) := by
  rw [putGidDownlinkList]
  split
  · exact h
  · have hhead := (h.put 1 1).put elemDlGroupIdentityDownlink 4
    exact (Typed.gids _ ((hhead.put 0 11).put _ 6)).patch hhead.past _

theorem Typed.gidListIf (h : Typed t cap w) (c : Bool) (n : Nat)
    (gs : List MmGroupIdentityDownlink) : Typed t cap (putGidListIf w c n gs) := by
  rw [putGidListIf]
  split
  · exact (h.gidList n gs).put _ _
  · exact h

theorem Typed.gila (h : Typed t cap w) (c : Bool) (p : MmAcceptParams) :
    Typed t cap (putGilaIf w c p) := by
  rw [putGilaIf]
  split
  · have hhead := (h.put 1 1).put elemDlGroupIdentityLocationAccept 4
    exact ((((hhead.put 0 11).put _ 1).put 0 1 |>.put _ 1).gidListIf _ _ _).patch hhead.past _
  · exact h

theorem Typed.energySaving (h : Typed t cap w) (p : MmAcceptParams) :
    Typed t cap (putEnergySaving w p) := by
  rw [putEnergySaving]
  split
  · exact (((h.put _ _).put _ _).put _ _).put _ _
  · exact h.put _ _

end

theorem typed_first {cap : Nat} (h : 8 ≤ cap) (v : BitVec 64) :
    Typed (msbBits v 4) cap (wbufPut (wbufInit cap) v 4) := by
  have hlen : cap ≤ 8 * (wbufInit cap).bits.length := by
    simp only [wbufInit, List.length_replicate]
    omega
  have hpos : (wbufInit cap).pos = 0 := rfl
  have hcap : (wbufInit cap).capBits = cap := rfl
  have hw : (wbufInit cap).pos + 4 ≤ 8 * (wbufInit cap).bits.length := by omega
  rw [wbufPut]
  rw [if_neg (by decide), if_neg (by omega)]
  refine ⟨Nat.le_add_left _ _, rfl, by simp only [hpos]; omega, ?_, window_writeBits v hw⟩
  simp only [(wrote_writeBits v hw).length_eq]
  exact hlen

/-- The bits a builder returned start with the type `t` and fit the capacity. -/
structure BuiltAs (t : BitVec 64) (cap : Nat) (r : List Byte × Nat) : Prop where
  past : 4 ≤ r.2
  fits : r.2 ≤ cap
  type_eq : window r.1 0 4 = msbBits t 4

theorem Typed.built {v : BitVec 64} {cap : Nat} {w : WBuf} (h : Typed (msbBits v 4) cap w)
    {r : List Byte × Nat} (hr : wbufResult w = .ok r) : BuiltAs v cap r := by
  unfold wbufResult at hr
  split at hr
  · cases hr
  · cases hr
    exact ⟨h.past, h.fits, h.type_eq⟩

theorem mmBuildDLocUpdateAccept_ok {cap : Nat} {p : MmAcceptParams} {r : List Byte × Nat}
    (h : mmBuildDLocUpdateAccept cap p = .ok r) : BuiltAs dLocationUpdateAccept cap r := by
  unfold mmBuildDLocUpdateAccept at h
  by_cases hcap : cap < 16
  · rw [if_pos hcap] at h
    cases h
  rw [if_neg hcap] at h
  have hhead := ((typed_first (by omega : 8 ≤ cap) dLocationUpdateAccept).put
    (p.acceptType.value.setWidth 64) 3).put
    (boolBit (p.energySavingInfoPresent || p.gilaPresent)) 1
  apply Typed.built _ h
  split
  · exact (((((hhead.type2 false 0 24).type2 false 0 24).type2 false 0 16).energySaving p).type2
      false 0 6).gila p.gilaPresent p |>.put 0 1
  · exact hhead

theorem mmBuildDAttachDetachGrpIdAck_ok {cap : Nat} {p : MmGrpAckParams} {r : List Byte × Nat}
    (h : mmBuildDAttachDetachGrpIdAck cap p = .ok r) :
    BuiltAs dAttachDetachGroupIdentityAck cap r := by
  unfold mmBuildDAttachDetachGrpIdAck at h
  by_cases hcap : cap < 8
  · rw [if_pos hcap] at h
    cases h
  rw [if_neg hcap] at h
  have hhead := (((typed_first (by omega : 8 ≤ cap) dAttachDetachGroupIdentityAck).put
    ((p.acceptReject &&& 1).setWidth 64) 1).put 0 1).put
    (boolBit (p.gidDownlinkPresent && decide (0 < p.numGid))) 1
  exact (hhead.gidListIf _ _ _).built h

end TetraBs
