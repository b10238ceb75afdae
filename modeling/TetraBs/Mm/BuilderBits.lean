import TetraBs.Mm.AckBits

/-! The bits the downlink MM builders write into a buffer of any capacity: all of them, or an
overflow. -/
namespace TetraBs
open TetraBs.Bits TetraBs.BitReader

/-- The part of a list of groups behind the bit that says whether it is there. -/
def gidTail (gs : List MmGroupIdentityDownlink) : List Bool :=
  if gs = [] then [] else gidListBits gs ++ msbBits (0 : BitVec 64) 1

def gilaContent (p : MmAcceptParams) : List Bool :=
  msbBits ((p.gilaAcceptReject).setWidth 64 : BitVec 64) 1 ++ (msbBits (0 : BitVec 64) 1 ++
    (msbBits (boolBit (decide (0 < p.numGid))) 1 ++ gidTail (p.gid.take p.numGid)))

def gilaBits (p : MmAcceptParams) : List Bool :=
  msbBits (1 : BitVec 64) 1 ++ (msbBits elemDlGroupIdentityLocationAccept 4 ++
    (msbBits (BitVec.ofNat 16 (gilaContent p).length) 11 ++ gilaContent p))

def energySavingBits (p : MmAcceptParams) : List Bool :=
  if p.energySavingInfoPresent then
    msbBits (1 : BitVec 64) 1 ++ (msbBits (p.energySavingMode.value.setWidth 64 : BitVec 64) 3 ++
      (msbBits ((p.energySavingFrameNumber &&& 0x1F).setWidth 64 : BitVec 64) 5 ++
        msbBits ((p.energySavingMultiframe &&& 0x3F).setWidth 64 : BitVec 64) 6))
  else msbBits (0 : BitVec 64) 1

def acceptOptionBits (p : MmAcceptParams) : List Bool :=
  msbBits (0 : BitVec 64) 1 ++ (msbBits (0 : BitVec 64) 1 ++ (msbBits (0 : BitVec 64) 1 ++
    (energySavingBits p ++ (msbBits (0 : BitVec 64) 1 ++
      ((if p.gilaPresent then gilaBits p else []) ++ msbBits (0 : BitVec 64) 1)))))

/-- D-LOCATION-UPDATE-ACCEPT. -/
def acceptBits (p : MmAcceptParams) : List Bool :=
  let obit := p.energySavingInfoPresent || p.gilaPresent
  msbBits dLocationUpdateAccept 4 ++ (msbBits (p.acceptType.value.setWidth 64 : BitVec 64) 3 ++
    (msbBits (boolBit obit) 1 ++ if obit then acceptOptionBits p else []))

/-- D-ATTACH-DETACH-GRP-ID-ACK. -/
def ackBits (p : MmGrpAckParams) : List Bool :=
  let obit := p.gidDownlinkPresent && decide (0 < p.numGid)
  msbBits dAttachDetachGroupIdentityAck 4 ++
    (msbBits ((p.acceptReject &&& 1).setWidth 64 : BitVec 64) 1 ++ (msbBits (0 : BitVec 64) 1 ++
      (msbBits (boolBit obit) 1 ++ if obit then gidTail (p.gid.take p.numGid) else [])))

section
variable {cap : Nat} {bs : List Bool} {w : WBuf}

theorem Stored.gidListIf (h : Stored cap bs w) {c : Bool} {gs : List MmGroupIdentityDownlink}
    {n : Nat} (hn : n ≤ gs.length) (hc : c = true → n ≠ 0) :
    Stored cap (bs ++ if c then gidTail (gs.take n) else []) (putGidListIf w c n gs) := by
  cases c with
  | false =>
    rw [if_neg Bool.false_ne_true, List.append_nil]
    exact h
  | true =>
    have hlen : (gs.take n).length = n := List.length_take_of_le hn
    have hne : gs.take n ≠ [] := by
      intro hnil
      rw [hnil] at hlen
      exact hc rfl hlen.symm
    rw [if_pos rfl, gidTail, if_neg hne, ← List.append_assoc]
    exact (h.gidDownlinkList hlen (hc rfl)).put 0 (by decide)

theorem Stored.gila {p : MmAcceptParams} (h : Stored cap bs w) (hp : p.numGid ≤ p.gid.length) :
    Stored cap (bs ++ gilaBits p) (putGila w p) := by
  have hfill : ∀ {bs : List Bool} {w : WBuf}, Stored cap bs w →
      Stored cap (bs ++ gilaContent p) (putGidListIf (wbufPut (wbufPut (wbufPut w
        (p.gilaAcceptReject.setWidth 64) 1) 0 1) (boolBit (decide (0 < p.numGid))) 1)
        (decide (0 < p.numGid)) p.numGid p.gid) := by
    intro bs w h
    have hhead := ((h.put (p.gilaAcceptReject.setWidth 64) (n := 1) (by decide)).put 0 (n := 1)
      (by decide)).put (boolBit (decide (0 < p.numGid))) (n := 1) (by decide)
    have hlist := hhead.gidListIf (c := decide (0 < p.numGid)) hp
      (fun hc => Nat.ne_of_gt (of_decide_eq_true hc))
    have htail : (if decide (0 < p.numGid) = true then gidTail (p.gid.take p.numGid) else []) =
        gidTail (p.gid.take p.numGid) := by
      by_cases hpos : 0 < p.numGid
      · rw [decide_eq_true hpos, if_pos rfl]
      · have hzero : p.numGid = 0 := by omega
        rw [hzero]
        rfl
    rw [htail] at hlist
    simpa only [gilaContent, List.append_assoc] using hlist
  have helement := h.element elemDlGroupIdentityLocationAccept hfill
  rw [gilaBits, putGila]
  exact helement

theorem Stored.energySaving (h : Stored cap bs w) (p : MmAcceptParams) :
    Stored cap (bs ++ energySavingBits p) (putEnergySaving w p) := by
  rw [energySavingBits, putEnergySaving]
  cases p.energySavingInfoPresent with
  | false => exact h.put 0 (by decide)
  | true =>
    rw [if_pos rfl, if_pos rfl]
    have hfields := (((h.put 1 (n := 1) (by decide)).put
      (p.energySavingMode.value.setWidth 64) (n := 3) (by decide)).put
      ((p.energySavingFrameNumber &&& 0x1F).setWidth 64) (n := 5) (by decide)).put
      ((p.energySavingMultiframe &&& 0x3F).setWidth 64) (n := 6) (by decide)
    simpa only [List.append_assoc] using hfields

theorem Stored.acceptOptions (h : Stored cap bs w) {p : MmAcceptParams}
    (hp : p.numGid ≤ p.gid.length) :
    Stored cap (bs ++ acceptOptionBits p) (putAcceptOptions w p) := by
  have hnone : ∀ {bs : List Bool} {w : WBuf}, Stored cap bs w → ∀ n,
      Stored cap (bs ++ msbBits (0 : BitVec 64) 1) (putType2Generic w false 0 n) := by
    intro bs w h n
    exact h.put 0 (by decide)
  have hfront := hnone ((hnone (hnone (hnone h 24) 24) 16).energySaving p) 6
  have hgila : ∀ {bs : List Bool} {w : WBuf}, Stored cap bs w →
      Stored cap (bs ++ if p.gilaPresent then gilaBits p else [])
        (putGilaIf w p.gilaPresent p) := by
    intro bs w h
    cases p.gilaPresent with
    | false =>
      rw [if_neg Bool.false_ne_true, List.append_nil]
      exact h
    | true => exact h.gila hp
  have hend := (hgila hfront).put 0 (n := 1) (by decide)
  rw [putAcceptOptions]
  simpa only [acceptOptionBits, List.append_assoc] using hend

end

/-- The call succeeds if what it has to write fits and the capacity passes the guard. -/
structure Builds (least : Nat) (bits : List Bool) (cap : Nat)
    (result : Except Errno (List Byte × Nat)) : Prop where
  refuses : cap < least → result = .error .EINVAL
  overflows : least ≤ cap → cap < bits.length → result = .error .ENOSPC
  writes : least ≤ cap → bits.length ≤ cap →
    ∃ body, result = .ok (body, bits.length) ∧ window body 0 bits.length = bits

theorem Stored.builds {cap least : Nat} {bits : List Bool} {w : WBuf} (h : Stored cap bits w)
    {result : Except Errno (List Byte × Nat)}
    (hresult : result = if cap < least then .error .EINVAL else wbufResult w) :
    Builds least bits cap result where
  refuses hcap := by rw [hresult, if_pos hcap]
  overflows hcap hlong := by
    rw [hresult, if_neg (Nat.not_lt.2 hcap)]
    exact h.result.1 hlong
  writes hcap hfit := by
    rw [hresult, if_neg (Nat.not_lt.2 hcap)]
    exact ⟨w.bits, h.result.2 hfit⟩

theorem mmBuildDLocUpdateAccept_builds (cap : Nat) {p : MmAcceptParams}
    (hp : p.numGid ≤ p.gid.length) :
    Builds 16 (acceptBits p) cap (mmBuildDLocUpdateAccept cap p) := by
  have hhead := (((stored_init cap).put dLocationUpdateAccept (n := 4) (by decide)).put
    (p.acceptType.value.setWidth 64) (n := 3) (by decide)).put
    (boolBit (p.energySavingInfoPresent || p.gilaPresent)) (n := 1) (by decide)
  have hrest : ∀ (c : Bool) {bs : List Bool} {w : WBuf}, Stored cap bs w →
      Stored cap (bs ++ if c then acceptOptionBits p else [])
        (if c then putAcceptOptions w p else w) := by
    intro c bs w h
    cases c with
    | false =>
      rw [if_neg Bool.false_ne_true, List.append_nil]
      exact h
    | true => exact h.acceptOptions hp
  have hall := hrest (p.energySavingInfoPresent || p.gilaPresent) hhead
  simp only [List.append_assoc, List.nil_append] at hall
  have hbits : Stored cap (acceptBits p) _ := hall
  exact hbits.builds rfl

theorem mmBuildDAttachDetachGrpIdAck_builds (cap : Nat) {p : MmGrpAckParams}
    (hp : p.numGid ≤ p.gid.length) :
    Builds 8 (ackBits p) cap (mmBuildDAttachDetachGrpIdAck cap p) := by
  have hhead := ((((stored_init cap).put dAttachDetachGroupIdentityAck (n := 4) (by decide)).put
    ((p.acceptReject &&& 1).setWidth 64) (n := 1) (by decide)).put 0 (n := 1) (by decide)).put
    (boolBit (p.gidDownlinkPresent && decide (0 < p.numGid))) (n := 1) (by decide)
  have hlist := hhead.gidListIf (c := p.gidDownlinkPresent && decide (0 < p.numGid)) hp
    (fun hc => Nat.ne_of_gt (of_decide_eq_true (Bool.and_eq_true_iff.1 hc).2))
  simp only [List.append_assoc, List.nil_append] at hlist
  have hbits : Stored cap (ackBits p) _ := hlist
  exact hbits.builds rfl

end TetraBs
