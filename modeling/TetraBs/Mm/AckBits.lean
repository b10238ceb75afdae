import TetraBs.Lib.BitReader
import TetraBs.Mm.Spec

/-! The bits of D-ATTACH-DETACH-GRP-ID-ACK: what the builder writes, and what an MS reads. -/
namespace TetraBs
open TetraBs.Bits TetraBs.BitReader

/-- After a builder wrote `bs`: it noticed if `bs` does not fit, and wrote it if it does. -/
structure Stored (cap : Nat) (bs : List Bool) (w : WBuf) : Prop where
  cap_eq : w.capBits = cap
  cap_le : cap ≤ 8 * w.bits.length
  overflow_eq : w.overflow = decide (cap < bs.length)
  pos_eq : bs.length ≤ cap → w.pos = bs.length
  bits_eq : bs.length ≤ cap → window w.bits 0 bs.length = bs

theorem stored_init (cap : Nat) : Stored cap [] (wbufInit cap) := by
  refine ⟨rfl, ?_, (decide_eq_false (Nat.not_lt_zero cap)).symm, fun _ => rfl, fun _ => rfl⟩
  simp only [wbufInit, List.length_replicate]
  omega

section
variable {cap : Nat} {bs : List Bool} {w : WBuf}

/-- Of bits that do not fit only their number counts. -/
theorem Stored.of_overflow (hcap : w.capBits = cap) (hsize : cap ≤ 8 * w.bits.length)
    (hover : w.overflow = true) (hlong : cap < bs.length) : Stored cap bs w := by
  refine ⟨hcap, hsize, ?_, fun hfit => ?_, fun hfit => ?_⟩
  · rw [hover, decide_eq_true hlong]
  · exact absurd hfit (Nat.not_le_of_lt hlong)
  · exact absurd hfit (Nat.not_le_of_lt hlong)

theorem wbufPut_cases (w : WBuf) (v : BitVec 64) (n : Nat) :
    wbufPut w v n = w ∨ wbufPut w v n = { w with overflow := true } ∨
      w.pos + n ≤ w.capBits ∧
        wbufPut w v n = { w with bits := writeBits w.bits w.pos v n, pos := w.pos + n } := by
  rw [wbufPut]
  by_cases h0 : n = 0
  · exact Or.inl (if_pos h0)
  · rw [if_neg h0]
    by_cases hover : 64 < n ∨ w.capBits < w.pos + n
    · exact Or.inr (Or.inl (if_pos hover))
    · exact Or.inr (Or.inr ⟨by omega, if_neg hover⟩)

/-- Whatever is put, an overflow stays and the buffer keeps its size. -/
theorem wbufPut_keeps (hcap : w.capBits ≤ 8 * w.bits.length) (v : BitVec 64) (n : Nat) :
    (wbufPut w v n).capBits = w.capBits ∧ (wbufPut w v n).bits.length = w.bits.length ∧
      (w.overflow = true → (wbufPut w v n).overflow = true) := by
  obtain h | h | ⟨hfit, h⟩ := wbufPut_cases w v n
  · rw [h]
    exact ⟨rfl, rfl, fun ho => ho⟩
  · rw [h]
    exact ⟨rfl, rfl, fun _ => rfl⟩
  · rw [h]
    exact ⟨rfl, (wrote_writeBits v (Nat.le_trans hfit hcap)).length_eq, fun ho => ho⟩

/-- Bits that fit are written behind the others. -/
theorem Stored.put_fit (h : Stored cap bs w) (v : BitVec 64) {n : Nat} (hn : n ≤ 64) (h0 : n ≠ 0)
    (hfit : bs.length + n ≤ cap) : Stored cap (bs ++ msbBits v n) (wbufPut w v n) := by
  have hle : bs.length ≤ cap := by omega
  have hpos := h.pos_eq hle
  have hcapw := h.cap_eq
  have hcap := h.cap_le
  have hroom : w.pos + n ≤ 8 * w.bits.length := by omega
  have hw := wrote_writeBits v hroom
  rw [wbufPut, if_neg h0, if_neg (by omega)]
  refine ⟨hcapw, ?_, ?_, fun _ => ?_, fun _ => ?_⟩
  · rw [hw.length_eq]
    exact hcap
  · show w.overflow = _
    rw [h.overflow_eq, List.length_append, msbBits_length, decide_eq_false (Nat.not_lt.2 hle),
      decide_eq_false (Nat.not_lt.2 hfit)]
  · rw [List.length_append, msbBits_length, ← hpos]
  · rw [List.length_append, msbBits_length, window_add, hw.window_frame (Or.inl (by omega)),
      h.bits_eq hle, Nat.zero_add, ← hpos, window_writeBits v hroom]

theorem Stored.put_over (h : Stored cap bs w) (v : BitVec 64) {n : Nat} (h0 : n ≠ 0)
    (hle : bs.length ≤ cap) (hover : cap < bs.length + n) :
    Stored cap (bs ++ msbBits v n) (wbufPut w v n) := by
  have hpos := h.pos_eq hle
  have hcapw := h.cap_eq
  rw [wbufPut, if_neg h0, if_pos (Or.inr (by omega))]
  refine Stored.of_overflow hcapw h.cap_le rfl ?_
  rw [List.length_append, msbBits_length]
  exact hover

theorem Stored.put (h : Stored cap bs w) (v : BitVec 64) {n : Nat} (hn : n ≤ 64) :
    Stored cap (bs ++ msbBits v n) (wbufPut w v n) := by
  by_cases hlong : cap < bs.length
  · have hsize : w.capBits ≤ 8 * w.bits.length := by
      rw [h.cap_eq]
      exact h.cap_le
    obtain ⟨hcap, hlen, hover⟩ := wbufPut_keeps hsize v n
    have hset : w.overflow = true := h.overflow_eq.trans (decide_eq_true hlong)
    refine Stored.of_overflow (hcap.trans h.cap_eq) ?_ (hover hset) ?_
    · rw [hlen]
      exact h.cap_le
    · rw [List.length_append]
      exact Nat.lt_of_lt_of_le hlong (Nat.le_add_right _ _)
  by_cases h0 : n = 0
  · subst h0
    rw [wbufPut, if_pos rfl]
    have hnil : msbBits v 0 = [] := rfl
    rwa [hnil, List.append_nil]
  by_cases hfit : bs.length + n ≤ cap
  · exact h.put_fit v hn h0 hfit
  · exact h.put_over v h0 (Nat.le_of_not_lt hlong) (Nat.lt_of_not_le hfit)

theorem Stored.putIf (h : Stored cap bs w) (c : Bool) (v : BitVec 64) {n : Nat} (hn : n ≤ 64) :
    Stored cap (bs ++ fieldIf c v n) (wbufPutIf w c v n) := by
  cases c with
  | false =>
    rw [fieldIf, if_neg Bool.false_ne_true, List.append_nil]
    exact h
  | true => exact h.put v hn

/-- The 11 bits behind `front` are replaced. The position and the value have to be right only if
everything fits. -/
theorem Stored.patch {front old back : List Bool} (h : Stored cap (front ++ (old ++ back)) w)
    (hold : old.length = 11) {pos : Nat} {v u : BitVec 16}
    (hpos : (front ++ (old ++ back)).length ≤ cap → pos = front.length ∧ v = u) :
    Stored cap (front ++ (msbBits u 11 ++ back)) (wbufPatch11 w pos v) := by
  have hlen : (front ++ (msbBits u 11 ++ back)).length = (front ++ (old ++ back)).length := by
    simp [hold]
  have hcap := h.cap_eq
  have hsize := h.cap_le
  by_cases hlong : cap < (front ++ (old ++ back)).length
  · have hset : w.overflow = true := h.overflow_eq.trans (decide_eq_true hlong)
    have hpatch : (wbufPatch11 w pos v).capBits = cap ∧
        (wbufPatch11 w pos v).bits.length = w.bits.length ∧
        (wbufPatch11 w pos v).overflow = true := by
      rw [wbufPatch11]
      split
      · exact ⟨hcap, rfl, rfl⟩
      · exact ⟨hcap, (wrote_writeBits v (by omega)).length_eq, hset⟩
    obtain ⟨hcap', hlen', hset'⟩ := hpatch
    refine Stored.of_overflow hcap' ?_ hset' ?_
    · rw [hlen']
      exact hsize
    · rw [hlen]
      exact hlong
  · have hfit := Nat.le_of_not_lt hlong
    obtain ⟨rfl, rfl⟩ := hpos hfit
    have hbits := h.bits_eq hfit
    have hle : front.length + 11 ≤ cap := by
      rw [List.length_append, List.length_append, hold] at hfit
      omega
    obtain ⟨hfront, hrest⟩ := window_eq_append hbits
    obtain ⟨-, hback⟩ := window_eq_append hrest
    rw [Nat.zero_add, hold] at hback
    have hroom : front.length + 11 ≤ 8 * w.bits.length := Nat.le_trans hle hsize
    have hw := wrote_writeBits v hroom
    rw [wbufPatch11, if_neg (by omega)]
    refine ⟨hcap, ?_, ?_, fun _ => ?_, fun _ => ?_⟩
    · rw [hw.length_eq]
      exact hsize
    · rw [hlen]
      exact h.overflow_eq
    · rw [hlen]
      exact h.pos_eq hfit
    · rw [List.length_append, List.length_append, msbBits_length, window_add, window_add,
        Nat.zero_add, window_writeBits v hroom, hw.window_frame (Or.inl (by omega)), hfront,
        hw.window_frame (Or.inr (Nat.le_refl _)), hback]

/-- What the call returns. -/
theorem Stored.result (h : Stored cap bs w) :
    (cap < bs.length → wbufResult w = .error .ENOSPC) ∧
      (bs.length ≤ cap → wbufResult w = .ok (w.bits, bs.length) ∧
        window w.bits 0 bs.length = bs) := by
  constructor
  · intro hlong
    rw [wbufResult, h.overflow_eq, decide_eq_true hlong, if_pos rfl]
  · intro hfit
    rw [wbufResult, h.overflow_eq, decide_eq_false (Nat.not_lt.2 hfit),
      if_neg Bool.false_ne_true, h.pos_eq hfit]
    exact ⟨rfl, h.bits_eq hfit⟩

end

/-- The builder wrote `bs` and dropped nothing. -/
structure Written (bs : List Bool) (w : WBuf) : Prop where
  ok : w.overflow = false
  pos_eq : w.pos = bs.length
  cap_eq : w.capBits = mmBodyCapBits
  cap_le : w.capBits ≤ 8 * w.bits.length
  pos_le : w.pos ≤ w.capBits
  bits_eq : window w.bits 0 bs.length = bs

theorem Stored.written {bs : List Bool} {w : WBuf} (h : Stored mmBodyCapBits bs w)
    (hfit : bs.length ≤ mmBodyCapBits) : Written bs w where
  ok := h.overflow_eq.trans (decide_eq_false (Nat.not_lt.2 hfit))
  pos_eq := h.pos_eq hfit
  cap_eq := h.cap_eq
  cap_le := by
    rw [h.cap_eq]
    exact h.cap_le
  pos_le := by
    rw [h.pos_eq hfit, h.cap_eq]
    exact hfit
  bits_eq := h.bits_eq hfit

theorem Written.result {bs : List Bool} {w : WBuf} (h : Written bs w) :
    wbufResult w = .ok (w.bits, bs.length) := by
  rw [wbufResult, h.ok, if_neg Bool.false_ne_true, h.pos_eq]

/-! One element. -/

def MmGroupIdentityDownlink.bits (g : MmGroupIdentityDownlink) : List Bool :=
  msbBits (boolBit !g.isAttach) 1 ++ (fieldIf g.isAttach (g.attach.lifetime.setWidth 64) 2 ++
    (fieldIf g.isAttach (g.attach.classOfUsage.setWidth 64) 3 ++
    (fieldIf (!g.isAttach) (g.detachmentType.setWidth 64) 2 ++
    (msbBits (g.addressType.setWidth 64) 2 ++
    (fieldIf (g.addressType == 0 || g.addressType == 1 || g.addressType == 3)
      (addressField g.gssi) 24 ++
    (fieldIf (g.addressType == 1 || g.addressType == 3) (addressField g.addressExtension) 24 ++
    fieldIf (g.addressType == 2 || g.addressType == 3) (addressField g.vgssi) 24))))))

/-- The address bits an address type brings with it. -/
def addressBits (addressType : Byte) : Nat :=
  if addressType = 0 then 24 else if addressType = 1 then 48
  else if addressType = 2 then 24 else if addressType = 3 then 72 else 0

/-- The bits of the element that answers an attach or a detach. -/
def elementBits (isAttach : Bool) (addressType : Byte) : Nat :=
  (if isAttach then 8 else 5) + addressBits addressType

theorem addressBits_eq : ∀ a : Byte,
    (if (a == 0 || a == 1 || a == 3) = true then 24 else 0) +
      ((if (a == 1 || a == 3) = true then 24 else 0) +
        if (a == 2 || a == 3) = true then 24 else 0) = addressBits a := by
  decide +kernel

theorem MmGroupIdentityDownlink.bits_length (g : MmGroupIdentityDownlink) :
    g.bits.length = elementBits g.isAttach g.addressType := by
  rw [elementBits, ← addressBits_eq, MmGroupIdentityDownlink.bits]
  simp only [List.length_append, msbBits_length, fieldIf_length]
  cases g.isAttach
  · simp only [Bool.not_false, Bool.false_eq_true, if_true, if_false]
    omega
  · simp only [Bool.not_true, Bool.false_eq_true, if_true, if_false]
    omega

theorem elementBits_le (isAttach : Bool) (addressType : Byte) :
    elementBits isAttach addressType ≤ 80 := by
  unfold elementBits addressBits
  split_ifs <;> decide

section
variable {cap : Nat} {bs : List Bool} {w : WBuf}

theorem Stored.gidDownlink (h : Stored cap bs w) (g : MmGroupIdentityDownlink) :
    Stored cap (bs ++ g.bits) (putGidDownlink w g) := by
  have hadt := h.put (boolBit !g.isAttach) (n := 1) (by decide)
  have hlife := hadt.putIf g.isAttach (g.attach.lifetime.setWidth 64) (n := 2) (by decide)
  have hclass := hlife.putIf g.isAttach (g.attach.classOfUsage.setWidth 64) (n := 3) (by decide)
  have hdet := hclass.putIf (!g.isAttach) (g.detachmentType.setWidth 64) (n := 2) (by decide)
  have htype := hdet.put (g.addressType.setWidth 64) (n := 2) (by decide)
  have hgssi := htype.putIf (g.addressType == 0 || g.addressType == 1 || g.addressType == 3)
    (addressField g.gssi) (n := 24) (by decide)
  have hext := hgssi.putIf (g.addressType == 1 || g.addressType == 3)
    (addressField g.addressExtension) (n := 24) (by decide)
  have hvgssi := hext.putIf (g.addressType == 2 || g.addressType == 3) (addressField g.vgssi)
    (n := 24) (by decide)
  rw [putGidDownlink]
  simpa only [MmGroupIdentityDownlink.bits, List.append_assoc] using hvgssi

theorem Stored.gidDownlinks (gs : List MmGroupIdentityDownlink) (h : Stored cap bs w) :
    Stored cap (bs ++ gs.flatMap MmGroupIdentityDownlink.bits) (gs.foldl putGidDownlink w) := by
  induction gs generalizing bs w with
  | nil => rwa [List.flatMap_nil, List.append_nil]
  | cons g gs ih =>
    have hg := ih (h.gidDownlink g)
    rwa [List.append_assoc] at hg

end

/-! The list and the PDU. -/

/-- What the length field of the list covers. -/
def gidListContent (gs : List MmGroupIdentityDownlink) : List Bool :=
  msbBits (BitVec.ofNat 64 gs.length) 6 ++ gs.flatMap MmGroupIdentityDownlink.bits

def gidListBits (gs : List MmGroupIdentityDownlink) : List Bool :=
  msbBits (1 : BitVec 64) 1 ++ (msbBits elemDlGroupIdentityDownlink 4 ++
    (msbBits (BitVec.ofNat 16 (gidListContent gs).length) 11 ++ gidListContent gs))

def grpAckBits (gs : List MmGroupIdentityDownlink) : List Bool :=
  msbBits dAttachDetachGroupIdentityAck 4 ++ (msbBits (0 : BitVec 64) 1 ++
    (msbBits (0 : BitVec 64) 1 ++ (msbBits (1 : BitVec 64) 1 ++
      (gidListBits gs ++ msbBits (0 : BitVec 64) 1))))

theorem gidListBits_length (gs : List MmGroupIdentityDownlink) :
    (gidListBits gs).length = 22 + (gs.flatMap MmGroupIdentityDownlink.bits).length := by
  simp only [gidListBits, gidListContent, List.length_append, msbBits_length]
  omega

theorem grpAckBits_length (gs : List MmGroupIdentityDownlink) :
    (grpAckBits gs).length = 30 + (gs.flatMap MmGroupIdentityDownlink.bits).length := by
  simp only [grpAckBits, gidListBits_length, List.length_append, msbBits_length]
  omega

section
variable {cap : Nat} {bs : List Bool} {w : WBuf}

/-- An element behind the position of its length field. -/
theorem Stored.element (h : Stored cap bs w) (id : BitVec 64) {content : List Bool}
    {fill : WBuf → WBuf}
    (hfill : ∀ {bs : List Bool} {w : WBuf}, Stored cap bs w →
      Stored cap (bs ++ content) (fill w)) :
    let w₂ := wbufPut (wbufPut w 1 1) id 4
    let w₃ := wbufPut w₂ 0 11
    let w₄ := fill w₃
    Stored cap (bs ++ (msbBits (1 : BitVec 64) 1 ++ (msbBits id 4 ++
      (msbBits (BitVec.ofNat 16 content.length) 11 ++ content))))
      (wbufPatch11 w₄ w₂.pos (BitVec.ofNat 16 (w₄.pos - w₃.pos))) := by
  intro w₂ w₃ w₄
  have h₂ : Stored cap (bs ++ msbBits (1 : BitVec 64) 1 ++ msbBits id 4) w₂ :=
    (h.put 1 (by decide)).put id (by decide)
  have h₃ : Stored cap (bs ++ msbBits (1 : BitVec 64) 1 ++ msbBits id 4 ++
      msbBits (0 : BitVec 64) 11) w₃ := h₂.put 0 (by decide)
  have h₄ := hfill h₃
  have hassoc : bs ++ msbBits (1 : BitVec 64) 1 ++ msbBits id 4 ++ msbBits (0 : BitVec 64) 11 ++
      content = (bs ++ msbBits (1 : BitVec 64) 1 ++ msbBits id 4) ++
        (msbBits (0 : BitVec 64) 11 ++ content) := List.append_assoc _ _ _
  rw [hassoc] at h₄
  have hpos : (bs ++ msbBits (1 : BitVec 64) 1 ++ msbBits id 4 ++
      (msbBits (0 : BitVec 64) 11 ++ content)).length ≤ cap →
      w₂.pos = (bs ++ msbBits (1 : BitVec 64) 1 ++ msbBits id 4).length ∧
        BitVec.ofNat 16 (w₄.pos - w₃.pos) = BitVec.ofNat 16 content.length := by
    intro hfit
    have hlen := hfit
    simp only [List.length_append] at hlen
    have hpos₂ := h₂.pos_eq (by simp only [List.length_append]; omega)
    have hpos₃ := h₃.pos_eq (by simp only [List.length_append]; omega)
    have hpos₄ := h₄.pos_eq hfit
    refine ⟨hpos₂, congrArg (BitVec.ofNat 16) ?_⟩
    rw [hpos₃, hpos₄]
    simp only [List.length_append]
    omega
  have hpatch := h₄.patch (msbBits_length _ _) hpos
  simpa only [List.append_assoc] using hpatch

theorem Stored.gidDownlinkList {gs : List MmGroupIdentityDownlink} (h : Stored cap bs w)
    {n : Nat} (hn : (gs.take n).length = n) (hpos : n ≠ 0) :
    Stored cap (bs ++ gidListBits (gs.take n)) (putGidDownlinkList w n gs) := by
  have hfill : ∀ {bs : List Bool} {w : WBuf}, Stored cap bs w →
      Stored cap (bs ++ gidListContent (gs.take n))
        ((gs.take n).foldl putGidDownlink (wbufPut w (BitVec.ofNat 64 n) 6)) := by
    intro bs w h
    have hcount := (h.put (BitVec.ofNat 64 n) (n := 6) (by decide)).gidDownlinks (gs.take n)
    rw [List.append_assoc] at hcount
    rw [gidListContent, hn]
    exact hcount
  rw [putGidDownlinkList, if_neg hpos]
  exact h.element elemDlGroupIdentityDownlink hfill

end

/-- What the builder returns for a list of groups that fits its buffer. -/
theorem mmBuildDAttachDetachGrpIdAck_bits {p : MmGrpAckParams} (hne : p.gid ≠ [])
    (hpresent : p.gidDownlinkPresent = true) (hnum : p.numGid = p.gid.length)
    (haccept : p.acceptReject = 0) (hfit : (grpAckBits p.gid).length ≤ mmBodyCapBits) :
    ∃ body, mmBuildDAttachDetachGrpIdAck mmBodyCapBits p = .ok (body, (grpAckBits p.gid).length) ∧
      window body 0 (grpAckBits p.gid).length = grpAckBits p.gid := by
  have hpos : 0 < p.gid.length := List.length_pos_iff.2 hne
  have hobit : (p.gidDownlinkPresent && decide (0 < p.numGid)) = true := by
    rw [hpresent, hnum, decide_eq_true hpos]
    rfl
  have htake : p.gid.take p.numGid = p.gid := by rw [hnum, List.take_length]
  have hhead := ((((stored_init mmBodyCapBits).put dAttachDetachGroupIdentityAck (n := 4)
    (by decide)).put ((p.acceptReject &&& 1).setWidth 64) (n := 1) (by decide)).put 0 (n := 1)
    (by decide)).put (boolBit (p.gidDownlinkPresent && decide (0 < p.numGid))) (n := 1)
    (by decide)
  have hlist := hhead.gidDownlinkList (by rw [htake, hnum]) (by omega)
  rw [htake] at hlist
  have hend := hlist.put 0 (n := 1) (by decide)
  have hbits : [] ++ msbBits dAttachDetachGroupIdentityAck 4 ++
      msbBits ((p.acceptReject &&& 1).setWidth 64) 1 ++ msbBits (0 : BitVec 64) 1 ++
      msbBits (boolBit (p.gidDownlinkPresent && decide (0 < p.numGid))) 1 ++ gidListBits p.gid ++
      msbBits (0 : BitVec 64) 1 = grpAckBits p.gid := by
    rw [haccept, hobit]
    simp only [grpAckBits, List.append_assoc, List.nil_append]
    rfl
  rw [hbits] at hend
  have hwritten := hend.written hfit
  rw [mmBuildDAttachDetachGrpIdAck, if_neg (by decide)]
  simp only
  rw [putGidListIf, if_pos hobit, hwritten.result]
  exact ⟨_, rfl, hwritten.bits_eq⟩

/-! What an MS reads. -/

/-- A group in a list: to attach or detach, with its address. Parts an address type does not have
are zero. -/
structure GroupEntry where
  isAttach : Bool
  addressType : Nat
  gssi : Nat
  addressExtension : Nat
  vgssi : Nat
deriving DecidableEq, Repr

def readGidDownlink : Reader GroupEntry := do
  let detach ← takeField 1
  let _ ← takeFieldIf (detach == 0) 2
  let _ ← takeFieldIf (detach == 0) 3
  let _ ← takeFieldIf (detach != 0) 2
  let addressType ← takeField 2
  let gssi ← takeFieldIf (addressType == 0 || addressType == 1 || addressType == 3) 24
  let addressExtension ← takeFieldIf (addressType == 1 || addressType == 3) 24
  let vgssi ← takeFieldIf (addressType == 2 || addressType == 3) 24
  return ⟨detach == 0, addressType, gssi, addressExtension, vgssi⟩

def readGidContent : Reader (List GroupEntry) := do
  let num ← takeField 6
  takeMany readGidDownlink num

/-- An accepting D-ATTACH-DETACH-GRP-ID-ACK behind its MLE discriminator. -/
def readGroupAck : Reader (List GroupEntry) := do
  expectField 3 1
  expectField 4 11
  expectField 1 0
  expectField 1 0
  expectField 1 1
  expectField 1 1
  expectField 4 7
  let entries ← withLength 11 readGidContent
  expectField 1 0
  return entries

/-- The groups a downlink answers, in the order of its list. -/
def ackedGroups (m : TleSapMsg) : Option (List GroupEntry) :=
  match readGroupAck.run (window m.pdu.body 0 m.pdu.bodyLenBits) with
  | .ok (entries, []) => some entries
  | _ => none

/-- The entry an element stands for. -/
def MmGroupIdentityDownlink.entry (g : MmGroupIdentityDownlink) : GroupEntry :=
  { isAttach := g.isAttach
    addressType := g.addressType.toNat % 4
    gssi := if g.addressType == 0 || g.addressType == 1 || g.addressType == 3 then
      g.gssi.toNat % 2 ^ 24 else 0
    addressExtension := if g.addressType == 1 || g.addressType == 3 then
      g.addressExtension.toNat % 2 ^ 24 else 0
    vgssi := if g.addressType == 2 || g.addressType == 3 then g.vgssi.toNat % 2 ^ 24 else 0 }

theorem addressField_toNat (v : BitVec 32) :
    (addressField v).toNat % 2 ^ 24 = v.toNat % 2 ^ 24 := by
  have hmask : tetraSsiMask24.toNat = 2 ^ 24 - 1 := by decide
  rw [addressField, BitVec.toNat_setWidth, BitVec.toNat_and, hmask,
    Nat.and_two_pow_sub_one_eq_mod]
  omega

/-- The address type as the MS reads it selects what the builder's own tests select. -/
theorem addressType_beq : ∀ a : Byte, a.toNat < 4 →
    (a.setWidth 64).toNat % 2 ^ 2 = a.toNat % 4 ∧
      ((a.toNat % 4 == 0) = (a == 0) ∧ (a.toNat % 4 == 1) = (a == 1)) ∧
      (a.toNat % 4 == 2) = (a == 2) ∧ (a.toNat % 4 == 3) = (a == 3) := by
  decide +kernel

theorem reads_gidDownlink {g : MmGroupIdentityDownlink} (ht : g.addressType.toNat < 4) :
    Reads readGidDownlink g.bits g.entry := by
  obtain ⟨htype, ⟨h0, h1⟩, h2, h3⟩ := addressType_beq g.addressType ht
  have hdetach : ((boolBit !g.isAttach).toNat % 2 ^ 1 == 0) = g.isAttach ∧
      ((boolBit !g.isAttach).toNat % 2 ^ 1 != 0) = !g.isAttach := by
    cases g.isAttach <;> decide
  rw [MmGroupIdentityDownlink.bits, readGidDownlink]
  refine (reads_takeField (boolBit !g.isAttach) 1).bind ?_
  rw [hdetach.1, hdetach.2]
  refine (reads_takeFieldIf _ _ 2).bind ?_
  refine (reads_takeFieldIf _ _ 3).bind ?_
  refine (reads_takeFieldIf _ _ 2).bind ?_
  refine (reads_takeField _ 2).bind ?_
  rw [htype, h0, h1, h2, h3]
  refine (reads_takeFieldIf _ _ 24).bind ?_
  refine (reads_takeFieldIf _ _ 24).bind ?_
  refine (reads_takeFieldIf _ _ 24).bind_end ?_
  rw [addressField_toNat, addressField_toNat, addressField_toNat]
  exact reads_pure _

theorem reads_gidContent {gs : List MmGroupIdentityDownlink}
    (ht : ∀ g ∈ gs, g.addressType.toNat < 4) (hlen : gs.length < 64) :
    Reads readGidContent (gidListContent gs) (gs.map MmGroupIdentityDownlink.entry) := by
  have hnum : (BitVec.ofNat 64 gs.length).toNat % 2 ^ 6 = gs.length := by
    rw [BitVec.toNat_ofNat]
    omega
  rw [gidListContent, readGidContent]
  refine (reads_takeField _ 6).bind ?_
  rw [hnum]
  exact reads_takeMany fun g hg => reads_gidDownlink (ht g hg)

/-- The acknowledgement behind its discriminator is read as its list of groups. -/
theorem reads_groupAck {gs : List MmGroupIdentityDownlink}
    (ht : ∀ g ∈ gs, g.addressType.toNat < 4) (hlen : gs.length < 64)
    (hcontent : (gidListContent gs).length < 2 ^ 11) :
    Reads readGroupAck (msbBits (1 : BitVec 64) 3 ++ grpAckBits gs)
      (gs.map MmGroupIdentityDownlink.entry) := by
  have hlength : (BitVec.ofNat 16 (gidListContent gs).length).toNat % 2 ^ 11 =
      (gidListContent gs).length := by
    rw [BitVec.toNat_ofNat]
    omega
  rw [grpAckBits, gidListBits, readGroupAck]
  simp only [List.append_assoc]
  refine (reads_expectField (1 : BitVec 64) 3).bind ?_
  refine (reads_expectField dAttachDetachGroupIdentityAck 4).bind ?_
  refine (reads_expectField (0 : BitVec 64) 1).bind ?_
  refine (reads_expectField (0 : BitVec 64) 1).bind ?_
  refine (reads_expectField (1 : BitVec 64) 1).bind ?_
  refine (reads_expectField (1 : BitVec 64) 1).bind ?_
  refine (reads_expectField elemDlGroupIdentityDownlink 4).bind ?_
  rw [← List.append_assoc]
  refine (reads_withLength (reads_gidContent ht hlen) _ hlength).bind ?_
  exact (reads_expectField (0 : BitVec 64) 1).bind_end (reads_pure _)

end TetraBs
