import TetraBs.Lib.Bits
import TetraBs.Lib.BitReader

/-! `BitBuffer`, the MSB-first bit cursor of `sw/core/src/bitbuffer.c`. -/
namespace TetraBs
open TetraBs.Bits

inductive Errno where
  | EINVAL | EPROTO | ENOSPC | E2BIG | EBUSY | ENOTSUP | ENOENT | EIO | EPERM | EBADMSG
deriving DecidableEq, Repr

/-- A call stops with a negative errno or at a failed `assert`. -/
inductive Fault where
  | assertion
  | errno (e : Errno)
deriving DecidableEq, Repr

/-- `buffer` is the whole array behind the cursor; `start`, `pos` and `endBits` are absolute
bit positions in it. -/
structure BitBuffer where
  buffer : List Byte
  capBits : Nat
  start : Nat
  pos : Nat
  endBits : Nat
  autoexpand : Bool
  start_le : start ≤ pos
  pos_le : pos ≤ endBits
  end_le : endBits ≤ capBits
  cap_le : capBits ≤ 8 * buffer.length

/-- `(1u << n) - 1u` -/
def lowMask (n : Nat) : BitVec 32 := (1 <<< n) - 1

/-! `bb_read_at`, `bb_write_at`: a head fragment up to the byte boundary, whole bytes, a
tail fragment. `rem` is `bits_remaining`. -/

/-- `take` bits at `cur`, all in one byte. -/
def readFragment (buf : List Byte) (cur take : Nat) : BitVec 32 :=
  ((buf.getD (cur / 8) 0).setWidth 32 >>> (8 - cur % 8 - take)) &&& lowMask take

/-- The bits `rem - take`, ..., `rem - 1` of `v` into the `take` bits at `cur`, all in one
byte, without disturbing its other bits. -/
def writeFragment (buf : List Byte) (v : BitVec 32) (cur rem take : Nat) : List Byte :=
  let shift := 8 - cur % 8 - take
  let mask : Byte := (lowMask take <<< shift).setWidth 8
  let bits : Byte := (((v >>> (rem - take)) &&& lowMask take) <<< shift).setWidth 8
  buf.set (cur / 8) ((buf.getD (cur / 8) 0 &&& ~~~mask) ||| bits)

/-- Length of the head fragment; 0 on a byte boundary. -/
def headTake (cur rem : Nat) : Nat :=
  if cur % 8 ≠ 0 ∧ 0 < rem then (if 8 - cur % 8 < rem then 8 - cur % 8 else rem) else 0

/-- The loop over whole bytes, `k` iterations. -/
def readWhole (buf : List Byte) : Nat → BitVec 32 → Nat → BitVec 32
  | 0, result, _ => result
  | k + 1, result, cur =>
    readWhole buf k ((result <<< 8) ||| (buf.getD (cur / 8) 0).setWidth 32) (cur + 8)

def writeWhole (v : BitVec 32) : Nat → List Byte → Nat → Nat → List Byte
  | 0, buf, _, _ => buf
  | k + 1, buf, cur, rem =>
    writeWhole v k (buf.set (cur / 8) ((v >>> (rem - 8)).setWidth 8)) (cur + 8) (rem - 8)

def bbReadAt (buf : List Byte) (bitPos n : Nat) : BitVec 32 :=
  let take := headTake bitPos n
  let result := if take ≠ 0 then readFragment buf bitPos take else 0
  let cur := bitPos + take
  let rem := n - take
  let result := readWhole buf (rem / 8) result cur
  let cur := cur + 8 * (rem / 8)
  let rem := rem % 8
  if 0 < rem then (result <<< rem) ||| readFragment buf cur rem else result

def bbWriteAt (buf : List Byte) (bitPos : Nat) (v : BitVec 32) (n : Nat) : List Byte :=
  let v := if n = 32 then v else v &&& lowMask n
  let take := headTake bitPos n
  let buf := if take ≠ 0 then writeFragment buf v bitPos n take else buf
  let cur := bitPos + take
  let rem := n - take
  let buf := writeWhole v (rem / 8) buf cur rem
  let cur := cur + 8 * (rem / 8)
  let rem := rem % 8
  if 0 < rem then writeFragment buf v cur rem rem else buf

theorem getLsbD_lowMask {n : Nat} (hn : n < 32) (j : Nat) :
    (lowMask n).getLsbD j = decide (j < n) := by
  have hpow : 2 ^ n < 2 ^ 32 := Nat.pow_lt_pow_right (by decide) hn
  have hnat : (lowMask n).toNat = 2 ^ n - 1 := by
    have := Nat.two_pow_pos n
    simp only [lowMask, BitVec.toNat_sub, Nat.shiftLeft_eq]
    simp
    omega
  rw [BitVec.getLsbD, hnat, Nat.testBit_two_pow_sub_one]

theorem holds_readFragment (buf : List Byte) {cur take : Nat} (hfit : cur % 8 + take ≤ 8) :
    Holds (readFragment buf cur take) buf cur (cur + take) := by
  intro j hj
  simp only [readFragment, BitVec.getLsbD_and, BitVec.getLsbD_ushiftRight,
    BitVec.getLsbD_setWidth, getLsbD_lowMask (by omega : take < 32), bitAt]
  by_cases hlt : j < take
  · have hdiv : (cur + take - 1 - j) / 8 = cur / 8 := by omega
    have hmod : 7 - (cur + take - 1 - j) % 8 = 8 - cur % 8 - take + j := by omega
    have h1 : 8 - cur % 8 - take + j < 32 := by omega
    have h2 : j < cur + take - cur := by omega
    rw [hdiv, hmod]
    simp [hlt, h1]
  · simp [hlt]

theorem holds_byte {buf : List Byte} {cur : Nat} (hcur : cur % 8 = 0) :
    Holds ((buf.getD (cur / 8) 0).setWidth 32) buf cur (cur + 8) := by
  intro j hj
  simp only [BitVec.getLsbD_setWidth, hj, decide_true, Bool.true_and, bitAt]
  by_cases hlt : j < 8
  · have hdiv : (cur + 8 - 1 - j) / 8 = cur / 8 := by omega
    have hmod : 7 - (cur + 8 - 1 - j) % 8 = j := by omega
    rw [hdiv, hmod]
    simp [hlt]
  · rw [BitVec.getLsbD_of_ge _ _ (by omega)]
    simp [hlt]

theorem holds_readWhole {buf : List Byte} {s : Nat} (k : Nat) {result : BitVec 32} {cur : Nat}
    (h : Holds result buf s cur) (hs : s ≤ cur) (hcur : k = 0 ∨ cur % 8 = 0) :
    Holds (readWhole buf k result cur) buf s (cur + 8 * k) := by
  induction k generalizing result cur with
  | zero => simpa [readWhole] using h
  | succ k ih =>
    have hc : cur % 8 = 0 := by omega
    have hstep : Holds ((result <<< 8) ||| (buf.getD (cur / 8) 0).setWidth 32) buf s (cur + 8) := by
      have := h.append (holds_byte hc) hs (Nat.le_add_right cur 8)
      rwa [Nat.add_sub_cancel_left] at this
    have := ih hstep (by omega) (by omega)
    rwa [(by omega : cur + 8 + 8 * k = cur + 8 * (k + 1))] at this

theorem headTake_spec (cur rem : Nat) :
    headTake cur rem ≤ rem ∧ cur % 8 + headTake cur rem ≤ 8 ∧
      (rem - headTake cur rem = 0 ∨ (cur + headTake cur rem) % 8 = 0) := by
  rw [headTake]
  split
  · split <;> omega
  · omega

/-- `bb_read_at` reads the `n` bits at `bit_pos`. -/
theorem holds_bbReadAt (buf : List Byte) (bitPos n : Nat) :
    Holds (bbReadAt buf bitPos n) buf bitPos (bitPos + n) := by
  obtain ⟨hle, hfit, halign⟩ := headTake_spec bitPos n
  have hhead : Holds (if headTake bitPos n ≠ 0 then readFragment buf bitPos (headTake bitPos n)
      else 0) buf bitPos (bitPos + headTake bitPos n) := by
    split
    · exact holds_readFragment buf hfit
    · rw [(by omega : headTake bitPos n = 0)]
      exact holds_zero buf bitPos
  have hwhole := holds_readWhole ((n - headTake bitPos n) / 8) hhead (by omega) (by omega)
  have hsum : bitPos + headTake bitPos n + 8 * ((n - headTake bitPos n) / 8) +
      (n - headTake bitPos n) % 8 = bitPos + n := by omega
  simp only [bbReadAt]
  split
  · have := hwhole.append (holds_readFragment buf
      (by omega : _ + (n - headTake bitPos n) % 8 ≤ 8))
      (by omega) (Nat.le_add_right _ _)
    rwa [Nat.add_sub_cancel_left, hsum] at this
  · rwa [(by omega : bitPos + n = bitPos + headTake bitPos n + 8 * ((n - headTake bitPos n) / 8))]

/-- Bits of `v` written so that its lowest bit lands just before `e`. -/
def lowBits (v : BitVec 32) (e i : Nat) : Bool := v.getLsbD (e - 1 - i)

theorem wrote_writeFragment (buf : List Byte) (v : BitVec 32) (cur rem take : Nat)
    (hfit : cur % 8 + take ≤ 8) (htake : take ≤ rem) (hpos : 0 < take)
    (hlen : cur + take ≤ 8 * buf.length) :
    Wrote (lowBits v (cur + rem)) cur (cur + take) buf (writeFragment buf v cur rem take) := by
  refine wrote_byte (by omega) hfit fun j hj => ?_
  simp only [BitVec.getLsbD_or, BitVec.getLsbD_and, BitVec.getLsbD_not, BitVec.getLsbD_setWidth,
    BitVec.getLsbD_shiftLeft, BitVec.getLsbD_ushiftRight, getLsbD_lowMask (by omega : take < 32)]
  by_cases hr : 8 - cur % 8 - take ≤ j ∧ j < 8 - cur % 8
  · have h1 : ¬j < 8 - cur % 8 - take := by omega
    have h2 : j - (8 - cur % 8 - take) < take := by omega
    have h3 : rem - take + (j - (8 - cur % 8 - take)) =
        cur + rem - 1 - (cur / 8 * 8 + (7 - j)) := by omega
    rw [if_pos hr]
    simp [lowBits, hj, h1, h2, h3, (by omega : j < 32)]
  · rw [if_neg hr]
    by_cases h1 : j < 8 - cur % 8 - take
    · simp [hj, h1]
    · have h2 : ¬j - (8 - cur % 8 - take) < take := by omega
      simp [hj, h2]

theorem wrote_byte_aligned (buf : List Byte) (v : BitVec 32) (cur rem : Nat)
    (hcur : cur % 8 = 0) (hrem : 8 ≤ rem) (hlen : cur + 8 ≤ 8 * buf.length) :
    Wrote (lowBits v (cur + rem)) cur (cur + 8) buf
      (buf.set (cur / 8) ((v >>> (rem - 8)).setWidth 8)) := by
  refine wrote_byte (by omega) (by omega) fun j hj => ?_
  have h1 : rem - 8 + j = cur + rem - 1 - (cur / 8 * 8 + (7 - j)) := by omega
  rw [if_pos (by omega)]
  simp [lowBits, hj, h1]

theorem wrote_writeWhole (v : BitVec 32) (k : Nat) (buf : List Byte) (cur rem : Nat)
    (hcur : k = 0 ∨ cur % 8 = 0) (hrem : 8 * k ≤ rem) (hlen : cur + rem ≤ 8 * buf.length) :
    Wrote (lowBits v (cur + rem)) cur (cur + 8 * k) buf (writeWhole v k buf cur rem) := by
  induction k generalizing buf cur rem with
  | zero => exact Wrote.refl _ _ _
  | succ k ih =>
    have hstep := wrote_byte_aligned buf v cur rem (by omega) (by omega) (by omega)
    have hrest := ih (buf.set (cur / 8) ((v >>> (rem - 8)).setWidth 8)) (cur + 8)
      (rem - 8) (by omega) (by omega) (by rw [hstep.length_eq]; omega)
    rw [(by omega : cur + 8 + (rem - 8) = cur + rem),
      (by omega : cur + 8 + 8 * k = cur + 8 * (k + 1))] at hrest
    exact hstep.trans hrest (by omega) (by omega)

/-- `bb_write_at` writes the low `n` bits of `v` at `bit_pos` and nothing else. -/
theorem wrote_bbWriteAt {buf : List Byte} {bitPos n : Nat} (v : BitVec 32) (hn : n ≤ 32)
    (hlen : bitPos + n ≤ 8 * buf.length) :
    Wrote (lowBits v (bitPos + n)) bitPos (bitPos + n) buf (bbWriteAt buf bitPos v n) := by
  obtain ⟨hle, hfit, halign⟩ := headTake_spec bitPos n
  generalize hu : (if n = 32 then v else v &&& lowMask n) = u
  have hmask : ∀ i, bitPos ≤ i → i < bitPos + n →
      lowBits u (bitPos + n) i = lowBits v (bitPos + n) i := by
    intro i hi hin
    subst hu
    unfold lowBits
    split
    · rfl
    · have hlt : bitPos + n - 1 - i < n := by omega
      rw [BitVec.getLsbD_and, getLsbD_lowMask (by omega)]
      simp [hlt]
  refine Wrote.congr ?_ hmask
  simp only [bbWriteAt, hu]
  generalize htake : headTake bitPos n = take at hle hfit halign
  have hhead : Wrote (lowBits u (bitPos + n)) bitPos (bitPos + take) buf
      (if take ≠ 0 then writeFragment buf u bitPos n take else buf) := by
    split
    · exact wrote_writeFragment _ _ _ _ _ hfit hle (by omega) (by omega)
    · rw [(by omega : take = 0)]
      exact Wrote.refl _ _ _
  generalize hb : (if take ≠ 0 then writeFragment buf u bitPos n take else buf) = b at hhead
  have hblen := hhead.length_eq
  have hwhole := wrote_writeWhole u ((n - take) / 8) b (bitPos + take) (n - take)
    (by omega) (by omega) (by omega)
  rw [(by omega : bitPos + take + (n - take) = bitPos + n)] at hwhole
  have hpre := hhead.trans hwhole (by omega) (by omega)
  generalize hc : writeWhole u ((n - take) / 8) b (bitPos + take) (n - take) = c at hpre
  have hclen := hpre.length_eq
  split
  · have htail := wrote_writeFragment c u (bitPos + take + 8 * ((n - take) / 8))
      ((n - take) % 8) ((n - take) % 8) (by omega) le_rfl (by assumption) (by omega)
    rw [(by omega : bitPos + take + 8 * ((n - take) / 8) + (n - take) % 8 = bitPos + n)] at htail
    exact hpre.trans htail (by omega) (by omega)
  · rwa [(by omega : bitPos + take + 8 * ((n - take) / 8) = bitPos + n)] at hpre

/-! Public API. -/

def bbInit (buf : List Byte) (lenBits : Nat) (h : lenBits ≤ 8 * buf.length) : BitBuffer :=
  ⟨buf, lenBits, 0, 0, lenBits, false, le_rfl, Nat.zero_le _, le_rfl, h⟩

def bbInitAutoexpand (buf : List Byte) (capBits : Nat) (h : capBits ≤ 8 * buf.length) :
    BitBuffer :=
  ⟨buf, capBits, 0, 0, 0, true, le_rfl, le_rfl, Nat.zero_le _, h⟩

theorem bbWriteAt_length {buf : List Byte} {pos n e : Nat} (v : BitVec 32) (hn : n ≤ 32)
    (he : pos + n ≤ e) (hlen : e ≤ 8 * buf.length) :
    e ≤ 8 * (bbWriteAt buf pos v n).length := by
  rwa [(wrote_bbWriteAt v hn (le_trans he hlen)).length_eq]

def bbPutBits (bb : BitBuffer) (v : BitVec 32) (n : Nat) : Except Fault BitBuffer :=
  if hn : 1 ≤ n ∧ n ≤ 32 then
    if n < 32 ∧ v >>> n ≠ 0 then .error .assertion
    else if h : bb.pos + n ≤ bb.endBits then
      .ok ⟨bbWriteAt bb.buffer bb.pos v n, bb.capBits, bb.start, bb.pos + n, bb.endBits,
        bb.autoexpand, le_trans bb.start_le (Nat.le_add_right _ _), h, bb.end_le,
        bbWriteAt_length v hn.2 (le_trans h bb.end_le) bb.cap_le⟩
    else if h : bb.autoexpand = true ∧ bb.pos + n ≤ bb.capBits then
      .ok ⟨bbWriteAt bb.buffer bb.pos v n, bb.capBits, bb.start, bb.pos + n, bb.pos + n,
        bb.autoexpand, le_trans bb.start_le (Nat.le_add_right _ _), le_rfl, h.2,
        bbWriteAt_length v hn.2 h.2 bb.cap_le⟩
    else .error .assertion
  else .error .assertion

/-- On underrun the cursor stays and the value is 0. -/
def bbGetBits (bb : BitBuffer) (n : Nat) : Except Fault (BitVec 32 × BitBuffer) :=
  if 1 ≤ n ∧ n ≤ 32 then
    if h : bb.pos + n ≤ bb.endBits then
      .ok (bbReadAt bb.buffer bb.pos n,
        { bb with pos := bb.pos + n, start_le := le_trans bb.start_le (Nat.le_add_right _ _),
                  pos_le := h })
    else .ok (0, bb)
  else .error .assertion

def bbPosBits (bb : BitBuffer) : Nat := bb.pos - bb.start

def bbSeekBits (bb : BitBuffer) (pos : Nat) : Except Fault BitBuffer :=
  if h : bb.start + pos ≤ bb.endBits then
    .ok { bb with pos := bb.start + pos, start_le := Nat.le_add_right _ _, pos_le := h }
  else .error .assertion

def bbRemaining (bb : BitBuffer) : Nat := bb.endBits - bb.pos

/-- Absolute bit position up to which a write can go. -/
def BitBuffer.limit (bb : BitBuffer) : Nat := if bb.autoexpand then bb.capBits else bb.endBits

/-- `bb'` is `bb` after `bits` were put at its cursor. -/
structure Put (bb bb' : BitBuffer) (bits : List Bool) : Prop where
  pos_eq : bb'.pos = bb.pos + bits.length
  start_eq : bb'.start = bb.start
  limit_eq : bb'.limit = bb.limit
  length_eq : bb'.buffer.length = bb.buffer.length
  window_eq : window bb'.buffer bb.pos bits.length = bits
  frame : ∀ i, i < bb.pos ∨ bb'.pos ≤ i → bitAt bb'.buffer i = bitAt bb.buffer i

theorem Put.refl (bb : BitBuffer) : Put bb bb [] :=
  ⟨rfl, rfl, rfl, rfl, rfl, fun _ _ => rfl⟩

theorem Put.append {a b c : BitBuffer} {u v : List Bool} (h : Put a b u) (h' : Put b c v) :
    Put a c (u ++ v) := by
  have hpos : c.pos = a.pos + (u ++ v).length := by
    rw [h'.pos_eq, h.pos_eq, List.length_append, Nat.add_assoc]
  refine ⟨hpos, h'.start_eq.trans h.start_eq, h'.limit_eq.trans h.limit_eq,
    h'.length_eq.trans h.length_eq, ?_, fun i hi => ?_⟩
  · rw [List.length_append, window_add]
    congr 1
    · refine Eq.trans (window_congr fun k hk => h'.frame _ ?_) h.window_eq
      left
      rw [h.pos_eq]
      omega
    · rw [← h.pos_eq]
      exact h'.window_eq
  · have hb := h.pos_eq
    have hc := h'.pos_eq
    rw [List.length_append] at hpos
    rw [h'.frame i (by omega), h.frame i (by omega)]

theorem ushiftRight_eq_zero {v : BitVec 32} {n : Nat} (h : v.toNat < 2 ^ n) : v >>> n = 0 := by
  refine BitVec.eq_of_toNat_eq ?_
  rw [BitVec.toNat_ushiftRight, Nat.shiftRight_eq_div_pow, Nat.div_eq_of_lt h]
  rfl

theorem bbPutBits_spec (bb : BitBuffer) {v : BitVec 32} {n : Nat} (hn : 1 ≤ n) (hn' : n ≤ 32)
    (hv : v.toNat < 2 ^ n) (hroom : bb.pos + n ≤ bb.limit) :
    ∃ bb', bbPutBits bb v n = .ok bb' ∧ Put bb bb' (msbBits v n) := by
  have hfits : ¬(n < 32 ∧ v >>> n ≠ 0) := fun h => h.2 (ushiftRight_eq_zero hv)
  have hcap : bb.pos + n ≤ bb.capBits := by
    have := bb.end_le
    unfold BitBuffer.limit at hroom
    split at hroom <;> omega
  have hwrote := wrote_bbWriteAt v hn' (le_trans hcap bb.cap_le : bb.pos + n ≤ 8 * bb.buffer.length)
  have hwin : window (bbWriteAt bb.buffer bb.pos v n) bb.pos n = msbBits v n := by
    have h := hwrote.window_eq
    rw [Nat.add_sub_cancel_left] at h
    rw [h]
    refine List.map_congr_left fun k hk => ?_
    have := List.mem_range.1 hk
    rw [lowBits]
    congr 1
    omega
  have hframe : ∀ i, i < bb.pos ∨ bb.pos + n ≤ i →
      bitAt (bbWriteAt bb.buffer bb.pos v n) i = bitAt bb.buffer i := by
    intro i hi
    rw [hwrote.bits, if_neg (by omega)]
  unfold bbPutBits
  rw [dif_pos ⟨hn, hn'⟩, if_neg hfits]
  by_cases hend : bb.pos + n ≤ bb.endBits
  · rw [dif_pos hend]
    exact ⟨_, rfl, by simp, rfl, rfl, hwrote.length_eq, by simpa using hwin, hframe⟩
  · have hauto : bb.autoexpand = true := by
      unfold BitBuffer.limit at hroom
      split at hroom
      · assumption
      · omega
    rw [dif_neg hend, dif_pos ⟨hauto, hcap⟩]
    exact ⟨_, rfl, by simp, rfl, by simp [BitBuffer.limit, hauto], hwrote.length_eq,
      by simpa using hwin, hframe⟩

/-- `bb'` is `bb` with the cursor moved forward by `n`. -/
structure Skip (bb bb' : BitBuffer) (n : Nat) : Prop where
  pos_eq : bb'.pos = bb.pos + n
  start_eq : bb'.start = bb.start
  end_eq : bb'.endBits = bb.endBits
  buffer_eq : bb'.buffer = bb.buffer

theorem Skip.refl (bb : BitBuffer) : Skip bb bb 0 := ⟨rfl, rfl, rfl, rfl⟩

theorem Skip.trans {a b c : BitBuffer} {m n : Nat} (h : Skip a b m) (h' : Skip b c n) :
    Skip a c (m + n) :=
  ⟨by rw [h'.pos_eq, h.pos_eq, Nat.add_assoc], h'.start_eq.trans h.start_eq,
    h'.end_eq.trans h.end_eq, h'.buffer_eq.trans h.buffer_eq⟩

theorem bbGetBits_spec (bb : BitBuffer) {n : Nat} (hn : 1 ≤ n) (hn' : n ≤ 32)
    (hroom : bb.pos + n ≤ bb.endBits) :
    ∃ v bb', bbGetBits bb n = .ok (v, bb') ∧ Holds v bb.buffer bb.pos (bb.pos + n) ∧
      Skip bb bb' n := by
  rw [bbGetBits]
  rw [if_pos ⟨hn, hn'⟩, dif_pos hroom]
  exact ⟨_, _, rfl, holds_bbReadAt _ _ _, rfl, rfl, rfl, rfl⟩

end TetraBs

/-! Codecs that put or get one field after another on a `BitBuffer`. -/
namespace TetraBs
open TetraBs.Bits TetraBs.Decoder

/-- A codec step: it moves the cursor, or stops. -/
abbrev BitM := Decoder BitBuffer Fault

def putBits (v : BitVec 32) (n : Nat) : BitM Unit := fun bb => do
  let bb ← bbPutBits bb v n
  return ((), bb)

def getBits (n : Nat) : BitM (BitVec 32) := fun bb => bbGetBits bb n

/-- `return -e`. -/
def failWith {α : Type} (e : Errno) : BitM α := throw (.errno e)

def failUnless (c : Prop) [Decidable c] (e : Errno) : BitM Unit :=
  if c then pure () else failWith e

/-- `d` puts `bits`, wherever the cursor stands with room for them. -/
def Writes (d : BitM Unit) (bits : List Bool) : Prop :=
  ∀ bb : BitBuffer, bb.pos + bits.length ≤ bb.limit →
    ∃ bb', d.run bb = .ok ((), bb') ∧ Put bb bb' bits

theorem writes_putBits {v : BitVec 32} {n : Nat} (hn : 1 ≤ n) (hn' : n ≤ 32)
    (hv : v.toNat < 2 ^ n) : Writes (putBits v n) (msbBits v n) := by
  intro bb hroom
  rw [msbBits_length] at hroom
  obtain ⟨bb', hput, hbits⟩ := bbPutBits_spec bb hn hn' hv hroom
  refine ⟨bb', ?_, hbits⟩
  show (do let bb ← bbPutBits bb v n; return ((), bb) : Except Fault (Unit × BitBuffer)) = _
  rw [hput]
  rfl

theorem Writes.bind {d : BitM Unit} {f : Unit → BitM Unit} {u v : List Bool} (hd : Writes d u)
    (hf : Writes (f ()) v) : Writes (d >>= f) (u ++ v) := by
  intro bb hroom
  rw [List.length_append] at hroom
  obtain ⟨b, hb, hbits⟩ := hd bb (by omega)
  obtain ⟨c, hc, hbits'⟩ := hf b (by rw [hbits.pos_eq, hbits.limit_eq]; omega)
  refine ⟨c, ?_, hbits.append hbits'⟩
  rw [StateT.run_bind, hb]
  exact hc

/-- A check that passes puts nothing. -/
theorem Writes.check {c : Prop} [Decidable c] (hc : c) {e : Errno} {f : Unit → BitM Unit}
    {v : List Bool} (hf : Writes (f ()) v) : Writes (failUnless c e >>= f) v := by
  have hpure : failUnless c e = pure () := if_pos hc
  rw [hpure]
  exact hf

/-- What is got has no more bits than were asked for. -/
theorem ensures_getBits {n : Nat} (hn : 1 ≤ n) (hn' : n ≤ 32) :
    Ensures (fun _ => True) (getBits n) fun v _ => v.toNat < 2 ^ n := by
  intro bb _ v bb' hrun
  have hget : bbGetBits bb n = .ok (v, bb') := hrun
  by_cases hroom : bb.pos + n ≤ bb.endBits
  · obtain ⟨u, b, hu, hholds, -⟩ := bbGetBits_spec bb hn hn' hroom
    rw [hu] at hget
    cases hget
    refine Nat.lt_pow_two_of_testBit _ fun j hj => ?_
    by_cases hw : j < 32
    · have := hholds j hw
      rw [BitVec.getLsbD] at this
      rw [this, decide_eq_false (by omega), Bool.false_and]
    · exact BitVec.getLsbD_of_ge _ _ (by omega)
  · rw [bbGetBits, if_pos ⟨hn, hn'⟩, dif_neg hroom] at hget
    cases hget
    exact Nat.two_pow_pos n

theorem ensures_failUnless {P : BitBuffer → Prop} {c : Prop} [Decidable c] (e : Errno) :
    Ensures P (failUnless c e) fun _ bb => P bb ∧ c := by
  by_cases hc : c
  · have hpure : failUnless c e = pure () := if_pos hc
    rw [hpure]
    exact ensures_pure fun _ hp => ⟨hp, hc⟩
  · have hfail : failUnless c e = failWith e := if_neg hc
    rw [hfail]
    intro _ _ _ _ hrun
    cases hrun

end TetraBs
