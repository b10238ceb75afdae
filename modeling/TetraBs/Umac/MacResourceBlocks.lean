import TetraBs.Umac.MacResourceLayout

/-! The blocks of the MAC-RESOURCE builder, bit by bit, and that they are read back. -/
namespace TetraBs.MacResourceDl
open TetraBs.Bits TetraBs.BitReader TetraBs.Packing TetraBs.Run

/-- A one and zeros behind it, from bit `s` up to bit `e`. -/
def fillTo (s e : Nat) : List Bool :=
  if s < e then true :: List.replicate (e - s - 1) false else []

theorem fillTo_length (s e : Nat) : (fillTo s e).length = e - s := by
  rw [fillTo]
  split
  · rw [List.length_cons, List.length_replicate]
    omega
  · rw [List.length_nil]
    omega

def Request.firstBits (r : Request) : List Bool :=
  r.first.bits r.fill r.lengthInd ++ r.llc.bits

def Request.secondBits (r : Request) : List Bool :=
  r.second.bits r.fill2 r.secondLengthInd ++ r.tlSdu

/-- Where the second PDU begins. -/
def Request.offset (r : Request) : Nat := 8 * octets r.total

/-- Where the octets of the second PDU end. -/
def Request.end2 (r : Request) : Nat := r.offset + 8 * octets r.total2

/-- Each of two PDUs is filled up to an octet, and what is left of the block is filled. -/
def Request.block (P : Nat) (r : Request) : List Bool :=
  if r.secondValid then
    r.firstBits ++ fillTo r.total r.offset ++ r.secondBits ++
      fillTo (r.offset + r.total2) (min r.end2 P) ++ fillTo r.end2 P
  else r.firstBits ++ fillTo r.total P

/-- The bits before the last fill bits. -/
def Request.extent (r : Request) : Nat :=
  if r.secondValid then r.offset + r.total2 else r.total

/-- The elements are in range, and the second length is that of the second PDU. -/
structure Request.InRange (r : Request) : Prop where
  first : r.first.InRange
  mm : r.mmPduLenBits.toNat ≤ 128
  second : r.secondValid = true → r.second.InRange
  tlSdu : r.secondValid = true → r.secondTlSduLen.toNat ≤ 80
  lengthInd : r.secondValid = true → r.secondLengthInd.toNat = octets r.total2

section
variable {P : Nat} {r : Request}

theorem Request.firstBits_length (r : Request) : r.firstBits.length = r.total := by
  rw [Request.firstBits, List.length_append, Header.bits_length, Request.total]

theorem Request.secondBits_length (r : Request) : r.secondBits.length = r.total2 := by
  rw [Request.secondBits, List.length_append, Header.bits_length, Request.total2]

theorem Request.le_offset (r : Request) :
    r.total ≤ r.offset ∧ (r.fill = true ↔ r.total < r.offset) := by
  rw [Request.fill, Request.offset, octets, decide_eq_true_iff]
  omega

theorem Request.le_end2 (r : Request) :
    r.offset + r.total2 ≤ r.end2 ∧ (r.fill2 = true ↔ r.offset + r.total2 < r.end2) := by
  rw [Request.fill2, Request.end2, octets, decide_eq_true_iff]
  omega

/-! The vector. -/

/-- Bits moved to the top of a wider vector and down again. -/
theorem packed_top {x : BitVec P} {bs : List Bool} (h : Packed x bs) {w l a : Nat} (v : BitVec w)
    (hw : w ≤ P) (hl : l ≤ w) (ha : bs.length + l = a) (hP : a ≤ P) :
    Packed (x ||| shiftUp ((v.setWidth P) >>> (w - l)) P a) (bs ++ (msbBits v w).take l) := by
  obtain ⟨hlt, hbits⟩ := topBits v hw hl
  rw [← hbits]
  exact packed_shiftUp h hlt ha hP

/-- The part of the vector that is the first PDU. -/
def firstPdu (P : Nat) (r : Request) : BitVec P :=
  packHeader P r.fill r.lengthInd r.first |||
    shiftUp (shiftDown (((llcWord r).setWidth 144).setWidth P) 144 r.llc.bits.length) P
      (r.first.length + r.llc.bits.length)

theorem packed_first (hr : r.InRange) (h144 : 144 ≤ P) (hP : r.total ≤ P) :
    Packed (firstPdu P r) r.firstBits := by
  have hle := DlLlcPdu.bits_length_le hr.mm
  rw [Request.total] at hP
  have hheader := hr.first.packed (by omega : r.first.length ≤ P) r.fill r.lengthInd
  have hsame : (llcWord r).setWidth 144 = llcWord r := BitVec.setWidth_eq _
  have hwidth : r.llc.bits.length ≤ 144 := by omega
  have hall := packed_top hheader (llcWord r) h144 hwidth (by rw [Header.bits_length]) hP
  rw [llcWord_take hr.mm] at hall
  rw [firstPdu, hsame, shiftDown, if_pos hwidth]
  exact hall

theorem packed_second (hr : r.InRange) (hsecond : r.secondValid = true) (h80 : 80 ≤ P)
    (hP : r.total2 ≤ P) : Packed (pdu2Top P r (lengths r)) r.secondBits := by
  have hsdu := hr.tlSdu hsecond
  have hlen := tlSdu_length hsdu
  have hdown : (80 - r.secondTlSduLen).toNat = 80 - r.secondTlSduLen.toNat := by
    rw [BitVec.toNat_sub_of_le (by rw [BitVec.le_def]; exact hsdu)]
    rfl
  have hhdr : (lengths r).pdu2HdrBits.toNat = r.second.length := r.second.hdrBits_toNat
  rw [Request.total2, hlen] at hP
  have hheader := (hr.second hsecond).packed (by omega : r.second.length ≤ P) r.fill2
    r.secondLengthInd
  rw [pdu2Top, pdu2FillBitInd_eq hsdu, hdown, hhdr]
  exact packed_top hheader r.secondTlSdu h80 hsdu (by rw [Header.bits_length]) hP

theorem macHead_eq (hr : r.InRange) :
    macHead P r (lengths r) ((llcWord r).setWidth 144) =
      firstPdu P r ||| pdu2Placed P r (lengths r) := by
  have hhdr : (lengths r).macHdrBits.toNat = r.first.length := r.first.hdrBits_toNat
  rw [macHead, firstPdu, fillBitInd_eq hr.mm, lengthInd_eq hr.mm, llcCovLen_toNat hr.mm, hhdr]

/-! The fill bits. -/

theorem setFromTop_or (x y : BitVec P) (k : Nat) :
    setFromTop (x ||| y) k = setFromTop x k ||| y := by
  rw [setFromTop, setFromTop]
  split
  · rw [BitVec.or_assoc, BitVec.or_comm y, BitVec.or_assoc]
  · rfl

/-- A bit set behind what is there, with zeros up to `e`. -/
theorem packed_fill {x : BitVec P} {bs : List Bool} (h : Packed x bs) {s e : Nat}
    (hs : bs.length = s) (he : e ≤ P) :
    Packed (if s < e then setFromTop x s else x) (bs ++ fillTo s e) := by
  rw [fillTo]
  by_cases hse : s < e
  · have hbit := h.orBit (Nat.le_of_eq hs) (by omega)
    rw [hs, Nat.sub_self, List.replicate_zero, List.append_nil] at hbit
    have hpad := hbit.pad (k := e - s - 1) (by
      rw [List.length_append, List.length_singleton]
      omega)
    rw [List.append_assoc, List.singleton_append] at hpad
    rw [if_pos hse, if_pos hse, setFromTop, if_pos (by omega)]
    exact hpad
  · rw [if_neg hse, if_neg hse, List.append_nil]
    exact h

/-- Setting a bit behind the vector changes nothing. -/
theorem setFromTop_of_le {x : BitVec P} {k : Nat} (hk : P ≤ k) : setFromTop x k = x :=
  if_neg (Nat.not_lt.2 hk)

theorem packed_single (hr : r.InRange) (hsecond : r.secondValid = false) (h144 : 144 ≤ P)
    (h512 : P < 512) (hP : r.total ≤ P) :
    Packed (built P 144 r) (r.firstBits ++ fillTo r.total P) := by
  have hfill := packed_fill (packed_first hr h144 hP) r.firstBits_length (Nat.le_refl P)
  have hvector : macHead P r (lengths r) ((llcWord r).setWidth 144) = firstPdu P r := by
    have hzero : firstPdu P r ||| 0 = firstPdu P r := BitVec.or_zero
    rw [macHead_eq hr, pdu2Placed, hsecond, if_neg Bool.false_ne_true, hzero]
  have hbuilt : built P 144 r = if r.total < P then setFromTop (firstPdu P r) r.total
      else firstPdu P r := by
    rw [built, padBits, hvector, hsecond, fillBitInd_eq hr.mm, macTotalBits_toNat hr.mm,
      Nat.mod_eq_of_lt h512]
    by_cases hlt : r.total < P
    · cases r.fill <;> simp [hlt]
    · cases r.fill <;> simp [hlt, setFromTop_of_le (Nat.le_of_not_lt hlt)]
  rw [hbuilt]
  exact hfill

/-- The first PDU with its fill bits, and the second one behind it. -/
theorem packed_concat (hr : r.InRange) (hsecond : r.secondValid = true) (h144 : 144 ≤ P)
    (hP : r.offset + r.total2 ≤ P) :
    Packed ((if r.fill then setFromTop (firstPdu P r) r.total else firstPdu P r) |||
        pdu2Placed P r (lengths r))
      (r.firstBits ++ fillTo r.total r.offset ++ r.secondBits) := by
  obtain ⟨hle, hiff⟩ := r.le_offset
  have hfirst := packed_fill (packed_first hr h144 (by omega)) r.firstBits_length
    (by omega : r.offset ≤ P)
  have hcond : (if r.total < r.offset then setFromTop (firstPdu P r) r.total else firstPdu P r) =
      if r.fill then setFromTop (firstPdu P r) r.total else firstPdu P r :=
    if_congr hiff.symm rfl rfl
  have hlen : (r.firstBits ++ fillTo r.total r.offset).length = r.offset := by
    rw [List.length_append, r.firstBits_length, fillTo_length]
    omega
  have hor := hfirst.orShift (packed_second hr hsecond (by omega) (by omega))
    (Nat.le_of_eq hlen) (by rw [r.secondBits_length]; exact hP)
  rw [hlen, Nat.sub_self, List.replicate_zero, List.append_nil, hcond] at hor
  rw [pdu2Placed, hsecond, if_pos rfl, offset_toNat hr.mm]
  exact hor

theorem packed_both (hr : r.InRange) (hsecond : r.secondValid = true) (h144 : 144 ≤ P)
    (h512 : P < 512) (hP : r.offset + r.total2 ≤ P) :
    Packed (built P 144 r) (r.firstBits ++ fillTo r.total r.offset ++ r.secondBits ++
      fillTo (r.offset + r.total2) (min r.end2 P) ++ fillTo r.end2 P) := by
  have hsdu := hr.tlSdu hsecond
  obtain ⟨hle, -⟩ := r.le_offset
  obtain ⟨hle2, hiff2⟩ := r.le_end2
  have hconcat := packed_concat hr hsecond h144 hP
  have hlen : (r.firstBits ++ fillTo r.total r.offset ++ r.secondBits).length =
      r.offset + r.total2 := by
    rw [List.length_append, List.length_append, r.firstBits_length, fillTo_length,
      r.secondBits_length]
    omega
  generalize hx : (if r.fill then setFromTop (firstPdu P r) r.total else firstPdu P r) |||
    pdu2Placed P r (lengths r) = x at hconcat
  have hsecondFill := packed_fill hconcat hlen (Nat.min_le_right r.end2 P)
  have hcond : (if r.offset + r.total2 < min r.end2 P then setFromTop x (r.offset + r.total2)
      else x) = if r.fill2 then setFromTop x (r.offset + r.total2) else x := by
    by_cases hfill : r.fill2 = true
    · rw [if_pos hfill]
      by_cases hlt : r.offset + r.total2 < P
      · rw [if_pos (Nat.lt_min.2 ⟨hiff2.1 hfill, hlt⟩)]
      · rw [if_neg fun h => hlt (Nat.lt_min.1 h).2, setFromTop_of_le (Nat.le_of_not_lt hlt)]
    · rw [if_neg hfill, if_neg fun h => hfill (hiff2.2 (Nat.lt_min.1 h).1)]
  rw [hcond] at hsecondFill
  have hbuilt : built P 144 r =
      let y := if r.fill2 then setFromTop x (r.offset + r.total2) else x
      if r.end2 < P then setFromTop y r.end2 else y := by
    have hsmall : r.end2 % 4096 = r.end2 := by
      have h1 := Request.total_le hr.mm
      have h2 := r.total2_le
      rw [Request.end2, Request.offset, octets, octets]
      omega
    have hfirst : (if r.fill then
        setFromTop (firstPdu P r ||| pdu2Placed P r (lengths r)) r.total
        else firstPdu P r ||| pdu2Placed P r (lengths r)) = x := by
      rw [← hx]
      cases r.fill
      · rfl
      · exact setFromTop_or _ _ _
    have hoffset : (lengths r).offsetPdu2Msb.toNat = r.offset := offset_toNat hr.mm
    rw [built, padBits, macHead_eq hr, hsecond, fillBitInd_eq hr.mm, macTotalBits_toNat hr.mm,
      pdu2FillBitInd_eq hsdu, pdu2TotalBits_toNat hsdu, pdu2TotalOctets_toNat hsdu, hoffset,
      Nat.mod_eq_of_lt h512]
    simp only [hfirst, if_true]
    rw [← Request.end2, hsmall]
  rw [hbuilt]
  by_cases hlt : r.end2 < P
  · have hlen2 : (r.firstBits ++ fillTo r.total r.offset ++ r.secondBits ++
        fillTo (r.offset + r.total2) (min r.end2 P)).length = r.end2 := by
      rw [List.length_append, hlen, fillTo_length, Nat.min_eq_left (Nat.le_of_lt hlt)]
      omega
    exact packed_fill hsecondFill hlen2 (Nat.le_refl P)
  · have hnone : fillTo r.end2 P = [] := if_neg hlt
    rw [hnone, List.append_nil]
    simp only [if_neg hlt]
    exact hsecondFill

/-- The block, bit by bit. -/
theorem msbBits_built (hr : r.InRange) (h144 : 144 ≤ P) (h512 : P < 512) (hP : r.extent ≤ P) :
    msbBits (built P 144 r) P = r.block P := by
  have hfull : ∀ {bs : List Bool}, Packed (built P 144 r) bs → bs.length = P →
      msbBits (built P 144 r) P = bs := by
    intro bs h hlen
    rw [h.msbBits_eq, hlen, Nat.sub_self, List.replicate_zero, List.append_nil]
  obtain ⟨hle, -⟩ := r.le_offset
  obtain ⟨hle2, -⟩ := r.le_end2
  rw [Request.extent] at hP
  rw [Request.block]
  cases hsecond : r.secondValid with
  | false =>
    rw [hsecond, if_neg Bool.false_ne_true] at hP
    rw [if_neg Bool.false_ne_true]
    refine hfull (packed_single hr hsecond h144 h512 hP) ?_
    rw [List.length_append, r.firstBits_length, fillTo_length]
    omega
  | true =>
    rw [hsecond, if_pos rfl] at hP
    rw [if_pos rfl]
    refine hfull (packed_both hr hsecond h144 h512 hP) ?_
    rw [List.length_append, List.length_append, List.length_append, List.length_append,
      r.firstBits_length, r.secondBits_length, fillTo_length, fillTo_length, fillTo_length]
    omega

end

/-! Reading. -/

theorem withoutFill_append (bs : List Bool) (k : Nat) :
    withoutFill (bs ++ true :: List.replicate k false) = bs := by
  have hzeros : ∀ k, (List.replicate k false ++ true :: bs.reverse).dropWhile (fun b => !b) =
      true :: bs.reverse := by
    intro k
    induction k with
    | zero => rfl
    | succ k ih =>
      rw [List.replicate_succ, List.cons_append, List.dropWhile_cons_of_pos (by decide)]
      exact ih
  have hrev : (bs ++ true :: List.replicate k false).reverse =
      List.replicate k false ++ true :: bs.reverse := by simp
  rw [withoutFill, hrev, hzeros, List.drop_one, List.tail_cons, List.reverse_reverse]

/-- A PDU is read back if its fill bits end where its length says, or at the end of the block. -/
theorem Header.InRange.readMacResource {h : Header} (hr : h.InRange) {fill : Bool}
    {len : BitVec 6} {sdu pad rest : List Bool} (hpad : if fill then ∃ k,
      pad = true :: List.replicate k false else pad = [])
    (hlen : h.length + (sdu ++ pad).length = 8 * len.toNat ∨
      h.length + (sdu ++ pad).length ≤ 8 * len.toNat ∧ rest = []) :
    (readMacResource h.caElementLen.toNat).run (h.bits fill len ++ (sdu ++ pad ++ rest)) =
        .ok ((h.header fill len, sdu), rest) ∧
      (h.bits fill len ++ (sdu ++ pad ++ rest)).drop (8 * len.toNat) = rest := by
  have hread := hr.reads fill len (sdu ++ pad ++ rest)
  have hcount : (h.bits fill len ++ (sdu ++ pad ++ rest)).length - (sdu ++ pad ++ rest).length =
      h.length := by
    rw [List.length_append, Header.bits_length]
    omega
  have htake : (sdu ++ pad ++ rest).take (8 * len.toNat - h.length) = sdu ++ pad ∧
      (sdu ++ pad ++ rest).drop (8 * len.toNat - h.length) = rest := by
    obtain hlen | ⟨hlen, rfl⟩ := hlen
    · have hn : 8 * len.toNat - h.length = (sdu ++ pad).length := by omega
      rw [hn]
      exact ⟨List.take_left, List.drop_left⟩
    · rw [List.append_nil]
      exact ⟨List.take_of_length_le (by omega), List.drop_of_length_le (by omega)⟩
  have hfill : (if (h.header fill len).fillBit = 1 then withoutFill (sdu ++ pad)
      else sdu ++ pad) = sdu := by
    cases fill with
    | false =>
      have hnil : pad = [] := hpad
      rw [hnil, List.append_nil]
      rfl
    | true =>
      obtain ⟨k, rfl⟩ := hpad
      exact withoutFill_append sdu k
  have hlengthInd : (h.header fill len).lengthInd = len.toNat := rfl
  have hbehind : h.length ≤ 8 * len.toNat := by omega
  constructor
  · show MacResourceDl.readMacResource h.caElementLen.toNat _ = _
    rw [MacResourceDl.readMacResource, hread]
    simp only [hcount, hlengthInd, htake.1, htake.2, hfill]
  · have hdrop : (h.bits fill len ++ (sdu ++ pad ++ rest)).drop
        ((h.bits fill len).length + (8 * len.toNat - h.length)) =
        (sdu ++ pad ++ rest).drop (8 * len.toNat - h.length) := List.drop_length_add_append _
    rw [Header.bits_length, Nat.add_sub_cancel' hbehind, htake.2] at hdrop
    exact hdrop

def Request.header (r : Request) : MacHeader := r.first.header r.fill r.lengthInd

def Request.header2 (r : Request) : MacHeader := r.second.header r.fill2 r.secondLengthInd

/-- What a reader gets of a block: both PDUs, and the second where the length of the first says it
begins. -/
structure Recovers (r : Request) (block : List Bool) : Prop where
  first : ∃ sdu, (readMacResource r.first.caElementLen.toNat).run block =
    .ok ((r.header, sdu), block.drop (8 * r.header.lengthInd)) ∧ readLlc sdu = some r.llc
  second : r.secondValid = true → ∃ rest,
    (readMacResource r.second.caElementLen.toNat).run (block.drop (8 * r.header.lengthInd)) =
      .ok ((r.header2, r.tlSdu), rest)
  flag : r.header.fillBit = 1 ↔ r.total % 8 ≠ 0
  flag2 : r.header2.fillBit = 1 ↔ r.total2 % 8 ≠ 0

section
variable {P : Nat} {r : Request}

theorem lengthInd_toNat (hr : r.InRange) : r.lengthInd.toNat = octets r.total := by
  have hle := Request.total_le hr.mm
  rw [Request.lengthInd, BitVec.toNat_ofNat, octets]
  omega

theorem flag_iff {n : Nat} (h : Header) (len : BitVec 6) :
    (h.header (decide (n % 8 ≠ 0)) len).fillBit = 1 ↔ n % 8 ≠ 0 := by
  by_cases hn : n % 8 ≠ 0
  · rw [decide_eq_true hn]
    exact iff_of_true rfl hn
  · rw [decide_eq_false hn]
    exact iff_of_false Nat.zero_ne_one hn

theorem fillTo_pad {fill : Bool} {s e : Nat} (h : fill = true ↔ s < e) :
    if fill then ∃ k, fillTo s e = true :: List.replicate k false else fillTo s e = [] := by
  cases fill with
  | false => exact if_neg fun hlt => Bool.false_ne_true (h.2 hlt)
  | true => exact ⟨e - s - 1, if_pos (h.1 rfl)⟩

theorem fillTo_split {s e m : Nat} (hs : s < e) (he : e ≤ m) :
    fillTo s m = fillTo s e ++ List.replicate (m - e) false := by
  have hcount : m - s - 1 = e - s - 1 + (m - e) := by omega
  rw [fillTo, fillTo, if_pos hs, if_pos (Nat.lt_of_lt_of_le hs he), hcount, List.replicate_add,
    List.cons_append]

/-- The first PDU of a block is read back. -/
theorem recovers_first (hr : r.InRange) {pad : List Bool} (rest : List Bool)
    (hpad : if r.fill then ∃ k, pad = true :: List.replicate k false else pad = [])
    (hlen : r.total + pad.length = r.offset ∨ r.total + pad.length ≤ r.offset ∧ rest = []) :
    (readMacResource r.first.caElementLen.toNat).run (r.firstBits ++ pad ++ rest) =
        .ok ((r.header, r.llc.bits), (r.firstBits ++ pad ++ rest).drop (8 * r.header.lengthInd)) ∧
      (r.firstBits ++ pad ++ rest).drop (8 * r.header.lengthInd) = rest := by
  have hoffset : 8 * r.lengthInd.toNat = r.offset := by
    rw [lengthInd_toNat hr, Request.offset]
  have htotal : r.first.length + (r.llc.bits ++ pad).length = r.total + pad.length := by
    rw [List.length_append, Request.total, Nat.add_assoc]
  rw [← hoffset, ← htotal] at hlen
  obtain ⟨hrun, hdrop⟩ := hr.first.readMacResource hpad hlen
  have hblock : r.firstBits ++ pad ++ rest =
      r.first.bits r.fill r.lengthInd ++ (r.llc.bits ++ pad ++ rest) := by
    simp only [Request.firstBits, List.append_assoc]
  have hlengthInd : r.header.lengthInd = r.lengthInd.toNat := rfl
  rw [hblock, hlengthInd, hdrop]
  exact ⟨hrun, rfl⟩

/-- The block without a second PDU. -/
theorem recovers_single (hr : r.InRange) (hsecond : r.secondValid = false)
    (hP : r.total ≤ P) (hend : r.total < P ∨ r.total % 8 = 0) :
    Recovers r (r.firstBits ++ fillTo r.total P) where
  first := by
    obtain ⟨hle, hiff⟩ := r.le_offset
    refine ⟨r.llc.bits, ?_, readLlc_bits r.llc⟩
    cases hfill : r.fill with
    | false =>
      have haligned : r.total = r.offset := by
        have hnot : ¬r.total < r.offset := fun h => Bool.false_ne_true (hfill ▸ hiff.2 h)
        omega
      have hpad : if r.fill then ∃ k, ([] : List Bool) = true :: List.replicate k false
          else ([] : List Bool) = [] := by
        rw [hfill]
        exact rfl
      have hread := recovers_first hr (fillTo r.total P) hpad (Or.inl haligned)
      rw [List.append_nil] at hread
      exact hread.1
    | true =>
      have hlt := hiff.1 hfill
      have hunaligned : r.total < P := by
        have hmod : r.total % 8 ≠ 0 := of_decide_eq_true hfill
        omega
      have hshort : r.total < min r.offset P := Nat.lt_min.2 ⟨hlt, hunaligned⟩
      have hread := recovers_first hr (List.replicate (P - min r.offset P) false)
        (fillTo_pad (iff_of_true hfill hshort)) (by
          rw [fillTo_length]
          by_cases hoffset : r.offset ≤ P
          · exact Or.inl (by omega)
          · refine Or.inr ⟨by omega, ?_⟩
            rw [Nat.min_eq_right (by omega), Nat.sub_self]
            rfl)
      rw [List.append_assoc, ← fillTo_split hshort (Nat.min_le_right _ _)] at hread
      exact hread.1
  second h := by
    rw [hsecond] at h
    cases h
  flag := flag_iff r.first r.lengthInd
  flag2 := flag_iff r.second r.secondLengthInd

/-- The block with two PDUs. -/
theorem recovers_both (hr : r.InRange) (hsecond : r.secondValid = true)
    (hP : r.offset + r.total2 ≤ P) (hend : r.offset + r.total2 < P ∨ r.total2 % 8 = 0) :
    Recovers r (r.firstBits ++ fillTo r.total r.offset ++ r.secondBits ++
      fillTo (r.offset + r.total2) (min r.end2 P) ++ fillTo r.end2 P) := by
  obtain ⟨hle, hiff⟩ := r.le_offset
  obtain ⟨hle2, hiff2⟩ := r.le_end2
  have hlen : r.total + (fillTo r.total r.offset).length = r.offset := by
    rw [fillTo_length]
    omega
  obtain ⟨hrun, hdrop⟩ := recovers_first hr (r.secondBits ++
    fillTo (r.offset + r.total2) (min r.end2 P) ++ fillTo r.end2 P) (fillTo_pad hiff)
    (Or.inl hlen)
  have hblock : r.firstBits ++ fillTo r.total r.offset ++ (r.secondBits ++
      fillTo (r.offset + r.total2) (min r.end2 P) ++ fillTo r.end2 P) =
      r.firstBits ++ fillTo r.total r.offset ++ r.secondBits ++
        fillTo (r.offset + r.total2) (min r.end2 P) ++ fillTo r.end2 P := by
    simp only [List.append_assoc]
  rw [hblock] at hrun hdrop
  have hfill2 : r.fill2 = true ↔ r.offset + r.total2 < min r.end2 P := by
    rw [Nat.lt_min, hiff2]
    constructor
    · intro hlt
      refine ⟨hlt, hend.resolve_right fun hmod => ?_⟩
      have hclear : r.fill2 = false := decide_eq_false (not_not.2 hmod)
      exact Bool.false_ne_true (hclear.symm.trans (hiff2.2 hlt))
    · exact And.left
  have hlen2 : r.second.length + (r.tlSdu ++
      fillTo (r.offset + r.total2) (min r.end2 P)).length = 8 * r.secondLengthInd.toNat ∨
      r.second.length + (r.tlSdu ++
        fillTo (r.offset + r.total2) (min r.end2 P)).length ≤ 8 * r.secondLengthInd.toNat ∧
        fillTo r.end2 P = [] := by
    have htotal : r.second.length + r.tlSdu.length = r.total2 := rfl
    rw [hr.lengthInd hsecond, List.length_append, fillTo_length, ← Nat.add_assoc, htotal]
    rw [Request.end2] at hle2 ⊢
    by_cases hfit : r.offset + 8 * octets r.total2 ≤ P
    · rw [Nat.min_eq_left hfit]
      exact Or.inl (by omega)
    · refine Or.inr ⟨by omega, if_neg (by omega)⟩
  obtain ⟨hrun2, -⟩ := (hr.second hsecond).readMacResource (fillTo_pad hfill2) hlen2
  refine ⟨⟨_, hrun, readLlc_bits r.llc⟩, fun _ => ⟨fillTo r.end2 P, ?_⟩,
    flag_iff r.first r.lengthInd, flag_iff r.second r.secondLengthInd⟩
  rw [hdrop, Request.secondBits]
  simp only [List.append_assoc] at hrun2 ⊢
  exact hrun2

/-- Six clocks after a start the block is put out, whatever the inputs are meanwhile, and it is
read back. -/
theorem exec_recovers (h144 : 144 ≤ P) (h512 : P < 512) {s : Builder P 144} (hs : s.state = .idle)
    {i : Input} (hi : i.start = true) (hr : i.request.InRange) (hP : i.request.extent ≤ P)
    (hend : i.request.extent < P ∨ i.request.extent % 8 = 0) (a b c d e : Input) :
    (exec step s [i, a, b, c, d, e]).valid = true ∧
      (exec step s [i, a, b, c, d, e]).state = .idle ∧
      msbBits (exec step s [i, a, b, c, d, e]).pduBits P = i.request.block P ∧
      Recovers i.request (i.request.block P) := by
  obtain ⟨hvalid, hbits, hidle⟩ := exec_start hs hi a b c d e
  rw [hbits]
  refine ⟨hvalid, hidle, msbBits_built hr h144 h512 hP, ?_⟩
  rw [Request.extent] at hP hend
  rw [Request.block]
  cases hsecond : i.request.secondValid with
  | false =>
    rw [hsecond, if_neg Bool.false_ne_true] at hP hend
    rw [if_neg Bool.false_ne_true]
    exact recovers_single hr hsecond hP hend
  | true =>
    rw [hsecond, if_pos rfl] at hP hend
    rw [if_pos rfl]
    have hmod : (i.request.offset + i.request.total2) % 8 = i.request.total2 % 8 :=
      Nat.mul_add_mod _ _ _
    rw [hmod] at hend
    exact recovers_both hr hsecond hP hend

end

/-- A location update accept of 80 bits with a slot grant, and an acknowledgement behind it. -/
def acceptRequest : Request :=
  { Request.reset with
    first := { Header.reset with addrType := 1, ssi := 0x282FF4, sgFlag := true }
    llcPduType := 0
    mmPduBits := 0xaaaaaaaaaaaaaaaaaaaa000000000000
    mmPduLenBits := 80
    secondValid := true
    secondLengthInd := 6
    second := { Header.reset with randomAccessFlag := true, addrType := 1, ssi := 0x282FF4 }
    secondTlSdu := 0x30000000000000000000
    secondTlSduLen := 5 }

def acceptInput : Input := ⟨true, acceptRequest⟩

theorem acceptRequest_inRange : acceptRequest.InRange where
  first := ⟨by decide, by decide⟩
  mm := by decide
  second _ := ⟨by decide, by decide⟩
  tlSdu _ := by decide
  lengthInd _ := by decide +kernel

theorem exec_recovers_accept :
    (exec step (Builder.reset 268 144) (List.replicate 6 acceptInput)).valid = true ∧
      (exec step (Builder.reset 268 144) (List.replicate 6 acceptInput)).state = .idle ∧
      msbBits (exec step (Builder.reset 268 144) (List.replicate 6 acceptInput)).pduBits 268 =
        acceptRequest.block 268 ∧
      Recovers acceptRequest (acceptRequest.block 268) :=
  exec_recovers (by decide) (by decide) rfl rfl acceptRequest_inRange (by decide +kernel)
    (by decide +kernel) acceptInput acceptInput acceptInput acceptInput acceptInput

-- The vector of the source's own test.
example : built 268 144 { acceptRequest with secondValid := false } =
    0x2091282ff440001aaaaaaaaaaaaaaaaaaaa80000000000000000000000000000000 := by decide +kernel

theorem Recovers.llc {r : Request} {block : List Bool} (h : Recovers r block) :
    ((readMacResource r.first.caElementLen.toNat).run block).toOption.bind
      (fun x => readLlc x.1.2) = some r.llc := by
  obtain ⟨sdu, hrun, hllc⟩ := h.first
  rw [hrun]
  exact hllc

theorem Recovers.header {r : Request} {block : List Bool} (h : Recovers r block) :
    ((readMacResource r.first.caElementLen.toNat).run block).toOption.map (fun x => x.1.1) =
      some r.header := by
  obtain ⟨sdu, hrun, -⟩ := h.first
  rw [hrun]
  rfl

/-- A second PDU of 47 bits. -/
def shortSecond : Request := { acceptRequest with secondTlSduLen := 4 }

/-- A start of a connection of the acknowledged link, 47 bits. -/
def alSetup : Request :=
  { Request.reset with
    first := { Header.reset with addrType := 1, ssi := 1 }
    llcPduType := llcPdutAlSetup }

def usageMarker : Request := { alSetup with first := { alSetup.first with addrType := 6 } }

/-- BL-DATA of 150 bits. -/
def blData99 : Request :=
  { Request.reset with
    first := { Header.reset with addrType := 1, ssi := 1 }
    mmPduBits := 0x80000000000000000000000000000000
    mmPduLenBits := 99 }

/-- BL-DATA of 56 bits. -/
def blData5 : Request := { blData99 with mmPduLenBits := 5 }

/-- Behind a second PDU that does not end at an octet there are two fill bits. An address with a
usage marker is cut, and a PDU that ends inside an octet at the end of the block loses bits. A
narrow buffer loses the LLC header, and a block of 512 bits has no fill bit. -/
theorem blocks_not_exact :
    (msbBits (built 268 144 shortSecond) 268).drop shortSecond.extent =
        true :: true :: List.replicate (266 - shortSecond.extent) false ∧
      ¬Recovers usageMarker (msbBits (built 268 144 usageMarker) 268) ∧
      ¬Recovers blData99 (msbBits (built 150 144 blData99) 150) ∧
      ¬Recovers alSetup (msbBits (built 124 8 alSetup) 124) ∧
      (msbBits (built 512 144 blData5) 512).drop blData5.extent =
        List.replicate (512 - blData5.extent) false := by
  refine ⟨by decide +kernel, fun h => ?_, fun h => ?_, fun h => ?_, by decide +kernel⟩
  · exact absurd h.header (by decide +kernel)
  · exact absurd h.llc (by decide +kernel)
  · exact absurd h.llc (by decide +kernel)

end TetraBs.MacResourceDl
