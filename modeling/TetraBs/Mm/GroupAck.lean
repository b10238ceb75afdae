import TetraBs.Mm.AckBits
import Mathlib.Algebra.GroupWithZero.Nat

/-! Group requests: the list that is demanded, and the list that is acknowledged. -/
namespace TetraBs
open TetraBs.Bits TetraBs.BitReader TetraBs.Decoder

/-! What a decoded group request holds. -/

/-- The entry an uplink element stands for. -/
def MmGroupIdentityUplink.entry (g : MmGroupIdentityUplink) : GroupEntry :=
  ⟨g.isAttach, g.addressType.toNat, g.gssi.toNat, g.addressExtension.toNat, g.vgssi.toNat⟩

/-- An element as `decode_giu` leaves it: 24-bit addresses, and zeros where the address type has
none. -/
structure MmGroupIdentityUplink.Decoded (g : MmGroupIdentityUplink) : Prop where
  type_lt : g.addressType.toNat < 4
  gssi_lt : g.gssi.toNat < 2 ^ 24
  ext_lt : g.addressExtension.toNat < 2 ^ 24
  vgssi_lt : g.vgssi.toNat < 2 ^ 24
  gssi_zero : g.addressType ≠ 0 → g.addressType ≠ 1 → g.gssi = 0
  ext_zero : g.addressType ≠ 1 → g.addressExtension = 0
  vgssi_zero : g.addressType ≠ 2 → g.vgssi = 0

theorem toNat_read_lt (r : RBuf) (n : Nat) : (rbufRead r n).1.toNat < 2 ^ n := by
  rw [rbufRead]
  split
  · exact Nat.two_pow_pos n
  · split
    · exact Nat.two_pow_pos n
    · refine Nat.lt_pow_two_of_testBit _ fun j hj => ?_
      by_cases hw : j < 32
      · have := holds_readBits 32 r.bits r.pos n j hw
        rw [BitVec.getLsbD] at this
        rw [this, decide_eq_false (by omega), Bool.false_and]
      · exact BitVec.getLsbD_of_ge _ _ (by omega)

theorem ensures_read (n : Nat) :
    Ensures (fun _ => True) (read n) fun v _ => v.toNat < 2 ^ n := by
  intro r _ v r' hrun
  have hv : (rbufRead r n).1 = v := congrArg Prod.fst (Except.ok.inj hrun)
  rw [← hv]
  exact toNat_read_lt r n

theorem ensures_readIf (c : Bool) (n : Nat) :
    Ensures (fun _ => True) (readIf c n) fun v _ => c = false → v = 0 := by
  cases c
  · exact ensures_pure fun _ _ _ => rfl
  · intro _ _ _ _ _ h
    cases h

theorem ensures_failIf (c : Bool) :
    Ensures (fun _ => True) (failIf c) fun _ _ => c = false := by
  cases c
  · exact ensures_pure fun _ _ => rfl
  · intro _ _ _ _ hrun
    cases hrun

theorem mask24_lt (v : BitVec 32) : (v &&& tetraSsiMask24).toNat < 2 ^ 24 := by
  have hmask : tetraSsiMask24.toNat = 2 ^ 24 - 1 := by decide
  rw [BitVec.toNat_and, hmask, Nat.and_two_pow_sub_one_eq_mod]
  exact Nat.mod_lt _ (Nat.two_pow_pos 24)

/-- An absent address field is zero, and the mask keeps it. -/
theorem masked_zero {v : BitVec 32} (h : v = 0) : v &&& tetraSsiMask24 = 0 := by
  subst h
  decide

theorem decodeGiu_decoded : Ensures (fun _ => True) decodeGiu fun g _ => g.Decoded := by
  rw [decodeGiu]
  iterate 3 refine ensures_bind_any fun _ => ?_
  refine ensures_bind_of (ensures_read 2) fun addressType htype => ?_
  refine ensures_bind_of (ensures_readIf _ 24) fun gssi hgssi => ?_
  refine ensures_bind_of (ensures_readIf _ 24) fun addressExtension hext => ?_
  refine ensures_bind_of (ensures_readIf _ 24) fun vgssi hvgssi => ?_
  refine ensures_bind_any fun _ => ensures_pure fun _ _ => ?_
  have htype8 : (addressType.setWidth 8).toNat = addressType.toNat := by
    rw [BitVec.toNat_setWidth]
    omega
  have hbeq : ∀ k : Nat, k < 4 → addressType.setWidth 8 ≠ BitVec.ofNat 8 k →
      (addressType == BitVec.ofNat 32 k) = false := by
    intro k hk hne
    rw [beq_eq_false_iff_ne]
    rintro rfl
    exact hne (BitVec.setWidth_ofNat_of_le (by decide) k)
  refine ⟨lt_of_eq_of_lt htype8 htype, mask24_lt _, mask24_lt _, mask24_lt _,
    fun h0 h1 => masked_zero (hgssi ?_),
    fun h1 => masked_zero (hext (hbeq 1 (by decide) h1)),
    fun h2 => masked_zero (hvgssi (hbeq 2 (by decide) h2))⟩
  exact Bool.or_eq_false_iff.2 ⟨hbeq 0 (by decide) h0, hbeq 1 (by decide) h1⟩

/-- The element list that decodes is as long as it says, and no longer than the array. -/
structure Demanded (numGiu : Nat) (giu : List MmGroupIdentityUplink) : Prop where
  num_eq : numGiu = giu.length
  num_le : numGiu ≤ mmGiuMax
  decoded : ∀ g ∈ giu, g.Decoded

theorem demanded_nil : Demanded 0 [] := ⟨rfl, Nat.zero_le _, fun _ h => absurd h List.not_mem_nil⟩

theorem decodeGius_demanded (i k : Nat) :
    Ensures (fun _ => True) (decodeGius i k) fun gs _ =>
      gs.length = k ∧ (0 < k → i + k ≤ mmGiuMax) ∧ ∀ g ∈ gs, g.Decoded := by
  induction k generalizing i with
  | zero =>
    exact ensures_pure fun _ _ => ⟨rfl, fun h => absurd h (Nat.lt_irrefl 0),
      fun _ h => absurd h List.not_mem_nil⟩
  | succ k ih =>
    rw [decodeGius]
    refine ensures_bind_of (ensures_failIf _) fun _ hi => ?_
    refine ensures_bind_of decodeGiu_decoded fun g hg => ?_
    refine ensures_bind_of (ih (i + 1)) fun gs hgs => ?_
    refine ensures_pure fun _ _ => ⟨congrArg (· + 1) hgs.1, fun _ => ?_, ?_⟩
    · have hlt := of_decide_eq_false hi
      have hrest := hgs.2.1
      omega
    · intro x hx
      obtain rfl | hx := List.mem_cons.1 hx
      · exact hg
      · exact hgs.2.2 x hx

theorem decodeGiuElement_demanded :
    Ensures (fun _ => True) decodeGiuElement fun r _ => Demanded r.1 r.2 := by
  rw [decodeGiuElement]
  refine ensures_bind_any fun _ => ?_
  refine ensures_bind_any fun num => ?_
  refine ensures_bind_any fun _ => ?_
  refine ensures_bind_of (decodeGius_demanded 0 num.toNat) fun giu hgiu => ?_
  iterate 2 refine ensures_bind_any fun _ => ?_
  refine ensures_pure fun _ _ => ?_
  have hle : num.toNat ≤ mmGiuMax := by
    have := hgiu.2.1
    omega
  refine ⟨?_, Nat.min_le_right _ _, hgiu.2.2⟩
  rw [hgiu.1]
  exact Nat.min_eq_left hle

theorem ensures_withType34 {α : Type} (expectedId : BitVec 32) {d : MmDecoder α} {Q : α → Prop}
    (hd : Ensures (fun _ => True) d fun a _ => Q a) :
    Ensures (fun _ => True) (withType34 expectedId d) fun o _ => ∀ a, o = some a → Q a := by
  rw [withType34]
  refine ensures_bind_any fun r => ?_
  apply ensures_ite
  · intro _
    refine ensures_bind_any fun _ => ?_
    refine ensures_bind_of hd fun a ha => ensures_pure fun _ _ => ?_
    intro b hb
    cases hb
    exact ha
  · intro _
    exact ensures_pure fun _ _ _ h => by cases h

theorem decodeGiuList_demanded :
    Ensures (fun _ => True) decodeGiuList fun r _ => Demanded r.1 r.2 := by
  rw [decodeGiuList]
  refine ensures_bind_of (ensures_withType34 _ decodeGiuElement_demanded) fun e he => ?_
  refine ensures_pure fun _ _ => ?_
  cases e with
  | none => exact demanded_nil
  | some r => exact he r rfl

theorem decodeUAttachDetachGrpId_demanded : Ensures (fun _ => True) decodeUAttachDetachGrpId
    fun d _ => Demanded d.numGiu d.giu := by
  rw [decodeUAttachDetachGrpId]
  iterate 5 refine ensures_bind_any fun _ => ?_
  apply ensures_ite
  · intro _
    rw [decodeGroupOptions]
    refine ensures_bind_any fun _ => ?_
    refine ensures_bind_of decodeGiuList_demanded fun r hr => ?_
    iterate 2 refine ensures_bind_any fun _ => ?_
    exact ensures_pure fun _ _ => hr
  · intro _
    exact ensures_bind_any fun _ => ensures_pure fun _ _ => demanded_nil

/-- Whatever decodes as a group request demands a list that fits the array. -/
theorem mmIepDecode_demanded {bits : List Byte} {lenBits : Nat} {d : MmDecoded}
    (h : mmIepDecode bits lenBits = .ok d) (htype : d.pduType = .uAttachDetachGroupIdentity) :
    Demanded d.numGiu d.giu := by
  obtain ⟨-, hrun⟩ | ⟨-, hrun⟩ := mmIepDecode_cases h
  · obtain ⟨-, ht⟩ := ensures_map_fst decodeULocUpdateDemand_type trivial hrun
    rw [ht] at htype
    cases htype
  · obtain ⟨-, hd⟩ := ensures_map_fst decodeUAttachDetachGrpId_demanded trivial hrun
    exact hd

/-! The answer. -/

theorem addressField_entry {c : Bool} {v : BitVec 32} (hv : v.toNat < 2 ^ 24)
    (h0 : c = false → v = 0) : (if c then v.toNat % 2 ^ 24 else 0) = v.toNat := by
  cases c
  · rw [h0 rfl]
    rfl
  · exact Nat.mod_eq_of_lt hv

theorem answerGiu_entry {g : MmGroupIdentityUplink} (h : g.Decoded) :
    (answerGiu g).entry = g.entry := by
  have htype : g.addressType.toNat % 4 = g.addressType.toNat := Nat.mod_eq_of_lt h.type_lt
  have hgssi : (g.addressType == 0 || g.addressType == 1 || g.addressType == 3) = false →
      g.gssi = 0 := by
    intro hc
    obtain ⟨hc, -⟩ := Bool.or_eq_false_iff.1 hc
    obtain ⟨h0, h1⟩ := Bool.or_eq_false_iff.1 hc
    exact h.gssi_zero (beq_eq_false_iff_ne.1 h0) (beq_eq_false_iff_ne.1 h1)
  have hext : (g.addressType == 1 || g.addressType == 3) = false → g.addressExtension = 0 :=
    fun hc => h.ext_zero (beq_eq_false_iff_ne.1 (Bool.or_eq_false_iff.1 hc).1)
  have hvgssi : (g.addressType == 2 || g.addressType == 3) = false → g.vgssi = 0 :=
    fun hc => h.vgssi_zero (beq_eq_false_iff_ne.1 (Bool.or_eq_false_iff.1 hc).1)
  rw [MmGroupIdentityDownlink.entry, MmGroupIdentityUplink.entry, GroupEntry.mk.injEq]
  exact ⟨rfl, htype, addressField_entry h.gssi_lt hgssi, addressField_entry h.ext_lt hext,
    addressField_entry h.vgssi_lt hvgssi⟩

/-- The bits of the downlink body that answers a list: discriminator, PDU header, list header,
elements and trailing bit. -/
def groupAnswerBits (giu : List MmGroupIdentityUplink) : Nat :=
  33 + (giu.map fun g => elementBits g.isAttach g.addressType).sum

theorem composeGrpAckParams_gid {d : MmDecoded} (h : Demanded d.numGiu d.giu) :
    (composeGrpAckParams d).gid = d.giu.map answerGiu ∧
      (composeGrpAckParams d).numGid = (d.giu.map answerGiu).length := by
  have hnum : min d.numGiu mmGidMax = d.giu.length := by
    rw [← h.num_eq]
    exact Nat.min_eq_left h.num_le
  have hgid : (List.range d.giu.length).map (fun i => answerGiu (d.giu.getD i {})) =
      d.giu.map answerGiu := by
    apply List.ext_getElem (by simp)
    intro i hi _
    rw [List.length_map, List.length_range] at hi
    rw [List.getElem_map, List.getElem_range, List.getElem_map, List.getD_eq_getElem?_getD,
      List.getElem?_eq_getElem hi, Option.getD_some]
  refine ⟨?_, ?_⟩
  · rw [composeGrpAckParams, hnum]
    exact hgid
  · rw [composeGrpAckParams, hnum, List.length_map]

theorem grpAckBits_answer (giu : List MmGroupIdentityUplink) :
    3 + (grpAckBits (giu.map answerGiu)).length = groupAnswerBits giu := by
  have hlen : List.map ((fun g => g.bits.length) ∘ answerGiu) giu =
      giu.map fun g => elementBits g.isAttach g.addressType :=
    List.map_congr_left fun g _ => (answerGiu g).bits_length
  rw [grpAckBits_length, groupAnswerBits, List.length_flatMap, List.map_map,
    ← hlen]
  omega

/-- An element takes at most 80 bits, so the builder's own buffer never overflows. -/
theorem sum_elementBits_le (giu : List MmGroupIdentityUplink) :
    (giu.map fun g => elementBits g.isAttach g.addressType).sum ≤ 80 * giu.length := by
  induction giu with
  | nil => exact Nat.le_refl 0
  | cons g giu ih =>
    have hg := elementBits_le g.isAttach g.addressType
    rw [List.map_cons, List.sum_cons, List.length_cons]
    omega

/-- What MM puts behind the discriminator for a demanded list. -/
theorem mmAnswer_group (s : MmEnv) {pl : TlaSapPayload}
    (htype : pl.decoded.pduType = .uAttachDetachGroupIdentity)
    (hd : Demanded pl.decoded.numGiu pl.decoded.giu) (hpos : 0 < pl.decoded.numGiu) :
    ∃ body n, mmAnswer s pl = (s.mm.countGrpAck, some (body, n)) ∧
      3 + n = groupAnswerBits pl.decoded.giu ∧
      window body 0 n = grpAckBits (pl.decoded.giu.map answerGiu) := by
  obtain ⟨hgid, hnum⟩ := composeGrpAckParams_gid hd
  have hlen := grpAckBits_answer pl.decoded.giu
  have hle := hd.num_le
  have hsum := sum_elementBits_le pl.decoded.giu
  have hgiu := hd.num_eq
  rw [groupAnswerBits] at hlen
  have hcap : mmBodyCapBits = 512 := rfl
  have hmax : mmGiuMax = 4 := rfl
  have hne : (composeGrpAckParams pl.decoded).gid ≠ [] := by
    rw [hgid]
    intro hnil
    rw [List.map_eq_nil_iff] at hnil
    rw [hnil, List.length_nil] at hgiu
    omega
  obtain ⟨body, hok, hbits⟩ := mmBuildDAttachDetachGrpIdAck_bits hne
    (decide_eq_true hpos) (by rw [hnum, hgid]) rfl (by rw [hgid]; omega)
  rw [hgid] at hok hbits
  refine ⟨body, _, ?_, hlen, hbits⟩
  rw [mmAnswer, htype]
  simp only
  rw [hok]

/-! One request. -/

/-- The bus takes an answer. The size of a TLE message does not depend on its content. -/
def AnswerRoom (bus : Bus) : Prop :=
  60 ≤ (bus.queues .normal).maxPayload ∧
    (bus.pending .normal).length < (bus.queues .normal).ring.cap

instance (bus : Bus) : Decidable (AnswerRoom bus) := inferInstanceAs (Decidable (_ ∧ _))

theorem accepts_answer (bus : Bus) (m : TleSapMsg) :
    bus.Accepts .normal (mmDownlinkMsg m) ↔ AnswerRoom bus :=
  MsgBus.accepts_addressed SapId.noConfusion SapId.noConfusion

/-- `s'` has one message more on the bus than `s`, and it is the acknowledgement of `pl`: to the
same party, with the demanded groups in their order. -/
def AcksOnce (s s' : MmEnv) (pl : TlaSapPayload) : Prop :=
  ∃ m, (∀ p, s'.bus.pending p =
      if p = .normal then s.bus.pending p ++ [mmDownlinkMsg m] else s.bus.pending p) ∧
    m.endpoint = pl.endpoint ∧ m.addr = pl.addr ∧
    ackedGroups m = some (pl.decoded.giu.map MmGroupIdentityUplink.entry)

theorem not_acksOnce {s s' : MmEnv} {pl : TlaSapPayload}
    (h : ∀ p, s'.bus.pending p = s.bus.pending p) : ¬AcksOnce s s' pl := by
  rintro ⟨m, hm, -⟩
  have hlen := congrArg List.length ((h .normal).symm.trans (hm .normal))
  rw [if_pos rfl, List.length_append, List.length_singleton] at hlen
  omega

/-- A body of which the first bits are the acknowledgement is read as the demanded groups. -/
theorem ackedGroups_mmDownlink {pl : TlaSapPayload} {body : List Byte} {n : Nat}
    (hd : Demanded pl.decoded.numGiu pl.decoded.giu)
    (hw : window body 0 n =
      msbBits (1 : BitVec 64) 3 ++ grpAckBits (pl.decoded.giu.map answerGiu)) :
    ackedGroups (mmDownlink pl body n) =
      some (pl.decoded.giu.map MmGroupIdentityUplink.entry) := by
  have ht : ∀ g ∈ pl.decoded.giu.map answerGiu, g.addressType.toNat < 4 := by
    intro g hg
    obtain ⟨u, hu, rfl⟩ := List.mem_map.1 hg
    exact (hd.decoded u hu).type_lt
  have hlen : (pl.decoded.giu.map answerGiu).length ≤ 4 := by
    rw [List.length_map, ← hd.num_eq]
    exact hd.num_le
  have hcontent : (gidListContent (pl.decoded.giu.map answerGiu)).length < 2 ^ 11 := by
    have hbits := grpAckBits_answer pl.decoded.giu
    have hsum := sum_elementBits_le pl.decoded.giu
    rw [groupAnswerBits, grpAckBits_length] at hbits
    rw [List.length_map] at hlen
    rw [gidListContent, List.length_append, msbBits_length]
    omega
  have hentry : (pl.decoded.giu.map answerGiu).map MmGroupIdentityDownlink.entry =
      pl.decoded.giu.map MmGroupIdentityUplink.entry := by
    rw [List.map_map]
    exact List.map_congr_left fun g hg => answerGiu_entry (hd.decoded g hg)
  have hread := reads_groupAck ht (Nat.lt_of_le_of_lt hlen (by decide)) hcontent []
  rw [List.append_nil, hentry] at hread
  have hwindow : window (mmDownlink pl body n).pdu.body 0 (mmDownlink pl body n).pdu.bodyLenBits =
      msbBits (1 : BitVec 64) 3 ++ grpAckBits (pl.decoded.giu.map answerGiu) := by
    rw [← hw]
    exact window_take body (by simp only [mmDownlink]; omega)
  rw [ackedGroups, hwindow, hread]

/-- A request whose answer is too long is dropped, the statistics apart. -/
theorem mmHandleRequest_tooLong (s : MmEnv) {pl : TlaSapPayload}
    (htype : pl.decoded.pduType = .uAttachDetachGroupIdentity)
    (hd : Demanded pl.decoded.numGiu pl.decoded.giu) (hpos : 0 < pl.decoded.numGiu)
    (hlong : llcPduBodyMaxBytes * 8 < groupAnswerBits pl.decoded.giu) :
    mmHandleRequest s pl = { s with mm := s.mm.countGrpAck } := by
  obtain ⟨body, n, hans, hn, -⟩ := mmAnswer_group s htype hd hpos
  rw [mmHandleRequest, hans]
  simp only
  rw [prependMleDiscMm, if_pos (by rw [hn]; exact hlong)]

theorem mmHandleRequest_fits (s : MmEnv) {pl : TlaSapPayload}
    (htype : pl.decoded.pduType = .uAttachDetachGroupIdentity)
    (hd : Demanded pl.decoded.numGiu pl.decoded.giu) (hpos : 0 < pl.decoded.numGiu)
    (hfit : groupAnswerBits pl.decoded.giu ≤ llcPduBodyMaxBytes * 8) :
    ∃ m, (mmHandleRequest s pl).bus = (msgbusPost s.bus .normal (mmDownlinkMsg m)).1 ∧
      m.endpoint = pl.endpoint ∧ m.addr = pl.addr ∧
      ackedGroups m = some (pl.decoded.giu.map MmGroupIdentityUplink.entry) := by
  obtain ⟨body, n, hans, hn, hbits⟩ := mmAnswer_group s htype hd hpos
  rw [mmHandleRequest, hans]
  simp only
  cases hpre : prependMleDiscMm body n (llcPduBodyMaxBytes * 8) with
  | error e =>
    rw [prependMleDiscMm, if_neg (by rw [hn]; exact Nat.not_lt.2 hfit)] at hpre
    cases hpre
  | ok out =>
    obtain ⟨hlen, hle, hw⟩ := prependMleDiscMm_window hpre
    simp only
    rw [if_neg (by rw [hlen]; exact Nat.not_lt.2 hle)]
    refine ⟨_, rfl, rfl, rfl, ackedGroups_mmDownlink hd ?_⟩
    rw [hlen, hw, hbits]
    rfl

theorem onMmRequest_mleRequestMsg {s : MmEnv} (hinit : s.mm.initialised = true)
    (pl : TlaSapPayload) : onMmRequest (mleRequestMsg pl) s = mmHandleRequest s pl := by
  have hlen : ¬(mleRequestMsg pl).len < (SapData.tla pl).size := Nat.lt_irrefl _
  show (if (mleRequestMsg pl).len < (SapData.tla pl).size then s
    else if s.mm.initialised = false then s else mmHandleRequest s pl) = _
  rw [if_neg hlen, if_neg (by rw [hinit]; decide)]

/-- A group request that demands at least one group is answered by one acknowledgement of the
whole list exactly when the answer's bits fit an LLC body and the bus takes it. -/
theorem group_request_acked_iff {s : MmEnv} (hinit : s.mm.initialised = true)
    {bits : List Byte} {lenBits : Nat} {pl : TlaSapPayload}
    (hdec : mmIepDecode bits lenBits = .ok pl.decoded)
    (htype : pl.decoded.pduType = .uAttachDetachGroupIdentity) (hpos : 0 < pl.decoded.numGiu) :
    AcksOnce s (onMmRequest (mleRequestMsg pl) s) pl ↔
      groupAnswerBits pl.decoded.giu ≤ llcPduBodyMaxBytes * 8 ∧ AnswerRoom s.bus := by
  have hd := mmIepDecode_demanded hdec htype
  rw [onMmRequest_mleRequestMsg hinit]
  by_cases hfit : groupAnswerBits pl.decoded.giu ≤ llcPduBodyMaxBytes * 8
  · obtain ⟨m, hbus, hend, haddr, hacked⟩ := mmHandleRequest_fits s htype hd hpos hfit
    obtain ⟨hroom, -, happend⟩ | ⟨hfull, -, hsame⟩ :=
      msgbusPost_cases s.bus .normal (mmDownlinkMsg m)
    · refine ⟨fun _ => ⟨hfit, (accepts_answer s.bus m).1 hroom⟩, fun _ => ?_⟩
      exact ⟨m, by rw [hbus]; exact happend, hend, haddr, hacked⟩
    · refine ⟨fun h => absurd h (not_acksOnce ?_), fun h => ?_⟩
      · rw [hbus]
        exact hsame
      · exact absurd ((accepts_answer s.bus m).2 h.2) hfull
  · have hdrop := mmHandleRequest_tooLong s htype hd hpos (Nat.lt_of_not_le hfit)
    refine ⟨fun h => absurd h (not_acksOnce ?_), fun h => absurd h.1 hfit⟩
    intro p
    rw [hdrop]

/-- MM at its start, with an empty bus. -/
def idleMm : MmEnv :=
  ⟨{ initialised := true }, msgbusInit Payload Handler 32 256 busQueueCapPerPrio_pos, {}⟩

/-- An attach of a plain GSSI and a detach of an extended one. -/
def twoGroups : TlaSapPayload :=
  { endpoint := 1, addr := {}, isAttach := true,
    decoded :=
      { pduType := .uAttachDetachGroupIdentity, numGiu := 2,
        giu := [⟨true, 4, 0, 0, 0x2F4D61, 0, 0⟩, ⟨false, 0, 1, 1, 0x2F4D62, 0x101, 0⟩] } }

theorem two_groups_acked : AcksOnce idleMm (onMmRequest (mleRequestMsg twoGroups) idleMm) twoGroups :=
  (@group_request_acked_iff idleMm rfl
    [115, 128, 178, 18, 5, 233, 172, 53, 47, 77, 98, 0, 1, 1, 0] 113 twoGroups
    (by decide +kernel) rfl (by decide)).2 ⟨by decide, by decide⟩

/-- Four attaches by GSSI and address extension. -/
def fourExtendedGroups : TlaSapPayload :=
  { endpoint := 1, addr := {}, isAttach := true,
    decoded :=
      { pduType := .uAttachDetachGroupIdentity, numGiu := 4,
        giu := [⟨true, 4, 0, 1, 0x2F4D61, 0x101, 0⟩, ⟨true, 4, 0, 1, 0x2F4D62, 0x101, 0⟩,
          ⟨true, 4, 0, 1, 0x2F4D63, 0x101, 0⟩, ⟨true, 4, 0, 1, 0x2F4D64, 0x101, 0⟩] } }

/-- Their request fits an LLC body and decodes, their answer is one bit too long. -/
theorem four_extended_groups_not_acked :
    mmIepDecode [115, 129, 188, 34, 37, 233, 172, 32, 0, 32, 40, 151, 166, 177, 0, 0, 128, 162, 94,
        154, 198, 0, 2, 2, 137, 122, 107, 32, 0, 8, 8] 246 = .ok fourExtendedGroups.decoded ∧
      AnswerRoom idleMm.bus ∧
      ¬AcksOnce idleMm (onMmRequest (mleRequestMsg fourExtendedGroups) idleMm)
        fourExtendedGroups := by
  have hdec : mmIepDecode [115, 129, 188, 34, 37, 233, 172, 32, 0, 32, 40, 151, 166, 177, 0, 0,
      128, 162, 94, 154, 198, 0, 2, 2, 137, 122, 107, 32, 0, 8, 8] 246 =
      .ok fourExtendedGroups.decoded := by
    decide +kernel
  refine ⟨hdec, by decide, not_acksOnce fun p => ?_⟩
  rw [onMmRequest_mleRequestMsg rfl,
    mmHandleRequest_tooLong idleMm rfl (mmIepDecode_demanded hdec rfl) (by decide) (by decide)]

end TetraBs
