import TetraBs.Mm.BuilderBits

/-! The downlink MM grammar, and what a reader of it gets of the built PDUs: the parameters. -/
namespace TetraBs
open TetraBs.Bits TetraBs.BitReader

/-! Elements: an identifier and the bits its length covers, up to a closing zero. -/

def takeBits (n : Nat) : Reader (List Bool) := fun bs =>
  if bs.length < n then .error () else .ok (bs.take n, bs.drop n)

/-- At most `k` elements, the closing bit included. -/
def takeElements : Nat → Reader (List (Nat × List Bool))
  | 0 => throw ()
  | k + 1 => do
    let more ← takeField 1
    if more = 0 then pure [] else do
      let id ← takeField 4
      let length ← takeField 11
      let content ← takeBits length
      let elements ← takeElements k
      return (id, content) :: elements

/-- The content of an element, which has to be as long as its length says. -/
def readContent {α : Type} (d : Reader α) (content : List Bool) : Reader α :=
  match d.run content with
  | .ok (a, []) => pure a
  | _ => throw ()

def readElement {α : Type} (id : Nat) (d : Reader α) (elements : List (Nat × List Bool)) :
    Reader (Option α) :=
  match elements.lookup id with
  | none => pure none
  | some content => do
    let a ← readContent d content
    return some a

/-! Messages. Parts that are not there are zero. -/

structure GroupIdentity where
  isAttach : Bool
  lifetime : Nat
  classOfUsage : Nat
  detachment : Nat
  addressType : Nat
  gssi : Nat
  addressExtension : Nat
  vgssi : Nat
deriving DecidableEq, Repr

structure GroupAck where
  acceptReject : Nat
  groups : Option (List GroupIdentity)
deriving DecidableEq, Repr

structure EnergySaving where
  mode : Nat
  frameNumber : Nat
  multiframe : Nat
deriving DecidableEq, Repr

/-- The optional part of D-LOCATION-UPDATE-ACCEPT. -/
structure AcceptOptions where
  ssi : Option Nat
  addressExtension : Option Nat
  subscriberClass : Option Nat
  energySaving : Option EnergySaving
  scch : Option Nat
  gila : Option GroupAck
deriving DecidableEq, Repr

structure LocationUpdateAccept where
  acceptType : Nat
  options : Option AcceptOptions
deriving DecidableEq, Repr

def readGroupIdentity : Reader GroupIdentity := do
  let detach ← takeField 1
  let lifetime ← takeFieldIf (detach == 0) 2
  let classOfUsage ← takeFieldIf (detach == 0) 3
  let detachment ← takeFieldIf (detach != 0) 2
  let addressType ← takeField 2
  let gssi ← takeFieldIf (addressType == 0 || addressType == 1 || addressType == 3) 24
  let addressExtension ← takeFieldIf (addressType == 1 || addressType == 3) 24
  let vgssi ← takeFieldIf (addressType == 2 || addressType == 3) 24
  return ⟨detach == 0, lifetime, classOfUsage, detachment, addressType, gssi, addressExtension,
    vgssi⟩

def readGroupIdentities : Reader (List GroupIdentity) := do
  let num ← takeField 6
  takeMany readGroupIdentity num

/-- A verdict, a reserved bit, and the groups if an o-bit announces elements. -/
def readGroupVerdict : Reader GroupAck := do
  let acceptReject ← takeField 1
  expectField 1 0
  let obit ← takeField 1
  if obit = 0 then pure ⟨acceptReject, none⟩ else do
    let elements ← takeElements 16
    let groups ← readElement 7 readGroupIdentities elements
    return ⟨acceptReject, groups⟩

def readGroupIdentityAck : Reader GroupAck := do
  expectField 4 11
  readGroupVerdict

def readEnergySaving : Reader (Option EnergySaving) := do
  let present ← takeField 1
  if present = 0 then pure none else do
    let mode ← takeField 3
    let frameNumber ← takeField 5
    let multiframe ← takeField 6
    return some ⟨mode, frameNumber, multiframe⟩

def readAcceptOptions : Reader AcceptOptions := do
  let ssi ← takeOptional 24
  let addressExtension ← takeOptional 24
  let subscriberClass ← takeOptional 16
  let energySaving ← readEnergySaving
  let scch ← takeOptional 6
  let elements ← takeElements 16
  let gila ← readElement 5 readGroupVerdict elements
  return ⟨ssi, addressExtension, subscriberClass, energySaving, scch, gila⟩

def readLocationUpdateAccept : Reader LocationUpdateAccept := do
  expectField 4 5
  let acceptType ← takeField 3
  let obit ← takeField 1
  if obit = 0 then pure ⟨acceptType, none⟩ else do
    let options ← readAcceptOptions
    return ⟨acceptType, some options⟩

/-! What the parameters say. -/

def MmGroupIdentityDownlink.identity (g : MmGroupIdentityDownlink) : GroupIdentity where
  isAttach := g.isAttach
  lifetime := if g.isAttach then g.attach.lifetime.toNat % 2 ^ 2 else 0
  classOfUsage := if g.isAttach then g.attach.classOfUsage.toNat % 2 ^ 3 else 0
  detachment := if !g.isAttach then g.detachmentType.toNat % 2 ^ 2 else 0
  addressType := g.addressType.toNat
  gssi := if g.addressType == 0 || g.addressType == 1 || g.addressType == 3 then
    g.gssi.toNat % 2 ^ 24 else 0
  addressExtension := if g.addressType == 1 || g.addressType == 3 then
    g.addressExtension.toNat % 2 ^ 24 else 0
  vgssi := if g.addressType == 2 || g.addressType == 3 then g.vgssi.toNat % 2 ^ 24 else 0

/-- A list without groups is not sent. -/
def sentGroups (gs : List MmGroupIdentityDownlink) : Option (List GroupIdentity) :=
  if gs = [] then none else some (gs.map MmGroupIdentityDownlink.identity)

def MmGrpAckParams.message (p : MmGrpAckParams) : GroupAck where
  acceptReject := p.acceptReject.toNat % 2
  groups := if p.gidDownlinkPresent then sentGroups (p.gid.take p.numGid) else none

def MmAcceptParams.message (p : MmAcceptParams) : LocationUpdateAccept where
  acceptType := p.acceptType.value.toNat
  options :=
    if p.energySavingInfoPresent || p.gilaPresent then
      some {
        ssi := none
        addressExtension := none
        subscriberClass := none
        energySaving := if p.energySavingInfoPresent then
          some ⟨p.energySavingMode.value.toNat, p.energySavingFrameNumber.toNat % 2 ^ 5,
            p.energySavingMultiframe.toNat % 2 ^ 6⟩ else none
        scch := none
        gila := if p.gilaPresent then
          some ⟨p.gilaAcceptReject.toNat % 2, sentGroups (p.gid.take p.numGid)⟩ else none }
    else none

/-! Reading elements. -/

theorem reads_takeBits (bs : List Bool) : Reads (takeBits bs.length) bs bs := by
  intro rest
  show takeBits bs.length (bs ++ rest) = _
  rw [takeBits, if_neg (by rw [List.length_append]; omega), List.take_left, List.drop_left]

theorem reads_zero : Reads (takeField 1) (msbBits (0 : BitVec 64) 1) 0 :=
  reads_takeField (0 : BitVec 64) 1

theorem reads_one : Reads (takeField 1) (msbBits (1 : BitVec 64) 1) 1 :=
  reads_takeField (1 : BitVec 64) 1

theorem reads_absent (n : Nat) : Reads (takeOptional n) (msbBits (0 : BitVec 64) 1) none := by
  rw [takeOptional]
  exact reads_zero.bind_end (reads_pure none)

theorem reads_closing (k : Nat) : Reads (takeElements (k + 1)) (msbBits (0 : BitVec 64) 1) [] := by
  rw [takeElements]
  exact reads_zero.bind_end (reads_pure [])

theorem reads_element {k : Nat} {id : BitVec 64} {content bs : List Bool}
    {elements : List (Nat × List Bool)} (hlen : content.length < 2 ^ 11)
    (h : Reads (takeElements k) bs elements) :
    Reads (takeElements (k + 1))
      (msbBits (1 : BitVec 64) 1 ++ (msbBits id 4 ++
        (msbBits (BitVec.ofNat 16 content.length) 11 ++ (content ++ bs))))
      ((id.toNat % 2 ^ 4, content) :: elements) := by
  have hlength : (BitVec.ofNat 16 content.length).toNat % 2 ^ 11 = content.length := by
    rw [BitVec.toNat_ofNat]
    omega
  rw [takeElements]
  refine reads_one.bind ?_
  rw [if_neg (by decide)]
  refine (reads_takeField id 4).bind ?_
  refine (reads_takeField (BitVec.ofNat 16 content.length) 11).bind ?_
  rw [hlength]
  refine (reads_takeBits content).bind ?_
  exact h.bind_end (reads_pure _)

theorem reads_content {α : Type} {d : Reader α} {content : List Bool} {a : α}
    (h : Reads d content a) : Reads (readContent d content) [] a := by
  have hrun := h []
  rw [List.append_nil] at hrun
  rw [readContent, hrun]
  exact reads_pure a

theorem reads_readElement {α : Type} {id : Nat} {d : Reader α} {content : List Bool} {a : α}
    (h : Reads d content a) : Reads (readElement id d [(id, content)]) [] (some a) := by
  have hlookup : List.lookup id [(id, content)] = some content := by simp
  rw [readElement, hlookup]
  exact (reads_content h).bind_end (reads_pure (some a))

/-! Groups. -/

theorem reads_groupIdentity {g : MmGroupIdentityDownlink} (ht : g.addressType.toNat < 4) :
    Reads readGroupIdentity g.bits g.identity := by
  obtain ⟨htype, ⟨h0, h1⟩, h2, h3⟩ := addressType_beq g.addressType ht
  have hdetach : ((boolBit !g.isAttach).toNat % 2 ^ 1 == 0) = g.isAttach ∧
      ((boolBit !g.isAttach).toNat % 2 ^ 1 != 0) = !g.isAttach := by
    cases g.isAttach <;> decide
  have hwide : ∀ b : Byte, (b.setWidth 64).toNat = b.toNat := by
    intro b
    rw [BitVec.toNat_setWidth]
    have hlt := b.isLt
    omega
  rw [MmGroupIdentityDownlink.bits, readGroupIdentity]
  refine (reads_takeField (boolBit !g.isAttach) 1).bind ?_
  rw [hdetach.1, hdetach.2]
  refine (reads_takeFieldIf _ _ 2).bind ?_
  refine (reads_takeFieldIf _ _ 3).bind ?_
  refine (reads_takeFieldIf _ _ 2).bind ?_
  refine (reads_takeField _ 2).bind ?_
  rw [htype, h0, h1, h2, h3]
  refine (reads_takeFieldIf _ _ 24).bind ?_
  refine (reads_takeFieldIf _ _ 24).bind ?_
  refine (reads_takeFieldIf _ _ 24).bind_end ?_
  rw [addressField_toNat, addressField_toNat, addressField_toNat, hwide, hwide, hwide,
    Nat.mod_eq_of_lt ht]
  exact reads_pure _

theorem reads_groupIdentities {gs : List MmGroupIdentityDownlink}
    (ht : ∀ g ∈ gs, g.addressType.toNat < 4) (hlen : gs.length < 64) :
    Reads readGroupIdentities (gidListContent gs)
      (gs.map MmGroupIdentityDownlink.identity) := by
  have hnum : (BitVec.ofNat 64 gs.length).toNat % 2 ^ 6 = gs.length := by
    rw [BitVec.toNat_ofNat]
    omega
  rw [gidListContent, readGroupIdentities]
  refine (reads_takeField _ 6).bind ?_
  rw [hnum]
  exact reads_takeMany fun g hg => reads_groupIdentity (ht g hg)

theorem flatMap_bits_length_le (gs : List MmGroupIdentityDownlink) :
    (gs.flatMap MmGroupIdentityDownlink.bits).length ≤ 80 * gs.length := by
  induction gs with
  | nil => exact Nat.le_refl 0
  | cons g gs ih =>
    have hg := elementBits_le g.isAttach g.addressType
    rw [← g.bits_length] at hg
    rw [List.flatMap_cons, List.length_append, List.length_cons]
    omega

/-- The o-bit of a list of groups and what follows it. -/
def announcedGroups (gs : List MmGroupIdentityDownlink) : List Bool :=
  msbBits (boolBit (decide (gs ≠ []))) 1 ++ gidTail gs

/-- The verdict `v` with its groups, as both PDUs have it. -/
theorem reads_groupVerdict {w : Nat} (v : BitVec w) {gs : List MmGroupIdentityDownlink}
    (ht : ∀ g ∈ gs, g.addressType.toNat < 4) (hlen : gs.length ≤ mmGidMax) :
    Reads readGroupVerdict
      (msbBits v 1 ++ (msbBits (0 : BitVec 64) 1 ++ announcedGroups gs))
      ⟨v.toNat % 2, sentGroups gs⟩ := by
  have hlen' : gs.length ≤ 4 := hlen
  rw [readGroupVerdict]
  refine (reads_takeField v 1).bind ?_
  refine (reads_expectField (0 : BitVec 64) 1).bind ?_
  rw [announcedGroups, gidTail, sentGroups]
  by_cases hne : gs = []
  · rw [if_pos hne, if_pos hne, decide_eq_false (by simp [hne]), List.append_nil]
    exact reads_zero.bind_end (reads_pure _)
  · rw [if_neg hne, if_neg hne, decide_eq_true hne]
    refine reads_one.bind ?_
    rw [if_neg (by decide)]
    have hcontent : (gidListContent gs).length < 2 ^ 11 := by
      have hle := flatMap_bits_length_le gs
      rw [gidListContent, List.length_append, msbBits_length]
      omega
    have helements : Reads (takeElements 16) (gidListBits gs ++ msbBits (0 : BitVec 64) 1)
        [(7, gidListContent gs)] := by
      have h : Reads (takeElements 16) (msbBits (1 : BitVec 64) 1 ++
          (msbBits elemDlGroupIdentityDownlink 4 ++
            (msbBits (BitVec.ofNat 16 (gidListContent gs).length) 11 ++
              (gidListContent gs ++ msbBits (0 : BitVec 64) 1))))
          [(7, gidListContent gs)] := reads_element hcontent (reads_closing 14)
      simpa only [gidListBits, List.append_assoc] using h
    refine helements.bind_end ?_
    exact (reads_readElement (reads_groupIdentities ht (by omega))).bind_end (reads_pure _)

theorem take_eq_nil_iff {gs : List MmGroupIdentityDownlink} {n : Nat} (hn : n ≤ gs.length) :
    decide (gs.take n ≠ []) = decide (0 < n) := by
  refine decide_eq_decide.2 ?_
  rw [← List.length_pos_iff, List.length_take_of_le hn]

/-! The PDUs. -/

theorem reads_groupIdentityAck {p : MmGrpAckParams} (hn : p.numGid ≤ p.gid.length)
    (hmax : p.numGid ≤ mmGidMax) (ht : ∀ g ∈ p.gid.take p.numGid, g.addressType.toNat < 4) :
    Reads readGroupIdentityAck (ackBits p) p.message := by
  have hverdict : ((p.acceptReject &&& 1).setWidth 64 : BitVec 64).toNat % 2 =
      p.acceptReject.toNat % 2 := by
    have hall : ∀ b : Byte, ((b &&& 1).setWidth 64 : BitVec 64).toNat % 2 = b.toNat % 2 := by
      decide +kernel
    exact hall _
  rw [ackBits, readGroupIdentityAck, MmGrpAckParams.message, ← hverdict]
  refine (reads_expectField dAttachDetachGroupIdentityAck 4).bind ?_
  cases p.gidDownlinkPresent with
  | false =>
    have hnone : ∀ g ∈ ([] : List MmGroupIdentityDownlink), g.addressType.toNat < 4 :=
      fun _ h => absurd h List.not_mem_nil
    have hread := reads_groupVerdict ((p.acceptReject &&& 1).setWidth 64 : BitVec 64) hnone
      (Nat.zero_le _)
    have hempty : announcedGroups [] = msbBits (boolBit false) 1 ++ [] := rfl
    rw [hempty] at hread
    rw [Bool.false_and, if_neg Bool.false_ne_true, if_neg Bool.false_ne_true]
    exact hread
  | true =>
    have hlen : (p.gid.take p.numGid).length ≤ mmGidMax := by
      rw [List.length_take_of_le hn]
      exact hmax
    have hread := reads_groupVerdict ((p.acceptReject &&& 1).setWidth 64 : BitVec 64) ht hlen
    rw [announcedGroups, take_eq_nil_iff hn] at hread
    have htail : (if (true && decide (0 < p.numGid)) = true then gidTail (p.gid.take p.numGid)
        else []) = gidTail (p.gid.take p.numGid) := by
      by_cases hpos : 0 < p.numGid
      · rw [decide_eq_true hpos]
        rfl
      · rw [Nat.eq_zero_of_not_pos hpos]
        rfl
    rw [htail, Bool.true_and]
    exact hread

theorem reads_gila {p : MmAcceptParams} (hn : p.numGid ≤ p.gid.length)
    (hmax : p.numGid ≤ mmGidMax) (ht : ∀ g ∈ p.gid.take p.numGid, g.addressType.toNat < 4) :
    Reads readGroupVerdict (gilaContent p)
      ⟨p.gilaAcceptReject.toNat % 2, sentGroups (p.gid.take p.numGid)⟩ := by
  have hlen : (p.gid.take p.numGid).length ≤ mmGidMax := by
    rw [List.length_take_of_le hn]
    exact hmax
  have hverdict : ((p.gilaAcceptReject).setWidth 64 : BitVec 64).toNat % 2 =
      p.gilaAcceptReject.toNat % 2 := by
    have hlt := p.gilaAcceptReject.isLt
    rw [BitVec.toNat_setWidth]
    omega
  have hread := reads_groupVerdict ((p.gilaAcceptReject).setWidth 64 : BitVec 64) ht hlen
  rw [announcedGroups, take_eq_nil_iff hn, hverdict] at hread
  rw [gilaContent]
  exact hread

theorem gilaContent_length {p : MmAcceptParams} (hmax : p.numGid ≤ mmGidMax) :
    (gilaContent p).length < 2 ^ 11 := by
  have hle := flatMap_bits_length_le (p.gid.take p.numGid)
  have hlen : (p.gid.take p.numGid).length ≤ 4 := Nat.le_trans (List.length_take_le _ _) hmax
  have htail : (gidTail (p.gid.take p.numGid)).length ≤ 343 := by
    rw [gidTail]
    split
    · exact Nat.zero_le _
    · rw [List.length_append, gidListBits_length, msbBits_length]
      omega
  simp only [gilaContent, List.length_append, msbBits_length]
  omega

theorem reads_energySaving (p : MmAcceptParams) :
    Reads readEnergySaving (energySavingBits p)
      (if p.energySavingInfoPresent then
        some ⟨p.energySavingMode.value.toNat, p.energySavingFrameNumber.toNat % 2 ^ 5,
          p.energySavingMultiframe.toNat % 2 ^ 6⟩ else none) := by
  have hmode : (p.energySavingMode.value.setWidth 64).toNat % 2 ^ 3 =
      p.energySavingMode.value.toNat := by
    have hlt := p.energySavingMode.value.isLt
    rw [BitVec.toNat_setWidth]
    omega
  have hframe : ∀ b : Byte, ((b &&& 0x1F).setWidth 64).toNat % 2 ^ 5 = b.toNat % 2 ^ 5 := by
    decide +kernel
  have hmulti : ∀ b : Byte, ((b &&& 0x3F).setWidth 64).toNat % 2 ^ 6 = b.toNat % 2 ^ 6 := by
    decide +kernel
  rw [energySavingBits, readEnergySaving]
  cases p.energySavingInfoPresent with
  | false => exact reads_zero.bind_end (reads_pure none)
  | true =>
    rw [if_pos rfl, if_pos rfl]
    refine reads_one.bind ?_
    rw [if_neg (by decide)]
    refine (reads_takeField _ 3).bind ?_
    refine (reads_takeField _ 5).bind ?_
    refine (reads_takeField _ 6).bind_end ?_
    rw [hmode, hframe, hmulti]
    exact reads_pure _

theorem reads_locationUpdateAccept {p : MmAcceptParams} (hn : p.numGid ≤ p.gid.length)
    (hmax : p.numGid ≤ mmGidMax) (ht : ∀ g ∈ p.gid.take p.numGid, g.addressType.toNat < 4) :
    Reads readLocationUpdateAccept (acceptBits p) p.message := by
  have htype : (p.acceptType.value.setWidth 64).toNat % 2 ^ 3 = p.acceptType.value.toNat := by
    have hlt := p.acceptType.value.isLt
    rw [BitVec.toNat_setWidth]
    omega
  rw [acceptBits, readLocationUpdateAccept, MmAcceptParams.message]
  refine (reads_expectField dLocationUpdateAccept 4).bind ?_
  refine (reads_takeField _ 3).bind ?_
  rw [htype]
  cases hobit : p.energySavingInfoPresent || p.gilaPresent with
  | false => exact reads_zero.bind_end (reads_pure _)
  | true =>
    refine reads_one.bind ?_
    rw [if_neg (by decide), if_pos rfl, if_pos rfl]
    refine Reads.bind_end ?_ (reads_pure _)
    rw [acceptOptionBits, readAcceptOptions]
    refine (reads_absent 24).bind ?_
    refine (reads_absent 24).bind ?_
    refine (reads_absent 16).bind ?_
    refine (reads_energySaving p).bind ?_
    refine (reads_absent 6).bind ?_
    cases p.gilaPresent with
    | false =>
      have hnone : List.lookup 5 ([] : List (Nat × List Bool)) = none := rfl
      refine (reads_closing 15).bind_end ?_
      rw [readElement, hnone]
      exact reads_pure _
    | true =>
      have helements : Reads (takeElements 16) (gilaBits p ++ msbBits (0 : BitVec 64) 1)
          [(5, gilaContent p)] := by
        have h : Reads (takeElements 16) (msbBits (1 : BitVec 64) 1 ++
            (msbBits elemDlGroupIdentityLocationAccept 4 ++
              (msbBits (BitVec.ofNat 16 (gilaContent p).length) 11 ++
                (gilaContent p ++ msbBits (0 : BitVec 64) 1))))
            [(5, gilaContent p)] := reads_element (gilaContent_length hmax) (reads_closing 14)
        simpa only [gilaBits, List.append_assoc] using h
      refine helements.bind_end ?_
      exact (reads_readElement (reads_gila hn hmax ht)).bind_end (reads_pure _)

/-- The call succeeds exactly if the capacity passes the guard and holds the encoding. What it
built then has as many bits as it says and is read as `message`. -/
def BuiltExactly {α : Type} (least : Nat) (bits : List Bool) (d : Reader α) (message : α)
    (cap : Nat) (result : Except Errno (List Byte × Nat)) : Prop :=
  if least ≤ cap ∧ bits.length ≤ cap then
    ∃ body, result = .ok (body, bits.length) ∧
      d.run (window body 0 bits.length) = .ok (message, [])
  else ∃ e, result = .error e

theorem Builds.exactly {α : Type} {least cap : Nat} {bits : List Bool}
    {result : Except Errno (List Byte × Nat)} (h : Builds least bits cap result) {d : Reader α}
    {message : α} (hread : Reads d bits message) :
    BuiltExactly least bits d message cap result := by
  rw [BuiltExactly]
  by_cases hok : least ≤ cap ∧ bits.length ≤ cap
  · obtain ⟨body, hbody, hbits⟩ := h.writes hok.1 hok.2
    have hrun := hread []
    rw [List.append_nil] at hrun
    rw [if_pos hok]
    refine ⟨body, hbody, ?_⟩
    rw [hbits]
    exact hrun
  · rw [if_neg hok]
    by_cases hcap : cap < least
    · exact ⟨_, h.refuses hcap⟩
    · exact ⟨_, h.overflows (Nat.le_of_not_lt hcap) (by omega)⟩

/-- Both builders, for every capacity. -/
theorem builders_exact {p : MmAcceptParams} (hp : p.numGid ≤ p.gid.length)
    (hpmax : p.numGid ≤ mmGidMax) (hpt : ∀ g ∈ p.gid.take p.numGid, g.addressType.toNat < 4)
    {q : MmGrpAckParams} (hq : q.numGid ≤ q.gid.length) (hqmax : q.numGid ≤ mmGidMax)
    (hqt : ∀ g ∈ q.gid.take q.numGid, g.addressType.toNat < 4) (cap : Nat) :
    BuiltExactly 16 (acceptBits p) readLocationUpdateAccept p.message cap
      (mmBuildDLocUpdateAccept cap p) ∧
    BuiltExactly 8 (ackBits q) readGroupIdentityAck q.message cap
      (mmBuildDAttachDetachGrpIdAck cap q) :=
  ⟨(mmBuildDLocUpdateAccept_builds cap hp).exactly (reads_locationUpdateAccept hp hpmax hpt),
    (mmBuildDAttachDetachGrpIdAck_builds cap hq).exactly (reads_groupIdentityAck hq hqmax hqt)⟩

def oneGroup : MmGroupIdentityDownlink :=
  { isAttach := true, attach := ⟨1, 4⟩, gssi := 0x2F4D61 }

def acceptOne : MmAcceptParams :=
  { acceptType := .itsiAttach, energySavingInfoPresent := true, gilaPresent := true, numGid := 1
    gid := [oneGroup] }

def ackOne : MmGrpAckParams := { gidDownlinkPresent := true, numGid := 1, gid := [oneGroup] }

/-- One group in both PDUs. -/
theorem builders_exact_one :
    BuiltExactly 16 (acceptBits acceptOne) readLocationUpdateAccept acceptOne.message 128
      (mmBuildDLocUpdateAccept 128 acceptOne) ∧
    BuiltExactly 8 (ackBits ackOne) readGroupIdentityAck ackOne.message 128
      (mmBuildDAttachDetachGrpIdAck 128 ackOne) :=
  builders_exact (by decide) (by decide) (by decide) (by decide) (by decide) (by decide) 128

example : (acceptBits acceptOne).length = 102 ∧ (ackBits ackOne).length = 62 := by decide

/-- Eight bits are enough for the first PDU without options, and seven for the second. An address
type of 4 goes out as 0, without the address that belongs to it. -/
theorem small_buffers_refused :
    mmBuildDLocUpdateAccept 8 {} = .error .EINVAL ∧ (acceptBits {}).length = 8 ∧
      mmBuildDAttachDetachGrpIdAck 7 {} = .error .EINVAL ∧ (ackBits {}).length = 7 ∧
      ∃ body n, mmBuildDAttachDetachGrpIdAck 64 { gidDownlinkPresent := true, numGid := 1
                                                  gid := [{ addressType := 4 }] } =
          .ok (body, n) ∧ readGroupIdentityAck.run (window body 0 n) = .error () := by
  refine ⟨rfl, by decide, rfl, by decide, ?_⟩
  have hwidth : (1 : Nat) ≤ [({ addressType := 4 } : MmGroupIdentityDownlink)].length := by decide
  obtain ⟨body, hbody, hbits⟩ := (mmBuildDAttachDetachGrpIdAck_builds 64
    (p := { gidDownlinkPresent := true, numGid := 1, gid := [{ addressType := 4 }] })
    hwidth).writes (by decide) (by decide)
  refine ⟨body, _, hbody, ?_⟩
  rw [hbits]
  decide

end TetraBs
