import TetraBs.Mm.IepPdu
import TetraBs.Mm.GroupAck

/-! Uplink MM records through their encoding and `mm_iep_decode`. -/
namespace TetraBs
open TetraBs.Bits TetraBs.BitLayout TetraBs.UlPdu

/-! Records that have an encoding: values that fit their fields, and zeros where nothing is sent. -/

structure MmGroupIdentityUplink.Representable (g : MmGroupIdentityUplink) : Prop extends
    g.Decoded where
  class_lt : g.classOfUsage.toNat < 2 ^ 3
  detachment_lt : g.detachment.toNat < 2 ^ 2
  class_zero : g.isAttach = false → g.classOfUsage = 0
  detachment_zero : g.isAttach = true → g.detachment = 0
  type_le : g.addressType.toNat ≤ 2

structure RepresentableGroups (numGiu : Nat) (giu : List MmGroupIdentityUplink) : Prop where
  num_eq : numGiu = giu.length
  num_le : numGiu ≤ mmGiuMax
  groups : ∀ g ∈ giu, g.Representable

structure MmGild.Representable (g : MmGild) : Prop where
  mode_lt : g.attachDetachMode.toNat < 2 ^ 1
  groups : RepresentableGroups g.numGiu g.giu

structure MmDecoded.IsDemand (d : MmDecoded) : Prop where
  pduType : d.pduType = .uLocationUpdateDemand
  classOfMs_lt : d.classOfMs.toNat < 2 ^ 24
  classOfMs_zero : d.classOfMsPresent = false → d.classOfMs = 0
  energySaving_zero : d.energySavingModePresent = false → d.energySavingMode = .stayAlive
  la_lt : d.laInformation.toNat < 2 ^ 14
  la_zero : d.laInformationPresent = false → d.laInformation = 0
  ssi_lt : d.ssi.toNat < 2 ^ 24
  ssi_zero : d.ssiPresent = false → d.ssi = 0
  ext_lt : d.addressExtension.toNat < 2 ^ 24
  ext_zero : d.addressExtensionPresent = false → d.addressExtension = 0
  gild : d.gildPresent = true → d.gild.Representable
  gild_zero : d.gildPresent = false → d.gild = {}
  others : d.groupIdentityReport = false ∧ d.attachDetachMode = 0 ∧ d.numGiu = 0 ∧ d.giu = []

structure MmDecoded.IsGroupRequest (d : MmDecoded) : Prop where
  mode_lt : d.attachDetachMode.toNat < 2 ^ 1
  groups : RepresentableGroups d.numGiu d.giu
  others :
    d = { pduType := .uAttachDetachGroupIdentity, groupIdentityReport := d.groupIdentityReport,
          attachDetachMode := d.attachDetachMode, numGiu := d.numGiu, giu := d.giu }

/-! The encoding. -/

/-- What an encoding holds beside the record: the ciphering parameters, elements that the record
says nothing about, and o-bits that are set though nothing follows. -/
structure Extras where
  cipheringParameters : BitVec 10 := 0
  groupReportResponse : Option (List Bool) := none
  authenticationUplink : Option (List Bool) := none
  extendedCapabilities : Option (List Bool) := none
  proprietary : Option (List Bool) := none
  emptyOptions : Bool := false
  emptyGroups : Bool := false

namespace UlPdu

def Usage.ofRecord (g : MmGroupIdentityUplink) : Usage :=
  if g.isAttach then .attach (g.classOfUsage.setWidth 3) else .detach (g.detachment.setWidth 2)

def Address.ofRecord (g : MmGroupIdentityUplink) : Address :=
  match g.addressType.toNat with
  | 0 => .gssi (g.gssi.setWidth 24)
  | 1 => .gssiExtension (g.gssi.setWidth 24) (g.addressExtension.setWidth 24)
  | 2 => .vgssi (g.vgssi.setWidth 24)
  | _ => .none

def Giu.ofRecord (g : MmGroupIdentityUplink) : Giu := ⟨Usage.ofRecord g, Address.ofRecord g⟩

/-- With the length and the number of groups that go with them. -/
def GiuList.ofRecords (gs : List MmGroupIdentityUplink) : GiuList :=
  let elems := gs.map Giu.ofRecord
  ⟨BitVec.ofNat 11 (6 + (elems.flatMap Giu.bits).length), BitVec.ofNat 6 elems.length, elems⟩

/-- No element for an empty list. -/
def giuListOf (gs : List MmGroupIdentityUplink) : Option GiuList :=
  if gs.isEmpty then none else some (.ofRecords gs)

def gildOptions (g : MmGild) (x : Extras) : Option (Option GiuList) :=
  if g.giu.isEmpty && !x.emptyGroups then none else some (giuListOf g.giu)

def Gild.ofRecord (g : MmGild) (x : Extras) : Gild :=
  let mode := g.attachDetachMode != 0
  ⟨BitVec.ofNat 11 (Gild.payload ⟨0, mode, gildOptions g x⟩).length, mode, gildOptions g x⟩

def Skipped.of (body : List Bool) : Skipped := ⟨BitVec.ofNat 11 body.length, body⟩

def DemandOptions.ofRecord (d : MmDecoded) (x : Extras) : DemandOptions where
  classOfMs := if d.classOfMsPresent then some (d.classOfMs.setWidth 24) else none
  energySavingMode := if d.energySavingModePresent then some d.energySavingMode.value else none
  laInformation :=
    if d.laInformationPresent then some (d.laInformation.setWidth 15 <<< 1) else none
  ssi := if d.ssiPresent then some (d.ssi.setWidth 24) else none
  addressExtension :=
    if d.addressExtensionPresent then some (d.addressExtension.setWidth 24) else none
  gild := if d.gildPresent then some (.ofRecord d.gild x) else none
  groupReportResponse := x.groupReportResponse.map Skipped.of
  authenticationUplink := x.authenticationUplink.map Skipped.of
  extendedCapabilities := x.extendedCapabilities.map Skipped.of
  proprietary := x.proprietary.map Skipped.of
  closed := true

def GroupOptions.ofRecord (d : MmDecoded) (x : Extras) : GroupOptions where
  groupReportResponse := x.groupReportResponse.map Skipped.of
  groups := giuListOf d.giu
  proprietary := x.proprietary.map Skipped.of
  closed := true

/-- The o-bit of a location update demand. -/
def demandObit (d : MmDecoded) (x : Extras) : Bool :=
  d.classOfMsPresent || d.energySavingModePresent || d.laInformationPresent || d.ssiPresent ||
    d.addressExtensionPresent || d.gildPresent || x.groupReportResponse.isSome ||
    x.authenticationUplink.isSome || x.extendedCapabilities.isSome || x.proprietary.isSome ||
    x.emptyOptions

/-- The o-bit of a group request. -/
def groupObit (d : MmDecoded) (x : Extras) : Bool :=
  !d.giu.isEmpty || x.groupReportResponse.isSome || x.proprietary.isSome || x.emptyOptions

def demandOf (d : MmDecoded) (x : Extras) : UlPdu :=
  locationUpdateDemand d.locationUpdateType.value d.requestToAppendLa
    (if d.cipherControl then some x.cipheringParameters else none)
    (if demandObit d x then some (.ofRecord d x) else none)

def groupRequestOf (d : MmDecoded) (x : Extras) : UlPdu :=
  attachDetachGroupIdentity d.groupIdentityReport (d.attachDetachMode != 0)
    (if groupObit d x then some (.ofRecord d x) else none)

end UlPdu

open UlPdu in
/-- The reference encoding of a record, trailing m-bit included. -/
def encodeUl (d : MmDecoded) (x : Extras) : List Bool :=
  if d.pduType = .uAttachDetachGroupIdentity then (groupRequestOf d x).bits else (demandOf d x).bits

/-! Decoding is the way back. -/

theorem setWidth_back {w n : Nat} {v : BitVec w} (h : v.toNat < 2 ^ n) (hn : n ≤ w) :
    (v.setWidth n).setWidth w = v := by
  apply BitVec.eq_of_toNat_eq
  rw [BitVec.toNat_setWidth_of_le hn, BitVec.toNat_setWidth, Nat.mod_eq_of_lt h]

theorem UlPdu.Usage.record_ofRecord {g : MmGroupIdentityUplink} (h : g.Representable)
    {a : MmGroupIdentityUplink} (hc : a.classOfUsage = 0) (hd : a.detachment = 0) :
    (Usage.ofRecord g).record a =
      { a with isAttach := g.isAttach, classOfUsage := g.classOfUsage,
               detachment := g.detachment } := by
  cases hg : g.isAttach with
  | true =>
    rw [Usage.ofRecord, hg, if_pos rfl, Usage.record, setWidth_back h.class_lt (by decide),
      h.detachment_zero hg, hd]
  | false =>
    rw [Usage.ofRecord, hg, if_neg Bool.false_ne_true, Usage.record,
      setWidth_back h.detachment_lt (by decide), h.class_zero hg, hc]

theorem UlPdu.Address.record_ofRecord {g : MmGroupIdentityUplink} (h : g.Representable) :
    (Address.ofRecord g).record =
      { addressType := g.addressType, gssi := g.gssi, addressExtension := g.addressExtension,
        vgssi := g.vgssi } := by
  have htypes : g.addressType = 0 ∨ g.addressType = 1 ∨ g.addressType = 2 := by
    have hle := h.type_le
    have hcases : g.addressType.toNat = 0 ∨ g.addressType.toNat = 1 ∨ g.addressType.toNat = 2 := by
      omega
    rcases hcases with ht | ht | ht
    · exact Or.inl (BitVec.eq_of_toNat_eq ht)
    · exact Or.inr (Or.inl (BitVec.eq_of_toNat_eq ht))
    · exact Or.inr (Or.inr (BitVec.eq_of_toNat_eq ht))
  have hgssi := setWidth_back h.gssi_lt (by decide)
  have hext := setWidth_back h.ext_lt (by decide)
  have hvgssi := setWidth_back h.vgssi_lt (by decide)
  obtain ht | ht | ht := htypes
  · have hv := h.vgssi_zero (by rw [ht]; decide)
    have he := h.ext_zero (by rw [ht]; decide)
    simp [Address.ofRecord, Address.record, ht, hgssi, hv, he]
  · have hv := h.vgssi_zero (by rw [ht]; decide)
    simp [Address.ofRecord, Address.record, ht, hgssi, hext, hv]
  · have he := h.ext_zero (by rw [ht]; decide)
    have hg := h.gssi_zero (by rw [ht]; decide) (by rw [ht]; decide)
    simp [Address.ofRecord, Address.record, ht, hvgssi, he, hg]

theorem UlPdu.Giu.record_ofRecord {g : MmGroupIdentityUplink} (h : g.Representable) :
    (Giu.ofRecord g).record = g := by
  rw [Giu.ofRecord, Giu.record, Address.record_ofRecord h, Usage.record_ofRecord h rfl rfl]

theorem UlPdu.Giu.bits_length_le (g : Giu) : g.bits.length ≤ 54 := by
  obtain ⟨u, a⟩ := g
  have hu : u.bits.length ≤ 4 := by
    cases u <;> simp [Usage.bits]
  have ha : a.bits.length ≤ 50 := by
    cases a <;> simp [Address.bits]
  rw [Giu.bits, List.length_append]
  exact Nat.add_le_add hu ha

theorem flatMap_length_le {τ : Type} {bits : τ → List Bool} {k : Nat}
    (h : ∀ t, (bits t).length ≤ k) (ts : List τ) : (ts.flatMap bits).length ≤ k * ts.length := by
  induction ts with
  | nil => exact Nat.zero_le _
  | cons t ts ih =>
    have ht := h t
    rw [List.flatMap_cons, List.length_append, List.length_cons, Nat.mul_succ]
    omega

theorem toNat_ofNat_lt {w n : Nat} (h : n < 2 ^ w) : (BitVec.ofNat w n).toNat = n := by
  rw [BitVec.toNat_ofNat, Nat.mod_eq_of_lt h]

section
variable {n : Nat} {gs : List MmGroupIdentityUplink} (h : RepresentableGroups n gs)
include h

theorem RepresentableGroups.length_le : gs.length ≤ 4 := h.num_eq ▸ h.num_le

theorem RepresentableGroups.payload_le :
    6 + ((gs.map Giu.ofRecord).flatMap Giu.bits).length ≤ 222 := by
  have hbits := flatMap_length_le Giu.bits_length_le (gs.map Giu.ofRecord)
  have hlen := h.length_le
  rw [List.length_map] at hbits
  omega

theorem RepresentableGroups.accepted {l : GiuList} (hl : l ∈ giuListOf gs) : l.Accepted := by
  have hlen := h.length_le
  have hpayload := h.payload_le
  rw [giuListOf] at hl
  by_cases he : gs.isEmpty = true
  · rw [if_pos he] at hl
    cases hl
  rw [if_neg he] at hl
  cases hl
  refine ⟨?_, ?_, fun _ => ?_⟩
  · exact toNat_ofNat_lt (by rw [List.length_map]; omega)
  · exact (List.length_map _).trans_le hlen
  · rw [GiuList.payload_length]
    exact toNat_ofNat_lt (by omega)

theorem RepresentableGroups.giuRecords : giuRecords (giuListOf gs) = gs := by
  rw [giuListOf]
  by_cases he : gs.isEmpty = true
  · rw [if_pos he, List.isEmpty_iff.1 he]
    rfl
  · rw [if_neg he]
    show (gs.map Giu.ofRecord).map Giu.record = gs
    rw [List.map_map]
    calc gs.map (Giu.record ∘ Giu.ofRecord)
        = gs.map id := List.map_congr_left fun g hg => Giu.record_ofRecord (h.groups g hg)
      _ = gs := List.map_id gs

end

theorem UlPdu.Skipped.of_accepted {body : List Bool} (h : body.length ≤ 256) :
    (Skipped.of body).Accepted := by
  have hlen : (Skipped.of body).declared.toNat = body.length := toNat_ofNat_lt (by omega)
  exact ⟨hlen, hlen ▸ h⟩

theorem mode_back {v : Byte} (h : v.toNat < 2 ^ 1) : (BitVec.ofBool (v != 0)).setWidth 8 = v := by
  revert v
  decide

section
variable {g : MmGild} (h : g.Representable) (x : Extras)
include h

theorem MmGild.Representable.options_accepted :
    ∀ l ∈ (gildOptions g x).getD none, l.Accepted := by
  rw [gildOptions]
  split
  · nofun
  · exact fun l hl => h.groups.accepted hl

theorem MmGild.Representable.options_records :
    giuRecords ((gildOptions g x).getD none) = g.giu := by
  rw [gildOptions]
  split
  · rename_i he
    exact (List.isEmpty_iff.1 (Bool.and_eq_true_iff.1 he).1).symm
  · exact h.groups.giuRecords

theorem MmGild.Representable.payload_lt (v : BitVec 11) (mode : Bool) :
    (Gild.payload ⟨v, mode, gildOptions g x⟩).length < 2 ^ 11 := by
  have hle := h.groups.payload_le
  have hgroups : (groupsBits (giuListOf g.giu)).length ≤ 239 := by
    rw [giuListOf]
    split
    · exact (by decide : 1 ≤ 239)
    · rw [groupsBits, taggedBits, GiuList.bits, List.length_append, List.length_append,
        List.length_append, msbBits_length, GiuList.payload_length]
      have htag : (tag elemGroupIdentityUplink).length = 5 := rfl
      have hone : ([false] : List Bool).length = 1 := rfl
      rw [htag, hone]
      show 5 + (11 + (6 + ((g.giu.map Giu.ofRecord).flatMap Giu.bits).length)) + 1 ≤ 239
      omega
  have hparts : (partBits groupsBits (gildOptions g x)).length ≤ 240 := by
    rw [gildOptions]
    split
    · exact (by decide : 1 ≤ 240)
    · exact Nat.succ_le_succ hgroups
  show (partBits groupsBits (gildOptions g x)).length + 1 + 1 < 2 ^ 11
  omega

theorem MmGild.Representable.accepted : (Gild.ofRecord g x).Accepted :=
  ⟨toNat_ofNat_lt (h.payload_lt x 0 _), h.options_accepted x⟩

theorem MmGild.Representable.record : (Gild.ofRecord g x).record = g := by
  have hnum := h.groups.num_eq
  have hmode := mode_back h.mode_lt
  have hrecords : giuRecords ((Gild.ofRecord g x).options.getD none) = g.giu :=
    h.options_records x
  rw [Gild.record, hrecords, ← hnum]
  show { g with attachDetachMode := (BitVec.ofBool (g.attachDetachMode != 0)).setWidth 8 } = g
  rw [hmode]

end

/-- Skipped elements of at most 256 bits. -/
structure Extras.Bounded (x : Extras) : Prop where
  groupReportResponse : ∀ b ∈ x.groupReportResponse, b.length ≤ 256
  authenticationUplink : ∀ b ∈ x.authenticationUplink, b.length ≤ 256
  extendedCapabilities : ∀ b ∈ x.extendedCapabilities, b.length ≤ 256
  proprietary : ∀ b ∈ x.proprietary, b.length ≤ 256

theorem skipped_accepted {o : Option (List Bool)} (h : ∀ b ∈ o, b.length ≤ 256) :
    ∀ t ∈ o.map Skipped.of, t.Accepted := by
  intro t ht
  obtain ⟨b, hb, rfl⟩ := Option.mem_map.1 ht
  exact Skipped.of_accepted (h b hb)

theorem EnergySavingMode.ofValue_value (e : EnergySavingMode) :
    EnergySavingMode.ofValue e.value = e := by
  cases e <;> rfl

theorem LocationUpdateType.ofValue_value (t : LocationUpdateType) :
    LocationUpdateType.ofValue t.value = t := by
  cases t <;> rfl

theorem laInformation_back {v : BitVec 32} (h : v.toNat < 2 ^ 14) :
    ((v.setWidth 15 <<< 1).setWidth 32) >>> 1 = v := by
  apply BitVec.eq_of_toNat_eq
  rw [BitVec.toNat_ushiftRight, BitVec.toNat_setWidth_of_le (by decide), BitVec.toNat_shiftLeft,
    BitVec.toNat_setWidth, Nat.mod_eq_of_lt (by omega : v.toNat < 2 ^ 15), Nat.shiftLeft_eq,
    Nat.mod_eq_of_lt (by omega), Nat.shiftRight_eq_div_pow]
  omega

theorem ifPresent_getD {w n : Nat} {c : Bool} {v : BitVec w} (hv : v.toNat < 2 ^ n) (hn : n ≤ w)
    (h0 : c = false → v = 0) :
    ((if c then some (v.setWidth n) else none : Option (BitVec n)).getD 0).setWidth w = v := by
  cases c with
  | false => rw [h0 rfl]; simp
  | true => exact setWidth_back hv hn

theorem mem_ifSome {τ : Type} {c : Bool} {a t : τ} (h : t ∈ if c then some a else none) :
    c = true ∧ t = a := by
  cases c with
  | false => cases h
  | true => exact ⟨rfl, (Option.some.inj h).symm⟩

section
variable {d : MmDecoded} {x : Extras}

theorem demand_accepted (h : d.IsDemand) (hx : x.Bounded) : (demandOf d x).Accepted := by
  refine forall_options.2 fun o ho => ?_
  obtain ⟨-, rfl⟩ := mem_ifSome ho
  refine DemandOptions.forall_elements.2 ⟨fun g hg => ?_,
    skipped_accepted hx.groupReportResponse, skipped_accepted hx.authenticationUplink,
    skipped_accepted hx.extendedCapabilities, skipped_accepted hx.proprietary⟩
  obtain ⟨hc, rfl⟩ := mem_ifSome hg
  have hgild := (h.gild hc).accepted x
  exact ⟨hgild, hgild.groups⟩

theorem groupRequest_accepted (h : d.IsGroupRequest) (hx : x.Bounded) :
    (groupRequestOf d x).Accepted := by
  refine forall_options.2 fun o ho => ?_
  obtain ⟨-, rfl⟩ := mem_ifSome ho
  exact GroupOptions.forall_elements.2 ⟨skipped_accepted hx.groupReportResponse,
    fun l hl => h.groups.accepted hl, skipped_accepted hx.proprietary⟩

theorem demand_ends (s : List Bool) : (demandOf d x).Ends s := by
  intro o ho
  obtain ⟨-, rfl⟩ := mem_ifSome ho
  exact Or.inl rfl

theorem groupRequest_ends (s : List Bool) : (groupRequestOf d x).Ends s := by
  intro o ho
  obtain ⟨-, rfl⟩ := mem_ifSome ho
  exact Or.inl rfl

theorem ifSome_isSome {τ : Type} {c : Bool} {a : τ} :
    (if c then some a else none).isSome = c := by
  cases c <;> rfl

/-- The record without its optional part. -/
def demandBase (d : MmDecoded) : MmDecoded :=
  { pduType := .uLocationUpdateDemand, locationUpdateType := d.locationUpdateType,
    requestToAppendLa := d.requestToAppendLa, cipherControl := d.cipherControl }

theorem demandOptions_record (h : d.IsDemand) :
    DemandOptions.record (demandBase d) (.ofRecord d x) = d := by
  have hclass := ifPresent_getD h.classOfMs_lt (by decide) h.classOfMs_zero
  have hssi := ifPresent_getD h.ssi_lt (by decide) h.ssi_zero
  have hext := ifPresent_getD h.ext_lt (by decide) h.ext_zero
  have hsaving : EnergySavingMode.ofValue
      ((if d.energySavingModePresent then some d.energySavingMode.value else none).getD 0) =
        d.energySavingMode := by
    cases hp : d.energySavingModePresent with
    | false => rw [h.energySaving_zero hp]; rfl
    | true => exact EnergySavingMode.ofValue_value _
  have hla : ((if d.laInformationPresent then some (d.laInformation.setWidth 15 <<< 1)
      else none : Option (BitVec 15)).getD 0).setWidth 32 >>> 1 = d.laInformation := by
    cases hp : d.laInformationPresent with
    | false => rw [h.la_zero hp]; rfl
    | true => exact laInformation_back h.la_lt
  have hgild : ((if d.gildPresent then some (Gild.ofRecord d.gild x) else none).map
      Gild.record).getD {} = d.gild := by
    cases hp : d.gildPresent with
    | false => exact (h.gild_zero hp).symm
    | true => exact (h.gild hp).record x
  obtain ⟨hreport, hmode, hnum, hgiu⟩ := h.others
  rw [DemandOptions.record]
  simp only [DemandOptions.ofRecord, ifSome_isSome, hclass, hssi, hext, hsaving, hla, hgild]
  have htype := h.pduType
  clear hclass hssi hext hsaving hla hgild h
  cases d
  simp_all only [demandBase]

theorem demandObit_absent (h : demandObit d x = false) : d.classOfMsPresent = false ∧
    d.energySavingModePresent = false ∧ d.laInformationPresent = false ∧ d.ssiPresent = false ∧
      d.addressExtensionPresent = false ∧ d.gildPresent = false := by
  simp only [demandObit, Bool.or_eq_false_iff] at h
  tauto

theorem demand_record (h : d.IsDemand) : (demandOf d x).record = d := by
  have hbase : (demandOf d x).record = (if demandObit d x then
      some (DemandOptions.ofRecord d x) else none).elim (demandBase d)
        (DemandOptions.record (demandBase d)) := by
    rw [demandOf, UlPdu.record, LocationUpdateType.ofValue_value, ifSome_isSome]
    rfl
  rw [hbase]
  cases hobit : demandObit d x with
  | true => exact demandOptions_record h
  | false =>
    obtain ⟨hclass, hsaving, hla, hssi, hext, hgild⟩ := demandObit_absent hobit
    obtain ⟨hreport, hmode, hnum, hgiu⟩ := h.others
    have h1 := h.classOfMs_zero hclass
    have h2 := h.energySaving_zero hsaving
    have h3 := h.la_zero hla
    have h4 := h.ssi_zero hssi
    have h5 := h.ext_zero hext
    have h6 := h.gild_zero hgild
    have htype := h.pduType
    clear h hbase hobit
    cases d
    simp_all [demandBase]

theorem groupRequest_record (h : d.IsGroupRequest) : (groupRequestOf d x).record = d := by
  have hrecords := h.groups.giuRecords
  have hnum := h.groups.num_eq
  have hmode := mode_back h.mode_lt
  have hothers := h.others
  have hbase : (groupRequestOf d x).record = (if groupObit d x then
      some (GroupOptions.ofRecord d x) else none).elim
        { pduType := .uAttachDetachGroupIdentity, groupIdentityReport := d.groupIdentityReport,
          attachDetachMode := d.attachDetachMode }
        (GroupOptions.record
          { pduType := .uAttachDetachGroupIdentity, groupIdentityReport := d.groupIdentityReport,
            attachDetachMode := d.attachDetachMode }) := by
    rw [groupRequestOf, UlPdu.record, hmode]
  rw [hbase]
  cases hobit : groupObit d x with
  | true =>
    refine Eq.trans ?_ hothers.symm
    show GroupOptions.record _ (GroupOptions.ofRecord d x) = _
    rw [GroupOptions.record]
    show ({ pduType := .uAttachDetachGroupIdentity, groupIdentityReport := d.groupIdentityReport,
            attachDetachMode := d.attachDetachMode,
            numGiu := (UlPdu.giuRecords (giuListOf d.giu)).length,
            giu := UlPdu.giuRecords (giuListOf d.giu) } : MmDecoded) = _
    rw [hrecords, hnum]
  | false =>
    have hnil : d.giu = [] := by
      simp only [groupObit, Bool.or_eq_false_iff, Bool.not_eq_false'] at hobit
      exact List.isEmpty_iff.1 hobit.1.1.1
    refine Eq.trans ?_ hothers.symm
    rw [hnum, hnil]
    rfl

end

/-- A record that has an encoding. -/
def MmDecoded.Representable (d : MmDecoded) : Prop := d.IsDemand ∨ d.IsGroupRequest

/-- What stands at the start of a buffer as the encoding of a record, with any of the elements the
decoder skips, decodes to the record. -/
theorem mmIepDecode_encodeUl {d : MmDecoded} (hd : d.Representable) {x : Extras} (hx : x.Bounded)
    {bits : List Byte} {lenBits : Nat} (h : encodeUl d x <+: window bits 0 lenBits) :
    mmIepDecode bits lenBits = .ok d := by
  obtain ⟨s, hs⟩ := h
  rw [mmIepDecode_iff]
  rcases hd with hd | hd
  · have hpdu : encodeUl d x = (demandOf d x).bits := by
      rw [encodeUl, hd.pduType]
      rfl
    rw [hpdu] at hs
    exact ⟨_, demand_accepted hd hx, ⟨s, hs.symm, demand_ends s⟩, demand_record hd⟩
  · have hpdu : encodeUl d x = (groupRequestOf d x).bits := by
      rw [encodeUl, hd.others]
      rfl
    rw [hpdu] at hs
    exact ⟨_, groupRequest_accepted hd hx, ⟨s, hs.symm, groupRequest_ends s⟩,
      groupRequest_record hd⟩

/-- An attach with class, energy saving, one group and a proprietary element. -/
theorem mmIepDecode_encodeUl_attach :
    mmIepDecode [38, 99, 66, 12, 18, 38, 14, 14, 1, 32, 40, 23, 166, 176, 190, 0, 160] 133 =
      .ok { pduType := .uLocationUpdateDemand, locationUpdateType := .itsiAttach,
            classOfMsPresent := true, classOfMs := 0x1A1060, energySavingModePresent := true,
            energySavingMode := .energyEconomy1, gildPresent := true,
            gild := { numGiu := 1,
                      giu := [{ isAttach := true, classOfUsage := 4, gssi := 0x2F4D61 }] } } := by
  have hgroup : ({ isAttach := true, classOfUsage := 4, gssi := 0x2F4D61 } :
      MmGroupIdentityUplink).Representable := by
    constructor <;> first | exact ⟨by decide, by decide, by decide, by decide, by decide,
      by decide, by decide⟩ | decide
  have hgild : MmGild.Representable { numGiu := 1, giu :=
      [{ isAttach := true, classOfUsage := 4, gssi := 0x2F4D61 }] } :=
    ⟨by decide, rfl, by decide, fun g hg => List.mem_singleton.1 hg ▸ hgroup⟩
  refine mmIepDecode_encodeUl (x := { proprietary := some [true, false] }) (Or.inl ?_) ?_ ?_
  · exact ⟨rfl, by decide, nofun, nofun, by decide, fun _ => rfl, by decide, fun _ => rfl,
      by decide, fun _ => rfl, fun _ => hgild, nofun, rfl, rfl, rfl, rfl⟩
  · refine ⟨nofun, nofun, nofun, fun b hb => ?_⟩
    cases hb
    decide
  · decide

/-- With an element of a number that the decoder does not know (6, between the known 4 and 9), an
encoding is refused: the trailing m-bit is looked for in its place. -/
theorem mmIepDecode_unknown_element :
    window [38, 65, 96, 3, 0] 0 33 =
        (encodeUl { pduType := .uLocationUpdateDemand, locationUpdateType := .itsiAttach }
          { emptyOptions := true }).dropLast ++ (tag 6 ++ (Skipped.of [true]).bits) ++ [false] ∧
      mmIepDecode [38, 65, 96, 3, 0] 33 = .error .EPROTO := by
  decide

end TetraBs
