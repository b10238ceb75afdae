import TetraBs.Lib.BitLayout
import TetraBs.Mm.Iep

/-! The uplink MM PDUs as they are laid out: which fields and elements stand one after the other,
what each element declares, and the record that is made of them. -/
namespace TetraBs.UlPdu
open TetraBs.Bits TetraBs.BitLayout

inductive Usage where
  | attach (classOfUsage : BitVec 3)
  | detach (detachment : BitVec 2)

/-- By address type, from 0 to 3; the last one comes without an address. -/
inductive Address where
  | gssi (gssi : BitVec 24)
  | gssiExtension (gssi addressExtension : BitVec 24)
  | vgssi (vgssi : BitVec 24)
  | none

structure Giu where
  usage : Usage
  address : Address

/-- A GroupIdentityUplink element: declared length, declared number of groups, the groups. -/
structure GiuList where
  declared : BitVec 11
  numElems : BitVec 6
  elems : List Giu

/-- A GroupIdentityLocationDemand element. The optional part may be there without a list. -/
structure Gild where
  declared : BitVec 11
  attachDetachMode : Bool
  options : Option (Option GiuList)

/-- An element whose contents nobody looks at. -/
structure Skipped where
  declared : BitVec 11
  body : List Bool

/-- `closed`: the zero m-bit behind the last element is there; else the PDU ends with it. -/
structure DemandOptions where
  classOfMs : Option (BitVec 24)
  energySavingMode : Option (BitVec 3)
  laInformation : Option (BitVec 15)
  ssi : Option (BitVec 24)
  addressExtension : Option (BitVec 24)
  gild : Option Gild
  groupReportResponse : Option Skipped
  authenticationUplink : Option Skipped
  extendedCapabilities : Option Skipped
  proprietary : Option Skipped
  closed : Bool

structure GroupOptions where
  groupReportResponse : Option Skipped
  groups : Option GiuList
  proprietary : Option Skipped
  closed : Bool

end UlPdu

open UlPdu in
inductive UlPdu where
  | locationUpdateDemand (locationUpdateType : BitVec 3) (requestToAppendLa : Bool)
      (cipheringParameters : Option (BitVec 10)) (options : Option DemandOptions)
  | attachDetachGroupIdentity (report attachDetachMode : Bool) (options : Option GroupOptions)

namespace UlPdu
open TetraBs.Bits TetraBs.BitLayout

/-! The bits. -/

def tag (id : BitVec 32) : List Bool := true :: msbBits id 4

def Usage.bits : Usage → List Bool
  | .attach c => false :: msbBits c 3
  | .detach d => true :: msbBits d 2

def Address.bits : Address → List Bool
  | .gssi g => msbBits (0 : BitVec 2) 2 ++ msbBits g 24
  | .gssiExtension g e => msbBits (1 : BitVec 2) 2 ++ (msbBits g 24 ++ msbBits e 24)
  | .vgssi v => msbBits (2 : BitVec 2) 2 ++ msbBits v 24
  | .none => msbBits (3 : BitVec 2) 2

def Giu.bits (g : Giu) : List Bool := g.usage.bits ++ g.address.bits

/-- What the declared length counts. -/
def GiuList.payload (l : GiuList) : List Bool := msbBits l.numElems 6 ++ l.elems.flatMap Giu.bits

def GiuList.bits (l : GiuList) : List Bool := msbBits l.declared 11 ++ l.payload

/-- A part behind an o-bit. -/
def partBits {τ : Type} (bits : τ → List Bool) : Option τ → List Bool
  | none => [false]
  | some t => true :: bits t

def groupsBits (o : Option GiuList) : List Bool :=
  taggedBits (tag elemGroupIdentityUplink) GiuList.bits o ++ [false]

def Gild.payload (g : Gild) : List Bool :=
  false :: g.attachDetachMode :: partBits groupsBits g.options

def Gild.bits (g : Gild) : List Bool := msbBits g.declared 11 ++ g.payload

def Skipped.bits (s : Skipped) : List Bool := msbBits s.declared 11 ++ s.body

def skippedBits (id : BitVec 32) (o : Option Skipped) : List Bool :=
  taggedBits (tag id) Skipped.bits o

def DemandOptions.bits (o : DemandOptions) : List Bool :=
  optionalBits o.classOfMs ++ (optionalBits o.energySavingMode ++ (optionalBits o.laInformation ++
    (optionalBits o.ssi ++ (optionalBits o.addressExtension ++
      (taggedBits (tag elemGroupIdentityLocationDemand) Gild.bits o.gild ++
        (skippedBits elemGroupReportResponse o.groupReportResponse ++
          (skippedBits elemAuthenticationUplink o.authenticationUplink ++
            (skippedBits elemExtendedCapabilities o.extendedCapabilities ++
              (skippedBits elemProprietary o.proprietary ++ closingBits o.closed)))))))))

def GroupOptions.bits (o : GroupOptions) : List Bool :=
  skippedBits elemGroupReportResponse o.groupReportResponse ++
    (taggedBits (tag elemGroupIdentityUplink) GiuList.bits o.groups ++
      (skippedBits elemProprietary o.proprietary ++ closingBits o.closed))

def bits : UlPdu → List Bool
  | locationUpdateDemand lut append cipher options =>
    msbBits MmPduTypeUl.uLocationUpdateDemand.value 4 ++ (msbBits lut 3 ++
      (append :: (optionalBits cipher ++ partBits DemandOptions.bits options)))
  | attachDetachGroupIdentity report mode options =>
    msbBits MmPduTypeUl.uAttachDetachGroupIdentity.value 4 ++
      (report :: mode :: partBits GroupOptions.bits options)

/-- What may follow the PDU: anything, unless it is one that ends with its last element. -/
def Ends : UlPdu → List Bool → Prop
  | locationUpdateDemand _ _ _ options, s => ∀ o ∈ options, o.closed = true ∨ s = []
  | attachDetachGroupIdentity _ _ options, s => ∀ o ∈ options, o.closed = true ∨ s = []

/-- The string `s` begins with the PDU. -/
def At (p : UlPdu) (s : List Bool) : Prop := ∃ s', s = p.bits ++ s' ∧ p.Ends s'

/-! The elements of types 3 and 4, and what they declare. -/

inductive Element where
  | groupIdentityUplink (l : GiuList)
  | groupIdentityLocationDemand (g : Gild)
  | skipped (s : Skipped)

def skippedElements (o : Option Skipped) : List Element := o.toList.map .skipped

def giuElements (o : Option GiuList) : List Element := o.toList.map .groupIdentityUplink

def gildElements : Option Gild → List Element
  | none => []
  | some g => .groupIdentityLocationDemand g :: giuElements (g.options.getD none)

def DemandOptions.elements (o : DemandOptions) : List Element :=
  gildElements o.gild ++ skippedElements o.groupReportResponse ++
    skippedElements o.authenticationUplink ++ skippedElements o.extendedCapabilities ++
    skippedElements o.proprietary

def GroupOptions.elements (o : GroupOptions) : List Element :=
  skippedElements o.groupReportResponse ++ giuElements o.groups ++ skippedElements o.proprietary

def elements : UlPdu → List Element
  | locationUpdateDemand _ _ _ options => options.toList.flatMap DemandOptions.elements
  | attachDetachGroupIdentity _ _ options => options.toList.flatMap GroupOptions.elements

/-- The element occupies what it declares and holds as many groups as it declares. -/
def Element.Exact : Element → Prop
  | .groupIdentityUplink l =>
    l.numElems.toNat = l.elems.length ∧ l.declared.toNat = l.payload.length
  | .groupIdentityLocationDemand g => g.declared.toNat = g.payload.length
  | .skipped s => s.declared.toNat = s.body.length

def Exact (p : UlPdu) : Prop := ∀ e ∈ p.elements, e.Exact

/-! The record. -/

def Usage.record (g : MmGroupIdentityUplink) : Usage → MmGroupIdentityUplink
  | .attach c => { g with isAttach := true, classOfUsage := c.setWidth 8 }
  | .detach d => { g with isAttach := false, detachment := d.setWidth 8 }

def Address.record : Address → MmGroupIdentityUplink
  | .gssi g => { addressType := 0, gssi := g.setWidth 32 }
  | .gssiExtension g e =>
    { addressType := 1, gssi := g.setWidth 32, addressExtension := e.setWidth 32 }
  | .vgssi v => { addressType := 2, vgssi := v.setWidth 32 }
  | .none => { addressType := 3 }

def Giu.record (g : Giu) : MmGroupIdentityUplink := g.usage.record g.address.record

def giuRecords (o : Option GiuList) : List MmGroupIdentityUplink :=
  (o.map GiuList.elems).getD [] |>.map Giu.record

def Gild.record (g : Gild) : MmGild :=
  let giu := giuRecords (g.options.getD none)
  { attachDetachMode := (BitVec.ofBool g.attachDetachMode).setWidth 8, numGiu := giu.length,
    giu := giu }

def DemandOptions.record (d : MmDecoded) (o : DemandOptions) : MmDecoded :=
  { d with classOfMsPresent := o.classOfMs.isSome,
           classOfMs := (o.classOfMs.getD 0).setWidth 32,
           energySavingModePresent := o.energySavingMode.isSome,
           energySavingMode := EnergySavingMode.ofValue (o.energySavingMode.getD 0),
           laInformationPresent := o.laInformation.isSome,
           laInformation := (o.laInformation.getD 0).setWidth 32 >>> 1,
           ssiPresent := o.ssi.isSome, ssi := (o.ssi.getD 0).setWidth 32,
           addressExtensionPresent := o.addressExtension.isSome,
           addressExtension := (o.addressExtension.getD 0).setWidth 32,
           gildPresent := o.gild.isSome, gild := (o.gild.map Gild.record).getD {} }

def GroupOptions.record (d : MmDecoded) (o : GroupOptions) : MmDecoded :=
  let giu := giuRecords o.groups
  { d with numGiu := giu.length, giu := giu }

/-- Fields that are not there are zero. -/
def record : UlPdu → MmDecoded
  | locationUpdateDemand lut append cipher options =>
    let d : MmDecoded :=
      { pduType := .uLocationUpdateDemand, locationUpdateType := LocationUpdateType.ofValue lut,
        requestToAppendLa := append, cipherControl := cipher.isSome }
    options.elim d (DemandOptions.record d)
  | attachDetachGroupIdentity report mode options =>
    let d : MmDecoded :=
      { pduType := .uAttachDetachGroupIdentity, groupIdentityReport := report,
        attachDetachMode := (BitVec.ofBool mode).setWidth 8 }
    options.elim d (GroupOptions.record d)

/-! A string begins with one PDU only. Where one ends depends on the number of groups and on the
lengths of skipped elements alone. -/

def GiuList.Counted (l : GiuList) : Prop := l.numElems.toNat = l.elems.length

def Gild.Counted (g : Gild) : Prop := ∀ l ∈ g.options.getD none, l.Counted

def Skipped.Whole (s : Skipped) : Prop := s.declared.toNat = s.body.length

def Element.Sized : Element → Prop
  | .groupIdentityUplink l => l.Counted
  | .groupIdentityLocationDemand _ => True
  | .skipped s => s.Whole

def Sized (p : UlPdu) : Prop := ∀ e ∈ p.elements, e.Sized

section
variable {P : Element → Prop}

theorem forall_skippedElements {o : Option Skipped} :
    (∀ e ∈ skippedElements o, P e) ↔ ∀ s ∈ o, P (.skipped s) := by
  simp [skippedElements]

theorem forall_giuElements {o : Option GiuList} :
    (∀ e ∈ giuElements o, P e) ↔ ∀ l ∈ o, P (.groupIdentityUplink l) := by
  simp [giuElements]

theorem forall_gildElements {o : Option Gild} :
    (∀ e ∈ gildElements o, P e) ↔ ∀ g ∈ o, P (.groupIdentityLocationDemand g) ∧
      ∀ l ∈ g.options.getD none, P (.groupIdentityUplink l) := by
  cases o with
  | none => simp [gildElements]
  | some g => simp [gildElements, forall_giuElements]

theorem DemandOptions.forall_elements {o : DemandOptions} :
    (∀ e ∈ o.elements, P e) ↔
      (∀ g ∈ o.gild, P (.groupIdentityLocationDemand g) ∧
        ∀ l ∈ g.options.getD none, P (.groupIdentityUplink l)) ∧
      (∀ s ∈ o.groupReportResponse, P (.skipped s)) ∧
      (∀ s ∈ o.authenticationUplink, P (.skipped s)) ∧
      (∀ s ∈ o.extendedCapabilities, P (.skipped s)) ∧
      ∀ s ∈ o.proprietary, P (.skipped s) := by
  simp only [elements, List.forall_mem_append, forall_gildElements, forall_skippedElements,
    and_assoc]

theorem GroupOptions.forall_elements {o : GroupOptions} :
    (∀ e ∈ o.elements, P e) ↔ (∀ s ∈ o.groupReportResponse, P (.skipped s)) ∧
      (∀ l ∈ o.groups, P (.groupIdentityUplink l)) ∧ ∀ s ∈ o.proprietary, P (.skipped s) := by
  simp only [elements, List.forall_mem_append, forall_giuElements, forall_skippedElements,
    and_assoc]

end

theorem usage_prefixCode : PrefixCode Usage.bits fun _ => True := by
  intro u v s s' _ _ h
  cases u <;> cases v <;> simp_all [Usage.bits, msbBits_append_inj]

theorem address_prefixCode : PrefixCode Address.bits fun _ => True := by
  intro a b s s' _ _ h
  cases a <;> cases b <;> simp_all [Address.bits, msbBits_append_inj]

theorem giu_prefixCode : PrefixCode Giu.bits fun _ => True := by
  intro g h s s' _ _ heq
  rw [Giu.bits, Giu.bits, List.append_assoc, List.append_assoc] at heq
  obtain ⟨hu, hrest⟩ := usage_prefixCode trivial trivial heq
  obtain ⟨ha, rfl⟩ := address_prefixCode trivial trivial hrest
  cases g
  cases h
  cases hu
  cases ha
  exact ⟨rfl, rfl⟩

theorem giuList_prefixCode : PrefixCode GiuList.bits GiuList.Counted := by
  intro l m s s' hl hm h
  simp only [GiuList.bits, GiuList.payload, List.append_assoc, msbBits_append_inj] at h
  obtain ⟨hdeclared, hnum, helems⟩ := h
  have hlen : l.elems.length = m.elems.length := by
    rw [← hl, ← hm, hnum]
  obtain ⟨he, rfl⟩ := giu_prefixCode.flatMap (fun _ _ => trivial) (fun _ _ => trivial) hlen helems
  cases l
  cases m
  cases hdeclared
  cases hnum
  cases he
  exact ⟨rfl, rfl⟩

theorem not_tag_false {id : BitVec 32} {s : List Bool} : ¬tag id <+: false :: s := by
  intro h
  exact absurd (List.cons_prefix_cons.1 h).1 (by decide)

theorem groups_prefixCode : PrefixCode groupsBits fun o => ∀ l ∈ o, l.Counted := by
  intro o p s s' ho hp h
  rw [groupsBits, groupsBits, List.append_assoc, List.append_assoc] at h
  obtain ⟨rfl, hend⟩ := giuList_prefixCode.element ho hp not_tag_false not_tag_false h
  exact ⟨rfl, (List.cons.inj hend).2⟩

theorem partBits_inj {τ : Type} {bits : τ → List Bool} {o p : Option τ} {s s' : List Bool}
    (h : ∀ t ∈ o, ∀ u ∈ p, bits t ++ s = bits u ++ s' → t = u ∧ s = s')
    (heq : partBits bits o ++ s = partBits bits p ++ s') : o = p ∧ s = s' := by
  cases o with
  | none =>
    cases p with
    | none => exact ⟨rfl, (List.cons.inj heq).2⟩
    | some u => cases (List.cons.inj heq).1
  | some t =>
    cases p with
    | none => cases (List.cons.inj heq).1
    | some u =>
      obtain ⟨rfl, rfl⟩ := h t rfl u rfl (List.cons.inj heq).2
      exact ⟨rfl, rfl⟩

theorem gild_prefixCode : PrefixCode Gild.bits Gild.Counted := by
  intro g h s s' hg hh heq
  simp only [Gild.bits, Gild.payload, List.append_assoc, msbBits_append_inj, List.cons_append,
    List.cons.injEq, true_and] at heq
  obtain ⟨hdeclared, hmode, hparts⟩ := heq
  have hoptions : g.options = h.options ∧ s = s' := by
    refine partBits_inj (fun o ho p hp hop => ?_) hparts
    rw [Gild.Counted, ho] at hg
    rw [Gild.Counted, hp] at hh
    exact groups_prefixCode hg hh hop
  obtain ⟨hoptions, rfl⟩ := hoptions
  cases g
  cases h
  cases hdeclared
  cases hmode
  cases hoptions
  exact ⟨rfl, rfl⟩

theorem skipped_prefixCode : PrefixCode Skipped.bits Skipped.Whole := by
  intro u v s s' hu hv h
  simp only [Skipped.bits, List.append_assoc, msbBits_append_inj] at h
  obtain ⟨hdeclared, hrest⟩ := h
  have hlen : u.body.length = v.body.length := by
    rw [← hu, ← hv, hdeclared]
  obtain ⟨hbody, rfl⟩ := List.append_inj hrest hlen
  cases u
  cases v
  cases hdeclared
  cases hbody
  exact ⟨rfl, rfl⟩

theorem skipped_element {id : BitVec 32} {o p : Option Skipped} {s s' : List Bool}
    (ho : ∀ t ∈ o, t.Whole) (hp : ∀ t ∈ p, t.Whole) (hs : ¬tag id <+: s) (hs' : ¬tag id <+: s')
    (h : skippedBits id o ++ s = skippedBits id p ++ s') : o = p ∧ s = s' :=
  skipped_prefixCode.element ho hp hs hs' h

/-! What follows an element does not begin with its tag. -/

theorem not_tag_skipped {id other : BitVec 32} {o : Option Skipped} {s : List Bool}
    (hne : tag id ≠ tag other) (hs : ¬tag id <+: s) : ¬tag id <+: skippedBits other o ++ s :=
  not_tag_taggedBits rfl hne hs

theorem not_tag_groups {id : BitVec 32} {o : Option GiuList} {s : List Bool}
    (hne : tag id ≠ tag elemGroupIdentityUplink) (hs : ¬tag id <+: s) :
    ¬tag id <+: taggedBits (tag elemGroupIdentityUplink) GiuList.bits o ++ s :=
  not_tag_taggedBits rfl hne hs

theorem not_tag_closing {id : BitVec 32} {c : Bool} {s : List Bool} (hs : c = true ∨ s = []) :
    ¬tag id <+: closingBits c ++ s :=
  not_tag_closingBits hs

/-- Behind each element of a location update demand. -/
theorem DemandOptions.tails (o : DemandOptions) {s : List Bool} (hs : o.closed = true ∨ s = []) :
    ¬tag elemGroupIdentityLocationDemand <+:
        skippedBits elemGroupReportResponse o.groupReportResponse ++
          (skippedBits elemAuthenticationUplink o.authenticationUplink ++
            (skippedBits elemExtendedCapabilities o.extendedCapabilities ++
              (skippedBits elemProprietary o.proprietary ++ (closingBits o.closed ++ s)))) ∧
      ¬tag elemGroupReportResponse <+:
          skippedBits elemAuthenticationUplink o.authenticationUplink ++
            (skippedBits elemExtendedCapabilities o.extendedCapabilities ++
              (skippedBits elemProprietary o.proprietary ++ (closingBits o.closed ++ s))) ∧
      ¬tag elemAuthenticationUplink <+:
          skippedBits elemExtendedCapabilities o.extendedCapabilities ++
            (skippedBits elemProprietary o.proprietary ++ (closingBits o.closed ++ s)) ∧
      ¬tag elemExtendedCapabilities <+:
          skippedBits elemProprietary o.proprietary ++ (closingBits o.closed ++ s) ∧
      ¬tag elemProprietary <+: closingBits o.closed ++ s := by
  have h1 : ∀ {id}, tag id ≠ tag elemProprietary → ¬tag id <+:
      skippedBits elemProprietary o.proprietary ++ (closingBits o.closed ++ s) :=
    fun hne => not_tag_skipped hne (not_tag_closing hs)
  have h2 : ∀ {id}, tag id ≠ tag elemProprietary → tag id ≠ tag elemExtendedCapabilities →
      ¬tag id <+: skippedBits elemExtendedCapabilities o.extendedCapabilities ++
        (skippedBits elemProprietary o.proprietary ++ (closingBits o.closed ++ s)) :=
    fun hp he => not_tag_skipped he (h1 hp)
  have h3 : ∀ {id}, tag id ≠ tag elemProprietary → tag id ≠ tag elemExtendedCapabilities →
      tag id ≠ tag elemAuthenticationUplink →
      ¬tag id <+: skippedBits elemAuthenticationUplink o.authenticationUplink ++
        (skippedBits elemExtendedCapabilities o.extendedCapabilities ++
          (skippedBits elemProprietary o.proprietary ++ (closingBits o.closed ++ s))) :=
    fun hp he ha => not_tag_skipped ha (h2 hp he)
  exact ⟨not_tag_skipped (by decide) (h3 (by decide) (by decide) (by decide)),
    h3 (by decide) (by decide) (by decide), h2 (by decide) (by decide), h1 (by decide),
    not_tag_closing hs⟩

/-- Behind each element of a group demand. -/
theorem GroupOptions.tails (o : GroupOptions) {s : List Bool} (hs : o.closed = true ∨ s = []) :
    ¬tag elemGroupReportResponse <+:
        taggedBits (tag elemGroupIdentityUplink) GiuList.bits o.groups ++
          (skippedBits elemProprietary o.proprietary ++ (closingBits o.closed ++ s)) ∧
      ¬tag elemGroupIdentityUplink <+:
          skippedBits elemProprietary o.proprietary ++ (closingBits o.closed ++ s) ∧
      ¬tag elemProprietary <+: closingBits o.closed ++ s := by
  have h1 : ∀ {id}, tag id ≠ tag elemProprietary → ¬tag id <+:
      skippedBits elemProprietary o.proprietary ++ (closingBits o.closed ++ s) :=
    fun hne => not_tag_skipped hne (not_tag_closing hs)
  exact ⟨not_tag_groups (by decide) (h1 (by decide)), h1 (by decide), not_tag_closing hs⟩

theorem DemandOptions.bits_inj {o p : DemandOptions} {s s' : List Bool}
    (ho : ∀ e ∈ o.elements, e.Sized) (hp : ∀ e ∈ p.elements, e.Sized)
    (hs : o.closed = true ∨ s = []) (hs' : p.closed = true ∨ s' = [])
    (h : o.bits ++ s = p.bits ++ s') : o = p ∧ s = s' := by
  obtain ⟨ho1, ho2, ho3, ho4, ho5⟩ := forall_elements.1 ho
  obtain ⟨hp1, hp2, hp3, hp4, hp5⟩ := forall_elements.1 hp
  obtain ⟨hd1, hd2, hd3, hd4, hd5⟩ := o.tails hs
  obtain ⟨he1, he2, he3, he4, he5⟩ := p.tails hs'
  simp only [DemandOptions.bits, List.append_assoc, optionalBits_append_inj] at h
  obtain ⟨hclass, hsaving, hla, hssi, hext, h⟩ := h
  obtain ⟨hgild, h⟩ := gild_prefixCode.element (fun g hg => (ho1 g hg).2)
    (fun g hg => (hp1 g hg).2) hd1 he1 h
  obtain ⟨hreport, h⟩ := skipped_element ho2 hp2 hd2 he2 h
  obtain ⟨hauth, h⟩ := skipped_element ho3 hp3 hd3 he3 h
  obtain ⟨hcap, h⟩ := skipped_element ho4 hp4 hd4 he4 h
  obtain ⟨hprop, h⟩ := skipped_element ho5 hp5 hd5 he5 h
  obtain ⟨hclosed, rfl⟩ := closingBits_inj hs hs' h
  refine ⟨?_, rfl⟩
  cases o
  cases p
  simp_all only

theorem GroupOptions.bits_inj {o p : GroupOptions} {s s' : List Bool}
    (ho : ∀ e ∈ o.elements, e.Sized) (hp : ∀ e ∈ p.elements, e.Sized)
    (hs : o.closed = true ∨ s = []) (hs' : p.closed = true ∨ s' = [])
    (h : o.bits ++ s = p.bits ++ s') : o = p ∧ s = s' := by
  obtain ⟨ho1, ho2, ho3⟩ := forall_elements.1 ho
  obtain ⟨hp1, hp2, hp3⟩ := forall_elements.1 hp
  obtain ⟨hd1, hd2, hd3⟩ := o.tails hs
  obtain ⟨he1, he2, he3⟩ := p.tails hs'
  simp only [GroupOptions.bits, List.append_assoc] at h
  obtain ⟨hreport, h⟩ := skipped_element ho1 hp1 hd1 he1 h
  obtain ⟨hgroups, h⟩ := giuList_prefixCode.element ho2 hp2 hd2 he2 h
  obtain ⟨hprop, h⟩ := skipped_element ho3 hp3 hd3 he3 h
  obtain ⟨hclosed, rfl⟩ := closingBits_inj hs hs' h
  refine ⟨?_, rfl⟩
  cases o
  cases p
  simp_all only

theorem forall_options {τ : Type} {P : Element → Prop} {o : Option τ} {f : τ → List Element} :
    (∀ e ∈ o.toList.flatMap f, P e) ↔ ∀ t ∈ o, ∀ e ∈ f t, P e := by
  cases o <;> simp

theorem types_ne (s s' : List Bool) : msbBits MmPduTypeUl.uLocationUpdateDemand.value 4 ++ s ≠
    msbBits MmPduTypeUl.uAttachDetachGroupIdentity.value 4 ++ s' := by
  intro h
  exact absurd (List.append_inj h rfl).1 (by decide)

theorem At.unique {p q : UlPdu} {s : List Bool} (hp : p.Sized) (hq : q.Sized) (hps : p.At s)
    (hqs : q.At s) : p = q := by
  obtain ⟨t, rfl, ht⟩ := hps
  obtain ⟨u, h, hu⟩ := hqs
  cases p with
  | locationUpdateDemand lut append cipher options =>
    cases q with
    | locationUpdateDemand lut' append' cipher' options' =>
      simp only [UlPdu.bits, List.append_assoc, List.cons_append, msbBits_append_inj,
        optionalBits_append_inj, List.cons.injEq, List.append_cancel_left_eq] at h
      obtain ⟨hlut, happend, hcipher, hoptions⟩ := h
      obtain ⟨ho, -⟩ := partBits_inj (fun o ho p hp' hop => DemandOptions.bits_inj
        (forall_options.1 hp o ho) (forall_options.1 hq p hp') (ht o ho) (hu p hp') hop) hoptions
      rw [hlut, happend, hcipher, ho]
    | attachDetachGroupIdentity report mode options' =>
      rw [UlPdu.bits, UlPdu.bits, List.append_assoc, List.append_assoc] at h
      exact absurd h (types_ne _ _)
  | attachDetachGroupIdentity report mode options =>
    cases q with
    | locationUpdateDemand lut append cipher options' =>
      rw [UlPdu.bits, UlPdu.bits, List.append_assoc, List.append_assoc] at h
      exact absurd h.symm (types_ne _ _)
    | attachDetachGroupIdentity report' mode' options' =>
      simp only [UlPdu.bits, List.append_assoc, List.cons_append, List.cons.injEq,
        List.append_cancel_left_eq] at h
      obtain ⟨hreport, hmode, hoptions⟩ := h
      obtain ⟨ho, -⟩ := partBits_inj (fun o ho p hp' hop => GroupOptions.bits_inj
        (forall_options.1 hp o ho) (forall_options.1 hq p hp') (ht o ho) (hu p hp') hop) hoptions
      rw [hreport, hmode, ho]

end UlPdu
end TetraBs
