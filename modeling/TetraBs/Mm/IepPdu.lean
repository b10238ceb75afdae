import TetraBs.Mm.IepReads

/-! Which bit strings the uplink MM decoder accepts, and what their elements declare. -/
namespace TetraBs
open TetraBs.Bits TetraBs.BitLayout TetraBs.Decoder TetraBs.UlPdu

def UlPdu.Element.Accepted : Element → Prop
  | .groupIdentityUplink l => l.Accepted
  | .groupIdentityLocationDemand g => g.Accepted
  | .skipped t => t.Accepted

/-- The optional part with what may stand behind it. -/
def optionsLayout {τ : Type} (elements : τ → List Element) (bits : τ → List Bool)
    (closed : τ → Bool) : Layout τ := fun o s s' =>
  (∀ e ∈ elements o, e.Accepted) ∧ s = bits o ++ s' ∧ (closed o = true ∨ s' = [])

def demandOptionsLayout : Layout DemandOptions :=
  optionsLayout DemandOptions.elements DemandOptions.bits DemandOptions.closed

theorem reads_decodeDemandOptions (d : MmDecoded) :
    MmReads (decodeDemandOptions d) demandOptionsLayout (DemandOptions.record d) := by
  rw [decodeDemandOptions]
  refine (reads_decodeType2U64.bind fun _ =>
    (reads_decodeType2Generic (n := 3) (by decide) (by decide)).bind fun _ =>
    (reads_decodeType2Generic (n := 15) (by decide) (by decide)).bind fun _ =>
    (reads_decodeType2Generic (n := 24) (by decide) (by decide)).bind fun _ =>
    (reads_decodeType2Generic (n := 24) (by decide) (by decide)).bind fun _ =>
    (reads_withType34 (by decide) reads_decodeGildElement).bind fun gild =>
    (reads_decodeType3GenericSkip (by decide)).bind fun _ =>
    (reads_decodeType3GenericSkip (by decide)).bind fun _ =>
    (reads_decodeType3GenericSkip (by decide)).bind fun _ =>
    (reads_decodeType3GenericSkip (by decide)).bind fun _ =>
    reads_decodeTrailing.bind_pure fun _ => _).relayout ?_ ?_
  · rintro ⟨c, e, l, a, x, g, t1, t2, t3, t4, z⟩ s s' ⟨m1, rfl, m2, rfl, m3, rfl, m4, rfl, m5,
      rfl, m6, hg, m7, h1, m8, h2, m9, h3, m10, h4, hz⟩
    obtain ⟨accg, rfl, -⟩ := element_iff.1 hg
    obtain ⟨acc1, rfl, -⟩ := element_iff.1 h1
    obtain ⟨acc2, rfl, -⟩ := element_iff.1 h2
    obtain ⟨acc3, rfl, -⟩ := element_iff.1 h3
    obtain ⟨acc4, rfl, -⟩ := element_iff.1 h4
    obtain ⟨rfl, hend⟩ := closing_iff.1 hz
    refine ⟨⟨c, e, l, a, x, g, t1, t2, t3, t4, z⟩, ⟨?_, ?_, hend⟩, ?_⟩
    · exact DemandOptions.forall_elements.2
        ⟨fun g hm => ⟨accg g hm, (accg g hm).groups⟩, acc1, acc2, acc3, acc4⟩
    · simp only [DemandOptions.bits, skippedBits, List.append_assoc]
    · simp [DemandOptions.record, mask_setWidth]
  · rintro o s s' ⟨hacc, rfl, hz⟩
    obtain ⟨hg, h1, h2, h3, h4⟩ := DemandOptions.forall_elements.1 hacc
    obtain ⟨n1, n2, n3, n4, n5⟩ := o.tails hz
    have hg : ∀ g ∈ o.gild, g.Accepted := fun g hm => (hg g hm).1
    refine ⟨(o.classOfMs, o.energySavingMode, o.laInformation, o.ssi, o.addressExtension, o.gild,
      o.groupReportResponse, o.authenticationUplink, o.extendedCapabilities, o.proprietary,
      o.closed), ⟨_, ?_, _, rfl, _, rfl, _, rfl, _, rfl, _, element_iff.2 ⟨hg, rfl, fun _ => n1⟩,
      _, element_iff.2 ⟨h1, rfl, fun _ => n2⟩, _, element_iff.2 ⟨h2, rfl, fun _ => n3⟩, _,
      element_iff.2 ⟨h3, rfl, fun _ => n4⟩, _, element_iff.2 ⟨h4, rfl, fun _ => n5⟩,
      closing_iff.2 ⟨rfl, hz⟩⟩, ?_⟩
    · simp only [DemandOptions.bits, skippedBits, List.append_assoc]
      rfl
    · simp [DemandOptions.record, mask_setWidth]

def groupOptionsLayout : Layout GroupOptions :=
  optionsLayout GroupOptions.elements GroupOptions.bits GroupOptions.closed

theorem reads_decodeGroupOptions (d : MmDecoded) :
    MmReads (decodeGroupOptions d) groupOptionsLayout (GroupOptions.record d) := by
  rw [decodeGroupOptions]
  refine ((reads_decodeType3GenericSkip (by decide)).bind fun _ =>
    reads_decodeGiuList.bind fun _ =>
    (reads_decodeType3GenericSkip (by decide)).bind fun _ =>
    reads_decodeTrailing.bind_pure fun _ => _).relayout ?_ ?_
  · rintro ⟨t1, l, t2, z⟩ s s' ⟨m1, h1, m2, hl, m3, h2, hz⟩
    obtain ⟨acc1, rfl, -⟩ := element_iff.1 h1
    obtain ⟨accl, rfl, -⟩ := element_iff.1 hl
    obtain ⟨acc2, rfl, -⟩ := element_iff.1 h2
    obtain ⟨rfl, hend⟩ := closing_iff.1 hz
    refine ⟨⟨t1, l, t2, z⟩, ⟨GroupOptions.forall_elements.2 ⟨acc1, accl, acc2⟩, ?_, hend⟩, rfl⟩
    simp only [GroupOptions.bits, skippedBits, List.append_assoc]
  · rintro o s s' ⟨hacc, rfl, hz⟩
    obtain ⟨h1, hl, h2⟩ := GroupOptions.forall_elements.1 hacc
    obtain ⟨n1, nl, n2⟩ := o.tails hz
    refine ⟨(o.groupReportResponse, o.groups, o.proprietary, o.closed), ⟨_, ?_, _,
      element_iff.2 ⟨hl, rfl, fun _ => nl⟩, _, element_iff.2 ⟨h2, rfl, fun _ => n2⟩,
      closing_iff.2 ⟨rfl, hz⟩⟩, rfl⟩
    simp only [GroupOptions.bits, skippedBits, List.append_assoc]
    exact element_iff.2 ⟨h1, rfl, fun _ => n1⟩

/-- A whole PDU, accepted element by element. -/
def pduLayout : Layout UlPdu := fun p s s' =>
  (∀ e ∈ p.elements, e.Accepted) ∧ s = p.bits ++ s' ∧ p.Ends s'

/-- The optional part, or the end of the PDU. -/
theorem reads_options {τ : Type} {x : MmDecoder MmDecoded} {C : Layout τ} {f : τ → MmDecoded}
    (hx : MmReads x C f) (d : MmDecoded) (obit : Bool) :
    MmReads (if obit then x else endOfPdu d) (partIf obit C) fun o => o.elim d f := by
  cases obit with
  | false =>
    refine (reads_failOnOverrun.bind_pure fun _ => d).relayout ?_ ?_
    · rintro u s s' h
      exact ⟨none, ⟨rfl, h⟩, rfl⟩
    · rintro (_ | t) s s' ⟨ho, h⟩
      · exact ⟨(), h, rfl⟩
      · cases ho
  | true =>
    refine hx.relayout ?_ ?_
    · rintro t s s' h
      exact ⟨some t, ⟨rfl, h⟩, rfl⟩
    · rintro (_ | t) s s' ⟨ho, h⟩
      · cases ho
      · exact ⟨t, h, rfl⟩

/-- An optional part begins with its o-bit. -/
theorem partBits_cons {τ : Type} (bits : τ → List Bool) (o : Option τ) (s' : List Bool) :
    ∃ m, o.isSome :: m = partBits bits o ++ s' := by
  cases o with
  | none => exact ⟨s', rfl⟩
  | some t => exact ⟨bits t ++ s', rfl⟩

/-- The optional part behind its o-bit. -/
theorem partIf_iff {τ : Type} {elements : τ → List Element} {bits : τ → List Bool}
    {closed : τ → Bool} {obit : Bool} {o : Option τ} {s s' : List Bool} :
    partIf obit (optionsLayout elements bits closed) o s s' ↔ o.isSome = obit ∧
      (∀ e ∈ o.toList.flatMap elements, e.Accepted) ∧ obit :: s = partBits bits o ++ s' ∧
        ∀ t ∈ o, closed t = true ∨ s' = [] := by
  cases o with
  | none =>
    constructor
    · rintro ⟨rfl, rfl⟩
      exact ⟨rfl, nofun, rfl, nofun⟩
    · rintro ⟨rfl, _, h, _⟩
      exact ⟨rfl, (List.cons.inj h).2⟩
  | some t =>
    constructor
    · rintro ⟨rfl, hacc, rfl, hend⟩
      refine ⟨rfl, forall_options.2 fun u hu => ?_, rfl, fun u hu => ?_⟩
      · cases hu
        exact hacc
      · cases hu
        exact hend
    · rintro ⟨rfl, hacc, h, hend⟩
      exact ⟨rfl, forall_options.1 hacc t rfl, (List.cons.inj h).2, hend t rfl⟩

theorem msbBits_setWidth {n : Nat} (hn : n ≤ 32) (v : BitVec n) :
    msbBits (v.setWidth 32) n = msbBits v n := by
  refine List.map_congr_left fun k hk => ?_
  have := List.mem_range.1 hk
  rw [BitVec.getLsbD_setWidth, decide_eq_true (by omega), Bool.true_and]

theorem reads_decodeULocUpdateDemand :
    MmReads decodeULocUpdateDemand
      (fun (p : BitVec 3 × Bool × Option (BitVec 10) × Option DemandOptions) =>
        pduLayout (.locationUpdateDemand p.1 p.2.1 p.2.2.1 p.2.2.2))
      fun p => (UlPdu.locationUpdateDemand p.1 p.2.1 p.2.2.1 p.2.2.2).record := by
  rw [decodeULocUpdateDemand]
  refine ((reads_read (n := 4) (by decide) (by decide)).bind fun pduType =>
    (reads_failIf _).bind fun _ => (reads_read (n := 3) (by decide) (by decide)).bind fun lut =>
    reads_readBit.bind fun append => reads_readBit.bind fun cipher =>
    (reads_readIf cipher (n := 10) (by decide) (by decide)).bind fun _ =>
    reads_readBit.bind fun obit => reads_options (reads_decodeDemandOptions _) _ obit).relayout
    ?_ ?_
  · rintro ⟨t, u, lut, append, cipher, params, obit, o⟩ s s' ⟨m1, rfl, m2, ⟨ht, rfl⟩, m3, rfl,
      m4, rfl, m5, rfl, m6, hparams, m7, rfl, ho⟩
    obtain ⟨hcipher, hparams⟩ := fieldIf_iff.1 hparams
    obtain ⟨-, hacc, ho, hend⟩ := partIf_iff.1 ho
    refine ⟨(lut, append, params, o), ⟨hacc, ?_, hend⟩, ?_⟩
    · rw [UlPdu.bits, ← bne_eq_false_iff_eq.1 ht, msbBits_setWidth (by decide)]
      simp only [List.append_assoc, List.cons_append]
      rw [← ho, ← hparams]
    · obtain rfl : params.isSome = cipher := hcipher
      simp [UlPdu.record]
  · rintro ⟨lut, append, params, o⟩ s s' ⟨hacc, rfl, hend⟩
    obtain ⟨m, hm⟩ := partBits_cons DemandOptions.bits o s'
    obtain ⟨m', hm'⟩ : ∃ m', params.isSome :: m' = optionalBits params ++ (o.isSome :: m) := by
      cases params with
      | none => exact ⟨_, rfl⟩
      | some v => exact ⟨msbBits v 10 ++ (o.isSome :: m), rfl⟩
    refine ⟨(2, (), lut, append, params.isSome, params, o.isSome, o), ⟨_, ?_, _, ⟨rfl, rfl⟩, _,
      rfl, params.isSome :: m', rfl, m', rfl, _, fieldIf_iff.2 ⟨rfl, hm'⟩, m, rfl,
      partIf_iff.2 ⟨rfl, hacc, hm, hend⟩⟩, by simp [UlPdu.record]⟩
    simp only [UlPdu.bits, List.append_assoc, List.cons_append]
    rw [hm', hm]
    rfl

theorem reads_decodeUAttachDetachGrpId :
    MmReads decodeUAttachDetachGrpId
      (fun (p : Bool × Bool × Option GroupOptions) =>
        pduLayout (.attachDetachGroupIdentity p.1 p.2.1 p.2.2))
      fun p => (UlPdu.attachDetachGroupIdentity p.1 p.2.1 p.2.2).record := by
  rw [decodeUAttachDetachGrpId]
  refine ((reads_read (n := 4) (by decide) (by decide)).bind fun pduType =>
    (reads_failIf _).bind fun _ => reads_readBit.bind fun report => reads_read_bit.bind fun mode =>
    reads_readBit.bind fun obit => reads_options (reads_decodeGroupOptions _) _ obit).relayout
    ?_ ?_
  · rintro ⟨t, u, report, mode, obit, o⟩ s s' ⟨m1, rfl, m2, ⟨ht, rfl⟩, m3, rfl, m4, rfl, m5, rfl,
      ho⟩
    obtain ⟨-, hacc, ho, hend⟩ := partIf_iff.1 ho
    refine ⟨(report, mode, o), ⟨hacc, ?_, hend⟩, ?_⟩
    · rw [UlPdu.bits, ← bne_eq_false_iff_eq.1 ht, msbBits_setWidth (by decide)]
      simp only [List.append_assoc, List.cons_append]
      rw [← ho]
    · cases mode <;> rfl
  · rintro ⟨report, mode, o⟩ s s' ⟨hacc, rfl, hend⟩
    obtain ⟨m, hm⟩ := partBits_cons GroupOptions.bits o s'
    refine ⟨(7, (), report, mode, o.isSome, o), ⟨_, ?_, _, ⟨rfl, rfl⟩, _, rfl, o.isSome :: m, rfl,
      m, rfl, partIf_iff.2 ⟨rfl, hacc, hm, hend⟩⟩, by cases mode <;> rfl⟩
    simp only [UlPdu.bits, List.append_assoc, List.cons_append]
    rw [hm]
    rfl

/-! The whole decoder. -/

theorem ensures_failOnOverrun :
    Ensures (fun _ => True) failOnOverrun fun _ r => r.overrun = false := by
  intro r _ a r' hrun
  obtain ⟨rfl, h⟩ := run_failOnOverrun hrun
  exact h

theorem ensures_endOfPdu (d : MmDecoded) :
    Ensures (fun _ => True) (endOfPdu d) fun _ r => r.overrun = false :=
  ensures_bind ensures_failOnOverrun fun _ => ensures_pure fun _ h => h

theorem ensures_decodeTrailing :
    Ensures (fun _ => True) decodeTrailing fun _ r => r.overrun = false := by
  rw [decodeTrailing]
  iterate 3 refine ensures_bind (ensures_true _) fun _ => ?_
  exact ensures_failOnOverrun

theorem ensures_decodeULocUpdateDemand :
    Ensures (fun _ => True) decodeULocUpdateDemand fun _ r => r.overrun = false := by
  rw [decodeULocUpdateDemand]
  iterate 7 refine ensures_bind (ensures_true _) fun _ => ?_
  refine ensures_ite (fun _ => ?_) fun _ => ensures_endOfPdu _
  rw [decodeDemandOptions]
  iterate 10 refine ensures_bind (ensures_true _) fun _ => ?_
  exact ensures_bind ensures_decodeTrailing fun _ => ensures_pure fun _ h => h

theorem ensures_decodeUAttachDetachGrpId :
    Ensures (fun _ => True) decodeUAttachDetachGrpId fun _ r => r.overrun = false := by
  rw [decodeUAttachDetachGrpId]
  iterate 5 refine ensures_bind (ensures_true _) fun _ => ?_
  refine ensures_ite (fun _ => ?_) fun _ => ensures_endOfPdu _
  rw [decodeGroupOptions]
  iterate 3 refine ensures_bind (ensures_true _) fun _ => ?_
  exact ensures_bind ensures_decodeTrailing fun _ => ensures_pure fun _ h => h

def UlPdu.Accepted (p : UlPdu) : Prop := ∀ e ∈ p.elements, e.Accepted

/-- At the start of the buffer. -/
def startOf (bits : List Byte) (lenBits : Nat) : RBuf := { bits := bits, lenBits := lenBits }

theorem startOf_good (bits : List Byte) (lenBits : Nat) : (startOf bits lenBits).Good :=
  ⟨rfl, Nat.zero_le _⟩

/-- The first four bits are the type. -/
theorem mmPduType_of_window {bits : List Byte} {lenBits : Nat} {v : BitVec 4} {s : List Bool}
    (h : window bits 0 lenBits = msbBits v 4 ++ s) :
    ¬lenBits < 4 ∧ ¬(rbufRead (startOf bits lenBits) 4).2.overrun = true ∧
      mmPduType bits lenBits = v.setWidth 32 := by
  have hlen := congrArg List.length h
  rw [window_length, List.length_append, msbBits_length] at hlen
  obtain ⟨r', hrun, hgood, -, -⟩ := (reads_read (n := 4) (by decide) (by decide)).accepts
    (startOf_good bits lenBits) (t := v) h
  have hread : rbufRead (startOf bits lenBits) 4 = (v.setWidth 32, r') := Except.ok.inj hrun
  refine ⟨by omega, ?_, ?_⟩
  · rw [hread, hgood.overrun]
    decide
  · exact congrArg Prod.fst hread

theorem mmIepDecode_iff {bits : List Byte} {lenBits : Nat} {d : MmDecoded} :
    mmIepDecode bits lenBits = .ok d ↔
      ∃ p : UlPdu, p.Accepted ∧ p.At (window bits 0 lenBits) ∧ p.record = d := by
  have hread : ∀ {τ : Type} {x : MmDecoder MmDecoded} {g : τ → UlPdu},
      MmReads x (fun t => pduLayout (g t)) (fun t => (g t).record) →
      Ensures (fun _ => True) x (fun _ r => r.overrun = false) →
      (x.run (startOf bits lenBits)).map Prod.fst = .ok d →
      ∃ p : UlPdu, p.Accepted ∧ p.At (window bits 0 lenBits) ∧ p.record = d := by
    intro τ x g hx he h
    cases hrun : x.run (startOf bits lenBits) with
    | error e =>
      rw [hrun] at h
      cases h
    | ok q =>
      obtain ⟨a, r'⟩ := q
      rw [hrun] at h
      cases h
      have hgood : r'.Good :=
        ⟨he _ trivial _ _ hrun, hx.keeps hrun (startOf_good bits lenBits).pos_le⟩
      obtain ⟨-, t, ⟨hacc, hbits, hend⟩, hval⟩ := hx.reads hrun hgood
      exact ⟨g t, hacc, ⟨_, hbits, hend⟩, hval⟩
  constructor
  · intro h
    obtain ⟨-, hrun⟩ | ⟨-, hrun⟩ := mmIepDecode_cases h
    · exact hread reads_decodeULocUpdateDemand ensures_decodeULocUpdateDemand hrun
    · exact hread reads_decodeUAttachDetachGrpId ensures_decodeUAttachDetachGrpId hrun
  · rintro ⟨p, hacc, ⟨s', hbits, hend⟩, rfl⟩
    have hdecodes : ∀ {τ : Type} {x : MmDecoder MmDecoded} {g : τ → UlPdu} {t : τ}, g t = p →
        MmReads x (fun t => pduLayout (g t)) (fun t => (g t).record) →
        (x.run (startOf bits lenBits)).map Prod.fst = .ok p.record := by
      rintro τ x g t rfl hx
      obtain ⟨r', hrun, -⟩ := hx.accepts (startOf_good bits lenBits) (t := t) ⟨hacc, hbits, hend⟩
      rw [hrun]
      rfl
    cases p with
    | locationUpdateDemand lut append params o =>
      obtain ⟨h4, hov, htype⟩ := mmPduType_of_window (v := 2) hbits
      rw [mmIepDecode, if_neg h4]
      refine (if_neg hov).trans ((if_pos htype).trans ?_)
      exact hdecodes (t := (lut, append, params, o)) rfl reads_decodeULocUpdateDemand
    | attachDetachGroupIdentity report mode o =>
      obtain ⟨h4, hov, htype⟩ := mmPduType_of_window (v := 7) hbits
      have hother : mmPduType bits lenBits ≠ MmPduTypeUl.uLocationUpdateDemand.value := by
        rw [htype]
        decide
      rw [mmIepDecode, if_neg h4]
      refine (if_neg hov).trans ((if_neg hother).trans ((if_pos htype).trans ?_))
      exact hdecodes (t := (report, mode, o)) rfl reads_decodeUAttachDetachGrpId

/-! What the accepted elements declare. -/

/-- Success means a PDU of the layout, all of it within the length and with every element as long
as it declares; bits beyond the length make no difference. -/
def DecodesExactly (bits : List Byte) (lenBits : Nat) : Prop :=
  (∃ p : UlPdu, p.At (window bits 0 lenBits) ∧ p.Exact ∧
      ∀ bits', window bits' 0 lenBits = window bits 0 lenBits →
        mmIepDecode bits' lenBits = .ok p.record) ∨
    ∃ e, mmIepDecode bits lenBits = .error e

/-- A PDU that is in order but for a group list that declares less than its own number of
groups. -/
def ShortList (s : List Bool) : Prop :=
  ∃ p : UlPdu, p.At s ∧ p.Accepted ∧
    ∃ l, .groupIdentityUplink l ∈ p.elements ∧ l.declared.toNat < 6

theorem UlPdu.Element.Accepted.sized {e : Element} (h : e.Accepted) : e.Sized := by
  cases e with
  | groupIdentityUplink l => exact GiuList.Accepted.counted h
  | groupIdentityLocationDemand g => exact trivial
  | skipped t => exact Skipped.Accepted.whole h

/-- A list that declares at least its number of groups is as long as it declares. -/
theorem UlPdu.Element.Accepted.exact {e : Element} (h : e.Accepted)
    (hlist : ∀ l, e = .groupIdentityUplink l → 6 ≤ l.declared.toNat) : e.Exact := by
  cases e with
  | groupIdentityUplink l =>
    exact ⟨GiuList.Accepted.counted h, GiuList.Accepted.length h (hlist l rfl)⟩
  | groupIdentityLocationDemand g => exact Gild.Accepted.length h
  | skipped t => exact Skipped.Accepted.whole h

theorem UlPdu.Element.Exact.sized {e : Element} (h : e.Exact) : e.Sized := by
  cases e with
  | groupIdentityUplink l => exact h.1
  | groupIdentityLocationDemand g => exact trivial
  | skipped t => exact h

theorem ShortList.not_exact {bits : List Byte} {lenBits : Nat}
    (h : ShortList (window bits 0 lenBits)) : ¬DecodesExactly bits lenBits := by
  obtain ⟨p, hat, hacc, l, hl, hshort⟩ := h
  have hdec : mmIepDecode bits lenBits = .ok p.record := mmIepDecode_iff.2 ⟨p, hacc, hat, rfl⟩
  rintro (⟨q, hqat, hexact, -⟩ | ⟨e, herr⟩)
  · obtain rfl := hat.unique (fun e he => (hacc e he).sized)
      (fun e he => (hexact e he).sized) hqat
    obtain ⟨-, hlength⟩ := hexact _ hl
    rw [GiuList.payload_length] at hlength
    omega
  · rw [hdec] at herr
    cases herr

/-- The decoder takes the declared lengths for what they are, but for lists that declare fewer
than six bits: those it takes whatever they declare. -/
theorem mmIepDecode_exact_iff (bits : List Byte) (lenBits : Nat) :
    DecodesExactly bits lenBits ↔ ¬ShortList (window bits 0 lenBits) := by
  constructor
  · exact fun h hshort => hshort.not_exact h
  · intro hno
    cases hdec : mmIepDecode bits lenBits with
    | error e => exact Or.inr ⟨e, hdec⟩
    | ok d =>
      obtain ⟨p, hacc, hat, -⟩ := mmIepDecode_iff.1 hdec
      refine Or.inl ⟨p, hat, fun e he => (hacc e he).exact fun l hl => ?_, fun bits' hw => ?_⟩
      · refine Nat.le_of_not_lt fun hshort => hno ⟨p, hat, hacc, l, hl ▸ he, hshort⟩
      · exact mmIepDecode_iff.2 ⟨p, hacc, hw ▸ hat, rfl⟩

/-- One group under a declared length of zero. -/
theorem mmIepDecode_zero_length :
    ¬DecodesExactly [0x73, 0x80, 0x00, 0x08, 0x05, 0xE9, 0xAC, 0x20] 60 := by
  refine ShortList.not_exact ⟨.attachDetachGroupIdentity false false (some
    ⟨none, some ⟨0, 1, [⟨.attach 0, .gssi 0x2F4D61⟩]⟩, none, true⟩), ⟨[], ?_, ?_⟩, ?_, _,
    List.mem_cons_self, by decide⟩
  · decide
  · rintro o ho
    cases ho
    exact Or.inl rfl
  · intro e he
    obtain rfl := List.mem_singleton.1 he
    exact ⟨rfl, by decide, by decide⟩

end TetraBs
