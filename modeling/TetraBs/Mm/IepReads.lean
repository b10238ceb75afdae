import TetraBs.Mm.Layout

/-! What the uplink MM decoder reads: each decoder takes exactly one layout. -/
namespace TetraBs
open TetraBs.Bits TetraBs.BitLayout TetraBs.Decoder TetraBs.UlPdu

/-- The bits that are left. -/
def RBuf.rest (r : RBuf) : List Bool := window r.bits r.pos (r.lenBits - r.pos)

structure RBuf.Good (r : RBuf) : Prop where
  overrun : r.overrun = false
  pos_le : r.pos ≤ r.lenBits

def rbufCursor : Cursor RBuf where
  rest := RBuf.rest
  Valid r := r.pos ≤ r.lenBits
  Good := RBuf.Good
  Same r r' := r'.bits = r.bits ∧ r'.lenBits = r.lenBits
  same_refl _ := ⟨rfl, rfl⟩
  same_trans h h' := ⟨h'.1.trans h.1, h'.2.trans h.2⟩

abbrev MmReads {α τ : Type} (d : MmDecoder α) (C : Layout τ) (f : τ → α) : Prop :=
  Parses rbufCursor d C f

@[simp] theorem RBuf.rest_length (r : RBuf) : r.rest.length = r.lenBits - r.pos :=
  window_length _ _ _

/-- Moved on by `n` bits. -/
def RBuf.advance (r : RBuf) (n : Nat) : RBuf := { r with pos := r.pos + n }

theorem RBuf.rest_split {r : RBuf} {n : Nat} (h : r.pos + n ≤ r.lenBits) :
    r.rest = window r.bits r.pos n ++ (r.advance n).rest := by
  rw [RBuf.rest, RBuf.rest, RBuf.advance, (by omega : r.lenBits - r.pos =
    n + (r.lenBits - (r.pos + n))), window_add]

/-- A string at the cursor is what the cursor moves over. -/
theorem RBuf.rest_append {r : RBuf} {u s' : List Bool} (hr : r.Good) (h : r.rest = u ++ s') :
    r.pos + u.length ≤ r.lenBits ∧ window r.bits r.pos u.length = u ∧
      (r.advance u.length).rest = s' := by
  have hlen := congrArg List.length h
  rw [r.rest_length, List.length_append] at hlen
  have hpos := hr.pos_le
  have hle : r.pos + u.length ≤ r.lenBits := by omega
  rw [RBuf.rest_split hle] at h
  obtain ⟨h1, h2⟩ := List.append_inj h (window_length _ _ _)
  exact ⟨hle, h1, h2⟩

theorem RBuf.Good.advance {r : RBuf} {n : Nat} (hr : r.Good) (h : r.pos + n ≤ r.lenBits) :
    (r.advance n).Good :=
  ⟨hr.overrun, h⟩

theorem rbufRead_within {r : RBuf} {n : Nat} (hn : 0 < n) (hw : n ≤ 32)
    (h : r.pos + n ≤ r.lenBits) :
    rbufRead r n = (readBits 32 r.bits r.pos n, r.advance n) := by
  rw [rbufRead, if_neg (by omega), if_neg (by omega)]
  rfl

theorem rbufRead_past {r : RBuf} {n : Nat} (hn : 0 < n) (hw : n ≤ 32)
    (h : r.lenBits < r.pos + n) : (rbufRead r n).2.overrun = true := by
  rw [rbufRead, if_neg (by omega), if_pos h]

theorem readBits_setWidth (bits : List Byte) (s n : Nat) :
    (readBits n bits s n).setWidth 32 = readBits 32 bits s n := by
  refine BitVec.eq_of_getLsbD_eq fun j hj => ?_
  rw [BitVec.getLsbD_setWidth, holds_readBits 32 bits s n j hj]
  by_cases hlt : j < n
  · rw [holds_readBits n bits s n j hlt]
    simp [hj]
  · rw [BitVec.getLsbD_of_ge _ _ (Nat.le_of_not_lt hlt)]
    simp [hlt]

theorem rbufRead_keeps {r : RBuf} {n : Nat} (h : r.pos ≤ r.lenBits) :
    (rbufRead r n).2.pos ≤ (rbufRead r n).2.lenBits := by
  rw [rbufRead]
  split
  · exact h
  · split
    · exact h
    · exact Nat.le_of_not_lt ‹_›

theorem reads_read {n : Nat} (hn : 0 < n) (hw : n ≤ 32) :
    MmReads (read n) (field n) fun v => v.setWidth 32 where
  keeps {r a r'} hrun hr := by
    have heq := Except.ok.inj hrun
    have hkeeps := rbufRead_keeps (n := n) hr
    rw [heq] at hkeeps
    exact hkeeps
  good_of {r a r'} hrun hr := by
    have heq := Except.ok.inj hrun
    by_cases h : r.pos + n ≤ r.lenBits
    · rw [rbufRead_within hn hw h] at heq
      cases heq
      exact ⟨hr.overrun, by omega⟩
    · have hpast := rbufRead_past hn hw (Nat.lt_of_not_le h)
      rw [heq] at hpast
      exact absurd hr.overrun (by rw [hpast]; decide)
  reads {r a r'} hrun hr := by
    have heq := Except.ok.inj hrun
    by_cases h : r.pos + n ≤ r.lenBits
    · rw [rbufRead_within hn hw h] at heq
      cases heq
      refine ⟨⟨rfl, rfl⟩, readBits n r.bits r.pos n, ?_, readBits_setWidth _ _ _⟩
      have hv := (holds_readBits n r.bits r.pos n).msbBits_eq (Nat.le_refl n)
      exact (RBuf.rest_split h).trans (congrArg (· ++ _) hv.symm)
    · have hpast := rbufRead_past hn hw (Nat.lt_of_not_le h)
      rw [heq] at hpast
      exact absurd hr.overrun (by rw [hpast]; decide)
  accepts {r v s'} hr h := by
    obtain ⟨hle, hwin, hrest⟩ := RBuf.rest_append hr h
    rw [msbBits_length] at hle hwin hrest
    refine ⟨r.advance n, ?_, hr.advance hle, ⟨rfl, rfl⟩, hrest⟩
    have hv : readBits n r.bits r.pos n = v :=
      (holds_readBits n r.bits r.pos n).eq_of_msbBits (Nat.le_refl n) v.isLt hwin
    show Except.ok (rbufRead r n) = _
    rw [rbufRead_within hn hw hle, ← readBits_setWidth, hv]

theorem bit_eq (b : Bool) (s' : List Bool) : b :: s' = msbBits (BitVec.ofBool b) 1 ++ s' := by
  cases b <;> rfl

theorem reads_read_bit : MmReads (read 1) bit fun b => (BitVec.ofBool b).setWidth 32 := by
  refine (reads_read (by decide) (by decide)).relayout ?_ ?_
  · rintro v s s' rfl
    refine ⟨v.getLsbD 0, rfl, ?_⟩
    revert v
    decide
  · rintro b s s' rfl
    exact ⟨BitVec.ofBool b, bit_eq b s', rfl⟩

theorem reads_readBit : MmReads readBit bit fun b => b := by
  refine (reads_read_bit.bind_pure (· != 0)).relayout ?_ ?_
  · rintro b s s' h
    exact ⟨b, h, by cases b <;> rfl⟩
  · rintro b s s' h
    exact ⟨b, h, by cases b <;> rfl⟩

theorem reads_readIf (c : Bool) {n : Nat} (hn : 0 < n) (hw : n ≤ 32) :
    MmReads (readIf c n) (fieldIf c n) fun o => (o.getD 0).setWidth 32 := by
  cases c with
  | false =>
    refine (parses_pure (V := rbufCursor) (0 : BitVec 32)).relayout ?_ ?_
    · rintro u s s' rfl
      exact ⟨none, ⟨rfl, rfl⟩, BitVec.setWidth_zero _ _⟩
    · rintro (_ | v) s s' ⟨hc, rfl⟩
      · exact ⟨(), rfl, (BitVec.setWidth_zero _ _).symm⟩
      · cases hc
  | true =>
    refine (reads_read hn hw).relayout ?_ ?_
    · intro v s s' h
      exact ⟨some v, ⟨rfl, h⟩, rfl⟩
    · rintro (_ | v) s s' ⟨hc, h⟩
      · cases hc
      · exact ⟨v, h, rfl⟩

theorem reads_failIf (c : Bool) : MmReads (failIf c) (refusing c) fun _ => () := by
  cases c with
  | false =>
    exact (parses_pure ()).relayout (fun h => ⟨(), ⟨rfl, h⟩, rfl⟩) fun h => ⟨(), h.2, rfl⟩
  | true => exact ⟨nofun, nofun, nofun, fun _ h => nomatch h.1⟩

theorem run_failOnOverrun {r r' : RBuf} {a : Unit} (h : failOnOverrun.run r = .ok (a, r')) :
    r' = r ∧ r.overrun = false := by
  have h : (if r.overrun then throw .EPROTO else pure () : MmDecoder Unit).run r =
    .ok (a, r') := h
  cases ho : r.overrun with
  | true =>
    rw [ho] at h
    cases h
  | false =>
    rw [ho] at h
    cases h
    exact ⟨rfl, rfl⟩

theorem reads_failOnOverrun : MmReads failOnOverrun nothing fun _ => () where
  keeps hrun hr := (run_failOnOverrun hrun).1 ▸ hr
  good_of hrun hr := (run_failOnOverrun hrun).1 ▸ hr
  reads hrun hr := by
    obtain rfl := (run_failOnOverrun hrun).1
    exact ⟨⟨rfl, rfl⟩, (), rfl, rfl⟩
  accepts {r t s'} hr h := by
    refine ⟨r, ?_, hr, ⟨rfl, rfl⟩, h⟩
    show (if r.overrun then throw .EPROTO else pure () : MmDecoder Unit).run r = _
    rw [if_neg (by rw [hr.overrun]; decide)]
    rfl

/-- A part that is read behind its presence bit. -/
theorem reads_present {α β : Type} {n : Nat} {d : Bool → MmDecoder α} {f : Option (BitVec n) → α}
    (hd : ∀ c, MmReads (d c) (fieldIf c n) f) (g : Bool → α → β) :
    MmReads (readBit >>= fun present => d present >>= fun v => pure (g present v)) (optional n)
      fun o => g o.isSome (f o) := by
  refine (reads_readBit.bind fun present => (hd present).bind_pure (g present)).relayout ?_ ?_
  · rintro ⟨b, o⟩ s s' ⟨m, rfl, h⟩
    cases o with
    | none =>
      obtain ⟨rfl, rfl⟩ := h
      exact ⟨none, rfl, rfl⟩
    | some v =>
      obtain ⟨rfl, rfl⟩ := h
      exact ⟨some v, rfl, rfl⟩
  · rintro (_ | v) s s' rfl
    · exact ⟨(false, none), ⟨_, rfl, rfl, rfl⟩, rfl⟩
    · exact ⟨(true, some v), ⟨_, rfl, rfl, rfl⟩, rfl⟩

theorem reads_decodeType2Generic {n : Nat} (hn : 0 < n) (hw : n ≤ 32) :
    MmReads (decodeType2Generic true n) (optional n)
      fun o => (o.isSome, (o.getD 0).setWidth 32) :=
  reads_present (fun c => reads_readIf c hn hw) Prod.mk

theorem reads_readWideIf (c : Bool) :
    MmReads (readWideIf c 24) (fieldIf c 24) fun o => (o.getD 0).setWidth 64 := by
  cases c with
  | false =>
    refine (parses_pure (V := rbufCursor) (0 : BitVec 64)).relayout ?_ ?_
    · rintro u s s' rfl
      exact ⟨none, ⟨rfl, rfl⟩, rfl⟩
    · rintro (_ | v) s s' ⟨hc, rfl⟩
      · exact ⟨(), rfl, rfl⟩
      · cases hc
  | true =>
    have hwide : ∀ v : BitVec 24,
        (0 : BitVec 64) <<< 24 ||| (v.setWidth 32).setWidth 64 = v.setWidth 64 := by
      intro v
      rw [BitVec.setWidth_setWidth (by decide)]
      simp
    refine ((reads_read (n := 24) (by decide) (by decide)).bind_pure
      fun x => (0 : BitVec 64) <<< 24 ||| x.setWidth 64).relayout ?_ ?_
    · intro v s s' h
      exact ⟨some v, ⟨rfl, h⟩, (hwide v).symm⟩
    · rintro (_ | v) s s' ⟨hc, h⟩
      · cases hc
      · exact ⟨v, h, hwide v⟩

theorem reads_decodeType2U64 :
    MmReads (decodeType2U64 true 24) (optional 24)
      fun o => (o.isSome, (o.getD 0).setWidth 64) :=
  reads_present reads_readWideIf Prod.mk

/-! Elements. -/

theorem peekType34_iff {r : RBuf} {id : BitVec 32} (hid : id.toNat < 2 ^ 4) :
    peekType34 r id = true ↔ tag id <+: r.rest := by
  by_cases hlen : r.pos + 5 ≤ r.lenBits
  · have hbit : readBits 32 r.bits r.pos 1 = if bitAt r.bits r.pos then 1 else 0 := by
      simp [readBits]
    have hpeek : peekType34 r id =
        (bitAt r.bits r.pos && (readBits 32 r.bits (r.pos + 1) 4 == id)) := by
      rw [peekType34, if_neg (by omega), rbufRead_within (by decide) (by decide) (by omega),
        rbufRead_within (n := 4) (by decide) (by decide) (by rw [RBuf.advance]; omega), hbit]
      cases bitAt r.bits r.pos <;> rfl
    have hid' : readBits 32 r.bits (r.pos + 1) 4 = id ↔
        window r.bits (r.pos + 1) 4 = msbBits id 4 := by
      have hh := holds_readBits 32 r.bits (r.pos + 1) 4
      constructor
      · rintro rfl
        exact (hh.msbBits_eq (by decide)).symm
      · exact hh.eq_of_msbBits (by decide) hid
    rw [hpeek, Bool.and_eq_true, beq_iff_eq, hid', RBuf.rest_split hlen, window_succ _ _ 4]
    constructor
    · rintro ⟨hb, hw⟩
      rw [hb, hw]
      exact List.prefix_append _ _
    · intro h
      have htag := (List.prefix_of_prefix_length_le h (List.prefix_append _ _)
        (by simp [tag])).eq_of_length (by simp [tag])
      rw [tag] at htag
      obtain ⟨hb, hw⟩ := List.cons.inj htag
      exact ⟨hb.symm, hw.symm⟩
  · rw [peekType34, if_pos (by omega)]
    constructor
    · nofun
    · intro h
      have := h.length_le
      rw [RBuf.rest_length] at this
      simp only [tag, List.length_cons, msbBits_length] at this
      omega

theorem reads_skipType34Header : MmReads skipType34Header (body 5) fun _ => () := by
  refine ((reads_read (n := 5) (by decide) (by decide)).bind_pure fun _ => ()).relayout ?_ ?_
  · rintro v s s' h
    exact ⟨msbBits v 5, ⟨msbBits_length v 5, h⟩, rfl⟩
  · rintro u s s' ⟨hlen, h⟩
    obtain ⟨v, hv⟩ := exists_msbBits hlen
    exact ⟨v, h.trans (by rw [hv]), rfl⟩

theorem run_withType34 {α : Type} (id : BitVec 32) (d : MmDecoder α) (r : RBuf) :
    (withType34 id d).run r =
      if peekType34 r id then (skipType34Header >>= fun _ => d >>= fun a => pure (some a)).run r
      else .ok (none, r) := by
  show (if peekType34 r id then (skipType34Header >>= fun _ => d >>= fun a => pure (some a))
    else pure none : MmDecoder (Option α)).run r = _
  split <;> rfl

theorem reads_withType34 {α τ : Type} {id : BitVec 32} (hid : id.toNat < 2 ^ 4)
    {d : MmDecoder α} {C : Layout τ} {f : τ → α} (hd : MmReads d C f) :
    MmReads (withType34 id d) (element (tag id) C) (Option.map f) := by
  have hin : MmReads (skipType34Header >>= fun _ => d >>= fun a => pure (some a))
      (andThen (body 5) fun _ => C) fun p => some (f p.2) :=
    reads_skipType34Header.bind fun _ => hd.bind_pure some
  refine ⟨fun {r a r'} hrun hr => ?_, fun {r a r'} hrun hr => ?_, fun {r a r'} hrun hr => ?_,
    fun {r o s'} hr hC => ?_⟩
  · rw [run_withType34] at hrun
    by_cases hp : peekType34 r id = true
    · rw [if_pos hp] at hrun
      exact hin.keeps hrun hr
    · rw [if_neg hp] at hrun
      cases hrun
      exact hr
  · rw [run_withType34] at hrun
    by_cases hp : peekType34 r id = true
    · rw [if_pos hp] at hrun
      exact hin.good_of hrun hr
    · rw [if_neg hp] at hrun
      cases hrun
      exact hr
  · rw [run_withType34] at hrun
    by_cases hp : peekType34 r id = true
    · rw [if_pos hp] at hrun
      obtain ⟨hsame, ⟨u, t⟩, ⟨m, ⟨hlen, hu⟩, ht⟩, hval⟩ := hin.reads hrun hr
      refine ⟨hsame, some t, ⟨m, ?_, ht⟩, hval⟩
      obtain ⟨z, hz⟩ := peekType34_iff hid |>.1 hp
      have hsplit := List.append_inj (hz.trans hu) (by rw [hlen]; rfl)
      rw [hsplit.1]
      exact hu
    · rw [if_neg hp] at hrun
      cases hrun
      exact ⟨⟨rfl, rfl⟩, none, ⟨fun h => hp (peekType34_iff hid |>.2 h), rfl⟩, rfl⟩
  · rw [run_withType34]
    cases o with
    | none =>
      rw [if_neg fun h => hC.1 (peekType34_iff hid |>.1 h)]
      exact ⟨r, rfl, hr, ⟨rfl, rfl⟩, hC.2⟩
    | some t =>
      obtain ⟨m, hm, ht⟩ := hC
      rw [if_pos (peekType34_iff hid |>.2 ⟨m, hm.symm⟩)]
      exact hin.accepts (t := (tag id, t)) hr ⟨m, ⟨rfl, hm⟩, ht⟩

/-! Groups. -/

theorem mask_setWidth (v : BitVec 24) :
    v.setWidth 32 &&& tetraSsiMask24 = v.setWidth 32 := by
  have hmask : tetraSsiMask24 = (BitVec.allOnes 24).setWidth 32 := by decide
  rw [hmask, ← BitVec.setWidth_and, BitVec.and_allOnes]

/-- Discriminator, class of usage and detachment as they are read one after the other. -/
def usageFields : Layout (Bool × Option (BitVec 3) × Option (BitVec 2)) :=
  andThen bit fun adt => andThen (fieldIf ((BitVec.ofBool adt).setWidth 32 == (0 : BitVec 32)) 3)
    fun _ => fieldIf (!((BitVec.ofBool adt).setWidth 32 == (0 : BitVec 32))) 2

def usageValue (g : MmGroupIdentityUplink)
    (p : Bool × Option (BitVec 3) × Option (BitVec 2)) : MmGroupIdentityUplink :=
  { g with isAttach := (BitVec.ofBool p.1).setWidth 32 == (0 : BitVec 32),
           classOfUsage := ((p.2.1.getD 0).setWidth 32).setWidth 8,
           detachment := ((p.2.2.getD 0).setWidth 32).setWidth 8 }

theorem usageFields_to {p : Bool × Option (BitVec 3) × Option (BitVec 2)} {s s' : List Bool}
    (h : usageFields p s s') : ∃ u : Usage, s = u.bits ++ s' ∧
      ∀ g : MmGroupIdentityUplink, g.classOfUsage = 0 → g.detachment = 0 →
        u.record g = usageValue g p := by
  obtain ⟨adt, c, d⟩ := p
  obtain ⟨m, rfl, m', hc, hd⟩ := h
  cases adt with
  | false =>
    obtain ⟨c, rfl, rfl⟩ := fieldIf_present hc rfl
    obtain ⟨rfl, rfl⟩ := fieldIf_absent hd rfl
    refine ⟨.attach c, rfl, fun g _ hg => ?_⟩
    simp [Usage.record, usageValue, hg]
  | true =>
    obtain ⟨rfl, rfl⟩ := fieldIf_absent hc rfl
    obtain ⟨d, rfl, rfl⟩ := fieldIf_present hd rfl
    refine ⟨.detach d, rfl, fun g hg _ => ?_⟩
    simp [Usage.record, usageValue, hg]

theorem usageFields_of (u : Usage) (s' : List Bool) : ∃ p, usageFields p (u.bits ++ s') s' ∧
    ∀ g : MmGroupIdentityUplink, g.classOfUsage = 0 → g.detachment = 0 →
      usageValue g p = u.record g := by
  have hval : ∀ p, usageFields p (u.bits ++ s') s' → ∀ g : MmGroupIdentityUplink,
      g.classOfUsage = 0 → g.detachment = 0 → usageValue g p = u.record g := by
    intro p hp g hc hd
    obtain ⟨u', hu, hval⟩ := usageFields_to hp
    obtain ⟨rfl, -⟩ := usage_prefixCode trivial trivial hu
    exact (hval g hc hd).symm
  cases u with
  | attach c =>
    have hp : usageFields (false, some c, none) ((Usage.attach c).bits ++ s') s' :=
      ⟨_, rfl, s', ⟨rfl, rfl⟩, rfl, rfl⟩
    exact ⟨_, hp, hval _ hp⟩
  | detach d =>
    have hp : usageFields (true, none, some d) ((Usage.detach d).bits ++ s') s' :=
      ⟨_, rfl, _, ⟨rfl, rfl⟩, rfl, rfl⟩
    exact ⟨_, hp, hval _ hp⟩

/-- Address type and the addresses it brings along. -/
def addressFields :
    Layout (BitVec 2 × Option (BitVec 24) × Option (BitVec 24) × Option (BitVec 24)) :=
  andThen (field 2) fun t =>
    andThen (fieldIf (t.setWidth 32 == (0 : BitVec 32) || t.setWidth 32 == (1 : BitVec 32)) 24)
    fun _ => andThen (fieldIf (t.setWidth 32 == (1 : BitVec 32)) 24)
    fun _ => fieldIf (t.setWidth 32 == (2 : BitVec 32)) 24

def addressValue (p : BitVec 2 × Option (BitVec 24) × Option (BitVec 24) × Option (BitVec 24)) :
    MmGroupIdentityUplink :=
  { addressType := (p.1.setWidth 32).setWidth 8,
    gssi := (p.2.1.getD 0).setWidth 32 &&& tetraSsiMask24,
    addressExtension := (p.2.2.1.getD 0).setWidth 32 &&& tetraSsiMask24,
    vgssi := (p.2.2.2.getD 0).setWidth 32 &&& tetraSsiMask24 }

theorem addressFields_to
    {p : BitVec 2 × Option (BitVec 24) × Option (BitVec 24) × Option (BitVec 24)}
    {s s' : List Bool} (h : addressFields p s s') :
    ∃ a : Address, s = a.bits ++ s' ∧ a.record = addressValue p := by
  obtain ⟨t, g, e, v⟩ := p
  obtain ⟨m, ht, m1, hg, m2, he, hv⟩ := h
  have htypes : ∀ t : BitVec 2, t = 0 ∨ t = 1 ∨ t = 2 ∨ t = 3 := by decide
  obtain rfl | rfl | rfl | rfl := htypes t
  · obtain ⟨x, rfl, rfl⟩ := fieldIf_present hg rfl
    obtain ⟨rfl, rfl⟩ := fieldIf_absent he rfl
    obtain ⟨rfl, rfl⟩ := fieldIf_absent hv rfl
    refine ⟨.gssi x, ?_, by simp [Address.record, addressValue, mask_setWidth]⟩
    rw [Address.bits, List.append_assoc]
    exact ht
  · obtain ⟨x, rfl, rfl⟩ := fieldIf_present hg rfl
    obtain ⟨y, rfl, rfl⟩ := fieldIf_present he rfl
    obtain ⟨rfl, rfl⟩ := fieldIf_absent hv rfl
    refine ⟨.gssiExtension x y, ?_, by simp [Address.record, addressValue, mask_setWidth]⟩
    rw [Address.bits, List.append_assoc, List.append_assoc]
    exact ht
  · obtain ⟨rfl, rfl⟩ := fieldIf_absent hg rfl
    obtain ⟨rfl, rfl⟩ := fieldIf_absent he rfl
    obtain ⟨x, rfl, rfl⟩ := fieldIf_present hv rfl
    refine ⟨.vgssi x, ?_, by simp [Address.record, addressValue, mask_setWidth]⟩
    rw [Address.bits, List.append_assoc]
    exact ht
  · obtain ⟨rfl, rfl⟩ := fieldIf_absent hg rfl
    obtain ⟨rfl, rfl⟩ := fieldIf_absent he rfl
    obtain ⟨rfl, rfl⟩ := fieldIf_absent hv rfl
    refine ⟨.none, ht, ?_⟩
    simp [Address.record, addressValue]

theorem addressFields_of (a : Address) (s' : List Bool) :
    ∃ p, addressFields p (a.bits ++ s') s' ∧ addressValue p = a.record := by
  have hval : ∀ p, addressFields p (a.bits ++ s') s' → addressValue p = a.record := by
    intro p hp
    obtain ⟨a', ha, hval⟩ := addressFields_to hp
    obtain ⟨rfl, -⟩ := address_prefixCode trivial trivial ha
    exact hval.symm
  have hfields : ∃ p, addressFields p (a.bits ++ s') s' := by
    cases a with
    | gssi g =>
      rw [Address.bits, List.append_assoc]
      exact ⟨(0, some g, none, none), msbBits g 24 ++ s', rfl, s', ⟨rfl, rfl⟩, s', ⟨rfl, rfl⟩,
        rfl, rfl⟩
    | gssiExtension g e =>
      rw [Address.bits, List.append_assoc, List.append_assoc]
      exact ⟨(1, some g, some e, none), msbBits g 24 ++ (msbBits e 24 ++ s'), rfl,
        msbBits e 24 ++ s', ⟨rfl, rfl⟩, s', ⟨rfl, rfl⟩, rfl, rfl⟩
    | vgssi v =>
      rw [Address.bits, List.append_assoc]
      exact ⟨(2, none, none, some v), msbBits v 24 ++ s', rfl, msbBits v 24 ++ s', ⟨rfl, rfl⟩,
        msbBits v 24 ++ s', ⟨rfl, rfl⟩, rfl, rfl⟩
    | none =>
      exact ⟨(3, none, none, none), s', rfl, s', ⟨rfl, rfl⟩, s', ⟨rfl, rfl⟩, rfl, rfl⟩
  obtain ⟨p, hp⟩ := hfields
  exact ⟨p, hp, hval p hp⟩

theorem reads_decodeGiu :
    MmReads decodeGiu (fun g s s' => s = Giu.bits g ++ s') Giu.record := by
  rw [decodeGiu]
  refine (reads_read_bit.bind fun adt => (reads_readIf (adt == 0) (by decide) (by decide)).bind
    fun _ => (reads_readIf (!(adt == 0)) (by decide) (by decide)).bind
    fun _ => (reads_read (n := 2) (by decide) (by decide)).bind
    fun addressType => (reads_readIf (addressType == 0 || addressType == 1) (by decide)
      (by decide)).bind
    fun _ => (reads_readIf (addressType == 1) (by decide) (by decide)).bind
    fun _ => (reads_readIf (addressType == 2) (by decide) (by decide)).bind
    fun _ => reads_failOnOverrun.bind_pure fun _ => _).relayout ?_ ?_
  · rintro ⟨adt, c, d, t, g, e, v, u⟩ s s' ⟨m1, h1, m2, h2, m3, h3, m4, h4, m5, h5, m6, h6, m7,
      h7, rfl⟩
    obtain ⟨u, hu, hurec⟩ := usageFields_to (p := (adt, c, d)) ⟨m1, h1, m2, h2, h3⟩
    obtain ⟨a, ha, harec⟩ := addressFields_to (p := (t, g, e, v)) ⟨m4, h4, m5, h5, m6, h6, h7⟩
    refine ⟨⟨u, a⟩, ?_, ?_⟩
    · rw [hu, ha, Giu.bits, List.append_assoc]
    · rw [Giu.record, hurec _ (by cases a <;> rfl) (by cases a <;> rfl), harec]
      rfl
  · rintro ⟨u, a⟩ s s' rfl
    obtain ⟨⟨adt, c, d⟩, ⟨m1, h1, m2, h2, h3⟩, hurec⟩ := usageFields_of u (a.bits ++ s')
    obtain ⟨⟨t, g, e, v⟩, ⟨m4, h4, m5, h5, m6, h6, h7⟩, harec⟩ := addressFields_of a s'
    refine ⟨(adt, c, d, t, g, e, v, ()), ⟨m1, ?_, m2, h2, _, h3, m4, h4, m5, h5, m6, h6, s', h7,
      rfl⟩, ?_⟩
    · rw [Giu.bits, List.append_assoc]
      exact h1
    · rw [Giu.record, ← hurec _ (by cases a <;> rfl) (by cases a <;> rfl), ← harec]
      rfl

/-- `k` groups from the `i`-th on. -/
theorem reads_decodeGius (i k : Nat) :
    MmReads (decodeGius i k)
      (fun (gs : List Giu) s s' => gs.length = k ∧ (0 < k → i + k ≤ mmGiuMax) ∧
        s = gs.flatMap Giu.bits ++ s')
      fun gs => gs.map Giu.record := by
  induction k generalizing i with
  | zero =>
    refine (parses_pure []).relayout ?_ ?_
    · rintro u s s' rfl
      exact ⟨[], ⟨rfl, fun h => absurd h (Nat.lt_irrefl 0), rfl⟩, rfl⟩
    · rintro gs s s' ⟨hlen, -, h⟩
      obtain rfl := List.eq_nil_of_length_eq_zero hlen
      exact ⟨(), h, rfl⟩
  | succ k ih =>
    rw [decodeGius]
    refine ((reads_failIf _).bind fun _ => reads_decodeGiu.bind fun g =>
      (ih (i + 1)).bind_pure fun gs => g :: gs).relayout ?_ ?_
    · rintro ⟨u, g, gs⟩ s s' ⟨_, ⟨hi, rfl⟩, m, rfl, hlen, hmax, rfl⟩
      refine ⟨g :: gs, ⟨congrArg (· + 1) hlen, fun _ => ?_, ?_⟩, rfl⟩
      · have hlt := of_decide_eq_false hi
        omega
      · rw [List.flatMap_cons, List.append_assoc]
    · rintro gs s s' ⟨hlen, hmax, rfl⟩
      obtain _ | ⟨g, gs⟩ := gs
      · cases hlen
      have hmax := hmax (Nat.succ_pos k)
      refine ⟨((), g, gs), ⟨_, ⟨decide_eq_false (by omega), rfl⟩, gs.flatMap Giu.bits ++ s', ?_,
        Nat.succ.inj hlen, fun _ => by omega, rfl⟩, rfl⟩
      rw [List.flatMap_cons, List.append_assoc]

/-- What `d` reads, and then a check of how far it moved. -/
theorem reads_measured {α β τ : Type} {d : MmDecoder α} {C : Layout τ} {f : τ → α}
    (hd : MmReads d C f) (c : Nat → Bool) (g : α → β) :
    MmReads (get >>= fun start => d >>= fun a => get >>= fun r =>
        failIf (c (r.pos - start.pos)) >>= fun _ => pure (g a))
      (fun t s s' => C t s s' ∧ c (s.length - s'.length) = false) fun t => g (f t) := by
  have hrun : ∀ {r b r'}, (get >>= fun start => d >>= fun a => get >>= fun r =>
      failIf (c (r.pos - start.pos)) >>= fun _ => pure (g a) : MmDecoder β).run r = .ok (b, r') →
      ∃ a, d.run r = .ok (a, r') ∧ c (r'.pos - r.pos) = false ∧ g a = b := by
    intro r b r' h
    have h : (d >>= fun a => get >>= fun q =>
      failIf (c (q.pos - r.pos)) >>= fun _ => pure (g a) : MmDecoder β).run r = .ok (b, r') := h
    obtain ⟨a, m, h1, h2⟩ := run_bind_ok h
    have h2 : (failIf (c (m.pos - r.pos)) >>= fun _ => pure (g a)).run m = .ok (b, r') := h2
    cases hc : c (m.pos - r.pos) with
    | true =>
      rw [hc] at h2
      cases h2
    | false =>
      rw [hc] at h2
      cases h2
      exact ⟨a, h1, hc, rfl⟩
  have hlen : ∀ {r r' : RBuf}, r.Good → r'.Good → r'.lenBits = r.lenBits →
      r'.pos - r.pos = r.rest.length - r'.rest.length := by
    intro r r' h h' hsame
    have hpos := h.pos_le
    have hpos' := h'.pos_le
    rw [RBuf.rest_length, RBuf.rest_length]
    omega
  refine ⟨fun {r b r'} h hr => ?_, fun {r b r'} h hr => ?_, fun {r b r'} h hr => ?_,
    fun {r t s'} hr h => ?_⟩
  · obtain ⟨a, h1, -, -⟩ := hrun h
    exact hd.keeps h1 hr
  · obtain ⟨a, h1, -, -⟩ := hrun h
    exact hd.good_of h1 hr
  · obtain ⟨a, h1, hc, rfl⟩ := hrun h
    obtain ⟨hsame, t, ht, rfl⟩ := hd.reads h1 hr
    rw [hlen (hd.good_of h1 hr) hr hsame.2] at hc
    exact ⟨hsame, t, ⟨ht, hc⟩, rfl⟩
  · obtain ⟨ht, hc⟩ := h
    obtain ⟨r', h1, hr', hsame, rfl⟩ := hd.accepts hr ht
    refine ⟨r', ?_, hr', hsame, rfl⟩
    have hc : c (r.rest.length - r'.rest.length) = false := hc
    rw [← hlen hr hr' hsame.2] at hc
    show (d >>= fun a => get >>= fun q =>
      failIf (c (q.pos - r.pos)) >>= fun _ => pure (g a) : MmDecoder β).run r = _
    rw [StateT.run_bind, h1]
    show (failIf (c (r'.pos - r.pos)) >>= fun _ => pure (g (f t))).run r' = _
    rw [hc]
    rfl

/-- What the decoder demands of a list: as many groups as it says, no more than there is room
for, and the declared length if it covers the number of groups at all. -/
structure UlPdu.GiuList.Accepted (l : GiuList) : Prop where
  counted : l.Counted
  room : l.elems.length ≤ mmGiuMax
  length : 6 ≤ l.declared.toNat → l.declared.toNat = l.payload.length

theorem flatMap_length_sub {τ : Type} (bits : τ → List Bool) (xs : List τ) (s : List Bool) :
    (xs.flatMap bits ++ s).length - s.length = (xs.flatMap bits).length := by
  rw [List.length_append, Nat.add_sub_cancel]

theorem UlPdu.GiuList.payload_length (l : GiuList) :
    l.payload.length = 6 + (l.elems.flatMap Giu.bits).length := by
  rw [GiuList.payload, List.length_append, msbBits_length]

/-- The check of the declared length against the bits of the groups. -/
theorem giuList_check {declared n : Nat} :
    (decide (6 ≤ declared) && n != declared - 6) = false ↔ (6 ≤ declared → declared = 6 + n) := by
  rw [Bool.and_eq_false_iff, decide_eq_false_iff_not, bne_eq_false_iff_eq]
  omega

theorem reads_decodeGiuElement :
    MmReads decodeGiuElement (coded GiuList.bits GiuList.Accepted)
      fun l => (l.elems.length, l.elems.map Giu.record) := by
  rw [decodeGiuElement]
  refine ((reads_read (n := 11) (by decide) (by decide)).bind fun length =>
    (reads_read (n := 6) (by decide) (by decide)).bind fun numElems =>
    reads_measured (reads_decodeGius 0 numElems.toNat)
      (fun n => 6 ≤ length.toNat && n != length.toNat - 6)
      fun giu => (min numElems.toNat mmGiuMax, giu)).relayout ?_ ?_
  · rintro ⟨v, n, gs⟩ s s' ⟨m, rfl, m', rfl, ⟨hlen, hmax, rfl⟩, hc⟩
    have hn := BitVec.toNat_setWidth_of_le (b := n) (by decide : 6 ≤ 32)
    have hv := BitVec.toNat_setWidth_of_le (b := v) (by decide : 11 ≤ 32)
    rw [flatMap_length_sub, giuList_check, hv] at hc
    rw [hn] at hlen hmax
    have hlen : gs.length = n.toNat := hlen
    have hroom : gs.length ≤ mmGiuMax := by omega
    refine ⟨⟨v, n, gs⟩, ⟨⟨hlen.symm, hroom, fun h => ?_⟩, ?_⟩, ?_⟩
    · rw [GiuList.payload_length]
      exact hc h
    · rw [GiuList.bits, GiuList.payload, List.append_assoc, List.append_assoc]
    · rw [hn, hlen, Nat.min_eq_left (hlen ▸ hroom)]
  · rintro ⟨v, n, gs⟩ s s' ⟨⟨hcount, hroom, hlength⟩, rfl⟩
    have hn := BitVec.toNat_setWidth_of_le (b := n) (by decide : 6 ≤ 32)
    have hv := BitVec.toNat_setWidth_of_le (b := v) (by decide : 11 ≤ 32)
    rw [GiuList.payload_length] at hlength
    have hcount : n.toNat = gs.length := hcount
    refine ⟨(v, n, gs), ⟨_, ?_, _, rfl, ⟨?_, fun _ => ?_, rfl⟩, ?_⟩, ?_⟩
    · rw [GiuList.bits, GiuList.payload, List.append_assoc, List.append_assoc]
      rfl
    · rw [hn, hcount]
    · rw [hn, hcount, Nat.zero_add]
      exact hroom
    · rw [flatMap_length_sub, giuList_check, hv]
      exact hlength
    · rw [hn, hcount, Nat.min_eq_left hroom]

theorem reads_decodeGiuList :
    MmReads decodeGiuList (element (tag elemGroupIdentityUplink) (coded GiuList.bits
      GiuList.Accepted)) fun o => ((giuRecords o).length, giuRecords o) := by
  rw [decodeGiuList]
  refine ((reads_withType34 (by decide) reads_decodeGiuElement).bind_pure
    fun e => e.getD (0, [])).value fun o => ?_
  cases o with
  | none => rfl
  | some l => simp [giuRecords]

/-! The location demand. -/

structure UlPdu.Gild.Accepted (g : Gild) : Prop where
  length : g.declared.toNat = g.payload.length
  groups : ∀ l ∈ g.options.getD none, l.Accepted

/-- The optional part: the list, if there is one, and the zero bit. -/
theorem reads_decodeGildList (obit : Bool) :
    MmReads (decodeGildList obit)
      (fun (o : Option (Option GiuList)) s s' => o.isSome = obit ∧
        (∀ l ∈ o.getD none, l.Accepted) ∧ obit :: s = partBits groupsBits o ++ s')
      fun o => ((giuRecords (o.getD none)).length, giuRecords (o.getD none)) := by
  cases obit with
  | false =>
    refine (parses_pure _).relayout ?_ ?_
    · rintro u s s' rfl
      exact ⟨none, ⟨rfl, nofun, rfl⟩, rfl⟩
    · rintro (_ | o) s s' ⟨ho, _, h⟩
      · exact ⟨(), (List.cons.inj h).2, rfl⟩
      · cases ho
  | true =>
    refine (reads_decodeGiuList.bind fun l => reads_read_bit.bind fun trailing =>
      (reads_failIf (trailing != 0)).bind_pure fun _ => l).relayout ?_ ?_
    · rintro ⟨o, b, u⟩ s s' ⟨m, ho, m', rfl, hb, rfl⟩
      obtain ⟨hacc, rfl, -⟩ := element_iff.1 ho
      have hb : b = false := by
        cases b
        · rfl
        · cases hb
      subst hb
      refine ⟨some o, ⟨rfl, hacc, ?_⟩, rfl⟩
      rw [partBits, groupsBits, List.cons_append, List.append_assoc]
      rfl
    · rintro (_ | o) s s' ⟨ho, hacc, h⟩
      · cases ho
      · have h : s = groupsBits o ++ s' := (List.cons.inj h).2
        rw [groupsBits, List.append_assoc] at h
        exact ⟨(o, false, ()), ⟨_, element_iff.2 ⟨hacc, h, fun _ => not_tag_false⟩, s', rfl, rfl,
          rfl⟩, rfl⟩

theorem reads_decodeGild :
    MmReads decodeGild (fun (g : Bool × Option (Option GiuList)) s s' =>
        (∀ l ∈ g.2.getD none, l.Accepted) ∧
          s = false :: g.1 :: (partBits groupsBits g.2 ++ s'))
      fun g => Gild.record ⟨0, g.1, g.2⟩ := by
  rw [decodeGild]
  refine (reads_read_bit.bind fun reserved => (reads_failIf (reserved != 0)).bind fun _ =>
    reads_read_bit.bind fun mode => reads_readBit.bind fun obit =>
    (reads_decodeGildList obit).bind fun p =>
    reads_failOnOverrun.bind_pure fun _ => _).relayout ?_ ?_
  · rintro ⟨b, u, mode, obit, o, w⟩ s s' ⟨m, rfl, m', ⟨hb, rfl⟩, m'', rfl, _, rfl, _,
      ⟨hobit, hacc, h⟩, rfl⟩
    have hb : b = false := by
      cases b
      · rfl
      · cases hb
    subst hb
    exact ⟨(mode, o), ⟨hacc, congrArg (false :: mode :: ·) h⟩, by cases mode <;> rfl⟩
  · rintro ⟨mode, o⟩ s s' ⟨hacc, rfl⟩
    have hobit : ∃ m, partBits groupsBits o ++ s' = o.isSome :: m := by
      cases o with
      | none => exact ⟨s', rfl⟩
      | some l => exact ⟨groupsBits l ++ s', rfl⟩
    obtain ⟨m, hm⟩ := hobit
    exact ⟨(false, (), mode, o.isSome, o, ()), ⟨_, rfl, _, ⟨rfl, rfl⟩, _, rfl, m, hm, s',
      ⟨rfl, hacc, hm.symm⟩, rfl⟩, by cases mode <;> rfl⟩

theorem reads_decodeGildElement :
    MmReads decodeGildElement (coded Gild.bits Gild.Accepted) Gild.record := by
  have hlen : ∀ (g : Gild) (s' : List Bool),
      (false :: g.attachDetachMode :: (partBits groupsBits g.options ++ s')).length - s'.length =
        g.payload.length := by
    intro g s'
    simp only [Gild.payload, List.length_cons, List.length_append]
    omega
  rw [decodeGildElement]
  refine ((reads_read (n := 11) (by decide) (by decide)).bind fun length =>
    reads_measured reads_decodeGild (fun n => n != length.toNat) fun gild => gild).relayout ?_ ?_
  · rintro ⟨v, mode, o⟩ s s' ⟨m, rfl, ⟨hacc, rfl⟩, hc⟩
    have hv := BitVec.toNat_setWidth_of_le (b := v) (by decide : 11 ≤ 32)
    rw [hlen ⟨v, mode, o⟩, bne_eq_false_iff_eq, hv] at hc
    refine ⟨⟨v, mode, o⟩, ⟨⟨hc.symm, hacc⟩, ?_⟩, rfl⟩
    rw [Gild.bits, List.append_assoc]
    rfl
  · rintro ⟨v, mode, o⟩ s s' ⟨⟨hlength, hgroups⟩, rfl⟩
    have hv := BitVec.toNat_setWidth_of_le (b := v) (by decide : 11 ≤ 32)
    refine ⟨(v, mode, o), ⟨_, ?_, ⟨hgroups, rfl⟩, ?_⟩, rfl⟩
    · rw [Gild.bits, List.append_assoc]
      rfl
    · rw [hlen ⟨v, mode, o⟩, bne_eq_false_iff_eq, hv]
      exact hlength.symm

/-! Skipped elements and the end of the PDU. -/

structure UlPdu.Skipped.Accepted (t : Skipped) : Prop where
  whole : t.Whole
  bounded : t.declared.toNat ≤ 256

theorem run_skipBits {r r' : RBuf} {n : Nat} {a : Unit}
    (h : (skipBits n).run r = .ok (a, r')) : r' = r.advance n ∧ r.pos + n ≤ r.lenBits := by
  have h : (if r.lenBits < r.pos + n then throw .EPROTO
    else set { r with pos := r.pos + n } : MmDecoder Unit).run r = .ok (a, r') := h
  by_cases hlt : r.lenBits < r.pos + n
  · rw [if_pos hlt] at h
    cases h
  · rw [if_neg hlt] at h
    cases h
    exact ⟨rfl, Nat.le_of_not_lt hlt⟩

theorem reads_skipBits (n : Nat) : MmReads (skipBits n) (body n) fun _ => () where
  keeps hrun hr := by
    obtain ⟨rfl, hle⟩ := run_skipBits hrun
    exact hle
  good_of hrun hr := by
    obtain ⟨rfl, hle⟩ := run_skipBits hrun
    exact ⟨hr.overrun, by omega⟩
  reads {r a r'} hrun hr := by
    obtain ⟨rfl, hle⟩ := run_skipBits hrun
    exact ⟨⟨rfl, rfl⟩, window r.bits r.pos n, ⟨window_length _ _ _, RBuf.rest_split hle⟩, rfl⟩
  accepts {r u s'} hr h := by
    obtain ⟨rfl, h⟩ := h
    obtain ⟨hle, -, hrest⟩ := RBuf.rest_append hr h
    refine ⟨r.advance u.length, ?_, hr.advance hle, ⟨rfl, rfl⟩, hrest⟩
    show (if r.lenBits < r.pos + u.length then throw .EPROTO
      else set { r with pos := r.pos + u.length } : MmDecoder Unit).run r = _
    rw [if_neg (Nat.not_lt.2 hle)]
    rfl

theorem reads_decodeType3GenericSkip {id : BitVec 32} (hid : id.toNat < 2 ^ 4) :
    MmReads (decodeType3GenericSkip id) (element (tag id) (coded Skipped.bits Skipped.Accepted))
      fun _ => () := by
  have hin : MmReads (read 11 >>= fun length => failIf (256 < length.toNat) >>= fun _ =>
      skipBits length.toNat) (coded Skipped.bits Skipped.Accepted) fun _ => () := by
    refine ((reads_read (n := 11) (by decide) (by decide)).bind fun length =>
      (reads_failIf _).bind fun _ => reads_skipBits length.toNat).relayout ?_ ?_
    · rintro ⟨v, u, b⟩ s s' ⟨m, rfl, _, ⟨hc, rfl⟩, hlen, rfl⟩
      have hv := BitVec.toNat_setWidth_of_le (b := v) (by decide : 11 ≤ 32)
      have hc := of_decide_eq_false hc
      rw [hv] at hc hlen
      refine ⟨⟨v, b⟩, ⟨⟨hlen.symm, Nat.le_of_not_lt hc⟩, ?_⟩, rfl⟩
      rw [Skipped.bits, List.append_assoc]
    · rintro ⟨v, b⟩ s s' ⟨⟨hwhole, hmax⟩, rfl⟩
      have hv := BitVec.toNat_setWidth_of_le (b := v) (by decide : 11 ≤ 32)
      refine ⟨(v, (), b), ⟨_, ?_, _, ⟨decide_eq_false (Nat.not_lt.2 ?_), rfl⟩, ?_, rfl⟩, rfl⟩
      · rw [Skipped.bits, List.append_assoc]
        rfl
      · rw [hv]
        exact hmax
      · rw [hv]
        exact hwhole.symm
  rw [decodeType3GenericSkip]
  exact (reads_withType34 hid hin).bind_pure fun _ => ()

theorem RBuf.rest_nil {r : RBuf} : r.rest = [] ↔ ¬r.pos < r.lenBits := by
  rw [← List.length_eq_zero_iff, RBuf.rest_length]
  omega

theorem reads_trailing (c : Bool) :
    MmReads (readIf c 1 >>= fun trailing => failIf (trailing != 0) >>= fun _ => failOnOverrun)
      (fun (_ : Unit) s s' => s = closingBits c ++ s') fun _ => () := by
  cases c with
  | false =>
    refine ((parses_pure (0 : BitVec 32)).bind fun trailing =>
      (reads_failIf (trailing != 0)).bind fun _ => reads_failOnOverrun).relayout ?_ ?_
    · rintro ⟨_, u, w⟩ s s' ⟨_, rfl, _, ⟨-, rfl⟩, rfl⟩
      exact ⟨(), rfl, rfl⟩
    · rintro u s s' rfl
      exact ⟨((), (), ()), ⟨_, rfl, _, ⟨rfl, rfl⟩, rfl⟩, rfl⟩
  | true =>
    refine (reads_read_bit.bind fun trailing =>
      (reads_failIf (trailing != 0)).bind fun _ => reads_failOnOverrun).relayout ?_ ?_
    · rintro ⟨b, u, w⟩ s s' ⟨_, rfl, _, ⟨hb, rfl⟩, rfl⟩
      cases b
      · exact ⟨(), rfl, rfl⟩
      · cases hb
    · rintro u s s' rfl
      exact ⟨(false, (), ()), ⟨_, rfl, _, ⟨rfl, rfl⟩, rfl⟩, rfl⟩

theorem reads_decodeTrailing : MmReads decodeTrailing closing fun _ => () where
  keeps {r a r'} hrun hr := (reads_trailing (r.pos < r.lenBits)).keeps hrun hr
  good_of {r a r'} hrun hr := (reads_trailing (r.pos < r.lenBits)).good_of hrun hr
  reads {r a r'} hrun hr := by
    obtain ⟨hsame, u, h, -⟩ := (reads_trailing (r.pos < r.lenBits)).reads hrun hr
    refine ⟨hsame, decide (r.pos < r.lenBits), closing_iff.2 ⟨h, ?_⟩, rfl⟩
    by_cases hlt : r.pos < r.lenBits
    · exact Or.inl (decide_eq_true hlt)
    · rw [decide_eq_false hlt] at h
      exact Or.inr (h.symm.trans (RBuf.rest_nil.2 hlt))
  accepts {r c s'} hr h := by
    have hc : decide (r.pos < r.lenBits) = c := by
      cases c with
      | false => exact decide_eq_false (RBuf.rest_nil.1 h.1)
      | true => exact decide_eq_true (Decidable.not_not.1 fun hno =>
          nomatch (RBuf.rest_nil.2 hno).symm.trans h)
    have h := (closing_iff.1 h).1
    rw [← hc] at h
    exact (reads_trailing (r.pos < r.lenBits)).accepts (t := ()) hr h

end TetraBs
