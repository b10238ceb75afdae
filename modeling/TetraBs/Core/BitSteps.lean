import TetraBs.Core.BitBuffer
import TetraBs.Lib.Steps

/-! Encoders as the checks and the puts they make, with the buffer they leave when they return an
error; decoders that get back what was put. -/
namespace TetraBs
open TetraBs.Bits TetraBs.Decoder TetraBs.Steps

/-- A value and the number of bits it is put with. -/
abbrev EncodeStep := Step (BitVec 32 × Nat) Errno

/-- `bb_put_bits`; `none` is a failed assertion. -/
def bbPut (bb : BitBuffer) (f : BitVec 32 × Nat) : Option BitBuffer :=
  (bbPutBits bb f.1 f.2).toOption

def stepsBits (steps : List EncodeStep) : List Bool :=
  (writes steps).flatMap fun f => msbBits f.1 f.2

theorem stepsBits_append (u v : List EncodeStep) :
    stepsBits (u ++ v) = stepsBits u ++ stepsBits v := by
  rw [stepsBits, writes_append, List.flatMap_append]
  rfl

theorem stepsBits_write (f : BitVec 32 × Nat) (u : List EncodeStep) :
    stepsBits (.write f :: u) = msbBits f.1 f.2 ++ stepsBits u := rfl

theorem stepsBits_check (ok : Bool) (e : Errno) (u : List EncodeStep) :
    stepsBits (.check ok e :: u) = stepsBits u := rfl

/-- The codec that takes the steps one after the other. -/
def asBitM : List EncodeStep → BitM Unit
  | [] => pure ()
  | .check ok e :: steps => failUnless (ok = true) e >>= fun _ => asBitM steps
  | .write f :: steps => putBits f.1 f.2 >>= fun _ => asBitM steps

theorem bbPutBits_error {bb : BitBuffer} {v : BitVec 32} {n : Nat} {fault : Fault}
    (h : bbPutBits bb v n = .error fault) : fault = .assertion := by
  unfold bbPutBits at h
  split at h
  · split at h
    · exact (Except.error.inj h).symm
    · split at h
      · cases h
      · split at h
        · cases h
        · exact (Except.error.inj h).symm
  · exact (Except.error.inj h).symm

/-- What a call returns of a run: the buffer only if there is no error. -/
def returned : Option (BitBuffer × Option Errno) → Except Fault (Unit × BitBuffer)
  | none => .error .assertion
  | some (_, some e) => .error (.errno e)
  | some (bb, none) => .ok ((), bb)

theorem asBitM_run (steps : List EncodeStep) (bb : BitBuffer) :
    (asBitM steps).run bb = returned (run bbPut steps bb) := by
  induction steps generalizing bb with
  | nil => rfl
  | cons step steps ih =>
    cases step with
    | check ok e =>
      cases ok with
      | false => rfl
      | true => exact ih bb
    | write f =>
      have hput : (putBits f.1 f.2).run bb =
          (bbPutBits bb f.1 f.2 >>= fun b => .ok ((), b)) := rfl
      rw [asBitM, StateT.run_bind, hput, run, bbPut]
      cases h : bbPutBits bb f.1 f.2 with
      | error fault =>
        rw [bbPutBits_error h]
        rfl
      | ok b => exact ih b

section
variable {bb bb' : BitBuffer} {v : BitVec 32} {n : Nat}

theorem width_of_put (h : bbPutBits bb v n = .ok bb') : 1 ≤ n ∧ n ≤ 32 := by
  by_contra hn
  rw [bbPutBits, dif_neg hn] at h
  cases h

theorem lt_of_put (h : bbPutBits bb v n = .ok bb') : v.toNat < 2 ^ n := by
  have hn := width_of_put h
  by_cases h32 : n = 32
  · rw [h32]
    exact v.isLt
  · by_contra hge
    have hshift : v >>> n ≠ 0 := by
      intro hz
      have hnat := congrArg BitVec.toNat hz
      rw [BitVec.toNat_ushiftRight, Nat.shiftRight_eq_div_pow] at hnat
      have hpos : 0 < v.toNat / 2 ^ n := Nat.div_pos (Nat.le_of_not_lt hge) (Nat.two_pow_pos _)
      exact Nat.ne_of_gt hpos hnat
    rw [bbPutBits, dif_pos hn, if_pos ⟨by omega, hshift⟩] at h
    cases h

theorem room_of_put (h : bbPutBits bb v n = .ok bb') : bb.pos + n ≤ bb.limit := by
  by_contra hroom
  have hend : ¬bb.pos + n ≤ bb.endBits := by
    intro hle
    refine hroom (Nat.le_trans hle ?_)
    rw [BitBuffer.limit]
    split
    · exact bb.end_le
    · exact Nat.le_refl _
  have hauto : ¬(bb.autoexpand = true ∧ bb.pos + n ≤ bb.capBits) := by
    rintro ⟨hauto, hle⟩
    rw [BitBuffer.limit, if_pos hauto] at hroom
    exact hroom hle
  rw [bbPutBits, dif_pos (width_of_put h)] at h
  split at h
  · cases h
  · cases h

end

/-- A put that was done, as the function returns it. -/
theorem bbPut_ok {bb bb' : BitBuffer} {f : BitVec 32 × Nat} (h : bbPut bb f = some bb') :
    bbPutBits bb f.1 f.2 = .ok bb' := by
  rw [bbPut] at h
  cases hres : bbPutBits bb f.1 f.2 with
  | error e =>
    rw [hres] at h
    cases h
  | ok b =>
    rw [hres] at h
    exact congrArg Except.ok (Option.some.inj h)

/-- A put that was done had room and a value of its width. -/
theorem bbPut_some {bb bb' : BitBuffer} {f : BitVec 32 × Nat} (h : bbPut bb f = some bb') :
    Put bb bb' (msbBits f.1 f.2) ∧ bb'.pos ≤ bb.limit := by
  have hok : bbPutBits bb f.1 f.2 = .ok bb' := bbPut_ok h
  obtain ⟨hone, hle⟩ := width_of_put hok
  have hroom := room_of_put hok
  obtain ⟨b, hb, hbits⟩ := bbPutBits_spec bb hone hle (lt_of_put hok) hroom
  rw [hok] at hb
  cases hb
  refine ⟨hbits, ?_⟩
  rw [hbits.pos_eq, msbBits_length]
  exact hroom

theorem writeAll_put {fs : List (BitVec 32 × Nat)} {bb bb' : BitBuffer}
    (h : writeAll bbPut fs bb = some bb') :
    Put bb bb' (fs.flatMap fun f => msbBits f.1 f.2) ∧ (fs = [] ∨ bb'.pos ≤ bb.limit) := by
  induction fs generalizing bb with
  | nil =>
    cases h
    exact ⟨Put.refl _, Or.inl rfl⟩
  | cons f fs ih =>
    rw [writeAll, Option.bind_eq_some_iff] at h
    obtain ⟨b, hb, hrest⟩ := h
    obtain ⟨hput, hle⟩ := bbPut_some hb
    obtain ⟨hputs, hles⟩ := ih hrest
    refine ⟨hput.append hputs, Or.inr ?_⟩
    obtain rfl | hles := hles
    · cases hrest
      exact hle
    · rw [hput.limit_eq] at hles
      exact hles

/-- The value fits the width it is put with. -/
def FitsWidth (f : BitVec 32 × Nat) : Prop := 1 ≤ f.2 ∧ f.2 ≤ 32 ∧ f.1.toNat < 2 ^ f.2

def Fitting (fs : List (BitVec 32 × Nat)) : Prop := ∀ f ∈ fs, FitsWidth f

theorem fits_masked (v : BitVec 32) {mask : BitVec 32} {n : Nat} (hn : 1 ≤ n) (hn' : n ≤ 32)
    (hmask : mask.toNat < 2 ^ n) : FitsWidth (v &&& mask, n) := by
  refine ⟨hn, hn', ?_⟩
  rw [BitVec.toNat_and]
  exact Nat.and_lt_two_pow _ hmask

theorem fits_widened {w : Nat} (v : BitVec w) (hw : 1 ≤ w) (hw' : w ≤ 32) :
    FitsWidth (v.setWidth 32, w) := by
  refine ⟨hw, hw', ?_⟩
  rw [BitVec.toNat_setWidth]
  exact Nat.lt_of_le_of_lt (Nat.mod_le _ _) v.isLt

theorem writeAll_some {fs : List (BitVec 32 × Nat)} (h : Fitting fs) {bb : BitBuffer}
    (hroom : bb.pos + (fs.flatMap fun f => msbBits f.1 f.2).length ≤ bb.limit) :
    ∃ bb', writeAll bbPut fs bb = some bb' := by
  induction fs generalizing bb with
  | nil => exact ⟨bb, rfl⟩
  | cons f fs ih =>
    rw [List.flatMap_cons, List.length_append, msbBits_length] at hroom
    obtain ⟨hn, hn', hv⟩ := h f List.mem_cons_self
    obtain ⟨b, hb, hbits⟩ := bbPutBits_spec bb hn hn' hv (by omega)
    have hput : bbPut bb f = some b := by
      rw [bbPut, hb]
      rfl
    have hrest : b.pos + (fs.flatMap fun f => msbBits f.1 f.2).length ≤ b.limit := by
      rw [hbits.pos_eq, hbits.limit_eq, msbBits_length]
      omega
    obtain ⟨c, hc⟩ := ih (fun g hg => h g (List.mem_cons_of_mem f hg)) hrest
    refine ⟨c, ?_⟩
    rw [writeAll, hput]
    exact hc

theorem fitting_of_writeAll {fs : List (BitVec 32 × Nat)} {bb bb' : BitBuffer}
    (h : writeAll bbPut fs bb = some bb') : Fitting fs := by
  induction fs generalizing bb with
  | nil => exact fun f hf => nomatch hf
  | cons f fs ih =>
    rw [writeAll, Option.bind_eq_some_iff] at h
    obtain ⟨b, hb, hrest⟩ := h
    have hok : bbPutBits bb f.1 f.2 = .ok b := bbPut_ok hb
    have hwidth := width_of_put hok
    intro g hg
    obtain rfl | hg := List.mem_cons.1 hg
    · exact ⟨hwidth.1, hwidth.2, lt_of_put hok⟩
    · exact ih hrest g hg

/-! Getting back. -/

/-- `d` gets `a` from `bits`, wherever the cursor stands on them and whatever follows. -/
def Gets {α : Type} (d : BitM α) (bits : List Bool) (a : α) : Prop :=
  ∀ bb : BitBuffer, bb.pos + bits.length ≤ bb.endBits →
    window bb.buffer bb.pos bits.length = bits →
    ∃ bb', d.run bb = .ok (a, bb') ∧ Skip bb bb' bits.length

variable {α β : Type}

theorem gets_pure (a : α) : Gets (pure a) [] a :=
  fun bb _ _ => ⟨bb, rfl, Skip.refl bb⟩

theorem Gets.bind {d : BitM α} {f : α → BitM β} {u v : List Bool} {a : α} {b : β}
    (hd : Gets d u a) (hf : Gets (f a) v b) : Gets (d >>= f) (u ++ v) b := by
  intro bb hroom hwin
  rw [List.length_append] at hroom
  rw [List.length_append, window_add] at hwin
  obtain ⟨hu, hv⟩ := List.append_inj hwin (window_length _ _ _)
  obtain ⟨b₁, hrun, hskip⟩ := hd bb (by omega) hu
  obtain ⟨b₂, hrun', hskip'⟩ := hf b₁ (by rw [hskip.pos_eq, hskip.end_eq]; omega)
    (by rw [hskip.pos_eq, hskip.buffer_eq]; exact hv)
  refine ⟨b₂, ?_, ?_⟩
  · rw [StateT.run_bind, hrun]
    exact hrun'
  · rw [List.length_append]
    exact hskip.trans hskip'

/-- A last step that gets nothing more. -/
theorem Gets.bind_end {d : BitM α} {f : α → BitM β} {u : List Bool} {a : α} {b : β}
    (hd : Gets d u a) (hf : Gets (f a) [] b) : Gets (d >>= f) u b := by
  have h := hd.bind hf
  rwa [List.append_nil] at h

theorem Gets.check {c : Prop} [Decidable c] (hc : c) {e : Errno} {f : Unit → BitM β}
    {v : List Bool} {b : β} (hf : Gets (f ()) v b) : Gets (failUnless c e >>= f) v b := by
  have hpure : failUnless c e = pure () := if_pos hc
  rw [hpure]
  exact hf

theorem gets_getBits {v : BitVec 32} {n : Nat} (hn : 1 ≤ n) (hn' : n ≤ 32)
    (hv : v.toNat < 2 ^ n) : Gets (getBits n) (msbBits v n) v := by
  intro bb hroom hwin
  rw [msbBits_length] at hroom hwin ⊢
  obtain ⟨u, bb', hget, hholds, hskip⟩ := bbGetBits_spec bb hn hn' hroom
  have hu := hholds.eq_of_msbBits hn' hv hwin
  rw [hu] at hget
  exact ⟨bb', hget, hskip⟩

/-- What is put of a masked value is got as the value, if it is in width. -/
theorem gets_masked {v mask : BitVec 32} {n : Nat} (hn : 1 ≤ n) (hn' : n ≤ 32)
    (hmask : mask.toNat = 2 ^ n - 1) (hv : v.toNat < 2 ^ n) :
    Gets (getBits n) (msbBits (v &&& mask) n) v := by
  have hand : v &&& mask = v := by
    refine BitVec.eq_of_toNat_eq ?_
    rw [BitVec.toNat_and, hmask, Nat.and_two_pow_sub_one_eq_mod, Nat.mod_eq_of_lt hv]
  rw [hand]
  exact gets_getBits hn hn' hv

end TetraBs
