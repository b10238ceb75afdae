import Mathlib.Algebra.GroupWithZero.Nat
import TetraBs.Core.BitSteps

/-! The calls of `sw/core/src/bitbuffer.c` on the structure as C has it: plain fields that nothing
keeps in order, and a call that stops at an assertion leaves them as they stand then. -/
namespace TetraBs
open TetraBs.Bits TetraBs.Steps

/-- `struct BitBuffer` -/
structure RawBitBuffer where
  buffer : List Byte
  capBits : Nat
  start : Nat
  pos : Nat
  endBits : Nat
  autoexpand : Bool

/-- The cursor invariant; `cap_bits` counts bits of the array. -/
structure RawBitBuffer.InOrder (r : RawBitBuffer) : Prop where
  start_le : r.start ≤ r.pos
  pos_le : r.pos ≤ r.endBits
  end_le : r.endBits ≤ r.capBits
  cap_le : r.capBits ≤ 8 * r.buffer.length

/-- A call returns or stops at an assertion, and leaves the structure in either case. -/
abbrev BufferCall (α : Type) := ExceptT Fault (StateM RawBitBuffer) α

namespace RawBitBuffer
variable {α β : Type}

def after (c : BufferCall α) (r : RawBitBuffer) : Except Fault α × RawBitBuffer := (c.run.run r).run

def assertThat (c : Prop) [Decidable c] : BufferCall Unit :=
  if c then pure () else throw .assertion

def bbPutBits (v : BitVec 32) (n : Nat) : BufferCall Unit := do
  assertThat (1 ≤ n ∧ n ≤ 32)
  assertThat (n < 32 → v >>> n = 0)
  let bb ← get
  let needEnd := bb.pos + n
  if needEnd > bb.endBits then
    if bb.autoexpand then
      assertThat (needEnd ≤ bb.capBits)
      modify fun bb => { bb with endBits := needEnd }
    else
      assertThat False
  modify fun bb => { bb with buffer := bbWriteAt bb.buffer bb.pos v n }
  modify fun bb => { bb with pos := bb.pos + n }

def bbGetBits (n : Nat) : BufferCall (BitVec 32) := do
  assertThat (1 ≤ n ∧ n ≤ 32)
  let bb ← get
  if bb.pos + n > bb.endBits then
    return 0
  let v := bbReadAt bb.buffer bb.pos n
  modify fun bb => { bb with pos := bb.pos + n }
  return v

def bbSeekBits (pos : Nat) : BufferCall Unit := do
  let bb ← get
  let abs := bb.start + pos
  assertThat (abs ≤ bb.endBits)
  modify fun bb => { bb with pos := abs }

/-! What the parts of a call do. -/

theorem after_pure (a : α) (r : RawBitBuffer) : after (pure a) r = (.ok a, r) := rfl

theorem after_get (r : RawBitBuffer) : after get r = (.ok r, r) := rfl

theorem after_modify (f : RawBitBuffer → RawBitBuffer) (r : RawBitBuffer) :
    after (modify f) r = (.ok (), f r) := rfl

theorem after_bind (c : BufferCall α) (f : α → BufferCall β) (r : RawBitBuffer) :
    after (c >>= f) r = match after c r with
      | (.ok a, s) => after (f a) s
      | (.error e, s) => (.error e, s) := by
  show (ExceptT.bind c f).run.run r = _
  unfold after
  cases h : (c.run.run r).run with
  | mk res s =>
    have hrun : (ExceptT.bind c f).run.run r =
        (ExceptT.bindCont f (c.run.run r).run.1).run (c.run.run r).run.2 := rfl
    rw [hrun, h]
    cases res with
    | ok a => rfl
    | error e => rfl

theorem after_assertThat (c : Prop) [Decidable c] (r : RawBitBuffer) :
    after (assertThat c) r = (if c then .ok () else .error .assertion, r) := by
  unfold assertThat
  split
  · rfl
  · rfl

/-- Width, value and room are as `bb_put_bits` asserts them. -/
def CanPut (v : BitVec 32) (n : Nat) (r : RawBitBuffer) : Prop :=
  (1 ≤ n ∧ n ≤ 32) ∧ (n < 32 → v >>> n = 0) ∧
    (r.pos + n ≤ r.endBits ∨ r.autoexpand = true ∧ r.pos + n ≤ r.capBits)

instance (v : BitVec 32) (n : Nat) (r : RawBitBuffer) : Decidable (CanPut v n r) :=
  inferInstanceAs (Decidable (_ ∧ _ ∧ _))

def putResult (v : BitVec 32) (n : Nat) (r : RawBitBuffer) : RawBitBuffer :=
  { r with buffer := bbWriteAt r.buffer r.pos v n, pos := r.pos + n
           endBits := max r.endBits (r.pos + n) }

theorem after_ite (p : Prop) [Decidable p] (c d : BufferCall α) (r : RawBitBuffer) :
    after (if p then c else d) r = if p then after c r else after d r := by
  split
  · rfl
  · rfl

/-- Each assertion stands before the first assignment. -/
theorem after_bbPutBits (v : BitVec 32) (n : Nat) (r : RawBitBuffer) :
    after (bbPutBits v n) r =
      if CanPut v n r then (.ok (), putResult v n r) else (.error .assertion, r) := by
  unfold bbPutBits
  simp only [after_bind, after_ite, after_assertThat, after_get, after_modify]
  by_cases hn : 1 ≤ n ∧ n ≤ 32
  · by_cases hv : n < 32 → v >>> n = 0
    · by_cases hend : r.pos + n ≤ r.endBits
      · have hput : CanPut v n r := ⟨hn, hv, Or.inl hend⟩
        have hmax : max r.endBits (r.pos + n) = r.endBits := Nat.max_eq_left hend
        rw [if_pos hput, if_pos hn, if_pos hv]
        simp [Nat.not_lt.2 hend, putResult, hmax]
      · have hmax : max r.endBits (r.pos + n) = r.pos + n := Nat.max_eq_right (by omega)
        rw [if_pos hn, if_pos hv]
        by_cases hauto : r.autoexpand = true
        · by_cases hcap : r.pos + n ≤ r.capBits
          · have hput : CanPut v n r := ⟨hn, hv, Or.inr ⟨hauto, hcap⟩⟩
            rw [if_pos hput]
            simp [Nat.lt_of_not_le hend, hauto, hcap, putResult, hmax]
          · have hput : ¬CanPut v n r := fun h => h.2.2.elim hend fun h => hcap h.2
            rw [if_neg hput]
            simp [Nat.lt_of_not_le hend, hauto, hcap]
        · have hput : ¬CanPut v n r := fun h => h.2.2.elim hend fun h => hauto h.1
          rw [if_neg hput]
          simp [Nat.lt_of_not_le hend, hauto]
    · have hput : ¬CanPut v n r := fun h => hv h.2.1
      rw [if_neg hput, if_pos hn, if_neg hv]
  · have hput : ¬CanPut v n r := fun h => hn h.1
    rw [if_neg hput, if_neg hn]

theorem after_bbGetBits (n : Nat) (r : RawBitBuffer) :
    after (bbGetBits n) r =
      if 1 ≤ n ∧ n ≤ 32 then
        if r.pos + n ≤ r.endBits then
          (.ok (bbReadAt r.buffer r.pos n), { r with pos := r.pos + n })
        else (.ok 0, r)
      else (.error .assertion, r) := by
  unfold bbGetBits
  simp only [after_bind, after_ite, after_assertThat, after_get, after_modify, after_pure]
  by_cases hn : 1 ≤ n ∧ n ≤ 32
  · rw [if_pos hn, if_pos hn]
    by_cases hend : r.pos + n ≤ r.endBits
    · rw [if_pos hend]
      simp [Nat.not_lt.2 hend]
    · rw [if_neg hend]
      simp [Nat.lt_of_not_le hend]
  · rw [if_neg hn, if_neg hn]

theorem after_bbSeekBits (pos : Nat) (r : RawBitBuffer) :
    after (bbSeekBits pos) r =
      if r.start + pos ≤ r.endBits then (.ok (), { r with pos := r.start + pos })
      else (.error .assertion, r) := by
  unfold bbSeekBits
  simp only [after_bind, after_assertThat, after_get, after_modify]
  by_cases h : r.start + pos ≤ r.endBits
  · rw [if_pos h, if_pos h]
  · rw [if_neg h, if_neg h]

/-! The invariant over calls. -/

/-- A call of the cursor interface. -/
inductive CursorCall where
  | put (v : BitVec 32) (n : Nat)
  | get (n : Nat)
  | seek (pos : Nat)

/-- What a call leaves, whether it returns or stops. -/
def CursorCall.leaves : CursorCall → RawBitBuffer → RawBitBuffer
  | .put v n, r => (after (bbPutBits v n) r).2
  | .get n, r => (after (bbGetBits n) r).2
  | .seek pos, r => (after (bbSeekBits pos) r).2

theorem InOrder.putResult {r : RawBitBuffer} (h : r.InOrder) {v : BitVec 32} {n : Nat}
    (hput : CanPut v n r) : (putResult v n r).InOrder := by
  obtain ⟨hn, -, hroom⟩ := hput
  have hcap : max r.endBits (r.pos + n) ≤ r.capBits := by
    have := h.end_le
    omega
  refine ⟨Nat.le_add_right_of_le h.start_le, Nat.le_max_right _ _, hcap, ?_⟩
  exact bbWriteAt_length v hn.2 (Nat.le_trans (Nat.le_max_right _ _) hcap) h.cap_le

theorem InOrder.leaves {r : RawBitBuffer} (h : r.InOrder) (c : CursorCall) :
    (c.leaves r).InOrder := by
  cases c with
  | put v n =>
    rw [CursorCall.leaves, after_bbPutBits]
    split
    · exact h.putResult (by assumption)
    · exact h
  | get n =>
    rw [CursorCall.leaves, after_bbGetBits]
    split
    · split
      · exact ⟨Nat.le_add_right_of_le h.start_le, by assumption, h.end_le, h.cap_le⟩
      · exact h
    · exact h
  | seek pos =>
    rw [CursorCall.leaves, after_bbSeekBits]
    split
    · exact ⟨Nat.le_add_right _ _, by assumption, h.end_le, h.cap_le⟩
    · exact h

/-- Any run of calls, one after the other. -/
theorem InOrder.leaves_all {r : RawBitBuffer} (h : r.InOrder) (cs : List CursorCall) :
    (cs.foldl (fun r c => c.leaves r) r).InOrder := by
  induction cs generalizing r with
  | nil => exact h
  | cons c cs ih => exact ih (h.leaves c)

/-! The calls and the functions on a cursor that is in order by construction. -/

/-- The structure under the cursor. -/
def ofBitBuffer (bb : BitBuffer) : RawBitBuffer :=
  ⟨bb.buffer, bb.capBits, bb.start, bb.pos, bb.endBits, bb.autoexpand⟩

theorem InOrder.eq_ofBitBuffer {r : RawBitBuffer} (h : r.InOrder) : ∃ bb, ofBitBuffer bb = r :=
  ⟨⟨r.buffer, r.capBits, r.start, r.pos, r.endBits, r.autoexpand, h.start_le, h.pos_le, h.end_le,
    h.cap_le⟩, rfl⟩

theorem inOrder_ofBitBuffer (bb : BitBuffer) : (ofBitBuffer bb).InOrder :=
  ⟨bb.start_le, bb.pos_le, bb.end_le, bb.cap_le⟩

/-- An error of the function is an assertion that left the structure alone. -/
theorem after_bbPutBits_ofBitBuffer (bb : BitBuffer) (v : BitVec 32) (n : Nat) :
    after (bbPutBits v n) (ofBitBuffer bb) = match TetraBs.bbPutBits bb v n with
      | .ok bb' => (.ok (), ofBitBuffer bb')
      | .error _ => (.error .assertion, ofBitBuffer bb) := by
  rw [after_bbPutBits]
  unfold TetraBs.bbPutBits
  by_cases hn : 1 ≤ n ∧ n ≤ 32
  · rw [dif_pos hn]
    by_cases hv : n < 32 ∧ v >>> n ≠ 0
    · have hput : ¬CanPut v n (ofBitBuffer bb) := fun h => hv.2 (h.2.1 hv.1)
      rw [if_neg hput, if_pos hv]
    · have hv' : n < 32 → v >>> n = 0 := fun h => Classical.byContradiction fun hne => hv ⟨h, hne⟩
      rw [if_neg hv]
      by_cases hend : bb.pos + n ≤ bb.endBits
      · have hput : CanPut v n (ofBitBuffer bb) := ⟨hn, hv', Or.inl hend⟩
        have hmax : max bb.endBits (bb.pos + n) = bb.endBits := Nat.max_eq_left hend
        rw [if_pos hput, dif_pos hend]
        simp [putResult, ofBitBuffer, hmax]
      · rw [dif_neg hend]
        by_cases hroom : bb.autoexpand = true ∧ bb.pos + n ≤ bb.capBits
        · have hput : CanPut v n (ofBitBuffer bb) := ⟨hn, hv', Or.inr hroom⟩
          have hmax : max bb.endBits (bb.pos + n) = bb.pos + n := Nat.max_eq_right (by omega)
          rw [if_pos hput, dif_pos hroom]
          simp [putResult, ofBitBuffer, hmax]
        · have hput : ¬CanPut v n (ofBitBuffer bb) := fun h => h.2.2.elim hend hroom
          rw [if_neg hput, dif_neg hroom]
  · have hput : ¬CanPut v n (ofBitBuffer bb) := fun h => hn h.1
    rw [if_neg hput, dif_neg hn]

theorem after_bbGetBits_ofBitBuffer {bb bb' : BitBuffer} {v : BitVec 32} {n : Nat}
    (h : TetraBs.bbGetBits bb n = .ok (v, bb')) :
    after (bbGetBits n) (ofBitBuffer bb) = (.ok v, ofBitBuffer bb') := by
  rw [after_bbGetBits]
  unfold TetraBs.bbGetBits at h
  split at h
  · rename_i hn
    rw [if_pos hn]
    split at h
    · rename_i hend
      cases h
      exact if_pos hend
    · rename_i hend
      cases h
      exact if_neg hend
  · cases h

theorem after_bbSeekBits_ofBitBuffer {bb bb' : BitBuffer} {pos : Nat}
    (h : TetraBs.bbSeekBits bb pos = .ok bb') :
    after (bbSeekBits pos) (ofBitBuffer bb) = (.ok (), ofBitBuffer bb') := by
  rw [after_bbSeekBits]
  unfold TetraBs.bbSeekBits at h
  split at h
  · rename_i hend
    cases h
    exact if_pos hend
  · cases h

/-! Runs of puts and gets. -/

def putAll : List (BitVec 32 × Nat) → BufferCall Unit
  | [] => pure ()
  | f :: fs => do
    bbPutBits f.1 f.2
    putAll fs

def getAll : List Nat → BufferCall (List (BitVec 32))
  | [] => pure []
  | n :: ns => do
    let v ← bbGetBits n
    let vs ← getAll ns
    return v :: vs

theorem after_putAll_some {fs : List (BitVec 32 × Nat)} {bb bb' : BitBuffer}
    (h : writeAll bbPut fs bb = some bb') :
    after (putAll fs) (ofBitBuffer bb) = (.ok (), ofBitBuffer bb') := by
  induction fs generalizing bb with
  | nil =>
    cases h
    rfl
  | cons f fs ih =>
    rw [writeAll, Option.bind_eq_some_iff] at h
    obtain ⟨b, hb, hrest⟩ := h
    rw [putAll, after_bind, after_bbPutBits_ofBitBuffer, bbPut_ok hb]
    exact ih hrest

theorem after_put_none {f : BitVec 32 × Nat} {bb : BitBuffer} (h : bbPut bb f = none) :
    after (bbPutBits f.1 f.2) (ofBitBuffer bb) = (.error .assertion, ofBitBuffer bb) := by
  rw [after_bbPutBits_ofBitBuffer]
  rw [bbPut] at h
  cases hres : TetraBs.bbPutBits bb f.1 f.2 with
  | error e => rfl
  | ok c =>
    rw [hres] at h
    cases h

theorem after_putAll_append {fs gs : List (BitVec 32 × Nat)} {r s : RawBitBuffer}
    (h : after (putAll fs) r = (.ok (), s)) :
    after (putAll (fs ++ gs)) r = after (putAll gs) s := by
  induction fs generalizing r with
  | nil =>
    cases h
    rfl
  | cons f fs ih =>
    rw [putAll, after_bind] at h
    rw [List.cons_append, putAll, after_bind]
    cases hres : after (bbPutBits f.1 f.2) r with
    | mk res t =>
      rw [hres] at h
      cases res with
      | ok u => exact ih h
      | error e => cases h

/-- The gets of what was put, wherever the cursor stands on its bits. -/
theorem after_getAll {fs : List (BitVec 32 × Nat)} (h : Fitting fs) {bb : BitBuffer}
    (hroom : bb.pos + (fs.flatMap fun f => msbBits f.1 f.2).length ≤ bb.endBits)
    (hwin : window bb.buffer bb.pos (fs.flatMap fun f => msbBits f.1 f.2).length =
      fs.flatMap fun f => msbBits f.1 f.2) :
    ∃ bb', after (getAll (fs.map Prod.snd)) (ofBitBuffer bb) =
        (.ok (fs.map Prod.fst), ofBitBuffer bb') ∧
      Skip bb bb' (fs.flatMap fun f => msbBits f.1 f.2).length := by
  induction fs generalizing bb with
  | nil => exact ⟨bb, rfl, Skip.refl bb⟩
  | cons f fs ih =>
    rw [List.flatMap_cons] at hroom hwin ⊢
    obtain ⟨hn, hn', hv⟩ := h f List.mem_cons_self
    obtain ⟨hhead, htail⟩ := window_eq_append hwin
    rw [List.length_append] at hroom ⊢
    obtain ⟨b, hget, hskip⟩ := gets_getBits hn hn' hv bb (by omega) hhead
    have hrest := htail
    rw [← hskip.buffer_eq, ← hskip.pos_eq] at hrest
    have hroom' : b.pos + (fs.flatMap fun f => msbBits f.1 f.2).length ≤ b.endBits := by
      rw [hskip.pos_eq, hskip.end_eq]
      omega
    obtain ⟨c, hall, hskips⟩ := ih (fun g hg => h g (List.mem_cons_of_mem f hg)) hroom' hrest
    refine ⟨c, ?_, hskip.trans hskips⟩
    rw [List.map_cons, getAll, after_bind, after_bbGetBits_ofBitBuffer hget]
    dsimp only
    rw [after_bind, hall]
    rfl

/-- `v_masked` of `bb_write_at`. -/
def masked (v : BitVec 32) (n : Nat) : BitVec 32 := if n = 32 then v else v &&& lowMask n

theorem masked_eq {v : BitVec 32} {n : Nat} (hn : n ≤ 32) (hv : v.toNat < 2 ^ n) :
    masked v n = v := by
  unfold masked
  split
  · rfl
  · refine BitVec.eq_of_getLsbD_eq fun j _ => ?_
    rw [BitVec.getLsbD_and, getLsbD_lowMask (by omega)]
    by_cases hj : j < n
    · simp [hj]
    · have hpow : 2 ^ n ≤ 2 ^ j := Nat.pow_le_pow_right (by decide) (Nat.le_of_not_lt hj)
      have hbit : v.getLsbD j = false := Nat.testBit_lt_two_pow (Nat.lt_of_lt_of_le hv hpow)
      simp [hj, hbit]

/-- Every put of `fs` succeeds from `r`; back at the old position the gets of the same widths
return what was put, and no other bit has changed. -/
def PutsReadBack (r : RawBitBuffer) (fs : List (BitVec 32 × Nat)) : Prop :=
  ∃ r' back last, after (putAll fs) r = (.ok (), r') ∧
    after (bbSeekBits (r.pos - r.start)) r' = (.ok (), back) ∧
    after (getAll (fs.map Prod.snd)) back = (.ok (fs.map fun f => masked f.1 f.2), last) ∧
    r'.pos = r.pos + (fs.map Prod.snd).sum ∧ r'.buffer.length = r.buffer.length ∧
    last.pos = r'.pos ∧ last.buffer = r'.buffer ∧ r'.InOrder ∧ back.InOrder ∧ last.InOrder ∧
    ∀ i, i < r.pos ∨ r'.pos ≤ i → bitAt r'.buffer i = bitAt r.buffer i

/-- The puts before one of `fs` succeed; it stops at an assertion and leaves the structure as they
left it. -/
def PutStops (r : RawBitBuffer) (fs : List (BitVec 32 × Nat)) : Prop :=
  ∃ done f rest r', fs = done ++ f :: rest ∧ after (putAll done) r = (.ok (), r') ∧
    after (bbPutBits f.1 f.2) r' = (.error .assertion, r') ∧
    after (putAll fs) r = (.error .assertion, r') ∧ r'.InOrder

theorem flatMap_msbBits_length (fs : List (BitVec 32 × Nat)) :
    (fs.flatMap fun f => msbBits f.1 f.2).length = (fs.map Prod.snd).sum := by
  simp [List.length_flatMap]

theorem bbSeekBits_back {bb bb' : BitBuffer} {bits : List Bool} (h : Put bb bb' bits) :
    ∃ back, TetraBs.bbSeekBits bb' (bb.pos - bb.start) = .ok back ∧ back.pos = bb.pos ∧
      back.endBits = bb'.endBits ∧ back.buffer = bb'.buffer := by
  have hpos := h.pos_eq
  have hle := bb'.pos_le
  have hstart : bb'.start + (bb.pos - bb.start) = bb.pos := by
    rw [h.start_eq]
    exact Nat.add_sub_cancel' bb.start_le
  unfold TetraBs.bbSeekBits
  rw [dif_pos (by omega)]
  exact ⟨_, rfl, hstart, rfl, rfl⟩

theorem putsReadBack {fs : List (BitVec 32 × Nat)} {bb bb' : BitBuffer}
    (h : writeAll bbPut fs bb = some bb') : PutsReadBack (ofBitBuffer bb) fs := by
  have hfit : Fitting fs := fitting_of_writeAll h
  obtain ⟨hput, -⟩ := writeAll_put h
  have hlen := flatMap_msbBits_length fs
  have hpos := hput.pos_eq
  have hle := bb'.pos_le
  obtain ⟨back, hseek, hback, hend, hbuf⟩ := bbSeekBits_back hput
  have hwin := hput.window_eq
  rw [← hback, ← hbuf] at hwin
  obtain ⟨last, hget, hskip⟩ := after_getAll hfit (by omega) hwin
  have hvalues : (fs.map fun f => masked f.1 f.2) = fs.map Prod.fst := by
    refine List.map_congr_left fun f hf => ?_
    obtain ⟨-, hn, hv⟩ := hfit f hf
    exact masked_eq hn hv
  refine ⟨ofBitBuffer bb', ofBitBuffer back, ofBitBuffer last, after_putAll_some h,
    after_bbSeekBits_ofBitBuffer hseek, ?_, ?_, hput.length_eq, ?_, ?_, inOrder_ofBitBuffer bb',
    inOrder_ofBitBuffer back, inOrder_ofBitBuffer last, hput.frame⟩
  · rw [hvalues]
    exact hget
  · rw [← hlen]
    exact hpos
  · show last.pos = bb'.pos
    rw [hskip.pos_eq, hback, hpos]
  · exact hskip.buffer_eq.trans hbuf

theorem putStops {fs : List (BitVec 32 × Nat)} {bb : BitBuffer}
    (h : writeAll bbPut fs bb = none) : PutStops (ofBitBuffer bb) fs := by
  obtain ⟨done, f, rest, b, rfl, hdone, hf⟩ := writeAll_none h
  have hstop := after_put_none hf
  refine ⟨done, f, rest, ofBitBuffer b, rfl, after_putAll_some hdone, hstop, ?_,
    inOrder_ofBitBuffer b⟩
  rw [after_putAll_append (after_putAll_some hdone), putAll, after_bind, hstop]

/-- The puts of any fields read back, or stop with the structure as the last put that was done
left it; the cursor stays in order over all calls. -/
theorem puts_read_back_or_stop {r : RawBitBuffer} (h : r.InOrder)
    (fs : List (BitVec 32 × Nat)) :
    (PutsReadBack r fs ∨ PutStops r fs) ∧
      ∀ cs : List CursorCall, (cs.foldl (fun r c => c.leaves r) r).InOrder := by
  obtain ⟨bb, rfl⟩ := h.eq_ofBitBuffer
  refine ⟨?_, h.leaves_all⟩
  cases hrun : writeAll bbPut fs bb with
  | none => exact Or.inr (putStops hrun)
  | some bb' => exact Or.inl (putsReadBack hrun)

/-- Two fields across a byte boundary, the second in the middle of its byte. -/
theorem puts_read_back_across_bytes :
    let r : RawBitBuffer := ⟨[0xFF#8, 0x00#8, 0xFF#8], 24, 0, 5, 24, false⟩
    (PutsReadBack r [(5#32, 4), (300#32, 10)] ∨ PutStops r [(5#32, 4), (300#32, 10)]) ∧
      ∀ cs : List CursorCall, (cs.foldl (fun r c => c.leaves r) r).InOrder :=
  puts_read_back_or_stop ⟨by decide, by decide, by decide, by decide⟩ _

end RawBitBuffer
end TetraBs
