import TetraBs.Lib.MulPerm
import TetraBs.Lib.Packing
import TetraBs.Lmac.CrcModes
import TetraBs.Lmac.AachEncoder

/-! The block encoders against the layers of the coding scheme: check bits, tail, convolutional
code, interleaving and scrambling. -/
namespace TetraBs.Lmac
open TetraBs.Bits TetraBs.BitRegister TetraBs.ConvCode TetraBs.Lfsr TetraBs.MulPerm TetraBs.Run

/-- The bits in the air of a block of information bits. -/
def blockReference (a n : Nat) (seed : BitVec 32) (pdu : List Bool) : List Bool :=
  List.zipWith xor
    (spread a false
      (encode ConvStage.g1Taps ConvStage.g2Taps []
        (Crc16.checked pdu ++ [false, false, false, false])))
    (cellSequence n seed)

/-! The interleaver as a permutation of the bit string. -/

theorem msbBits_writeBit {n p : Nat} (x : BitVec n) (hp : p < n) (b : Bool) :
    msbBits (writeBit x (n - 1 - p) b) n = (msbBits x n).set p b := by
  refine List.ext_getElem (by simp) fun j hj hj' => ?_
  rw [msbBits_length] at hj
  have hbit : ∀ (y : BitVec n) (h : j < (msbBits y n).length),
      (msbBits y n)[j] = y.getLsbD (n - 1 - j) := by
    intro y h
    simp [msbBits]
  rw [List.getElem_set, hbit, getLsbD_writeBit _ _ _ (by omega)]
  by_cases hjp : p = j
  · rw [if_pos hjp, if_pos (by omega)]
  · rw [if_neg hjp, if_neg (by omega), hbit]

theorem msbBits_interleave (a : Nat) {n : Nat} (x : BitVec n) :
    msbBits (interleave a x) n = spread a false (msbBits x n) := by
  have hzero : msbBits (0 : BitVec n) n = List.replicate n false := by
    refine List.ext_getElem (by simp) fun j hj hj' => ?_
    simp [msbBits]
  have hfold : ∀ m ≤ n, ∀ (y : BitVec n) (ys : List Bool), msbBits y n = ys →
      msbBits ((List.range' 1 m).foldl
        (fun dout k => writeBit dout (n - (1 + (a * k) % n)) (x.getLsbD (n - k))) y) n =
      (List.range m).foldl
        (fun ys i => ys.set (place a n i) ((msbBits x n).getD i false)) ys := by
    intro m hm y ys hy
    induction m with
    | zero => exact hy
    | succ m ih =>
      rw [List.range'_1_concat, List.range_succ, List.foldl_concat, List.foldl_concat,
        ← ih (by omega)]
      have hat : n - (1 + a * (1 + m) % n) = n - 1 - place a n m := by
        rw [place, Nat.add_comm 1 m]
        omega
      have hbit : (msbBits x n).getD m false = x.getLsbD (n - (1 + m)) := by
        rw [List.getD_eq_getElem _ _ (by rw [msbBits_length]; omega)]
        simp only [msbBits, List.getElem_map, List.getElem_range]
        congr 1
        omega
      rw [hat, hbit]
      exact msbBits_writeBit _ (place_lt (by omega)) _
  rw [interleave, spread, msbBits_length]
  exact hfold n (Nat.le_refl n) 0 _ hzero

theorem msbBits_xor {n : Nat} (x y : BitVec n) :
    msbBits (x ^^^ y) n = List.zipWith xor (msbBits x n) (msbBits y n) := by
  refine List.ext_getElem (by simp) fun j hj hj' => ?_
  simp [msbBits]

theorem msbBits_typeTwo {k : Nat} (pdu : BitVec k) :
    msbBits (typeTwo pdu (Crc16.run (msbBits pdu k))) (k + 16 + 4) =
      Crc16.checked (msbBits pdu k) ++ [false, false, false, false] := by
  rw [typeTwo, Packing.msbBits_append, Packing.msbBits_append, Crc16.checked]
  rfl

theorem split_length {α : Type*} {l : List α} {p q : Nat} (h : l.length = p + q) :
    ∃ us vs, l = us ++ vs ∧ us.length = p ∧ vs.length = q := by
  refine ⟨l.take p, l.drop p, (List.take_append_drop p l).symm, ?_, ?_⟩
  · rw [List.length_take]
    omega
  · rw [List.length_drop]
    omega

theorem checked_length (bits : List Bool) :
    (Crc16.checked bits ++ [false, false, false, false]).length = bits.length + 20 := by
  rw [Crc16.checked, List.length_append, List.length_append, msbBits_length]
  rfl

/-! The phases of a block. -/

namespace SchEncoder
variable {k n : Nat} (a : Nat)

/-- The check bits, one information bit a cycle. -/
theorem crc_run (s : SchEncoder k n) (hs : s.state = .crc) {is : List (SchInput k)}
    (hlen : is.length + s.cnt = k) (hk : s.cnt < k) :
    exec (step a) s is = { s with
      state := .build, cnt := 0
      crc := ((msbBits s.pdu k).drop s.cnt).foldl (fun crc b => crcNext b crc) s.crc } := by
  refine exec_phase (P := fun s => s.state = .crc)
    (R := fun s e : SchEncoder k n => e = { s with
      state := .build, cnt := 0
      crc := ((msbBits s.pdu k).drop s.cnt).foldl (fun crc b => crcNext b crc) s.crc })
    (fun s i hs hnext => ?_) (fun s i hs hend => ?_) hs hk hlen
  · have hstep : step a s i = { s with
        cnt := s.cnt + 1, crc := crcNext (s.pdu.getLsbD (k - 1 - s.cnt)) s.crc } := by
      simp only [step, hs, if_neg (by omega : s.cnt ≠ k - 1)]
    rw [hstep]
    refine ⟨hs, rfl, fun e he => ?_⟩
    rw [he, msbBits_drop s.pdu (by omega : s.cnt < k), List.foldl_cons]
  · have hstep : step a s i = { s with
        state := .build, cnt := 0, crc := crcNext (s.pdu.getLsbD (k - 1 - s.cnt)) s.crc } := by
      simp only [step, hs, if_pos (by omega : s.cnt = k - 1)]
    rw [hstep, msbBits_drop s.pdu (by omega), List.foldl_cons,
      List.drop_of_length_le (by rw [msbBits_length]; omega)]
    rfl

/-- The convolutional code, one bit of type 3 a cycle. -/
theorem rcpc_run (s : SchEncoder k n) (hs : s.state = .rcpc) {is : List (SchInput k)}
    (hlen : is.length + s.cnt = k + 16 + 4) (hk : s.cnt < k + 16 + 4) :
    exec (step a) s is = { s with
      state := .scram, cnt := 0
      conv := ((msbBits s.type3 (k + 16 + 4)).drop s.cnt).foldl ConvStage.step s.conv } := by
  refine exec_phase (P := fun s => s.state = .rcpc)
    (R := fun s e : SchEncoder k n => e = { s with
      state := .scram, cnt := 0
      conv := ((msbBits s.type3 (k + 16 + 4)).drop s.cnt).foldl ConvStage.step s.conv })
    (fun s i hs hnext => ?_) (fun s i hs hend => ?_) hs hk hlen
  · have hstep : step a s i = { s with
        cnt := s.cnt + 1, conv := s.conv.step (s.type3.getLsbD (k + 16 + 4 - 1 - s.cnt)) } := by
      have hidx : k + 16 + 4 - 1 - s.cnt = k + 19 - s.cnt := by omega
      simp only [step, hs, if_neg (by omega : s.cnt ≠ k + 19), hidx]
    rw [hstep]
    refine ⟨hs, rfl, fun e he => ?_⟩
    rw [he, msbBits_drop s.type3 (by omega : s.cnt < k + 16 + 4), List.foldl_cons]
  · have hstep : step a s i = { s with
        state := .scram, cnt := 0
        conv := s.conv.step (s.type3.getLsbD (k + 16 + 4 - 1 - s.cnt)) } := by
      have hidx : k + 16 + 4 - 1 - s.cnt = k + 19 - s.cnt := by omega
      simp only [step, hs, if_pos (by omega : s.cnt = k + 19), hidx]
    rw [hstep, msbBits_drop s.type3 (by omega), List.foldl_cons,
      List.drop_of_length_le (by rw [msbBits_length]; omega)]
    rfl

/-- The mask, one feedback bit a cycle. -/
theorem scram_run (s : SchEncoder k n) (hs : s.state = .scram) {seed : BitVec 32}
    (htracks : MaskTracks seed s.mask s.lfsr s.cnt) {is : List (SchInput k)}
    (hlen : is.length + s.cnt = n) (hn : s.cnt < n) :
    (exec (step a) s is).state = .finish ∧ (exec (step a) s is).conv = s.conv ∧
      msbBits (exec (step a) s is).mask n = cellSequence n seed := by
  refine exec_phase (P := fun s => s.state = .scram ∧ MaskTracks seed s.mask s.lfsr s.cnt)
    (R := fun s e : SchEncoder k n => e.state = .finish ∧ e.conv = s.conv ∧
      msbBits e.mask n = cellSequence n seed)
    (fun s i hs hless => ?_) (fun s i hs hend => ?_) ⟨hs, htracks⟩ hn hlen
  · have hstep : step a s i = { s with
        cnt := s.cnt + 1, mask := writeBit s.mask (n - 1 - s.cnt) (lfsrFb s.lfsr)
        lfsr := lfsrNext s.lfsr } := by
      simp only [step, hs.1, if_neg (by omega : s.cnt ≠ n - 1)]
    rw [hstep]
    exact ⟨⟨hs.1, hs.2.step (by omega)⟩, rfl, fun e he => he⟩
  · have hstep : step a s i = { s with
        state := .finish, mask := writeBit s.mask (n - 1 - s.cnt) (lfsrFb s.lfsr)
        lfsr := lfsrNext s.lfsr } := by
      simp only [step, hs.1, if_pos (by omega : s.cnt = n - 1)]
    have hfull := hs.2.step (by omega)
    rw [hend] at hfull
    rw [hstep]
    exact ⟨rfl, rfl, hfull.full⟩

/-- From the start to the mask: the check bits, the string of type 3 and its code word. -/
theorem to_scram (hk : 0 < k) {s : SchEncoder k n} (hs : s.state = .idle) {i : SchInput k}
    (hstart : i.encodeStart = true) {crcs codes : List (SchInput k)} (build : SchInput k)
    (hcrcs : crcs.length = k) (hcodes : codes.length = k + 20) :
    ∃ t, exec (step a) s (i :: (crcs ++ build :: codes)) = t ∧ t.state = .scram ∧ t.cnt = 0 ∧
      t.lfsr = i.scrambleInit ∧
      t.conv = (Crc16.checked (msbBits i.infoBits k) ++ [false, false, false, false]).foldl
        ConvStage.step (.clear n) := by
  refine ⟨_, rfl, ?_⟩
  have hbegin : step a s i = { s with
      codedValid := false, pdu := i.infoBits, crc := 0xFFFF, cnt := 0, lfsr := i.scrambleInit
      mask := 0, state := .crc } := by
    simp only [step, hs, hstart, if_true]
  have hlen : crcs.length + (step a s i).cnt = k := by
    rw [hbegin]
    exact hcrcs
  have hbuilt := crc_run a (step a s i) (by rw [hbegin]) hlen (by rw [hbegin]; exact hk)
  have hpdu : (exec (step a) (step a s i) crcs).pdu = i.infoBits := by rw [hbuilt, hbegin]
  have hcrc : (exec (step a) (step a s i) crcs).crc = Crc16.run (msbBits i.infoBits k) := by
    rw [hbuilt, hbegin]
    rfl
  have hlfsr : (exec (step a) (step a s i) crcs).lfsr = i.scrambleInit := by rw [hbuilt, hbegin]
  have hcnt : (exec (step a) (step a s i) crcs).cnt = 0 := by rw [hbuilt]
  have hstate : (exec (step a) (step a s i) crcs).state = .build := by rw [hbuilt]
  rw [exec, exec_append, exec, step_build a hstate]
  generalize exec (step a) (step a s i) crcs = u at hpdu hcrc hlfsr hcnt
  have hlen' : codes.length + u.built.cnt = k + 16 + 4 := by
    show codes.length + u.cnt = k + 16 + 4
    omega
  have hcoded := rcpc_run a u.built rfl hlen' (by
    show u.cnt < k + 16 + 4
    omega)
  have hbits : (msbBits u.built.type3 (k + 16 + 4)).drop u.built.cnt =
      Crc16.checked (msbBits i.infoBits k) ++ [false, false, false, false] := by
    show (msbBits (typeTwo u.pdu u.crc) (k + 16 + 4)).drop u.cnt = _
    rw [hpdu, hcrc, hcnt, msbBits_typeTwo]
    rfl
  rw [hcoded]
  refine ⟨rfl, rfl, hlfsr, ?_⟩
  rw [hbits]
  rfl

/-- A block that is started in any idle state ends as the layers say, whatever is on the inputs
meanwhile. -/
theorem block (hk : 0 < k) (hn : n = k + 20 + (k + 21) / 2) {s : SchEncoder k n}
    (hs : s.state = .idle) {i : SchInput k} (hstart : i.encodeStart = true)
    {is : List (SchInput k)} (hlen : is.length = k + 1 + (k + 20) + n + 1) :
    (exec (step a) s (i :: is)).state = .idle ∧
      (exec (step a) s (i :: is)).codedValid = true ∧
      msbBits (exec (step a) s (i :: is)).codedBits n =
        blockReference a n i.scrambleInit (msbBits i.infoBits k) := by
  obtain ⟨crcs, build, codes, scrams, last, rfl, hcrcs, hcodes, hscrams⟩ :
      ∃ crcs build codes scrams last, is = crcs ++ build :: codes ++ scrams ++ [last] ∧
        crcs.length = k ∧ codes.length = k + 20 ∧ scrams.length = n := by
    obtain ⟨us, lasts, rfl, hus, hlasts⟩ := split_length hlen
    obtain ⟨us, scrams, rfl, hus, hscrams⟩ := split_length hus
    obtain ⟨us, codes, rfl, hus, hcodes⟩ := split_length hus
    obtain ⟨crcs, builds, rfl, hcrcs, hbuilds⟩ := split_length hus
    obtain ⟨build, rfl⟩ := List.length_eq_one_iff.1 hbuilds
    obtain ⟨last, rfl⟩ := List.length_eq_one_iff.1 hlasts
    exact ⟨crcs, build, codes, scrams, last, by simp, hcrcs, hcodes, hscrams⟩
  obtain ⟨t, ht, hstate, hcnt, hlfsr, hconv⟩ := to_scram a hk hs hstart build hcrcs hcodes
  have htracks : MaskTracks i.scrambleInit t.mask t.lfsr t.cnt := by
    rw [hlfsr, hcnt]
    exact maskTracks_zero _ _
  have hlen' : scrams.length + t.cnt = n := by omega
  obtain ⟨hfinish, hword, hmask⟩ := scram_run a t hstate htracks hlen' (by omega)
  have hrun : exec (step a) s (i :: (crcs ++ build :: codes ++ scrams ++ [last])) =
      step a (exec (step a) t scrams) last := by
    rw [← List.cons_append, ← List.cons_append, exec_append, exec_append, ht]
    rfl
  have hlast : step a (exec (step a) t scrams) last = { exec (step a) t scrams with
      codedBits := interleave a (exec (step a) t scrams).conv.rcpc ^^^
        (exec (step a) t scrams).mask
      codedValid := true, state := .idle } := by
    simp only [step, hfinish]
  rw [hrun, hlast]
  refine ⟨rfl, rfl, ?_⟩
  have hbits := checked_length (msbBits i.infoBits k)
  rw [msbBits_length] at hbits
  have hfits : n = (Crc16.checked (msbBits i.infoBits k) ++ [false, false, false, false]).length +
      ((Crc16.checked (msbBits i.infoBits k) ++ [false, false, false, false]).length + 1) / 2 := by
    rw [hbits, hn]
  have hcode := ConvStage.rcpc_foldl hfits
  rw [← hconv] at hcode
  show msbBits (interleave a (exec (step a) t scrams).conv.rcpc ^^^
    (exec (step a) t scrams).mask) n = _
  rw [msbBits_xor, msbBits_interleave, hmask, hword, hcode]
  rfl

end SchEncoder

namespace Sb1Encoder

theorem crc_run (s : Sb1Encoder) (hs : s.state = .crc) {is : List Sb1Input}
    (hlen : is.length + s.cnt = 60) (hk : s.cnt < 60) :
    exec step s is = { s with
      state := .build, cnt := 0
      crc := ((msbBits s.pdu 60).drop s.cnt).foldl (fun crc b => crcNext b crc) s.crc } := by
  refine exec_phase (P := fun s => s.state = .crc)
    (R := fun s e : Sb1Encoder => e = { s with
      state := .build, cnt := 0
      crc := ((msbBits s.pdu 60).drop s.cnt).foldl (fun crc b => crcNext b crc) s.crc })
    (fun s i hs hnext => ?_) (fun s i hs hend => ?_) hs hk hlen
  · have hstep : step s i = { s with
        cnt := s.cnt + 1, crc := crcNext (s.pdu.getLsbD (59 - s.cnt)) s.crc } := by
      simp only [step, hs, if_neg (by omega : s.cnt ≠ 59)]
    rw [hstep]
    refine ⟨hs, rfl, fun e he => ?_⟩
    rw [he, msbBits_drop s.pdu (by omega : s.cnt < 60), List.foldl_cons]
  · have hstep : step s i = { s with
        state := .build, cnt := 0, crc := crcNext (s.pdu.getLsbD (59 - s.cnt)) s.crc } := by
      simp only [step, hs, if_pos (by omega : s.cnt = 59)]
    rw [hstep, msbBits_drop s.pdu (by omega), List.foldl_cons,
      List.drop_of_length_le (by rw [msbBits_length]; omega)]
    rfl

theorem rcpc_finish (s : Sb1Encoder) (hs : s.state = .rcpc) {is : List Sb1Input}
    (hlen : is.length + s.cnt = 80) (hk : s.cnt < 80) : (exec step s is).state = .finish := by
  refine exec_phase (P := fun s => s.state = .rcpc) (R := fun _ e => e.state = .finish)
    (fun s i hs hnext => ?_) (fun s i hs hend => ?_) hs hk hlen
  · have hstate : (step s i).state = .rcpc := by
      simp only [step, hs, if_neg (by omega : s.cnt ≠ 79)]
    have hcnt : (step s i).cnt = s.cnt + 1 := by
      simp only [step, hs, if_neg (by omega : s.cnt ≠ 79)]
    exact ⟨hstate, hcnt, fun e he => he⟩
  · simp only [step, hs, if_pos (by omega : s.cnt = 79)]

/-- The constant mask is the sequence of the initial value 3. -/
theorem scrambleMask_eq (init : BitVec 32) :
    msbBits (computeScrambleMask init) 120 = cellSequence 120 init := by
  have hfold : ∀ m ≤ 120, ∀ r, r = (List.range m).foldl
      (fun r i => (writeBit r.1 (119 - i) (lfsrFb r.2), lfsrNext r.2)) (0#120, init) →
      MaskTracks init r.1 r.2 m := by
    intro m hm
    induction m with
    | zero =>
      intro r hr
      rw [hr]
      exact maskTracks_zero init 0
    | succ m ih =>
      intro r hr
      rw [List.range_succ, List.foldl_concat] at hr
      rw [hr]
      exact (ih (by omega) _ rfl).step (by omega)
  exact (hfold 120 (Nat.le_refl _) _ rfl).full

/-- The same for the synchronization block: its information bits are put together when it
starts. -/
theorem block {s : Sb1Encoder} (hs : s.state = .idle) {i : Sb1Input}
    (hstart : i.encodeStart = true) {is : List Sb1Input} (hlen : is.length = 60 + 1 + 80 + 1) :
    (exec step s (i :: is)).state = .idle ∧ (exec step s (i :: is)).sb1Valid = true ∧
      msbBits (exec step s (i :: is)).sb1Coded 120 =
        blockReference 11 120 3 (msbBits i.syncPdu 60) := by
  obtain ⟨crcs, build, codes, last, rfl, hcrcs, hcodes⟩ :
      ∃ crcs build codes last, is = crcs ++ build :: codes ++ [last] ∧
        crcs.length = 60 ∧ codes.length = 80 := by
    obtain ⟨us, lasts, rfl, hus, hlasts⟩ := split_length hlen
    obtain ⟨us, codes, rfl, hus, hcodes⟩ := split_length hus
    obtain ⟨crcs, builds, rfl, hcrcs, hbuilds⟩ := split_length hus
    obtain ⟨build, rfl⟩ := List.length_eq_one_iff.1 hbuilds
    obtain ⟨last, rfl⟩ := List.length_eq_one_iff.1 hlasts
    exact ⟨crcs, build, codes, last, by simp, hcrcs, hcodes⟩
  have hbegin : step s i = { s with
      pdu := i.syncPdu, crc := 0xFFFF, cnt := 0, state := .crc } := by
    simp only [step, hs, hstart, if_true]
  have hlen' : crcs.length + (step s i).cnt = 60 := by
    rw [hbegin]
    exact hcrcs
  have hbuilt := crc_run (step s i) (by rw [hbegin]) hlen' (by rw [hbegin]; exact Nat.succ_pos 59)
  have hpdu : (exec step (step s i) crcs).pdu = i.syncPdu := by rw [hbuilt, hbegin]
  have hcrc : (exec step (step s i) crcs).crc = Crc16.run (msbBits i.syncPdu 60) := by
    rw [hbuilt, hbegin]
    rfl
  have hcnt : (exec step (step s i) crcs).cnt = 0 := by rw [hbuilt]
  have hstate : (exec step (step s i) crcs).state = .build := by rw [hbuilt]
  have hrun : exec step s (i :: (crcs ++ build :: codes ++ [last])) =
      step (exec step (exec step (step s i) crcs) (build :: codes)) last := by
    rw [exec, exec_append, exec_append]
    rfl
  generalize exec step (step s i) crcs = u at hpdu hcrc hcnt hstate hrun
  have hword := rcpc_word hstate hcnt build hcodes
  have hfinish : (exec step u (build :: codes)).state = .finish := by
    rw [exec, step_build hstate]
    exact rcpc_finish u.built rfl (by show codes.length + u.cnt = 80; omega)
      (by show u.cnt < 80; omega)
  rw [hpdu, hcrc, msbBits_typeTwo] at hword
  rw [hrun]
  generalize exec step u (build :: codes) = t at hword hfinish
  have hlast : step t last = { t with
      sb1Coded := interleave 11 t.conv.rcpc ^^^ computeScrambleMask 3
      sb1Valid := true, state := .idle } := by
    simp only [step, hfinish]
  rw [hlast]
  refine ⟨rfl, rfl, ?_⟩
  show msbBits (interleave 11 t.conv.rcpc ^^^ computeScrambleMask 3) 120 = _
  rw [msbBits_xor, msbBits_interleave, scrambleMask_eq, hword]
  rfl

end Sb1Encoder

/-! Different information bits, different blocks. -/

theorem tapSum_g1Taps (hist : List Bool) (b : Bool) : tapSum ConvStage.g1Taps (b :: hist) =
    (b ^^ (hist.getD 0 false ^^ hist.getD 3 false)) := by
  simp [tapSum, ConvStage.g1Taps]

theorem encode_inj {hist bs cs : List Bool} (hlen : bs.length = cs.length)
    (h : encode ConvStage.g1Taps ConvStage.g2Taps hist bs =
      encode ConvStage.g1Taps ConvStage.g2Taps hist cs) : bs = cs := by
  induction bs generalizing hist cs with
  | nil => exact (List.eq_nil_of_length_eq_zero hlen.symm).symm
  | cons b bs ih =>
    cases cs with
    | nil => exact absurd hlen (Nat.succ_ne_zero _)
    | cons c cs =>
      obtain ⟨hnow, hrest⟩ := List.append_inj h (by rw [emit_length, emit_length])
      have hsum : tapSum ConvStage.g1Taps (b :: hist) = tapSum ConvStage.g1Taps (c :: hist) := by
        rw [emit, emit] at hnow
        split at hnow
        · exact (List.cons.inj hnow).1
        · exact (List.cons.inj hnow).1
      rw [tapSum_g1Taps, tapSum_g1Taps] at hsum
      have hbit : b = c := Bool.xor_left_inj.1 hsum
      rw [hbit] at hrest ⊢
      rw [ih (Nat.succ.inj hlen) hrest]

theorem xor_scrambled_inj {xs ys zs : List Bool} (hx : xs.length = zs.length)
    (hy : ys.length = zs.length) (h : List.zipWith xor xs zs = List.zipWith xor ys zs) :
    xs = ys := by
  refine List.ext_getElem (hx.trans hy.symm) fun j hj hj' => ?_
  have hbit := congrArg (fun l : List Bool => l[j]?) h
  simp only [List.getElem?_zipWith, List.getElem?_eq_getElem hj, List.getElem?_eq_getElem hj',
    List.getElem?_eq_getElem (by omega : j < zs.length), Option.some.injEq] at hbit
  exact Bool.xor_left_inj.1 hbit

/-- The layers lose nothing. -/
theorem blockReference_inj {a k n : Nat} (hn : n = k + 20 + (k + 21) / 2) (hcop : n.Coprime a)
    (seed : BitVec 32) :
    Function.Injective fun pdu : BitVec k => blockReference a n seed (msbBits pdu k) := by
  intro pdu pdu' h
  have hcoded : ∀ p : BitVec k, (encode ConvStage.g1Taps ConvStage.g2Taps []
      (Crc16.checked (msbBits p k) ++ [false, false, false, false])).length = n := by
    intro p
    rw [encode_length, checked_length, msbBits_length, List.length_nil, hn]
    omega
  have hspread : ∀ p : BitVec k, Permuted a (encode ConvStage.g1Taps ConvStage.g2Taps []
      (Crc16.checked (msbBits p k) ++ [false, false, false, false]))
      (spread a false (encode ConvStage.g1Taps ConvStage.g2Taps []
        (Crc16.checked (msbBits p k) ++ [false, false, false, false]))) := fun p =>
    permuted_spread (by rw [hcoded]; exact hcop) false
  have hplain := xor_scrambled_inj ((hspread pdu).length.trans ((hcoded pdu).trans
    (cellSequence_length n seed).symm)) ((hspread pdu').length.trans ((hcoded pdu').trans
    (cellSequence_length n seed).symm)) h
  have hcode := (hspread pdu).collect_eq false
  rw [hplain, (hspread pdu').collect_eq false] at hcode
  have htype := encode_inj (by rw [checked_length, checked_length, msbBits_length, msbBits_length])
    hcode.symm
  have hinfo : msbBits pdu k = msbBits pdu' k := by
    rw [Crc16.checked, Crc16.checked, List.append_assoc, List.append_assoc] at htype
    exact (List.append_inj htype (by rw [msbBits_length, msbBits_length])).1
  exact BitVec.eq_of_getLsbD_eq fun j hj => msbBits_inj hinfo hj

/-- Each of the three encoders, started in any idle state, puts out what the layers say of the
information bits at the start, whatever is on its inputs meanwhile; and for a given seed the layers
lose nothing. -/
theorem block_encoders {sf : SchEncoder 268 432} (hsf : sf.state = .idle) {xf : SchInput 268}
    (hxf : xf.encodeStart = true) {isf : List (SchInput 268)} (hlf : isf.length = 990)
    {sd : SchEncoder 124 216} (hsd : sd.state = .idle) {xd : SchInput 124}
    (hxd : xd.encodeStart = true) {isd : List (SchInput 124)} (hld : isd.length = 486)
    {sb : Sb1Encoder} (hsb : sb.state = .idle) {xb : Sb1Input} (hxb : xb.encodeStart = true)
    {isb : List Sb1Input} (hlb : isb.length = 142) (seed : BitVec 32) :
    ((exec schFStep sf (xf :: isf)).state = .idle ∧
      (exec schFStep sf (xf :: isf)).codedValid = true ∧
      msbBits (exec schFStep sf (xf :: isf)).codedBits 432 =
        blockReference 103 432 xf.scrambleInit (msbBits xf.infoBits 268)) ∧
    ((exec schHdStep sd (xd :: isd)).state = .idle ∧
      (exec schHdStep sd (xd :: isd)).codedValid = true ∧
      msbBits (exec schHdStep sd (xd :: isd)).codedBits 216 =
        blockReference 101 216 xd.scrambleInit (msbBits xd.infoBits 124)) ∧
    ((exec Sb1Encoder.step sb (xb :: isb)).state = .idle ∧
      (exec Sb1Encoder.step sb (xb :: isb)).sb1Valid = true ∧
      msbBits (exec Sb1Encoder.step sb (xb :: isb)).sb1Coded 120 =
        blockReference 11 120 3 (msbBits xb.syncPdu 60)) ∧
    (Function.Injective fun pdu : BitVec 268 => blockReference 103 432 seed (msbBits pdu 268)) ∧
    (Function.Injective fun pdu : BitVec 124 => blockReference 101 216 seed (msbBits pdu 124)) ∧
    (Function.Injective fun pdu : BitVec 60 => blockReference 11 120 seed (msbBits pdu 60)) :=
  ⟨SchEncoder.block 103 (by decide) (by decide) hsf hxf hlf,
    SchEncoder.block 101 (by decide) (by decide) hsd hxd hld, Sb1Encoder.block hsb hxb hlb,
    blockReference_inj (by decide) (by decide) seed,
    blockReference_inj (by decide) (by decide) seed,
    blockReference_inj (by decide) (by decide) seed⟩

def syncRequest : Sb1Input := ⟨0, 0, 0, 0, false, false, 0, 0, 0, 0, false, true, 0, 0, 0⟩

/-- All three from reset, with a request in every cycle. -/
theorem block_encoders_zeros :
    ((exec schFStep (.reset 268 432) (⟨true, 0, 0⟩ :: List.replicate 990 ⟨true, 0, 0⟩)).state =
        .idle ∧
      (exec schFStep (.reset 268 432)
        (⟨true, 0, 0⟩ :: List.replicate 990 ⟨true, 0, 0⟩)).codedValid = true ∧
      msbBits (exec schFStep (.reset 268 432)
          (⟨true, 0, 0⟩ :: List.replicate 990 ⟨true, 0, 0⟩)).codedBits 432 =
        blockReference 103 432 0 (msbBits (0 : BitVec 268) 268)) ∧
    ((exec schHdStep (.reset 124 216) (⟨true, 0, 0⟩ :: List.replicate 486 ⟨true, 0, 0⟩)).state =
        .idle ∧
      (exec schHdStep (.reset 124 216)
        (⟨true, 0, 0⟩ :: List.replicate 486 ⟨true, 0, 0⟩)).codedValid = true ∧
      msbBits (exec schHdStep (.reset 124 216)
          (⟨true, 0, 0⟩ :: List.replicate 486 ⟨true, 0, 0⟩)).codedBits 216 =
        blockReference 101 216 0 (msbBits (0 : BitVec 124) 124)) ∧
    ((exec Sb1Encoder.step .reset (syncRequest :: List.replicate 142 syncRequest)).state = .idle ∧
      (exec Sb1Encoder.step .reset
        (syncRequest :: List.replicate 142 syncRequest)).sb1Valid = true ∧
      msbBits (exec Sb1Encoder.step .reset
          (syncRequest :: List.replicate 142 syncRequest)).sb1Coded 120 =
        blockReference 11 120 3 (msbBits syncRequest.syncPdu 60)) ∧
    (Function.Injective fun pdu : BitVec 268 => blockReference 103 432 0 (msbBits pdu 268)) ∧
    (Function.Injective fun pdu : BitVec 124 => blockReference 101 216 0 (msbBits pdu 124)) ∧
    (Function.Injective fun pdu : BitVec 60 => blockReference 11 120 0 (msbBits pdu 60)) :=
  block_encoders rfl rfl List.length_replicate rfl rfl List.length_replicate rfl rfl
    List.length_replicate 0

end TetraBs.Lmac
