import TetraBs.Lib.Crc
import TetraBs.Lmac.BlockReference
import TetraBs.Lmac.PunctureMargin
import TetraBs.Scripts.ChannelDecoder

/-! What the channel decoder makes of the blocks of the encoders: the nearest code word of whatever
is received, and the information bits of a block that was hit by scattered or bursty errors. -/
namespace TetraBs.DecodeDl
open TetraBs.Bits TetraBs.ConvCode TetraBs.ErrorMargin TetraBs.Hamming TetraBs.Lfsr TetraBs.Lmac
  TetraBs.MulPerm TetraBs.Relaxation TetraBs.Run

/-! The metric is the Hamming distance of the code bits. -/

/-- Where the code bit `j` stands in the mother code. -/
def motherPlace (j : Nat) : Nat := 8 * (j / 3) + [0, 1, 4].getD (j % 3) 0

theorem motherPlace_div (j : Nat) : motherPlace j / 8 = j / 3 ∧
    motherPlace j % 8 = [0, 1, 4].getD (j % 3) 0 := by
  have hsmall : ∀ r < 3, [0, 1, 4].getD r 0 < 8 := by decide
  have h := hsmall (j % 3) (Nat.mod_lt _ (by decide))
  rw [motherPlace]
  omega

theorem motherPlace_inj {i j : Nat} (h : motherPlace i = motherPlace j) : i = j := by
  have hone : ∀ r < 3, ∀ r' < 3, [0, 1, 4].getD r 0 = [0, 1, 4].getD r' 0 → r = r' := by decide
  have hdiv : i / 3 = j / 3 := by rw [← (motherPlace_div i).1, h, (motherPlace_div j).1]
  have hmod : i % 3 = j % 3 := hone _ (Nat.mod_lt _ (by decide)) _ (Nat.mod_lt _ (by decide)) (by
    rw [← (motherPlace_div i).2, h, (motherPlace_div j).2])
  omega

theorem puncturePlace (j : Nat) :
    8 * ((j + 1 - 1) / 3) + [0, 1, 2, 5].getD (j + 1 - 3 * ((j + 1 - 1) / 3)) 0 - 1 =
      motherPlace j := by
  have hnext : j + 1 - 3 * ((j + 1 - 1) / 3) = j % 3 + 1 := by omega
  have hlist : ∀ r < 3, [0, 1, 2, 5].getD (r + 1) 0 = [0, 1, 4].getD r 0 + 1 := by decide
  rw [hnext, hlist _ (Nat.mod_lt _ (by decide)), motherPlace, Nat.add_sub_cancel]
  omega

/-- The depunctured values: each code bit at its place, erasures everywhere else. -/
theorem depunctureR23_spec {bits : List Bool} {p : Nat} (hlen : bits.length = 3 * p) :
    (depunctureR23 bits (8 * p)).length = 8 * p ∧
      (∀ j < 3 * p,
        (depunctureR23 bits (8 * p))[motherPlace j]? = some (some (bits.getD j false))) ∧
      ∀ i < 8 * p, (∀ j < 3 * p, motherPlace j ≠ i) →
        (depunctureR23 bits (8 * p))[i]? = some none := by
  have hfold : ∀ m ≤ 3 * p, ∀ out : List (Option Bool), out = (List.range' 1 m).foldl
      (fun out j => out.set
        (8 * ((j - 1) / 3) + [0, 1, 2, 5].getD (j - 3 * ((j - 1) / 3)) 0 - 1)
        (some (bits.getD (j - 1) false))) (List.replicate (8 * p) none) →
      out.length = 8 * p ∧ (∀ j < m, out[motherPlace j]? = some (some (bits.getD j false))) ∧
        ∀ i < 8 * p, (∀ j < m, motherPlace j ≠ i) → out[i]? = some none := by
    intro m hm
    induction m with
    | zero =>
      rintro out rfl
      refine ⟨List.length_replicate, fun j hj => absurd hj (Nat.not_lt_zero j), fun i hi _ => ?_⟩
      exact List.getElem?_replicate_of_lt hi
    | succ m ih =>
      intro out hout
      obtain ⟨hl, hset, hrest⟩ := ih (by omega) _ rfl
      rw [List.range'_1_concat, List.foldl_concat, Nat.add_comm 1 m, puncturePlace,
        Nat.add_sub_cancel] at hout
      rw [hout]
      refine ⟨by rw [List.length_set, hl], fun j hj => ?_, fun i hi hne => ?_⟩
      · rw [List.getElem?_set, hl]
        by_cases hjm : j = m
        · have hplace : motherPlace m < 8 * p := by
            have h := (motherPlace_div m).1
            omega
          rw [hjm, if_pos rfl, if_pos hplace]
        · rw [if_neg fun he => hjm (motherPlace_inj he).symm]
          exact hset j (by omega)
      · rw [List.getElem?_set, if_neg (hne m (Nat.lt_succ_self m))]
        exact hrest i hi fun j hj => hne j (by omega)
  have h := hfold (3 * p) (Nat.le_refl _) _ rfl
  rw [← hlen] at h
  rw [← hlen]
  exact h

variable {type4 : List Bool} {p : Nat}

theorem depunctured_kept (hlen : type4.length = 3 * p) {j : Nat} (hj : j < 3 * p) :
    (depunctureR23 type4 (8 * p)).getD (motherPlace j) none = some (type4.getD j false) := by
  rw [List.getD_eq_getElem?_getD, (depunctureR23_spec hlen).2.1 j hj]
  rfl

theorem depunctured_erased (hlen : type4.length = 3 * p) {q r : Nat} (hq : q < p) (hr : r < 8)
    (hne : r ≠ 0 ∧ r ≠ 1 ∧ r ≠ 4) :
    (depunctureR23 type4 (8 * p)).getD (8 * q + r) none = none := by
  have hfree : ∀ j < 3 * p, motherPlace j ≠ 8 * q + r := by
    intro j _ he
    have hmod := (motherPlace_div j).2
    rw [he] at hmod
    have hcases : ∀ t < 3, [0, 1, 4].getD t 0 = 0 ∨ [0, 1, 4].getD t 0 = 1 ∨
        [0, 1, 4].getD t 0 = 4 := by decide
    have h := hcases (j % 3) (Nat.mod_lt _ (by decide))
    omega
  rw [List.getD_eq_getElem?_getD, (depunctureR23_spec hlen).2.2 _ (by omega) hfree]
  rfl

theorem parity5_taps : ∀ (s : BitVec 4) (b : Bool),
    parity5 (shifted s b &&& Gs.getD 0 0) = tapSum ConvStage.g1Taps (b :: lastBits s) ∧
      parity5 (shifted s b &&& Gs.getD 1 0) = tapSum ConvStage.g2Taps (b :: lastBits s) := by
  decide

theorem newState_eq : ∀ (odd : Bool) (s : BitVec 4) (b : Bool),
    (trellisNext (odd, s) b) = (!odd, newState s b) := by
  decide

theorem range_four : List.range 4 = [0, 1, 2, 3] := rfl

/-- Two code bits of an even place. -/
theorem edgeCost_even {rx : Nat → Option Bool} {r₀ r₁ : Bool} (h0 : rx 0 = some r₀)
    (h1 : rx 1 = some r₁) (h2 : rx 2 = none) (h3 : rx 3 = none) (s : BitVec 4) (b : Bool) :
    edgeCost rx s b = weight (add (trellisOut (false, s) b) [r₀, r₁]) := by
  rw [edgeCost, addMetric, range_four]
  simp only [List.foldl_cons, List.foldl_nil, h0, h1, h2, h3, (parity5_taps s b).1,
    (parity5_taps s b).2]
  simp [trellisOut, add]

/-- One code bit of an odd place. -/
theorem edgeCost_odd {rx : Nat → Option Bool} {r : Bool} (h0 : rx 0 = some r)
    (h1 : rx 1 = none) (h2 : rx 2 = none) (h3 : rx 3 = none) (s : BitVec 4) (b : Bool) :
    edgeCost rx s b = weight (add (trellisOut (true, s) b) [r]) := by
  rw [edgeCost, addMetric, range_four]
  simp only [List.foldl_cons, List.foldl_nil, h0, h1, h2, h3, (parity5_taps s b).1]
  simp [trellisOut, add]

/-- The code bits before the input bit `i`. -/
def codeBits (i : Nat) : Nat := 3 * (i / 2) + 2 * (i % 2)

theorem drop_getD {l : List Bool} {k : Nat} (hk : k < l.length) :
    l.drop k = l.getD k false :: l.drop (k + 1) := by
  rw [List.drop_eq_getElem_cons hk, List.getD_eq_getElem _ _ hk]

theorem cost_from (hlen : type4.length = 3 * p) {n i : Nat} (hi : i + n ≤ 2 * p) (s : BitVec 4)
    {bits : List Bool} (hbits : bits.length = n) :
    cost newState ((List.range' i n).map fun i =>
        edgeCost fun m => (depunctureR23 type4 (8 * p)).getD (4 * i + m) none) s bits =
      weight (add (word trellisOut trellisNext (decide (i % 2 = 1), s) bits)
        (type4.drop (codeBits i))) := by
  induction n generalizing i s bits with
  | zero =>
    rw [List.eq_nil_of_length_eq_zero hbits]
    rfl
  | succ n ih =>
    cases bits with
    | nil => exact absurd hbits (Nat.succ_ne_zero _).symm
    | cons b bs =>
      have hrest := ih (i := i + 1) (by omega) (newState s b) (Nat.succ.inj hbits)
      rw [List.range'_succ, List.map_cons, cost, hrest, word, newState_eq]
      obtain ⟨q, hq | hq⟩ : ∃ q, i = 2 * q ∨ i = 2 * q + 1 := ⟨i / 2, by omega⟩
      · have h0 : motherPlace (3 * q) = 4 * i + 0 := by
          rw [motherPlace, hq, (by omega : 3 * q % 3 = 0), (by omega : 3 * q / 3 = q)]
          simp only [List.getD_cons_zero]
          omega
        have h1 : motherPlace (3 * q + 1) = 4 * i + 1 := by
          rw [motherPlace, hq, (by omega : (3 * q + 1) % 3 = 1), (by omega : (3 * q + 1) / 3 = q)]
          simp only [List.getD_cons_succ, List.getD_cons_zero]
          omega
        have herased : ∀ m, m = 2 ∨ m = 3 →
            (depunctureR23 type4 (8 * p)).getD (4 * i + m) none = none := by
          intro m hm
          rw [(by omega : 4 * i + m = 8 * q + m)]
          exact depunctured_erased hlen (by omega) (by omega) (by omega)
        have hparity : decide (i % 2 = 1) = false := decide_eq_false (by omega)
        have hparity' : decide ((i + 1) % 2 = 1) = true := decide_eq_true (by omega)
        have hbefore : codeBits i = 3 * q := by
          rw [codeBits]
          omega
        have hafter : codeBits (i + 1) = 3 * q + 1 + 1 := by
          rw [codeBits]
          omega
        rw [edgeCost_even (by rw [← h0]; exact depunctured_kept hlen (by omega))
          (by rw [← h1]; exact depunctured_kept hlen (by omega)) (herased 2 (.inl rfl))
          (herased 3 (.inr rfl)), hparity, hparity', hbefore, hafter,
          drop_getD (by omega : 3 * q < type4.length),
          drop_getD (by omega : 3 * q + 1 < type4.length), ← weight_append]
        exact congrArg weight (add_append (a := trellisOut (false, s) b)
          (b := [type4.getD (3 * q) false, type4.getD (3 * q + 1) false]) rfl).symm
      · have h0 : motherPlace (3 * q + 2) = 4 * i + 0 := by
          rw [motherPlace, hq, (by omega : (3 * q + 2) % 3 = 2), (by omega : (3 * q + 2) / 3 = q)]
          simp only [List.getD_cons_succ, List.getD_cons_zero]
          omega
        have herased : ∀ m, m = 1 ∨ m = 2 ∨ m = 3 →
            (depunctureR23 type4 (8 * p)).getD (4 * i + m) none = none := by
          intro m hm
          rw [(by omega : 4 * i + m = 8 * q + (m + 4))]
          exact depunctured_erased hlen (by omega) (by omega) (by omega)
        have hparity : decide (i % 2 = 1) = true := decide_eq_true (by omega)
        have hparity' : decide ((i + 1) % 2 = 1) = false := decide_eq_false (by omega)
        have hbefore : codeBits i = 3 * q + 2 := by
          rw [codeBits]
          omega
        have hafter : codeBits (i + 1) = 3 * q + 2 + 1 := by
          rw [codeBits]
          omega
        rw [edgeCost_odd (by rw [← h0]; exact depunctured_kept hlen (by omega))
          (herased 1 (.inl rfl)) (herased 2 (.inr (.inl rfl))) (herased 3 (.inr (.inr rfl))),
          hparity, hparity', hbefore, hafter, drop_getD (by omega : 3 * q + 2 < type4.length),
          ← weight_append]
        exact congrArg weight (add_append (a := trellisOut (true, s) b)
          (b := [type4.getD (3 * q + 2) false]) rfl).symm

theorem cost_eq (hlen : type4.length = 3 * p) {bits : List Bool} (hbits : bits.length = 2 * p) :
    cost newState (costs (depunctureR23 type4 (8 * p)) (2 * p)) 0 bits =
      weight (add (encode ConvStage.g1Taps ConvStage.g2Taps [] bits) type4) := by
  have h := cost_from hlen (i := 0) (Nat.le_of_eq (Nat.zero_add _)) 0#4 hbits
  rw [costs, List.range_eq_range']
  refine h.trans ?_
  rw [← recalls_nil.word]
  rfl

/-! Paths that end in state 0 are the blocks with a tail. -/

theorem final_tail : ∀ s : BitVec 4, final newState s [false, false, false, false] = 0 := by decide

theorem final_eq_zero : ∀ (s : BitVec 4) (a b c d : Bool), final newState s [a, b, c, d] = 0 →
    a = false ∧ b = false ∧ c = false ∧ d = false := by
  decide

theorem final_append (s : BitVec 4) (us vs : List Bool) :
    final newState s (us ++ vs) = final newState (final newState s us) vs := List.foldl_append

theorem final_tailed (s : BitVec 4) (bits : List Bool) : final newState s (tailed bits) = 0 := by
  rw [final_append]
  exact final_tail _

theorem exists_tailed {bits : List Bool} {n : Nat} (hlen : bits.length = n + 4)
    (hzero : final newState 0 bits = 0) : ∃ us, us.length = n ∧ bits = tailed us := by
  obtain ⟨us, vs, rfl, hus, hvs⟩ := split_length hlen
  obtain ⟨a, vs, rfl⟩ := List.exists_cons_of_length_eq_add_one hvs
  obtain ⟨b, vs, rfl⟩ := List.exists_cons_of_length_eq_add_one (Nat.succ.inj hvs)
  obtain ⟨c, d, rfl⟩ := List.length_eq_two.1 (Nat.succ.inj (Nat.succ.inj hvs))
  rw [final_append] at hzero
  obtain ⟨rfl, rfl, rfl, rfl⟩ := final_eq_zero _ a b c d hzero
  exact ⟨us, hus, rfl⟩

theorem deinterleavePerm_length (bits : List Bool) (K a : Nat) :
    (deinterleavePerm bits K a).length = K := by
  rw [deinterleavePerm, List.length_map, List.length_range']

/-- Whatever is received, the decoder finds a block with its tail whose code word is nearest to it
of all. -/
theorem decodeChannel_nearest (type5Bits : List Bool) {K p : Nat} (a infoBitsLen : Nat)
    (hK : K = 3 * (p + 2)) (hsize : K < 10 ^ 8) :
    ∃ u, u.length = 2 * p ∧ (decodeChannel type5Bits K a infoBitsLen).decoded = tailed u ∧
      ∀ v : List Bool, v.length = 2 * p →
        weight (add (codeWord u) (deinterleavePerm type5Bits K a)) ≤
          weight (add (codeWord v) (deinterleavePerm type5Bits K a)) := by
  have hlen := deinterleavePerm_length type5Bits K a
  rw [hK] at hlen
  have hmother : ((deinterleavePerm type5Bits K a).length / 3) * 8 = 8 * (p + 2) := by
    rw [hK, hlen, Nat.mul_div_cancel_left _ (by decide), Nat.mul_comm]
  have htype4 : (deinterleavePerm type5Bits K a).length = 3 * (p + 2) := by
    rw [hK]
    exact hlen
  have hcoded := (depunctureR23_spec htype4).1
  have hquarter : 8 * (p + 2) / 4 = 2 * (p + 2) := by omega
  have hblock : ∀ v : List Bool, v.length = 2 * p → (tailed v).length = 2 * (p + 2) := by
    intro v hv
    rw [tailed, List.length_append, hv]
    rfl
  obtain ⟨hl, hf, hleast⟩ := viterbiR14_spec
    (depunctureR23 (deinterleavePerm type5Bits K a) (8 * (p + 2))) (by rw [hcoded, INF]; omega)
    ⟨tailed (List.replicate (2 * p) false), by
      rw [hcoded, hquarter]
      exact hblock _ List.length_replicate, final_tailed _ _⟩
  rw [hcoded, hquarter] at hl hleast
  obtain ⟨u, hu, htail⟩ := exists_tailed (n := 2 * p) (by omega) hf
  refine ⟨u, hu, ?_, fun v hv => ?_⟩
  · rw [decodeChannel]
    simp only [hmother]
    exact htail
  · have h := hleast (tailed v) (hblock v hv) (final_tailed _ _)
    rw [htail, cost_eq htype4 (hblock u hu),
      cost_eq htype4 (hblock v hv)] at h
    exact h

theorem decodeChannel_nearest_ones :
    ∃ u, u.length = 2 * 38 ∧
      (decodeChannel (List.replicate 120 true) 120 11 60).decoded = tailed u ∧
      ∀ v : List Bool, v.length = 2 * 38 →
        weight (add (codeWord u) (deinterleavePerm (List.replicate 120 true) 120 11)) ≤
          weight (add (codeWord v) (deinterleavePerm (List.replicate 120 true) 120 11)) :=
  decodeChannel_nearest (List.replicate 120 true) 11 60 rfl (by decide)

/-! What the layers of a block become on the way back. -/

theorem scramblerSeq_eq {seed : BitVec 32} (hseed : seed ≠ 0) (n : Nat) :
    scramblerSeq seed.toNat n = cellSequence n seed := by
  rw [scramblerSeq]
  simp only [BitVec.ofNat_toNat, BitVec.setWidth_eq]
  rw [if_neg (show ¬ seed = 0#32 from hseed)]
  rfl

theorem add_add_cancel {u v : List Bool} (h : u.length ≤ v.length) : add (add u v) v = u := by
  induction u generalizing v with
  | nil => rfl
  | cons b u ih =>
    cases v with
    | nil => exact absurd h (Nat.not_succ_le_zero _)
    | cons c v =>
      have hbit : ((b ^^ c) ^^ c) = b := by cases b <;> cases c <;> rfl
      rw [add_cons, add_cons, ih (Nat.le_of_succ_le_succ h), hbit]

theorem descramble_scrambled {seed : BitVec 32} (hseed : seed ≠ 0) {xs e : List Bool} {n : Nat}
    (hxs : xs.length = n) (he : e.length = n) :
    descramble (add (List.zipWith xor xs (cellSequence n seed)) e) seed.toNat = add xs e := by
  have hseq := cellSequence_length n seed
  have hlen : (add (List.zipWith xor xs (cellSequence n seed)) e).length = n := by
    rw [add_length, List.length_zipWith, hxs, he, hseq, Nat.min_self, Nat.min_self]
  rw [descramble, hlen, scramblerSeq_eq hseed]
  show add (add (add xs (cellSequence n seed)) e) (cellSequence n seed) = add xs e
  rw [add_assoc, add_comm e, ← add_assoc, add_add_cancel (by omega)]

theorem deinterleavePerm_eq (a : Nat) (bits : List Bool) :
    deinterleavePerm bits bits.length a = collect a false bits := by
  rw [deinterleavePerm, collect, List.range'_eq_map_range, List.map_map]
  refine List.map_congr_left fun i _ => ?_
  simp only [Function.comp_apply, Nat.add_sub_cancel_left, place, Nat.add_comm 1 i]

theorem deinterleavePerm_getElem? (a : Nat) {e : List Bool} {i : Nat} (hi : i < e.length) :
    (deinterleavePerm e e.length a)[i]? = some (e.getD (place a e.length i) false) := by
  rw [deinterleavePerm_eq, collect, List.getElem?_map, List.getElem?_range hi]
  rfl

theorem deinterleavePerm_add (a : Nat) {xs e : List Bool} (h : xs.length = e.length) :
    deinterleavePerm (add xs e) e.length a =
      add (deinterleavePerm xs e.length a) (deinterleavePerm e e.length a) := by
  refine List.ext_getElem (by simp [deinterleavePerm_length]) fun i hi hi' => ?_
  rw [deinterleavePerm_length] at hi
  have hlt : place a e.length i < e.length := place_lt (by omega)
  have hx := deinterleavePerm_getElem? a (e := xs) (i := i) (by omega)
  have he := deinterleavePerm_getElem? a (e := e) hi
  have hlen : (add xs e).length = e.length := by
    rw [add_length, h, Nat.min_self]
  have hxe := deinterleavePerm_getElem? a (e := add xs e) (i := i) (by omega)
  rw [hlen] at hxe
  rw [h] at hx
  rw [List.getElem?_eq_getElem (by rw [deinterleavePerm_length]; omega), Option.some.injEq]
    at hx he hxe
  rw [hxe, List.getD_eq_getElem _ _ (by omega)]
  simp only [add, List.getElem_zipWith, hx, he]
  rw [List.getD_eq_getElem _ _ (by omega), List.getD_eq_getElem _ _ hlt]

theorem deinterleavePerm_spread {a n : Nat} {xs : List Bool} (hxs : xs.length = n)
    (hcop : n.Coprime a) : deinterleavePerm (spread a false xs) n a = xs := by
  subst hxs
  have hperm := permuted_spread hcop false
  rw [← hperm.length, deinterleavePerm_eq]
  exact hperm.collect_eq false

theorem crc16CheckDll_checked (bits : List Bool) : crc16CheckDll (Crc16.checked bits) = true := by
  have hres : Crc16.CRC_RESIDUE.reverse = (0xF0B8 : BitVec 16) := by decide
  have hrun := Crc16.reverse_run (Crc16.checked bits)
  rw [Crc16.run_checked, hres] at hrun
  exact beq_iff_eq.2 hrun.symm

theorem checked_block_length (bits : List Bool) :
    (Crc16.checked bits).length = bits.length + 16 := by
  rw [Crc16.checked, List.length_append, msbBits_length]

/-- What the decoder is to say of a block of `info`. -/
def recovered (info : List Bool) : Decoded where
  crcOk := true
  info := info
  decoded := tailed (Crc16.checked info)

variable {a k n : Nat} {seed : BitVec 32} {info e : List Bool}

/-- A block is recovered if its errors are eleven places apart in the order of the code bits. -/
theorem block_recovered (hn : n = 3 * (p + 2)) (hk : k + 16 = 2 * p) (hcop : n.Coprime a)
    (hsize : n < 10 ^ 8) (hseed : seed ≠ 0) (hinfo : info.length = k) (he : e.length = n)
    (hsp : Spaced 11 (deinterleavePerm e n a)) :
    decodeChannel (descramble (add (blockReference a n seed info) e) seed.toNat) n a k =
      recovered info := by
  have hchecked := checked_block_length info
  have hword : (codeWord (Crc16.checked info)).length = n := by
    rw [codeWord_length, hchecked]
    omega
  have hspread : (spread a false (codeWord (Crc16.checked info))).length = n := by
    have hcoprime : (codeWord (Crc16.checked info)).length.Coprime a := by
      rw [hword]
      exact hcop
    rw [(permuted_spread hcoprime false).length, hword]
  have hair : deinterleavePerm
      (descramble (add (blockReference a n seed info) e) seed.toNat) n a =
      add (codeWord (Crc16.checked info)) (deinterleavePerm e n a) := by
    rw [blockReference, ← codeWord, descramble_scrambled hseed hspread he]
    subst he
    rw [deinterleavePerm_add a hspread, deinterleavePerm_spread hword hcop]
  obtain ⟨u, hu, hdecoded, hleast⟩ := decodeChannel_nearest
    (descramble (add (blockReference a n seed info) e) seed.toNat) a k hn hsize
  have hsame : u = Crc16.checked info := by
    by_contra hne
    have hown := hleast (Crc16.checked info) (by omega)
    have hfar := codeWord_nearest (u := Crc16.checked info) (v := u) (by omega)
      (fun he => hne he.symm) (by rw [deinterleavePerm_length, hword]) hsp
    have hzero : add (codeWord (Crc16.checked info))
        (add (codeWord (Crc16.checked info)) (deinterleavePerm e n a)) =
        deinterleavePerm e n a := by
      rw [add_comm, add_comm (codeWord _) (deinterleavePerm e n a),
        add_add_cancel (by rw [deinterleavePerm_length, hword])]
    rw [hair, hzero] at hown
    omega
  have htake : (tailed (Crc16.checked info)).take (k + 16) = Crc16.checked info := by
    rw [tailed, List.take_append_of_le_length (by omega), List.take_of_length_le (by omega)]
  rw [hsame] at hdecoded
  rw [decodeChannel] at hdecoded ⊢
  simp only at hdecoded
  simp only [hdecoded, htake, crc16CheckDll_checked, recovered]
  rw [Crc16.checked, ← hinfo, List.take_left]

/-! Bursts: bits that are close in the order of the code are far apart in the air. -/

/-- Places whose items are less than `s` apart are at least `l` apart. -/
theorem place_far {s l : Nat} (hfar : ∀ d < s, 0 < d → l ≤ a * d % n ∧ a * d % n + l ≤ n)
    {i j : Nat} (hij : i < j) (hjs : j < i + s) (hn : 0 < n) :
    place a n i + l ≤ place a n j ∨ place a n j + l ≤ place a n i := by
  obtain ⟨hlow, hhigh⟩ := hfar (j - i) (by omega) (by omega)
  have hi : place a n i < n := place_lt hn
  have hstep : place a n j = (place a n i + a * (j - i) % n) % n := by
    rw [place, place, ← Nat.add_mod, ← Nat.mul_add]
    congr 2
    omega
  generalize a * (j - i) % n = d at hlow hhigh hstep
  by_cases hwrap : place a n i + d < n
  · rw [Nat.mod_eq_of_lt hwrap] at hstep
    omega
  · rw [Nat.mod_eq_sub_mod (by omega), Nat.mod_eq_of_lt (by omega)] at hstep
    omega

theorem burst_span {l : Nat} (h : Crc.Burst l e) {i j : Nat} (hi : e.getD i false = true)
    (hj : e.getD j false = true) : j < i + l := by
  obtain ⟨b, u, c, rfl, hu⟩ := h
  have hin : ∀ i, (List.replicate b false ++ u ++ List.replicate c false).getD i false = true →
      b ≤ i ∧ i < b + u.length := by
    intro i hi
    constructor
    · by_contra hlt
      rw [List.append_assoc, List.getD_append _ _ _ _ (by simpa using hlt),
        List.getD_replicate _ (by omega)] at hi
      exact Bool.false_ne_true hi
    · by_contra hge
      rw [List.getD_append_right _ _ _ _ (by simp; omega), List.getD_eq_getElem?_getD,
        List.getElem?_replicate] at hi
      split at hi
      · exact Bool.false_ne_true hi
      · exact Bool.false_ne_true hi
  have h1 := hin i hi
  have h2 := hin j hj
  omega

/-- A burst of up to `l` bits in the air is spread out by the deinterleaver. -/
theorem burst_spaced {l : Nat} (he : e.length = n)
    (hfar : ∀ d < 11, 0 < d → l ≤ a * d % n ∧ a * d % n + l ≤ n) (h : Crc.Burst l e) :
    Spaced 11 (deinterleavePerm e n a) := by
  subst he
  intro i j hij hi hj
  have hjlt : j < e.length := by
    have hlt := (List.getElem?_eq_some_iff.1 hj).1
    rwa [deinterleavePerm_length] at hlt
  rw [deinterleavePerm_getElem? a (by omega), Option.some.injEq] at hi hj
  by_contra hclose
  have h1 := burst_span h hi hj
  have h2 := burst_span h hj hi
  have hplaces := place_far hfar hij (by omega) (by omega)
  omega

/-! The three encoders. -/

/-- A block in the air: what an encoder that was idle puts out of the information bits with which it
is started, and the parameters with which the block is read. -/
inductive SentBlock : (n a k : Nat) → BitVec 32 → (info air : List Bool) → Prop
  | schF {s : SchEncoder 268 432} (hs : s.state = .idle) {x : SchInput 268}
      (hx : x.encodeStart = true) {is : List (SchInput 268)} (hlen : is.length = 990) :
      SentBlock 432 103 268 x.scrambleInit (msbBits x.infoBits 268)
        (msbBits (exec schFStep s (x :: is)).codedBits 432)
  | schHd {s : SchEncoder 124 216} (hs : s.state = .idle) {x : SchInput 124}
      (hx : x.encodeStart = true) {is : List (SchInput 124)} (hlen : is.length = 486) :
      SentBlock 216 101 124 x.scrambleInit (msbBits x.infoBits 124)
        (msbBits (exec schHdStep s (x :: is)).codedBits 216)
  | sb1 {s : Sb1Encoder} (hs : s.state = .idle) {x : Sb1Input} (hx : x.encodeStart = true)
      {is : List Sb1Input} (hlen : is.length = 142) :
      SentBlock 120 11 60 3 (msbBits x.syncPdu 60)
        (msbBits (exec Sb1Encoder.step s (x :: is)).sb1Coded 120)

variable {air : List Bool}

theorem SentBlock.air_eq (h : SentBlock n a k seed info air) :
    air = blockReference a n seed info := by
  cases h with
  | schF hs hx hlen => exact (SchEncoder.block 103 (by decide) (by decide) hs hx hlen).2.2
  | schHd hs hx hlen => exact (SchEncoder.block 101 (by decide) (by decide) hs hx hlen).2.2
  | sb1 hs hx hlen => exact (Sb1Encoder.block hs hx hlen).2.2

/-- The sizes of a block. -/
structure BlockSizes (n a k p : Nat) : Prop where
  air : n = 3 * (p + 2)
  checked : k + 16 = 2 * p
  coprime : n.Coprime a
  small : n < 10 ^ 8

theorem SentBlock.sizes (h : SentBlock n a k seed info air) :
    info.length = k ∧ ∃ p, BlockSizes n a k p := by
  cases h with
  | schF => exact ⟨msbBits_length _ _, 142, rfl, rfl, by decide, by decide⟩
  | schHd => exact ⟨msbBits_length _ _, 70, rfl, rfl, by decide, by decide⟩
  | sb1 => exact ⟨msbBits_length _ _, 38, rfl, rfl, by decide, by decide⟩

/-- The block of an encoder is recovered with any number of errors that keep eleven places apart in
the order of the code bits. -/
theorem scattered_errors_corrected (h : SentBlock n a k seed info air) (hseed : seed ≠ 0)
    (he : e.length = n) (hsp : Spaced 11 (deinterleavePerm e n a)) :
    decodeChannel (descramble (add air e) seed.toNat) n a k = recovered info := by
  obtain ⟨hinfo, p, hp⟩ := h.sizes
  rw [h.air_eq]
  exact block_recovered hp.air hp.checked hp.coprime hp.small hseed hinfo he hsp

/-- The longest bursts that the interleaver of a block spreads out far enough. -/
def burstReach (n : Nat) : Nat := if n = 432 then 20 else if n = 216 then 14 else 10

theorem SentBlock.spread_far (h : SentBlock n a k seed info air) :
    ∀ d < 11, 0 < d → burstReach n ≤ a * d % n ∧ a * d % n + burstReach n ≤ n := by
  cases h with
  | schF => decide
  | schHd => decide
  | sb1 => decide

/-- And with any errors within 20 consecutive bits in the air of a full slot, 14 of a half slot and
10 of the synchronization block. -/
theorem burst_errors_corrected (h : SentBlock n a k seed info air) (hseed : seed ≠ 0)
    (he : e.length = n) (hburst : Crc.Burst (burstReach n) e) :
    decodeChannel (descramble (add air e) seed.toNat) n a k = recovered info := by
  obtain ⟨hinfo, p, hp⟩ := h.sizes
  rw [h.air_eq]
  exact block_recovered hp.air hp.checked hp.coprime hp.small hseed hinfo he
    (burst_spaced he h.spread_far hburst)

/-- Twenty wrong bits in the middle of a full slot of ones. -/
def onesSlot : SchInput 268 := ⟨true, BitVec.allOnes 268, 3⟩

def twentyErrors : List Bool :=
  List.replicate 100 false ++ List.replicate 20 true ++ List.replicate 312 false

theorem twentyErrors_length : twentyErrors.length = 432 := by
  rw [twentyErrors, List.length_append, List.length_append, List.length_replicate,
    List.length_replicate, List.length_replicate]

theorem twentyErrors_burst : Crc.Burst (burstReach 432) twentyErrors :=
  ⟨100, List.replicate 20 true, 312, rfl, Nat.le_of_eq List.length_replicate⟩

def onesAir : List Bool :=
  msbBits (exec schFStep (.reset 268 432)
    (onesSlot :: List.replicate 990 onesSlot)).codedBits 432

theorem sent_onesSlot :
    SentBlock 432 103 268 onesSlot.scrambleInit (msbBits onesSlot.infoBits 268) onesAir :=
  .schF (s := .reset 268 432) rfl (x := onesSlot) rfl (List.length_replicate (n := 990))

theorem burst_errors_corrected_onesSlot :
    decodeChannel (descramble (add onesAir twentyErrors) onesSlot.scrambleInit.toNat) 432 103 268 =
      recovered (msbBits onesSlot.infoBits 268) :=
  burst_errors_corrected sent_onesSlot (by decide) twentyErrors_length twentyErrors_burst

theorem scattered_errors_corrected_onesSlot :
    decodeChannel (descramble (add onesAir twentyErrors) onesSlot.scrambleInit.toNat) 432 103 268 =
      recovered (msbBits onesSlot.infoBits 268) :=
  scattered_errors_corrected sent_onesSlot (by decide) twentyErrors_length
    (burst_spaced twentyErrors_length sent_onesSlot.spread_far twentyErrors_burst)

end TetraBs.DecodeDl
