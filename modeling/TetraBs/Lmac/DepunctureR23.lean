import Mathlib.Data.List.Induction
import TetraBs.Lib.Run

/-! `tetra_depuncture_r23`: three bits make two stages of the mother code, the positions that were
not sent filled with erasures. One step is one rising clock edge. -/
namespace TetraBs.Lmac
open TetraBs.Run

/-- The four soft values of a trellis stage. -/
structure SoftStage (w : Nat) where
  soft0 : BitVec w
  soft1 : BitVec w
  soft2 : BitVec w
  soft3 : BitVec w
deriving DecidableEq

structure DepunctureR23 (w : Nat) where
  inCnt : BitVec 2
  hold0 : BitVec w
  hold1 : BitVec w
  soft : SoftStage w
  outputValid : Bool
  blockDone : Bool
deriving DecidableEq

structure DepunctureInput where
  dataIn : Bool
  dataInValid : Bool
  blockStart : Bool
deriving DecidableEq

namespace DepunctureR23
variable {w : Nat}

def HARD_0 : BitVec w := 0
def HARD_1 : BitVec w := BitVec.allOnes w

/-- `{1'b1, {(SOFT_WIDTH-1){1'b0}}}`. -/
def ERASURE : BitVec w := BitVec.twoPow w (w - 1)

def reset : DepunctureR23 w :=
  ⟨0, ERASURE, ERASURE, ⟨ERASURE, ERASURE, ERASURE, ERASURE⟩, false, false⟩

def softIn (dataIn : Bool) : BitVec w := if dataIn then HARD_1 else HARD_0

/-- The later assignments of the block win. -/
def step (s : DepunctureR23 w) (i : DepunctureInput) : DepunctureR23 w where
  inCnt :=
    if s.inCnt = 3 then 0
    else if i.dataInValid then s.inCnt + 1
    else if i.blockStart then 0
    else s.inCnt
  hold0 := if i.dataInValid && (s.inCnt = 0 || s.inCnt = 2) then softIn i.dataIn else s.hold0
  hold1 := if i.dataInValid && s.inCnt = 1 then softIn i.dataIn else s.hold1
  soft :=
    if s.inCnt = 3 then ⟨s.hold0, ERASURE, ERASURE, ERASURE⟩
    else if i.dataInValid && s.inCnt = 2 then ⟨s.hold0, s.hold1, ERASURE, ERASURE⟩
    else s.soft
  outputValid := s.inCnt = 3 || (i.dataInValid && s.inCnt = 2)
  blockDone := false

/-- A cycle of a block, with a bit or without. -/
def feed (s : DepunctureR23 w) (c : Option Bool) : DepunctureR23 w :=
  s.step ⟨c.getD false, c.isSome, false⟩

def start (s : DepunctureR23 w) : DepunctureR23 w := s.step ⟨false, false, true⟩

/-- The stages that come out of a block. -/
def stages : DepunctureR23 w → List (Option Bool) → List (SoftStage w)
  | _, [] => []
  | s, c :: cs => (if (s.feed c).outputValid then [(s.feed c).soft] else []) ++ stages (s.feed c) cs

/-- The soft values that wait for the rest of their three bits. -/
def held (s : DepunctureR23 w) : List (BitVec w) :=
  if s.inCnt = 1 then [s.hold0] else if s.inCnt = 2 then [s.hold0, s.hold1] else []

/-! What the puncturing pattern asks for. -/

/-- Positions 0, 1 and 4 of every eight. -/
def placed : List (BitVec w) → List (SoftStage w)
  | a :: b :: c :: rest =>
    ⟨a, b, ERASURE, ERASURE⟩ :: ⟨c, ERASURE, ERASURE, ERASURE⟩ :: placed rest
  | _ => []

/-- The values after the last three. -/
def leftover : List (BitVec w) → List (BitVec w)
  | _ :: _ :: _ :: rest => leftover rest
  | rest => rest

/-- The bits of a block. -/
def bits (cs : List (Option Bool)) : List Bool := cs.filterMap id

/-- No bit comes in the cycle right after a third bit. -/
def Spaced (cs : List (Option Bool)) : Prop :=
  ∀ before b c after, cs = before ++ some b :: some c :: after → (bits before).length % 3 ≠ 2

/-! The unit places the bits that it takes. -/

/-- The bits that find a place: all but those in the cycle of a second stage. -/
def taken : DepunctureR23 w → List (Option Bool) → List Bool
  | _, [] => []
  | s, c :: cs => (if s.inCnt = 3 then [] else c.toList) ++ taken (s.feed c) cs

/-- The second stage, due in the next cycle. -/
def due (s : DepunctureR23 w) : List (SoftStage w) :=
  if s.inCnt = 3 then [⟨s.hold0, ERASURE, ERASURE, ERASURE⟩] else []

theorem inCnt_cases (s : DepunctureR23 w) :
    s.inCnt = 0 ∨ s.inCnt = 1 ∨ s.inCnt = 2 ∨ s.inCnt = 3 := by
  have hall : ∀ v : BitVec 2, v = 0 ∨ v = 1 ∨ v = 2 ∨ v = 3 := by decide
  exact hall s.inCnt

theorem feed_none_inCnt (s : DepunctureR23 w) : (s.feed none).inCnt ≠ 3 := by
  rcases s.inCnt_cases with h | h | h | h <;> simp [feed, step, h]

/-- What one cycle does to the stages and the values that wait. -/
theorem feed_placed (s : DepunctureR23 w) (c : Option Bool) (rest : List (BitVec w)) :
    due s ++ placed (held s ++ ((if s.inCnt = 3 then [] else c.toList).map softIn ++ rest)) =
      (if (s.feed c).outputValid then [(s.feed c).soft] else []) ++
        (due (s.feed c) ++ placed (held (s.feed c) ++ rest)) := by
  rcases s.inCnt_cases with h | h | h | h
  · cases c <;> simp [due, held, feed, step, h]
  · cases c <;> simp [due, held, feed, step, h]
  · cases c <;> simp [due, held, feed, step, h, placed]
  · cases c <;> simp [due, held, feed, step, h]

theorem feed_leftover (s : DepunctureR23 w) (c : Option Bool) (rest : List (BitVec w)) :
    leftover (held s ++ ((if s.inCnt = 3 then [] else c.toList).map softIn ++ rest)) =
      leftover (held (s.feed c) ++ rest) := by
  rcases s.inCnt_cases with h | h | h | h
  · cases c <;> simp [held, feed, step, h]
  · cases c <;> simp [held, feed, step, h]
  · cases c <;> simp [held, feed, step, h, leftover]
  · cases c <;> simp [held, feed, step, h]

theorem stages_taken (s : DepunctureR23 w) (cs : List (Option Bool)) :
    due s ++ placed (held s ++ (taken s cs).map softIn) =
      stages s cs ++ due (exec feed s cs) := by
  induction cs generalizing s with
  | nil =>
    have hnone : placed (held s) = [] := by
      rcases s.inCnt_cases with h | h | h | h <;> simp [held, h, placed]
    rw [taken, List.map_nil, List.append_nil, hnone, List.append_nil]
    rfl
  | cons c cs ih =>
    rw [taken, List.map_append, feed_placed, ih, stages, List.append_assoc]
    rfl

theorem held_taken (s : DepunctureR23 w) (cs : List (Option Bool)) :
    leftover (held s ++ (taken s cs).map softIn) = held (exec feed s cs) := by
  induction cs generalizing s with
  | nil =>
    rw [taken, List.map_nil, List.append_nil]
    rcases s.inCnt_cases with h | h | h | h <;> simp [exec, held, h, leftover]
  | cons c cs ih =>
    rw [taken, List.map_append, feed_leftover, ih]
    rfl

/-! Which bits are taken. -/

theorem taken_append (s : DepunctureR23 w) (cs ds : List (Option Bool)) :
    taken s (cs ++ ds) = taken s cs ++ taken (exec feed s cs) ds := by
  induction cs generalizing s with
  | nil => rfl
  | cons c cs ih =>
    rw [List.cons_append, taken, ih, taken, List.append_assoc]
    rfl

theorem bits_append (cs ds : List (Option Bool)) : bits (cs ++ ds) = bits cs ++ bits ds :=
  List.filterMap_append

theorem bits_cons (c : Option Bool) (cs : List (Option Bool)) :
    bits (c :: cs) = c.toList ++ bits cs := by
  cases c <;> rfl

theorem taken_sublist (s : DepunctureR23 w) (cs : List (Option Bool)) :
    (taken s cs).Sublist (bits cs) := by
  induction cs generalizing s with
  | nil => exact List.Sublist.slnil
  | cons c cs ih =>
    rw [taken, bits_cons]
    refine List.Sublist.append ?_ (ih _)
    split
    · exact List.nil_sublist _
    · exact List.Sublist.refl _

theorem feed_inCnt (s : DepunctureR23 w) (c : Option Bool) :
    ((s.feed c).inCnt.toNat % 3 =
      (s.inCnt.toNat + (if s.inCnt = 3 then [] else c.toList).length) % 3) ∧
    ((s.feed c).inCnt = 3 ↔ s.inCnt = 2 ∧ c.isSome) := by
  rcases s.inCnt_cases with h | h | h | h <;> cases c <;> simp [feed, step, h]

theorem exec_inCnt (s : DepunctureR23 w) (cs : List (Option Bool)) :
    (exec feed s cs).inCnt.toNat % 3 = (s.inCnt.toNat + (taken s cs).length) % 3 := by
  induction cs generalizing s with
  | nil => rfl
  | cons c cs ih =>
    have hstep := (s.feed_inCnt c).1
    rw [exec, ih, taken, List.length_append, Nat.add_mod, hstep]
    omega

/-- From the start of a block, all bits are taken if and only if none comes right after a third
one. -/
theorem taken_eq_iff {s : DepunctureR23 w} (hs : s.inCnt = 0) (cs : List (Option Bool)) :
    taken s cs = bits cs ↔ Spaced cs := by
  have hphase : ∀ ds, (exec feed s ds).inCnt.toNat % 3 = (taken s ds).length % 3 := by
    intro ds
    rw [exec_inCnt, hs]
    simp
  constructor
  · intro hall before b c after hcs hthird
    -- the bits before are all taken, so the unit is busy with the second stage when `c` comes
    have hcut : ∀ ds es, cs = ds ++ es → taken s ds = bits ds := by
      intro ds es hde
      have hlen := congrArg List.length hall
      rw [hde, taken_append, bits_append, List.length_append, List.length_append] at hlen
      have hfirst := (taken_sublist s ds).length_le
      have hrest := (taken_sublist (exec feed s ds) es).length_le
      exact (taken_sublist s ds).eq_of_length (by omega)
    have hbefore := hcut before _ hcs
    have hboth := hcut (before ++ [some b, some c]) after (by simp [hcs])
    have hcnt : (exec feed s before).inCnt = 2 := by
      have h := hphase before
      rw [hbefore, hthird] at h
      rcases (exec feed s before).inCnt_cases with h' | h' | h' | h' <;> rw [h'] at h
      · exact absurd h (by decide)
      · exact absurd h (by decide)
      · exact h'
      · exact absurd h (by decide)
    have hbusy : ((exec feed s before).feed (some b)).inCnt = 3 :=
      ((feed_inCnt _ _).2).2 ⟨hcnt, rfl⟩
    rw [taken_append, bits_append, hbefore, taken, taken, if_pos hbusy, hcnt] at hboth
    have hlost := congrArg List.length (List.append_cancel_left hboth)
    simp [taken, bits] at hlost
  · intro hspaced
    have hprefix : ∀ ds es, cs = ds ++ es → taken s ds = bits ds := by
      intro ds
      induction ds using List.reverseRecOn with
      | nil => exact fun _ _ => rfl
      | append_singleton ds c ih =>
        intro es hde
        have hds := ih (c :: es) (by simp [hde])
        rw [taken_append, bits_append, hds]
        congr 1
        cases c with
        | none => simp [taken, bits]
        | some c =>
          have hfree : (exec feed s ds).inCnt ≠ 3 := by
            intro hbusy
            -- the last bit before `c` was a third one
            cases ds using List.reverseRecOn with
            | nil =>
              rw [exec, hs] at hbusy
              exact absurd hbusy (by decide)
            | append_singleton before b =>
              rw [exec_snoc] at hbusy
              obtain ⟨hcnt, hsome⟩ := (feed_inCnt _ _).2.1 hbusy
              obtain ⟨b, rfl⟩ := Option.isSome_iff_exists.1 hsome
              have hbefore : taken s before = bits before := by
                rw [taken_append, bits_append, taken, if_neg (by rw [hcnt]; decide)] at hds
                exact List.append_cancel_right hds
              have hphase' := hphase before
              rw [hcnt, hbefore] at hphase'
              exact hspaced before b c es (by simp [hde]) hphase'.symm
          rw [taken, if_neg hfree]
          rfl
    exact hprefix cs [] (List.append_nil cs).symm

/-! The stages of a block. -/

theorem placed_length (l : List (BitVec w)) :
    3 * (placed l).length + 2 * (leftover l).length = 2 * l.length := by
  induction l using placed.induct with
  | case1 a b c rest ih =>
    rw [placed, leftover, List.length_cons, List.length_cons, List.length_cons, List.length_cons,
      List.length_cons]
    omega
  | case2 l hl =>
    rcases l with _ | ⟨a, _ | ⟨b, _ | ⟨c, l⟩⟩⟩
    · rfl
    · rfl
    · rfl
    · exact absurd rfl (hl a b c l)

/-- After the start of a block, whatever came before: the stages that are out one cycle after the
last cycle and the values that still wait are exactly the bits in their places, if and only if no
bit comes in the cycle right after a third one. -/
theorem stages_eq_placed_iff (s : DepunctureR23 w) (cs : List (Option Bool)) :
    (stages s.start (cs ++ [none]) = placed ((bits cs).map softIn) ∧
      held (exec feed s.start (cs ++ [none])) = leftover ((bits cs).map softIn)) ↔ Spaced cs := by
  have hstart : s.start.inCnt = 0 := by simp [start, step]
  have hbits : bits (cs ++ [none]) = bits cs := by
    rw [bits_append]
    exact List.append_nil _
  have htaken : taken s.start (cs ++ [none]) = taken s.start cs := by
    rw [taken_append]
    simp [taken]
  have hheld : held s.start = [] := by simp [held, hstart]
  have hdue : due s.start = [] := by simp [due, hstart]
  have hend : due (exec feed s.start (cs ++ [none])) = [] := by
    rw [exec_snoc, due, if_neg (feed_none_inCnt _)]
  have hstages := stages_taken s.start (cs ++ [none])
  have hwaits := held_taken s.start (cs ++ [none])
  rw [hdue, hheld, hend, List.nil_append, List.nil_append, List.append_nil, htaken] at hstages
  rw [hheld, List.nil_append, htaken] at hwaits
  rw [← hstages, ← hwaits, ← taken_eq_iff hstart]
  constructor
  · intro h
    obtain ⟨hplaced, hleft⟩ := h
    have htook := placed_length ((taken s.start cs).map (softIn (w := w)))
    have hcame := placed_length ((bits cs).map (softIn (w := w)))
    rw [hplaced, hleft, List.length_map] at htook
    rw [List.length_map] at hcame
    exact (taken_sublist s.start cs).eq_of_length (by omega)
  · intro h
    rw [h]
    exact ⟨rfl, rfl⟩

/-- Seven bits. -/
def seven : List (Option Bool) :=
  [some false, some false, some false, some true, some false, some true, some false]

/-- Back to back, the fourth bit is lost and those after it move up. -/
theorem back_to_back_loses_fourth :
    stages (start (reset : DepunctureR23 3)) (seven ++ [none]) =
        placed ([false, false, false, false, true, false].map softIn) ∧
      stages (start (reset : DepunctureR23 3)) (seven ++ [none]) ≠
        placed ((bits seven).map softIn) := by
  decide

end DepunctureR23
end TetraBs.Lmac
