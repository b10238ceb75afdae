import Mathlib.Algebra.Group.Nat.Defs
import Mathlib.Data.List.Basic
import Mathlib.Logic.Function.Basic
import Mathlib.Order.Nat

/-! Flat memory as a list: reading and writing a stretch of it. Nothing here is about TETRA. -/
namespace TetraBs.Memory
variable {α : Type*}

def readAt (mem : List α) (addr n : Nat) : List α := (mem.drop addr).take n

def writeAt (mem : List α) (addr : Nat) (xs : List α) : List α :=
  mem.take addr ++ xs ++ mem.drop (addr + xs.length)

theorem writeAt_length {mem xs : List α} {addr : Nat} (h : addr + xs.length ≤ mem.length) :
    (writeAt mem addr xs).length = mem.length := by
  rw [writeAt, List.length_append, List.length_append, List.length_take, List.length_drop]
  omega

theorem readAt_writeAt {mem xs : List α} {addr : Nat} (h : addr + xs.length ≤ mem.length) :
    readAt (writeAt mem addr xs) addr xs.length = xs := by
  have hlen : (mem.take addr).length = addr := by
    rw [List.length_take]
    omega
  rw [readAt, writeAt, List.append_assoc, List.drop_append_of_le_length (Nat.le_of_eq hlen.symm),
    List.drop_of_length_le (Nat.le_of_eq hlen), List.nil_append]
  exact List.take_left

/-- What is written elsewhere is not seen. -/
theorem readAt_writeAt_apart {mem xs : List α} {addr b n : Nat} (h : b + xs.length ≤ mem.length)
    (hd : addr + n ≤ b ∨ b + xs.length ≤ addr) :
    readAt (writeAt mem b xs) addr n = readAt mem addr n := by
  have hlen : (mem.take b).length = b := by
    rw [List.length_take]
    omega
  apply List.ext_getElem?
  intro k
  rw [readAt, readAt, List.getElem?_take, List.getElem?_take]
  by_cases hk : k < n
  · rw [if_pos hk, if_pos hk, List.getElem?_drop, List.getElem?_drop, writeAt]
    cases hd with
    | inl hbefore =>
      have hlt : addr + k < b := by omega
      rw [List.append_assoc, List.getElem?_append_left (by rw [hlen]; exact hlt),
        List.getElem?_take, if_pos hlt]
    | inr hafter =>
      have hge : (mem.take b ++ xs).length ≤ addr + k := by
        rw [List.length_append, hlen]
        omega
      rw [List.getElem?_append_right hge, List.getElem?_drop, List.length_append, hlen]
      congr 1
      omega
  · rw [if_neg hk, if_neg hk]

theorem writeAt_nil (mem : List α) (addr : Nat) : writeAt mem addr [] = mem := by
  rw [writeAt, List.append_nil, List.length_nil, Nat.add_zero, List.take_append_drop]

theorem readAt_zero (mem : List α) (addr : Nat) : readAt mem addr 0 = [] := List.take_zero

/-- Blocks of one size do not overlap. -/
theorem blocks_apart {m i j n k : Nat} (hij : i ≠ j) (hn : n ≤ m) (hk : k ≤ m) :
    i * m + n ≤ j * m ∨ j * m + k ≤ i * m := by
  cases Nat.lt_or_gt_of_ne hij with
  | inl hlt =>
    have hle : (i + 1) * m ≤ j * m := Nat.mul_le_mul_right m hlt
    rw [Nat.succ_mul] at hle
    omega
  | inr hgt =>
    have hle : (j + 1) * m ≤ i * m := Nat.mul_le_mul_right m hgt
    rw [Nat.succ_mul] at hle
    omega

theorem block_end {m i n k : Nat} (hi : i < k) (hn : n ≤ m) : i * m + n ≤ k * m := by
  have hle : (i + 1) * m ≤ k * m := Nat.mul_le_mul_right m hi
  rw [Nat.succ_mul] at hle
  omega

end TetraBs.Memory

/-! The items that a stream brings, and a memory of `2 ^ a` words that records them: every new item
overwrites the oldest. Nothing here is about TETRA. -/
namespace TetraBs.History
variable {ι α : Type*} {a : Nat}

/-- The items of the first `t` cycles. -/
def taken (item : ι → Option α) (inp : Nat → ι) (t : Nat) : List α :=
  (List.range t).filterMap fun v => item (inp v)

section
variable (item : ι → Option α) (inp : Nat → ι)

theorem taken_succ (t : Nat) :
    taken item inp (t + 1) = taken item inp t ++ (item (inp t)).toList := by
  have hone : [t].filterMap (fun v => item (inp v)) = (item (inp t)).toList := by
    cases h : item (inp t) with
    | none => exact List.filterMap_cons_none h
    | some x => exact List.filterMap_cons_some h
  rw [taken, List.range_succ, List.filterMap_append, hone, taken]

theorem taken_grows {t u : Nat} (h : t ≤ u) : taken item inp t <+: taken item inp u := by
  induction u, h using Nat.le_induction with
  | base => exact ⟨[], List.append_nil _⟩
  | succ u _ ih =>
    rw [taken_succ]
    exact ih.trans (List.prefix_append _ _)

/-- A cycle brings one item at most. -/
theorem taken_length_succ (t : Nat) :
    (taken item inp (t + 1)).length ≤ (taken item inp t).length + 1 := by
  rw [taken_succ, List.length_append]
  exact Nat.add_le_add_left Option.length_toList_le _

end

/-- The memory holds the newest `2 ^ a` items of `xs`, each at its number. -/
def Records (mem : BitVec a → α) (xs : List α) : Prop :=
  ∀ (j : Nat) (h : j < xs.length), xs.length ≤ j + 2 ^ a → mem (BitVec.ofNat a j) = xs[j]

theorem records_nil (mem : BitVec a → α) : Records mem [] := fun _ h => absurd h (Nat.not_lt_zero _)

theorem Records.push {mem : BitVec a → α} {xs : List α} (h : Records mem xs) (x : α) :
    Records (Function.update mem (BitVec.ofNat a xs.length) x) (xs ++ [x]) := by
  intro j hj hnew
  rw [List.length_append, List.length_singleton] at hj hnew
  by_cases hlast : j = xs.length
  · subst hlast
    rw [Function.update_self, List.getElem_append_right (Nat.le_refl _)]
    simp
  · have hlt : j < xs.length := by omega
    have hne : BitVec.ofNat a j ≠ BitVec.ofNat a xs.length := by
      intro heq
      have hmod := congrArg BitVec.toNat heq
      rw [BitVec.toNat_ofNat, BitVec.toNat_ofNat] at hmod
      have hdvd := Nat.dvd_of_mod_eq_zero (Nat.sub_mod_eq_zero_of_mod_eq hmod.symm)
      have hle := Nat.le_of_dvd (by omega) hdvd
      omega
    rw [Function.update_of_ne hne, List.getElem_append_left hlt]
    exact h j hlt (by omega)

end TetraBs.History
