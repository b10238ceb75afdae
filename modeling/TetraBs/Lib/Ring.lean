import Mathlib.Data.List.Basic
import Mathlib.Order.Nat

/-! Ring buffers over a fixed array: `head` is the next read index, `tail` the next write
index, `count` the number of items held. The items are the list they stand for. -/
namespace TetraBs
variable {α : Type*}

structure Ring (α : Type*) where
  slots : List α
  cap : Nat
  head : Nat
  tail : Nat
  count : Nat
  slots_len : slots.length = cap
  head_lt : head < cap
  tail_eq : tail = (head + count) % cap
  count_le : count ≤ cap

namespace Ring

/-- An index in the array, `k` steps after the head. -/
def index (r : Ring α) (k : Nat) : Nat := (r.head + k) % r.cap

def items [Inhabited α] (r : Ring α) : List α :=
  (List.range r.count).map fun k => r.slots.getD (r.index k) default

theorem wrap_eq {h k c : Nat} (hh : h < c) (hk : k ≤ c) :
    (h + k) % c = if h + k < c then h + k else h + k - c := by
  by_cases hlt : h + k < c
  · rw [if_pos hlt, Nat.mod_eq_of_lt hlt]
  · rw [if_neg hlt, Nat.mod_eq_sub_mod (Nat.le_of_not_lt hlt), Nat.mod_eq_of_lt (by omega)]

theorem index_lt (r : Ring α) (k : Nat) : r.index k < r.cap :=
  Nat.mod_lt _ (Nat.lt_of_le_of_lt (Nat.zero_le _) r.head_lt)

theorem index_inj (r : Ring α) {j k : Nat} (hj : j < r.cap) (hk : k < r.cap)
    (h : r.index j = r.index k) : j = k := by
  have hh := r.head_lt
  unfold index at h
  rw [wrap_eq hh (le_of_lt hj), wrap_eq hh (le_of_lt hk)] at h
  split at h <;> split at h <;> omega

/-- An empty ring over an array of default values. -/
def empty [Inhabited α] (cap : Nat) (h : 0 < cap) : Ring α where
  slots := List.replicate cap default
  cap := cap
  head := 0
  tail := 0
  count := 0
  slots_len := List.length_replicate
  head_lt := h
  tail_eq := (Nat.zero_mod cap).symm
  count_le := Nat.zero_le cap

theorem push_tail {h c n : Nat} : ((h + n) % c + 1) % c = (h + (n + 1)) % c := by
  rw [Nat.mod_add_mod, Nat.add_assoc]

/-- Write at `tail`; only meant for a ring that is not full. -/
def push (r : Ring α) (x : α) (h : r.count < r.cap) : Ring α where
  slots := r.slots.set r.tail x
  cap := r.cap
  head := r.head
  tail := (r.tail + 1) % r.cap
  count := r.count + 1
  slots_len := by rw [List.length_set, r.slots_len]
  head_lt := r.head_lt
  tail_eq := by rw [r.tail_eq, push_tail]
  count_le := h

theorem pop_tail {h c n : Nat} (hn : 0 < n) : (h + n) % c = ((h + 1) % c + (n - 1)) % c := by
  rw [Nat.mod_add_mod, (by omega : h + 1 + (n - 1) = h + n)]

/-- Advance `head`; only meant for a ring that is not empty. -/
def pop (r : Ring α) (h : 0 < r.count) : Ring α where
  slots := r.slots
  cap := r.cap
  head := (r.head + 1) % r.cap
  tail := r.tail
  count := r.count - 1
  slots_len := r.slots_len
  head_lt := Nat.mod_lt _ (Nat.lt_of_le_of_lt (Nat.zero_le _) r.head_lt)
  tail_eq := r.tail_eq.trans (pop_tail h)
  count_le := le_trans (Nat.sub_le _ _) r.count_le

variable [Inhabited α]

def peek (r : Ring α) : α := r.slots.getD r.head default

@[simp] theorem items_length (r : Ring α) : r.items.length = r.count := by
  simp [items]

@[simp] theorem items_empty (cap : Nat) (h : 0 < cap) : (empty cap h : Ring α).items = [] := rfl

theorem items_push (r : Ring α) (x : α) (h : r.count < r.cap) :
    (r.push x h).items = r.items ++ [x] := by
  have hold : ∀ k ∈ List.range r.count,
      (r.slots.set r.tail x).getD (r.index k) default = r.slots.getD (r.index k) default := by
    intro k hk
    have hkc := List.mem_range.1 hk
    have hne : r.tail ≠ r.index k := by
      rw [r.tail_eq]
      intro heq
      have := r.index_inj h (by omega) heq
      omega
    simp [List.getD_eq_getElem?_getD, List.getElem?_set_ne hne]
  have hnew : (r.slots.set r.tail x).getD (r.index r.count) default = x := by
    have hlt : r.tail < r.slots.length := by
      rw [r.slots_len, r.tail_eq]
      exact r.index_lt r.count
    have heq : r.index r.count = r.tail := r.tail_eq.symm
    rw [heq]
    simp [List.getD_eq_getElem?_getD, hlt]
  have hidx : (r.push x h).index = r.index := rfl
  simp only [items]
  rw [hidx]
  simp only [push]
  rw [List.range_succ, List.map_append, List.map_congr_left hold, List.map_singleton, hnew]

theorem items_pop (r : Ring α) (h : 0 < r.count) : r.items = r.peek :: (r.pop h).items := by
  have hidx : ∀ k, (r.pop h).index k = r.index (k + 1) := by
    intro k
    simp only [index, pop]
    rw [Nat.mod_add_mod, Nat.add_assoc, Nat.add_comm 1 k]
  have hcount : r.count = (r.pop h).count + 1 := by
    simp only [pop]
    omega
  have hpeek : r.index 0 = r.head := Nat.mod_eq_of_lt r.head_lt
  simp only [items, hidx]
  rw [hcount, List.range_succ_eq_map, List.map_cons, List.map_map, hpeek]
  rfl

theorem items_eq_nil (r : Ring α) : r.items = [] ↔ r.count = 0 := by
  rw [← List.length_eq_zero_iff, items_length]

end Ring
end TetraBs
