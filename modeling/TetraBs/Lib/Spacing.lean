import Mathlib.Data.Bool.Basic
import Mathlib.Data.List.TakeWhile

/-! A recurring event, and a lock that is taken when its spacings fit and given up when it stays
away for too long. Time is counted in symbols, of which a cycle brings one or none. Nothing here is
about TETRA. -/
namespace TetraBs.Spacing

/-- The symbols since the last event, whether there was one, and the spacings, the newest first. -/
structure Record where
  since : Nat
  seen : Bool
  gaps : List Nat

namespace Record

def empty : Record := ⟨0, false, []⟩

/-- A symbol, which may bring the event. -/
def next (h : Record) (hit : Bool) : Record :=
  if hit then ⟨0, true, if h.seen then (h.since + 1) :: h.gaps else h.gaps⟩
  else { h with since := h.since + 1 }

end Record

/-- After the first `t` cycles. -/
def record (ev : Nat → Option Bool) : Nat → Record
  | 0 => .empty
  | t + 1 => match ev t with
    | none => record ev t
    | some hit => (record ev t).next hit

/-- Which spacings are good, how many of them in a row take the lock, and how many symbols without
the event it survives. -/
structure Rule where
  good : Nat → Bool
  count : Nat
  limit : Nat

variable {ev : Nat → Option Bool} {r q : Rule} {h : Record} {b hit : Bool} {t n : Nat}

theorem record_none (hev : ev t = none) : record ev (t + 1) = record ev t := by
  rw [record, hev]

theorem record_some (hev : ev t = some hit) : record ev (t + 1) = (record ev t).next hit := by
  rw [record, hev]

/-- Without the event only the count goes on. -/
theorem record_quiet (hev : ∀ i < n, ev (t + i) = some false) :
    record ev (t + n) = { record ev t with since := (record ev t).since + n } := by
  induction n with
  | zero => rfl
  | succ n ih =>
    rw [← Nat.add_assoc, record_some (hev n (Nat.lt_succ_self n)),
      ih fun i hi => hev i (Nat.lt_succ_of_lt hi)]
    rfl

namespace Rule

/-- The newest spacings that are good one after the other. -/
def recent (r : Rule) (gaps : List Nat) : Nat := (gaps.takeWhile r.good).length

/-- The lock after a symbol, `b` before it. -/
def next (r : Rule) (h : Record) (b hit : Bool) : Bool :=
  if hit then b || r.count ≤ r.recent (h.next true).gaps
  else b && h.since + 1 ≤ r.limit

/-- The lock after the first `t` cycles. -/
def locked (r : Rule) (ev : Nat → Option Bool) : Nat → Bool
  | 0 => false
  | t + 1 => match ev t with
    | none => r.locked ev t
    | some hit => r.next (record ev t) (r.locked ev t) hit

/-- Two rules decide alike about a symbol. -/
def Agrees (r q : Rule) (h : Record) (b hit : Bool) : Prop :=
  if hit then b = false →
    (r.count ≤ r.recent (h.next true).gaps ↔ q.count ≤ q.recent (h.next true).gaps)
  else b = true → (h.since + 1 ≤ r.limit ↔ h.since + 1 ≤ q.limit)

theorem locked_none (hev : ev t = none) : r.locked ev (t + 1) = r.locked ev t := by
  rw [Rule.locked, hev]

theorem locked_some (hev : ev t = some hit) :
    r.locked ev (t + 1) = r.next (record ev t) (r.locked ev t) hit := by
  rw [Rule.locked, hev]

theorem next_eq_iff : r.next h b hit = q.next h b hit ↔ r.Agrees q h b hit := by
  cases hit with
  | true =>
    rw [next, next, if_pos rfl, if_pos rfl, Agrees, if_pos rfl]
    cases b with
    | true => exact ⟨fun _ hno => Bool.noConfusion hno, fun _ => rfl⟩
    | false =>
      rw [Bool.false_or, Bool.false_or, decide_eq_decide]
      exact ⟨fun heq _ => heq, fun heq => heq rfl⟩
  | false =>
    rw [next, next, if_neg Bool.false_ne_true, if_neg Bool.false_ne_true, Agrees,
      if_neg Bool.false_ne_true]
    cases b with
    | true =>
      rw [Bool.true_and, Bool.true_and, decide_eq_decide]
      exact ⟨fun heq _ => heq, fun heq => heq rfl⟩
    | false => exact ⟨fun _ hno => Bool.noConfusion hno, fun _ => rfl⟩

/-- Two rules give the same lock over a run exactly if they decide alike about every symbol. -/
theorem locked_eq_iff : (∀ t, r.locked ev t = q.locked ev t) ↔
    ∀ t hit, ev t = some hit → r.Agrees q (record ev t) (r.locked ev t) hit := by
  constructor
  · intro heq t hit hev
    have hnext := heq (t + 1)
    rw [locked_some hev, locked_some hev, ← heq t] at hnext
    exact next_eq_iff.1 hnext
  · intro hagree t
    induction t with
    | zero => rfl
    | succ t ih =>
      cases hev : ev t with
      | none => rw [locked_none hev, locked_none hev, ih]
      | some hit =>
        rw [locked_some hev, locked_some hev, ← ih]
        exact next_eq_iff.2 (hagree t hit hev)

theorem le_recent_iff {gaps : List Nat} :
    n ≤ r.recent gaps ↔ n ≤ gaps.length ∧ ∀ g ∈ gaps.take n, r.good g = true := by
  rw [recent]
  induction gaps generalizing n with
  | nil =>
    rw [List.takeWhile_nil, List.take_nil]
    exact ⟨fun hn => ⟨hn, fun g hg => absurd hg List.not_mem_nil⟩, And.left⟩
  | cons g gaps ih =>
    cases n with
    | zero =>
      exact ⟨fun _ => ⟨Nat.zero_le _, fun g hg => absurd hg List.not_mem_nil⟩,
        fun _ => Nat.zero_le _⟩
    | succ n =>
      rw [List.take_succ_cons, List.forall_mem_cons, List.length_cons, Nat.succ_le_succ_iff]
      cases hg : r.good g with
      | true =>
        rw [List.takeWhile_cons_of_pos hg, List.length_cons, Nat.succ_le_succ_iff, ih]
        exact ⟨fun hn => ⟨hn.1, rfl, hn.2⟩, fun hn => ⟨hn.1, hn.2.2⟩⟩
      | false =>
        rw [List.takeWhile_cons_of_neg (Bool.eq_false_iff.1 hg)]
        exact ⟨fun hn => absurd hn (Nat.not_succ_le_zero n), fun hn => Bool.noConfusion hn.2.1⟩

/-- The lock does not outlive its limit. -/
theorem since_le (hin : r.locked ev t = true) : (record ev t).since ≤ r.limit := by
  induction t with
  | zero => exact Nat.zero_le _
  | succ t ih =>
    cases hev : ev t with
    | none =>
      rw [locked_none hev] at hin
      rw [record_none hev]
      exact ih hin
    | some hit =>
      cases hit with
      | true =>
        rw [record_some hev]
        exact Nat.zero_le _
      | false =>
        rw [locked_some hev, next, if_neg Bool.false_ne_true, Bool.and_eq_true] at hin
        rw [record_some hev]
        exact of_decide_eq_true hin.2

/-- The lock is taken with the event only. -/
theorem event_of_taken (hout : r.locked ev t = false) (hin : r.locked ev (t + 1) = true) :
    ev t = some true := by
  cases hev : ev t with
  | none =>
    rw [locked_none hev, hout] at hin
    exact Bool.noConfusion hin
  | some hit =>
    cases hit with
    | true => rfl
    | false =>
      rw [locked_some hev, hout, next, if_neg Bool.false_ne_true, Bool.false_and] at hin
      exact Bool.noConfusion hin

theorem locked_quiet (hev : ∀ i < n, ev (t + i) = some false) (hout : r.locked ev t = false) :
    r.locked ev (t + n) = false := by
  induction n with
  | zero => exact hout
  | succ n ih =>
    rw [← Nat.add_assoc, locked_some (hev n (Nat.lt_succ_self n)),
      ih fun i hi => hev i (Nat.lt_succ_of_lt hi)]
    rfl

/-- Where events never come in two cycles that follow each other, a lock lasts two cycles. -/
theorem taken_stays (hapart : ∀ t, ev t = some true → ev (t + 1) ≠ some true)
    (hlimit : 1 ≤ r.limit) (hout : r.locked ev t = false) (hin : r.locked ev (t + 1) = true) :
    r.locked ev (t + 2) = true := by
  have hevent := event_of_taken hout hin
  cases hev : ev (t + 1) with
  | none => rw [locked_none hev, hin]
  | some hit =>
    cases hit with
    | true => exact absurd hev (hapart t hevent)
    | false =>
      have hsince : (record ev (t + 1)).since = 0 := by
        rw [record_some hevent]
        rfl
      rw [locked_some hev, hin, next, if_neg Bool.false_ne_true, hsince, Bool.true_and]
      exact decide_eq_true hlimit

/-- So the lock of a cycle shows in one of the two pairs of cycles it belongs to. -/
theorem locked_iff_pairs (hapart : ∀ t, ev t = some true → ev (t + 1) ≠ some true)
    (hlimit : 1 ≤ r.limit) : r.locked ev (t + 1) = true ↔
      (r.locked ev t && r.locked ev (t + 1)) = true ∨
        (r.locked ev (t + 1) && r.locked ev (t + 2)) = true := by
  rw [Bool.and_eq_true, Bool.and_eq_true]
  constructor
  · intro hin
    cases hbefore : r.locked ev t with
    | true => exact .inl ⟨rfl, hin⟩
    | false => exact .inr ⟨hin, taken_stays hapart hlimit hbefore hin⟩
  · rintro (hpair | hpair)
    · exact hpair.2
    · exact hpair.1

theorem locked_eq_iff_pairs (hapart : ∀ t, ev t = some true → ev (t + 1) ≠ some true)
    (hr : 1 ≤ r.limit) (hq : 1 ≤ q.limit) : (∀ t, r.locked ev t = q.locked ev t) ↔
      ∀ t, (r.locked ev t && r.locked ev (t + 1)) = (q.locked ev t && q.locked ev (t + 1)) := by
  constructor
  · intro heq t
    rw [heq t, heq (t + 1)]
  · intro hpairs t
    cases t with
    | zero => rfl
    | succ t =>
      rw [Bool.eq_iff_iff, locked_iff_pairs hapart hr, locked_iff_pairs hapart hq, hpairs t,
        hpairs (t + 1)]

end Rule
end TetraBs.Spacing
