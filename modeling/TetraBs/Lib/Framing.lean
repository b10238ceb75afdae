import Mathlib.Data.List.Basic

/-! Frames on a stream: a header that gives the length of the body behind it. Both ends take any
number of items at a time. Nothing here is about TETRA. -/
namespace TetraBs.Framing
variable {α : Type*}

/-- One direction of a connection: what is still to be written, what is on the way, and what has
been read. -/
structure Wire (α : Type*) where
  left : List α := []
  flight : List α := []
  got : List α := []

namespace Wire

def write (n : Nat) (w : Wire α) : Wire α :=
  { w with left := w.left.drop n, flight := w.flight ++ w.left.take n }

def read (n : Nat) (w : Wire α) : Wire α :=
  { w with flight := w.flight.drop n, got := w.got ++ w.flight.take n }

/-- All that goes through, whatever part of it is where. -/
def whole (w : Wire α) : List α := w.got ++ w.flight ++ w.left

theorem whole_write (n : Nat) (w : Wire α) : (w.write n).whole = w.whole := by
  simp only [whole, write, List.append_assoc, List.take_append_drop]

theorem whole_read (n : Nat) (w : Wire α) : (w.read n).whole = w.whole := by
  rw [whole, whole, read]
  simp only [List.append_assoc]
  rw [← List.append_assoc (w.flight.take n), List.take_append_drop]

/-- How many times items are still to be taken up. -/
def weight (w : Wire α) : Nat := 2 * w.left.length + w.flight.length

theorem weight_write {n : Nat} {w : Wire α} (hn : 0 < n) (hle : n ≤ w.left.length) :
    (w.write n).weight < w.weight := by
  simp only [weight, write, List.length_drop, List.length_append, List.length_take]
  omega

theorem weight_read {n : Nat} {w : Wire α} (hn : 0 < n) (hle : n ≤ w.flight.length) :
    (w.read n).weight < w.weight := by
  simp only [weight, read, List.length_drop]
  omega

theorem weight_le (w : Wire α) : w.weight ≤ 2 * w.whole.length := by
  rw [weight, whole, List.length_append, List.length_append]
  omega

end Wire

/-- How much a header takes, the length it gives, and the lengths that are accepted. -/
structure Format (α : Type*) where
  header : Nat
  length : List α → Nat
  accepts : Nat → Bool

/-- What a reader makes of what it has read: it wants more, it refuses the length, or it has the
body. -/
inductive Reading (α : Type*) where
  | wants (n : Nat)
  | refused
  | frame (body : List α)

variable {f : Format α}

def Format.reading (f : Format α) (got : List α) : Reading α :=
  if got.length < f.header then .wants (f.header - got.length)
  else if f.accepts (f.length (got.take f.header)) = false then .refused
  else if got.length < f.header + f.length (got.take f.header) then
    .wants (f.header + f.length (got.take f.header) - got.length)
  else .frame (got.drop f.header)

/-- `frame` is `body` with a header in front that gives its length. -/
def Format.Frames (f : Format α) (frame body : List α) : Prop :=
  ∃ h : List α, frame = h ++ body ∧ h.length = f.header ∧ f.length h = body.length

variable {frame body got rest : List α}

/-- What a reader makes of the front of a frame. -/
theorem Format.Frames.reading_eq (h : f.Frames frame body) (hsplit : got ++ rest = frame) :
    f.reading got =
      if got.length < f.header then .wants (f.header - got.length)
      else if f.accepts body.length = false then .refused
      else if got.length < frame.length then .wants (frame.length - got.length)
      else .frame body := by
  obtain ⟨hd, rfl, hlen, hsize⟩ := h
  rw [Format.reading]
  by_cases hshort : got.length < f.header
  · rw [if_pos hshort, if_pos hshort]
  · have hhead : got.take f.header = hd := by
      have htake := congrArg (List.take f.header) hsplit
      rw [List.take_append_of_le_length (by omega)] at htake
      rw [htake, ← hlen, List.take_left]
    rw [if_neg hshort, if_neg hshort, hhead, hsize, List.length_append, hlen]
    by_cases hpart : got.length < f.header + body.length
    · rw [if_pos hpart, if_pos hpart]
    · have hnone : rest = [] := by
        have hcount := congrArg List.length hsplit
        rw [List.length_append, List.length_append] at hcount
        exact List.eq_nil_of_length_eq_zero (by omega)
      rw [if_neg hpart, if_neg hpart, ← hlen]
      rw [hnone, List.append_nil] at hsplit
      rw [hsplit, List.drop_left]

theorem Format.Frames.header_le (h : f.Frames frame body) : f.header ≤ frame.length := by
  obtain ⟨hd, rfl, hlen, -⟩ := h
  rw [List.length_append]
  omega

/-- The whole frame is read as its body, or its length is refused. -/
theorem Format.Frames.complete (h : f.Frames frame body) :
    f.reading frame = if f.accepts body.length = false then .refused else .frame body := by
  rw [h.reading_eq (List.append_nil frame), if_neg (Nat.not_lt.2 h.header_le),
    if_neg (Nat.lt_irrefl frame.length)]

/-- While a reader wants more there is more of the frame to come, and as much as it wants. What it
makes of a part otherwise, it makes of the whole. -/
theorem Format.Frames.progress (h : f.Frames frame body) (hsplit : got ++ rest = frame) :
    (∃ n, f.reading got = .wants n ∧ 0 < n ∧ n ≤ rest.length) ∨
      f.reading got = f.reading frame := by
  have hcount := congrArg List.length hsplit
  rw [List.length_append] at hcount
  have hle := h.header_le
  rw [h.complete, h.reading_eq hsplit]
  by_cases hshort : got.length < f.header
  · exact .inl ⟨_, if_pos hshort, by omega, by omega⟩
  rw [if_neg hshort]
  by_cases hok : f.accepts body.length = false
  · exact .inr (by rw [if_pos hok, if_pos hok])
  rw [if_neg hok]
  by_cases hpart : got.length < frame.length
  · exact .inl ⟨_, if_pos hpart, by omega, by omega⟩
  · exact .inr (by rw [if_neg hpart, if_neg hok])

/-- A body is read of the whole frame only. -/
theorem Format.Frames.frame_whole (h : f.Frames frame body) (hsplit : got ++ rest = frame)
    {b : List α} (hread : f.reading got = .frame b) : b = body ∧ got = frame := by
  have hcount := congrArg List.length hsplit
  rw [List.length_append] at hcount
  rw [h.reading_eq hsplit] at hread
  split at hread
  · cases hread
  split at hread
  · cases hread
  split at hread
  · cases hread
  · rename_i hfull
    have hnone : rest = [] := List.eq_nil_of_length_eq_zero (by omega)
    rw [hnone, List.append_nil] at hsplit
    exact ⟨(Reading.frame.inj hread).symm, hsplit⟩

end TetraBs.Framing
