import Mathlib.Data.List.Induction
import TetraBs.Lib.Pacing
import TetraBs.Lib.Serializer

/-! Machines that take a request now and then and are busy with it for a while. Seen from its
requests alone such a machine is a smaller one. Nothing here is about TETRA. -/
namespace TetraBs.Requests
open TetraBs.Pacing TetraBs.Serial
variable {α β ω ε : Type*}

/-- `r` is ready for a request whenever `small` is between two of them: until one comes it stays
ready and puts nothing out, and `d` inputs after it the answer is out. -/
structure Serves (r : Reader α ω ε) (strobe : ω → Bool) (d : Nat) (small : Reader β ω ε)
    (Ready : β → α → Prop) : Prop where
  idle {b : β} {a : α} {w : ω} : Ready b a → strobe w = false →
    r.out a w = [] ∧ Ready b (r.next a w)
  busy {b : β} {a : α} {w : ω} {ws : List ω} : Ready b a → strobe w = true → ws.length = d →
    (∀ v ∈ ws, strobe v = false) →
      r.outputs a (w :: ws) = small.out b w ∧ Ready (small.next b w) (r.after a (w :: ws))

variable {r : Reader α ω ε} {strobe : ω → Bool} {d : Nat} {small : Reader β ω ε}
  {Ready : β → α → Prop}

theorem Serves.quiet (h : Serves r strobe d small Ready) {b : β} {a : α} (ha : Ready b a)
    {ws : List ω} (hws : ∀ w ∈ ws, strobe w = false) :
    r.outputs a ws = [] ∧ Ready b (r.after a ws) := by
  induction ws generalizing a with
  | nil => exact ⟨rfl, ha⟩
  | cons w ws ih =>
    obtain ⟨hout, hnext⟩ := h.idle ha (hws w List.mem_cons_self)
    obtain ⟨hrest, hend⟩ := ih hnext fun v hv => hws v (List.mem_cons_of_mem w hv)
    exact ⟨by rw [Reader.outputs, hout, hrest]; rfl, hend⟩

/-- The answers to requests that come far enough apart are those of the small machine. -/
theorem Serves.outputs (h : Serves r strobe d small Ready) {b : β} {a : α} (ha : Ready b a)
    {ws quiet : List ω} (hws : Apart strobe d ws) (hquiet : ∀ w ∈ quiet, strobe w = false)
    (hlen : d ≤ quiet.length) :
    r.outputs a (ws ++ quiet) = small.outputs b (ws.filter strobe) ∧
      Ready (small.after b (ws.filter strobe)) (r.after a (ws ++ quiet)) := by
  have hall : ∀ n, ∀ (ws : List ω) (b : β) (a : α), ws.length ≤ n → Apart strobe d ws →
      Ready b a → r.outputs a (ws ++ quiet) = small.outputs b (ws.filter strobe) ∧
        Ready (small.after b (ws.filter strobe)) (r.after a (ws ++ quiet)) := by
    intro n
    induction n with
    | zero =>
      intro ws b a hn _ ha
      rw [List.length_eq_zero_iff.1 (Nat.le_zero.1 hn)]
      exact h.quiet ha hquiet
    | succ n ih =>
      intro ws b a hn hws ha
      cases ws with
      | nil => exact h.quiet ha hquiet
      | cons w ws =>
        rw [List.length_cons] at hn
        cases hw : strobe w with
        | false =>
          obtain ⟨hout, hnext⟩ := h.idle ha hw
          obtain ⟨hrest, hend⟩ := ih ws b _ (by omega) hws.2 hnext
          have hskip : (w :: ws).filter strobe = ws.filter strobe :=
            List.filter_cons_of_neg (by rw [hw]; exact Bool.false_ne_true)
          rw [hskip, List.cons_append, Reader.outputs, Reader.after, hout]
          exact ⟨hrest, hend⟩
        | true =>
          have htake : ((ws ++ quiet).take d).length = d := by
            rw [List.length_take, List.length_append]
            omega
          obtain ⟨hout, hnext⟩ := h.busy ha hw htake ((hws.append_quiet hquiet).1 hw)
          have hsplit : w :: ws ++ quiet =
              (w :: (ws ++ quiet).take d) ++ (ws.drop d ++ quiet.drop (d - ws.length)) := by
            rw [← List.drop_append, List.cons_append, List.cons_append, List.take_append_drop]
          have hrest : r.outputs (r.after a (w :: (ws ++ quiet).take d))
                (ws.drop d ++ quiet.drop (d - ws.length)) =
              small.outputs (small.next b w) ((ws.drop d).filter strobe) ∧
              Ready (small.after (small.next b w) ((ws.drop d).filter strobe))
                (r.after (r.after a (w :: (ws ++ quiet).take d))
                  (ws.drop d ++ quiet.drop (d - ws.length))) := by
            by_cases hlong : d ≤ ws.length
            · rw [Nat.sub_eq_zero_of_le hlong, List.drop_zero]
              exact ih _ _ _ (by rw [List.length_drop]; omega) (hws.2.drop d) hnext
            · rw [List.drop_of_length_le (by omega : ws.length ≤ d), List.nil_append]
              exact h.quiet hnext fun v hv => hquiet v (List.mem_of_mem_drop hv)
          rw [hws.filter_cons hw, hsplit, Reader.outputs_append, Reader.after_append, hout, hrest.1]
          exact ⟨rfl, hrest.2⟩
  exact hall ws.length ws b a (Nat.le_refl _) hws ha

/-- A machine that keeps its requests, newest first, and answers each from all of them. -/
def recalling (f : List ω → List ε) : Reader (List ω) ω ε :=
  ⟨fun h w => w :: h, fun h w => f (w :: h)⟩

theorem recalling_outputs (f : List ω → List ε) (ws : List ω) :
    (recalling f).outputs [] ws =
      (List.range ws.length).flatMap fun n => f (ws.take (n + 1)).reverse := by
  induction ws using List.reverseRecOn with
  | nil => rfl
  | append_singleton ws w ih =>
    have hafter : (recalling f).after [] ws = ws.reverse := by
      clear ih
      induction ws using List.reverseRecOn with
      | nil => rfl
      | append_singleton ws v ih =>
        rw [Reader.after_append, ih, List.reverse_append]
        rfl
    rw [Reader.outputs_append, ih, hafter, List.length_append, List.length_singleton,
      List.range_succ, List.flatMap_append, List.flatMap_singleton]
    congr 1
    · refine List.flatMap_congr fun n hn => ?_
      rw [List.take_append_of_le_length (List.mem_range.1 hn)]
    · have hall : (ws ++ [w]).take (ws.length + 1) = ws ++ [w] := by
        apply List.take_of_length_le
        rw [List.length_append]
        exact Nat.le_refl _
      rw [hall, List.reverse_append]
      exact List.append_nil _

/-! Requests that come while the machine is busy are lost. -/

/-- The requests that a machine takes which is busy with each for `d` inputs, and now for `n`
more. -/
def taken (strobe : ω → Bool) (d : Nat) : Nat → List ω → List ω
  | _, [] => []
  | 0, w :: ws => if strobe w then w :: taken strobe d d ws else taken strobe d 0 ws
  | n + 1, _ :: ws => taken strobe d n ws

theorem taken_busy (strobe : ω → Bool) (d n : Nat) (ws : List ω) :
    taken strobe d n ws = taken strobe d 0 (ws.drop n) := by
  induction n generalizing ws with
  | zero => rfl
  | succ n ih =>
    cases ws with
    | nil => rfl
    | cons w ws => exact ih ws

theorem taken_idle {strobe : ω → Bool} {w : ω} (hw : strobe w = false) (d : Nat) (ws : List ω) :
    taken strobe d 0 (w :: ws) = taken strobe d 0 ws := by
  rw [taken, hw]
  rfl

theorem taken_request {strobe : ω → Bool} {w : ω} (hw : strobe w = true) (d : Nat) (ws : List ω) :
    taken strobe d 0 (w :: ws) = w :: taken strobe d 0 (ws.drop d) := by
  rw [taken, if_pos hw, taken_busy]

theorem taken_quiet {strobe : ω → Bool} {ws : List ω} (h : ∀ w ∈ ws, strobe w = false) (d : Nat) :
    taken strobe d 0 ws = [] := by
  induction ws with
  | nil => rfl
  | cons w ws ih =>
    rw [taken_idle (h w List.mem_cons_self)]
    exact ih fun v hv => h v (List.mem_cons_of_mem w hv)

theorem taken_sublist (strobe : ω → Bool) (d n : Nat) (ws : List ω) :
    (taken strobe d n ws).Sublist (ws.filter strobe) := by
  induction ws generalizing n with
  | nil => exact List.Sublist.slnil
  | cons w ws ih =>
    cases n with
    | zero =>
      rw [taken]
      cases hw : strobe w with
      | true =>
        rw [if_pos rfl, List.filter_cons_of_pos hw]
        exact (ih d).cons_cons w
      | false =>
        have hne : ¬ strobe w = true := by
          rw [hw]
          exact Bool.false_ne_true
        rw [if_neg Bool.false_ne_true, List.filter_cons_of_neg hne]
        exact ih 0
    | succ n =>
      refine (ih n).trans ?_
      exact (List.sublist_cons_self w ws).filter strobe

/-- From request to request, without the `d` inputs behind each. -/
theorem request_induction {motive : List ω → Prop} (strobe : ω → Bool) (d : Nat)
    (nil : motive []) (idle : ∀ w ws, strobe w = false → motive ws → motive (w :: ws))
    (request : ∀ w ws, strobe w = true → motive (ws.drop d) → motive (w :: ws)) (ws : List ω) :
    motive ws := by
  have hall : ∀ n, ∀ ws : List ω, ws.length ≤ n → motive ws := by
    intro n
    induction n with
    | zero =>
      intro ws hn
      rw [List.length_eq_zero_iff.1 (Nat.le_zero.1 hn)]
      exact nil
    | succ n ih =>
      intro ws hn
      cases ws with
      | nil => exact nil
      | cons w ws =>
        rw [List.length_cons] at hn
        cases hw : strobe w with
        | false => exact idle w ws hw (ih ws (by omega))
        | true => exact request w ws hw (ih (ws.drop d) (by rw [List.length_drop]; omega))
  exact hall ws.length ws (Nat.le_refl _)

/-- None is lost if they are far enough apart. -/
theorem taken_apart {strobe : ω → Bool} {d : Nat} {ws : List ω} (h : Apart strobe d ws) :
    taken strobe d 0 ws = ws.filter strobe := by
  induction ws using request_induction strobe d with
  | nil => rfl
  | idle w ws hw ih =>
    rw [taken_idle hw, List.filter_cons_of_neg (by rw [hw]; exact Bool.false_ne_true), ih h.2]
  | request w ws hw ih => rw [taken_request hw, h.filter_cons hw, ih (h.2.drop d)]

/-- `r` is ready until a request comes, and `d` inputs after it, whatever they are, the answer `f`
is out and it is ready again. -/
structure Answers (r : Reader α ω ε) (strobe : ω → Bool) (d : Nat) (f : ω → ε)
    (Ready : α → Prop) : Prop where
  idle {a : α} {w : ω} : Ready a → strobe w = false → r.out a w = [] ∧ Ready (r.next a w)
  busy {a : α} {w : ω} {ws : List ω} : Ready a → strobe w = true → ws.length = d →
    r.outputs a (w :: ws) = [f w] ∧ Ready (r.after a (w :: ws))

theorem Answers.quiet {f : ω → ε} {Ready : α → Prop} (h : Answers r strobe d f Ready) {a : α}
    (ha : Ready a) {ws : List ω} (hws : ∀ w ∈ ws, strobe w = false) :
    r.outputs a ws = [] ∧ Ready (r.after a ws) := by
  induction ws generalizing a with
  | nil => exact ⟨rfl, ha⟩
  | cons w ws ih =>
    obtain ⟨hout, hnext⟩ := h.idle ha (hws w List.mem_cons_self)
    obtain ⟨hrest, hend⟩ := ih hnext fun v hv => hws v (List.mem_cons_of_mem w hv)
    exact ⟨by rw [Reader.outputs, hout, hrest]; rfl, hend⟩

/-- However close the requests are: what comes out are the answers to those that are taken. -/
theorem Answers.outputs {f : ω → ε} {Ready : α → Prop} (h : Answers r strobe d f Ready)
    {a : α} (ha : Ready a) (ws : List ω) {quiet : List ω} (hquiet : ∀ w ∈ quiet, strobe w = false)
    (hlen : d ≤ quiet.length) :
    r.outputs a (ws ++ quiet) = (taken strobe d 0 ws).map f ∧
      Ready (r.after a (ws ++ quiet)) := by
  induction ws using request_induction strobe d generalizing a with
  | nil => exact h.quiet ha hquiet
  | idle w ws hw ih =>
    obtain ⟨hout, hnext⟩ := h.idle ha hw
    rw [taken_idle hw, List.cons_append, Reader.outputs, Reader.after, hout, List.nil_append]
    exact ih hnext
  | request w ws hw ih =>
    have htake : ((ws ++ quiet).take d).length = d := by
      rw [List.length_take, List.length_append]
      omega
    obtain ⟨hout, hnext⟩ := h.busy ha hw htake
    have hsplit : w :: ws ++ quiet =
        (w :: (ws ++ quiet).take d) ++ (ws.drop d ++ quiet.drop (d - ws.length)) := by
      rw [← List.drop_append, List.cons_append, List.cons_append, List.take_append_drop]
    rw [taken_request hw, List.map_cons, hsplit, Reader.outputs_append, Reader.after_append,
      hout]
    by_cases hlong : d ≤ ws.length
    · rw [Nat.sub_eq_zero_of_le hlong, List.drop_zero]
      obtain ⟨hrest, hend⟩ := ih hnext
      exact ⟨by rw [hrest]; rfl, hend⟩
    · rw [List.drop_of_length_le (by omega : ws.length ≤ d), List.nil_append]
      obtain ⟨hrest, hend⟩ := h.quiet hnext fun v hv => hquiet v (List.mem_of_mem_drop hv)
      exact ⟨by rw [hrest]; rfl, hend⟩

end TetraBs.Requests
