import CnC.Library.Network

/-!
# Markers in FIFO queues

Some messages of a queue are markers, the others carry a stamp.  A sender which
stamps a message with at least the number of markers it has sent before it makes
the receiver see, on every message, at least the number of markers it has
received before it.
-/

namespace Network

universe v

variable {Msg : Type v} (stamp : Msg → Option Nat)

def markers (queue : List Msg) : Nat :=
  queue.countP fun message => (stamp message).isNone

/-- After `count` markers, every message has a stamp of at least the number of
markers before it. -/
def Stamped : Nat → List Msg → Prop
  | _, [] => True
  | count, message :: rest =>
      match stamp message with
      | some value => count ≤ value ∧ Stamped count rest
      | none => Stamped (count + 1) rest

variable {stamp} {count : Nat} {message : Msg} {queue : List Msg}

theorem markers_append (queue : List Msg) (message : Msg) :
    markers stamp (queue ++ [message]) =
      markers stamp queue + if (stamp message).isNone then 1 else 0 := by
  simp [markers, List.countP_append, List.countP_singleton]

theorem markers_cons_marker (marker : stamp message = none) :
    markers stamp (message :: queue) = markers stamp queue + 1 := by
  simp [markers, marker]

theorem markers_cons_stamped {value : Nat} (stamped : stamp message = some value) :
    markers stamp (message :: queue) = markers stamp queue := by
  simp [markers, stamped]

theorem Stamped.tail_marker (behind : Stamped stamp count (message :: queue))
    (marker : stamp message = none) : Stamped stamp (count + 1) queue := by
  simpa [Stamped, marker] using behind

theorem Stamped.tail {value : Nat} (behind : Stamped stamp count (message :: queue))
    (stamped : stamp message = some value) : Stamped stamp count queue := by
  simp only [Stamped, stamped] at behind
  exact behind.2

theorem Stamped.append (behind : Stamped stamp count queue)
    (late : ∀ value, stamp message = some value → count + markers stamp queue ≤ value) :
    Stamped stamp count (queue ++ [message]) := by
  induction queue generalizing count with
  | nil =>
      cases stamped : stamp message with
      | none => simp [Stamped, stamped]
      | some value => simpa [Stamped, stamped, markers] using late value stamped
  | cons first rest inductionHypothesis =>
      cases stamped : stamp first with
      | none =>
          simp only [List.cons_append, Stamped, stamped] at behind ⊢
          apply inductionHypothesis behind
          intro value isStamp
          have bound := late value isStamp
          rw [markers_cons_marker stamped] at bound
          omega
      | some old =>
          simp only [List.cons_append, Stamped, stamped] at behind ⊢
          refine ⟨behind.1, inductionHypothesis behind.2 ?_⟩
          intro value isStamp
          have bound := late value isStamp
          rwa [markers_cons_stamped stamped] at bound

theorem Stamped.le_of_mem {value : Nat} (behind : Stamped stamp count queue)
    (membership : message ∈ queue) (stamped : stamp message = some value) : count ≤ value := by
  induction queue generalizing count with
  | nil => cases membership
  | cons first rest inductionHypothesis =>
      rcases List.mem_cons.mp membership with rfl | later
      · simp only [Stamped, stamped] at behind
        exact behind.1
      · cases kind : stamp first with
        | none => exact Nat.le_of_succ_le (inductionHypothesis (behind.tail_marker kind) later)
        | some old => exact inductionHypothesis (behind.tail kind) later

end Network
