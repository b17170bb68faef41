import Mathlib.Data.List.Basic

/-!
# Communicators

What the collectives share: their errors, the group of ranks they run on, the
buffers a call works on, and what a call amounts to, which is the await points it
goes through and the result it returns.

A call is an `async fn`: a straight line of await points once its arguments are
known. The buffers of a call are regions of the memory of its rank, named by the
number of the call. The buffers of two calls have different names, whether or not
they share memory: what a buffer holds when its call starts is arbitrary.
-/

namespace Pluvio

/-- The errors of input and output that the model meets: the stream has ended, or the
system says so. -/
inductive IoError
  | unexpectedEof
  | os (code : Int32)
  deriving DecidableEq, Repr

/-- The errors of the collectives that the model meets. -/
inductive CollectiveError
  | mpi (rc : Int32)
  | badShape
  | bootstrap (e : IoError)
  | badHeader (got expected : ℕ)
  | protocol (msg : String)
  deriving DecidableEq, Repr

/-- A communicator, its endpoints given by the ranks they lead to. -/
structure UcxCommunicator where
  rank : ℕ
  size : ℕ
  endpoints : List (Option ℕ)

namespace UcxCommunicator

/-- `endpoint`. -/
def endpoint (comm : UcxCommunicator) (rank : ℕ) : Option ℕ := comm.endpoints[rank]?.join

/-- The communicator of a rank that is connected to all the others. -/
def connected (n rank : ℕ) : UcxCommunicator where
  rank := rank
  size := n
  endpoints := (List.range n).map fun q => if q = rank then none else some q

theorem endpoint_connected {n p q : ℕ} (hq : q < n) (hne : q ≠ p) :
    (connected n p).endpoint q = some q := by
  rw [endpoint, connected, List.getElem?_map, List.getElem?_range hq]
  simp [hne]

end UcxCommunicator

/-- The buffers of a call. -/
inductive Buffer
  /-- `send_buf`. -/
  | send
  /-- `buf`, or `recv_buf`. -/
  | buf
  /-- The `tmp` of a chain, if the call has several. -/
  | tmp (chain : ℕ)
  deriving DecidableEq

/-- The buffers of the calls of a rank. -/
abbrev Region := ℕ × Buffer

/-- The await points of a call, and its result. -/
structure Call (I : Type*) where
  steps : List I
  result : Except CollectiveError Unit

/-- **A sequence of calls**, one after the other. -/
def Call.sequence {I : Type*} (call : ℕ → Call I) (k : ℕ) : List I :=
  (List.range k).flatMap fun i => (call i).steps

section Positions

variable {I : Type*} {m : ℕ}

/-- Two loops, one after the other. -/
theorem map_range_append (a b : ℕ) (f g : ℕ → I) :
    (List.range a).map f ++ (List.range b).map g =
      (List.range (a + b)).map fun k => if k < a then f k else g (k - a) := by
  rw [List.range_add, List.map_append, List.map_map]
  refine congrArg₂ _ (List.map_congr_left fun k hk => ?_) (List.map_congr_left fun k _ => ?_)
  · rw [if_pos (List.mem_range.mp hk)]
  · show g k = if a + k < a then _ else g (a + k - a)
    rw [if_neg (by omega), Nat.add_sub_cancel_left]

/-- **A position in a sequence of calls of one length** is the call and the
position in it. -/
theorem sequence_eq_map_range (call : ℕ → Call I) (f : ℕ → ℕ → I) (k : ℕ)
    (h : ∀ i < k, (call i).steps = (List.range m).map (f i)) :
    Call.sequence call k = (List.range (k * m)).map fun j => f (j / m) (j % m) := by
  induction k with
  | zero => rw [Nat.zero_mul]; rfl
  | succ k ih =>
    have hlast : Call.sequence call (k + 1) = Call.sequence call k ++ (call k).steps := by
      rw [Call.sequence, List.range_succ, List.flatMap_append, List.flatMap_singleton]
      rfl
    rw [hlast, ih fun i hi => h i (by omega), h k k.lt_succ_self, Nat.succ_mul, List.range_add,
      List.map_append, List.map_map]
    refine congrArg _ (List.map_congr_left fun t ht => ?_)
    have htm := List.mem_range.mp ht
    show f k t = f ((k * m + t) / m) ((k * m + t) % m)
    rw [Nat.add_comm (k * m), Nat.add_mul_mod_self_right, Nat.mod_eq_of_lt htm,
      Nat.add_mul_div_right _ _ (by omega), Nat.div_eq_of_lt htm, Nat.zero_add]

end Positions

end Pluvio
