import MipsOs.Ipc.Mailbox
import MipsOs.Lib.MachineInt

/-!
# The mailbox under every message length

The system calls hand `msg_length` on as it is, and `do_mbox_send` and
`do_mbox_recv` guard it by one sum and one difference of `int`s.  A sum that passes
2^31 is negative and lets the call through; a negative length moves the counters
backwards.

A call of either function changes the mailbox once, when its loop condition
fails, and it holds the lock then.  `lengthStep` is that change, in the arithmetic
of the machine, for any `int` as length.  For a length that is not negative it is
the transfer of `Ipc/Mailbox.lean` (`send_eq_put`, `recv_eq_take`).
`lengths_keep_range_iff` is the result.
-/

namespace MipsOs.Ipc

open MipsOs.Lib MipsOs.Lib.MachineInt

/-- The value of an `int` expression. -/
def toInt (x : Int) : Int := wrap 32 x

/-- `(pos + i) % MAX_MBOX_LENGTH` -/
def ringIndex (pos : Int) (i : Nat) : Int := (toInt (pos + i)).tmod maxMboxLength

namespace Mailbox

/-- `do_mbox_send` behind its loop condition, for a message in memory. -/
def send (m : Mailbox) (src : Nat → UInt8) (msgLength : Int) : Mailbox where
  buff := (List.range msgLength.toNat).foldl
    (fun dst i => Function.update dst (ringIndex m.endPos i) (src i)) m.buff
  buffUsed := toInt (m.buffUsed + msgLength)
  start := m.start
  endPos := (toInt (m.endPos + msgLength)).tmod maxMboxLength

/-- `do_mbox_recv` behind its loop condition. -/
def recv (m : Mailbox) (msgLength : Int) : List UInt8 × Mailbox :=
  ((List.range msgLength.toNat).map fun i => m.buff (ringIndex m.start i),
    { m with
      buffUsed := toInt (m.buffUsed - msgLength)
      start := (toInt (m.start + msgLength)).tmod maxMboxLength })

/-- The counters are in range. -/
structure InRange (m : Mailbox) : Prop where
  used : 0 ≤ m.buffUsed ∧ m.buffUsed ≤ maxMboxLength
  start : 0 ≤ m.start ∧ m.start < maxMboxLength
  endPos : 0 ≤ m.endPos ∧ m.endPos < maxMboxLength

end Mailbox

/-- A call with any length. -/
inductive LengthOp where
  | send (src : Nat → UInt8) (msgLength : Int)
  | recv (msgLength : Int)

namespace LengthOp

/-- The argument `msg_length`. -/
def msgLength : LengthOp → Int
  | .send _ msgLength => msgLength
  | .recv msgLength => msgLength

/-- The loop condition: the call has to wait. -/
def mustWait (m : Mailbox) : LengthOp → Bool
  | .send _ msgLength => toInt (m.buffUsed + msgLength) > maxMboxLength
  | .recv msgLength => toInt (m.buffUsed - msgLength) < 0

/-- The counter that the copy loop starts from. -/
def position (m : Mailbox) : LengthOp → Int
  | .send _ _ => m.endPos
  | .recv _ => m.start

/-- What the copy loop does to the mailbox. -/
def transfer (m : Mailbox) : LengthOp → Mailbox
  | .send src msgLength => m.send src msgLength
  | .recv msgLength => (m.recv msgLength).2

/-- Every index of the copy loop is in the buffer. -/
def IndicesInRing (m : Mailbox) (op : LengthOp) : Prop :=
  ∀ i < op.msgLength.toNat, 0 ≤ ringIndex (op.position m) i ∧
    ringIndex (op.position m) i < maxMboxLength

/-- The length is an `int`. -/
def IsInt (op : LengthOp) : Prop := Representable 32 op.msgLength

/-- The length is not negative and does not overflow the fill level, or it is
negative, takes the fill level to one in range and the position to one in range. -/
def KeepsRange (m : Mailbox) : LengthOp → Prop
  | .send _ msgLength =>
    0 ≤ msgLength ∧ m.buffUsed + msgLength < 2 ^ 31 ∨
      msgLength < 0 ∧ 0 ≤ m.buffUsed + msgLength ∧
        (0 ≤ m.endPos + msgLength ∨ maxMboxLength ∣ m.endPos + msgLength)
  | .recv msgLength =>
    0 ≤ msgLength ∨
      msgLength < 0 ∧ m.buffUsed - msgLength ≤ maxMboxLength ∧
        (0 ≤ m.start + msgLength ∨ maxMboxLength ∣ m.start + msgLength)

instance (m : Mailbox) (op : LengthOp) : Decidable (op.KeepsRange m) := by
  cases op <;> exact inferInstanceAs (Decidable (_ ∨ _))

instance (op : LengthOp) : Decidable op.IsInt := inferInstanceAs (Decidable (Representable _ _))

end LengthOp

/-- A call that completes. -/
def lengthStep (m : Mailbox) (op : LengthOp) : Option Mailbox :=
  if op.mustWait m then none else some (op.transfer m)

section Range

variable {m : Mailbox} {msgLength pos : Int} {src : Nat → UInt8}

theorem toInt_of_fits {x : Int} (hlo : -2 ^ 31 ≤ x) (hhi : x < 2 ^ 31) : toInt x = x :=
  wrap_of_representable ⟨by omega, by omega⟩

theorem toInt_of_over {x : Int} (hlo : 2 ^ 31 ≤ x) (hhi : x < 3 * 2 ^ 31) :
    toInt x = x - 2 ^ 32 :=
  wrap_of_over (by omega) (by omega)

/-- A position in the ring after a length. -/
theorem position_index_iff (hpos : 0 ≤ pos ∧ pos < maxMboxLength) (msgLength : Int)
    (hlo : -2 ^ 31 ≤ msgLength) (hhi : msgLength ≤ maxMboxLength) :
    0 ≤ (toInt (pos + msgLength)).tmod maxMboxLength ∧
        (toInt (pos + msgLength)).tmod maxMboxLength < maxMboxLength ↔
      0 ≤ pos + msgLength ∨ maxMboxLength ∣ pos + msgLength := by
  have hmax : maxMboxLength = 64 := rfl
  rw [toInt_of_fits (by omega) (by omega)]
  exact tmod_index_iff (by decide)

/-- The indices of a copy of at most the size of the ring. -/
theorem ringIndex_eq (hpos : 0 ≤ pos ∧ pos < maxMboxLength) {i : Nat}
    (hi : (i : Int) < maxMboxLength) : ringIndex pos i = (pos + i).tmod maxMboxLength := by
  have hmax : maxMboxLength = 64 := rfl
  rw [ringIndex, toInt_of_fits (by omega) (by omega)]

theorem ringIndex_in_ring (hpos : 0 ≤ pos ∧ pos < maxMboxLength) {i : Nat}
    (hi : (i : Int) < maxMboxLength) :
    0 ≤ ringIndex pos i ∧ ringIndex pos i < maxMboxLength := by
  rw [ringIndex_eq hpos hi]
  exact (tmod_index_iff (by decide)).mpr (Or.inl (by omega))

/-- A send that completes. -/
theorem send_range_iff (h : m.InRange) (hint : Representable 32 msgLength)
    (hgo : (LengthOp.send src msgLength).mustWait m = false) :
    (m.send src msgLength).InRange ∧ (LengthOp.send src msgLength).IndicesInRing m ↔
      (LengthOp.send src msgLength).KeepsRange m := by
  obtain ⟨hused, hstart, hend⟩ := h
  obtain ⟨hlo, hhi⟩ := hint
  have hmax : maxMboxLength = 64 := rfl
  have hgo : ¬ toInt (m.buffUsed + msgLength) > maxMboxLength := of_decide_eq_false hgo
  rcases lt_or_ge msgLength 0 with hneg | hnonneg
  · have hposition := position_index_iff hend msgLength (by omega) (by omega)
    have hsum : toInt (m.buffUsed + msgLength) = m.buffUsed + msgLength :=
      toInt_of_fits (by omega) (by omega)
    constructor
    · rintro ⟨hrange, _⟩
      have hused' : 0 ≤ toInt (m.buffUsed + msgLength) := hrange.used.1
      rw [hsum] at hused'
      exact Or.inr ⟨hneg, hused', hposition.mp hrange.endPos⟩
    · rintro (⟨hnonneg, _⟩ | ⟨_, hused', hend'⟩)
      · omega
      · refine ⟨⟨?_, hstart, hposition.mpr hend'⟩, fun i hi => ?_⟩
        · show 0 ≤ toInt (m.buffUsed + msgLength) ∧ toInt (m.buffUsed + msgLength) ≤ _
          rw [hsum]
          omega
        · have : msgLength.toNat = 0 := by omega
          simp only [LengthOp.msgLength] at hi
          omega
  · rcases lt_or_ge (m.buffUsed + msgLength) (2 ^ 31) with hfits | hover
    · have hsum : toInt (m.buffUsed + msgLength) = m.buffUsed + msgLength :=
        toInt_of_fits (by omega) hfits
      rw [hsum] at hgo
      have hposition := position_index_iff hend msgLength (by omega) (by omega)
      refine iff_of_true ⟨⟨?_, hstart, hposition.mpr (Or.inl (by omega))⟩, fun i hi => ?_⟩
        (Or.inl ⟨hnonneg, hfits⟩)
      · show 0 ≤ toInt (m.buffUsed + msgLength) ∧ toInt (m.buffUsed + msgLength) ≤ _
        rw [hsum]
        omega
      · simp only [LengthOp.msgLength] at hi
        exact ringIndex_in_ring hend (by omega)
    · refine iff_of_false ?_ ?_
      · rintro ⟨hrange, _⟩
        have hused' : 0 ≤ toInt (m.buffUsed + msgLength) := hrange.used.1
        rw [toInt_of_over hover (by omega)] at hused'
        omega
      · rintro (⟨_, hfits⟩ | ⟨hneg, _⟩)
        · omega
        · omega

/-- A receive that completes. -/
theorem recv_range_iff (h : m.InRange) (hint : Representable 32 msgLength)
    (hgo : (LengthOp.recv msgLength).mustWait m = false) :
    (m.recv msgLength).2.InRange ∧ (LengthOp.recv msgLength).IndicesInRing m ↔
      (LengthOp.recv msgLength).KeepsRange m := by
  obtain ⟨hused, hstart, hend⟩ := h
  obtain ⟨hlo, hhi⟩ := hint
  have hmax : maxMboxLength = 64 := rfl
  have hgo : ¬ toInt (m.buffUsed - msgLength) < 0 := of_decide_eq_false hgo
  rcases lt_or_ge msgLength 0 with hneg | hnonneg
  · have hposition := position_index_iff hstart msgLength (by omega) (by omega)
    have hfits : m.buffUsed - msgLength < 2 ^ 31 := by
      by_contra hover
      rw [toInt_of_over (by omega) (by omega)] at hgo
      omega
    have hdiff : toInt (m.buffUsed - msgLength) = m.buffUsed - msgLength :=
      toInt_of_fits (by omega) hfits
    constructor
    · rintro ⟨hrange, _⟩
      have hused' : toInt (m.buffUsed - msgLength) ≤ maxMboxLength := hrange.used.2
      rw [hdiff] at hused'
      exact Or.inr ⟨hneg, hused', hposition.mp hrange.start⟩
    · rintro (hnonneg | ⟨_, hused', hstart'⟩)
      · omega
      · refine ⟨⟨?_, hposition.mpr hstart', hend⟩, fun i hi => ?_⟩
        · show 0 ≤ toInt (m.buffUsed - msgLength) ∧ toInt (m.buffUsed - msgLength) ≤ _
          rw [hdiff]
          omega
        · simp only [LengthOp.msgLength] at hi
          omega
  · have hdiff : toInt (m.buffUsed - msgLength) = m.buffUsed - msgLength :=
      toInt_of_fits (by omega) (by omega)
    rw [hdiff] at hgo
    have hposition := position_index_iff hstart msgLength (by omega) (by omega)
    refine iff_of_true ⟨⟨?_, hposition.mpr (Or.inl (by omega)), hend⟩, fun i hi => ?_⟩
      (Or.inl hnonneg)
    · show 0 ≤ toInt (m.buffUsed - msgLength) ∧ toInt (m.buffUsed - msgLength) ≤ _
      rw [hdiff]
      omega
    · simp only [LengthOp.msgLength] at hi
      exact ringIndex_in_ring hstart (by omega)

theorem transfer_range_iff (h : m.InRange) {op : LengthOp} (hint : op.IsInt)
    (hgo : op.mustWait m = false) :
    (op.transfer m).InRange ∧ op.IndicesInRing m ↔ op.KeepsRange m := by
  cases op with
  | send src msgLength => exact send_range_iff h hint hgo
  | recv msgLength => exact recv_range_iff h hint hgo

end Range

/-! ## The transfers of a message that fits -/

section Messages

variable {m : Mailbox}

/-- The copy loop of a message from its byte `i` on. -/
theorem copyIn_eq_foldl {endPos : Int} (hend : 0 ≤ endPos ∧ endPos < maxMboxLength)
    (msg : List UInt8) (i : Nat) (hfit : (i : Int) + msg.length ≤ maxMboxLength)
    (dst : Int → UInt8) :
    Mailbox.copyIn endPos i msg dst =
      (List.range msg.length).foldl (fun dst j =>
        Function.update dst (ringIndex endPos (i + j)) (msg.getD j 0)) dst := by
  induction msg generalizing i dst with
  | nil => rfl
  | cons b rest ih =>
    rw [List.length_cons] at hfit
    push_cast at hfit
    rw [Mailbox.copyIn, ih (i + 1) (by push_cast; omega), List.length_cons,
      List.range_succ_eq_map, List.foldl_cons, List.foldl_map, Nat.add_zero,
      ringIndex_eq hend (by omega)]
    simp only [List.getD_cons_zero, List.getD_cons_succ, Nat.add_right_comm i 1, Nat.add_assoc,
      Nat.add_zero, Nat.succ_eq_add_one]

/-- A message that fits is put behind the contents. -/
theorem send_eq_put (h : m.InRange) {msg : List UInt8}
    (hfit : m.buffUsed + msg.length ≤ maxMboxLength) :
    m.send (fun i => msg.getD i 0) msg.length = m.put msg := by
  have hmax : maxMboxLength = 64 := rfl
  have hused := h.used
  have hend := h.endPos
  have hcopy := copyIn_eq_foldl h.endPos msg 0 (by omega) m.buff
  rw [Mailbox.send, Mailbox.put, toInt_of_fits (by omega) (by omega),
    toInt_of_fits (by omega) (by omega), hcopy]
  simp only [Int.toNat_natCast, Nat.zero_add]

/-- Bytes that are there are taken from the front. -/
theorem recv_eq_take (h : m.InRange) {msgLength : Int} (hnonneg : 0 ≤ msgLength)
    (hhas : msgLength ≤ m.buffUsed) : m.recv msgLength = m.take msgLength := by
  have hmax : maxMboxLength = 64 := rfl
  have hused := h.used
  have hstart := h.start
  rw [Mailbox.recv, Mailbox.take, toInt_of_fits (by omega) (by omega),
    toInt_of_fits (by omega) (by omega)]
  congr 1
  refine List.map_congr_left fun i hi => ?_
  have hi := List.mem_range.mp hi
  rw [ringIndex_eq hstart (by omega)]

end Messages

/-! ## Runs -/

theorem inRange_init (buff : Int → UInt8) : (Mailbox.init buff).InRange :=
  ⟨⟨le_rfl, by simp [Mailbox.init, maxMboxLength]⟩,
    ⟨le_rfl, by simp [Mailbox.init, maxMboxLength]⟩,
    ⟨le_rfl, by simp [Mailbox.init, maxMboxLength]⟩⟩

/-- In every state between calls that is reached while every call keeps the
range, the counters are in range, and the next call that completes leaves them in
range and stays in the buffer exactly when it keeps the range as well. -/
theorem lengths_keep_range_iff (buff : Int → UInt8) {m : Mailbox}
    (h : Reaches lengthStep (fun m op => op.IsInt ∧ op.KeepsRange m) (.init buff) m) :
    m.InRange ∧ ∀ op m', op.IsInt → lengthStep m op = some m' →
      (m'.InRange ∧ op.IndicesInRing m ↔ op.KeepsRange m) := by
  have hiff : ∀ {m m' op}, m.InRange → op.IsInt → lengthStep m op = some m' →
      (m'.InRange ∧ op.IndicesInRing m ↔ op.KeepsRange m) := by
    intro m m' op hrange hint hstep
    rw [lengthStep] at hstep
    split at hstep
    · cases hstep
    · rename_i hgo
      obtain rfl := Option.some.inj hstep
      exact transfer_range_iff hrange hint (by simpa using hgo)
  have hrange := h.invariant Mailbox.InRange (inRange_init buff) fun m op m' hm hok hstep =>
    ((hiff hm hok.1 hstep).mpr hok.2).1
  exact ⟨hrange, fun op m' hint hstep => hiff hrange hint hstep⟩

/-- Three bytes are sent and one is received. -/
theorem lengths_in_range :
    ∃ m, runIf lengthStep (fun m op => op.IsInt ∧ op.KeepsRange m) (.init fun _ => 0)
        [.send (fun _ => 7) 3, .recv 1] = some m ∧ m.InRange := by
  have hrun : (runIf lengthStep (fun m op => op.IsInt ∧ op.KeepsRange m) (.init fun _ => 0)
      [.send (fun _ => 7) 3, .recv 1]).isSome = true := by
    decide +kernel
  obtain ⟨m, hm⟩ := Option.isSome_iff_exists.mp hrun
  exact ⟨m, hm, (lengths_keep_range_iff _ (reaches_of_runIf hm)).1⟩

/-- A message of length -5 is sent to an empty mailbox. -/
theorem negative_length_leaves_range :
    ¬ ∀ m, Reaches lengthStep (fun _ op => op.IsInt) (.init fun _ => 0) m → m.InRange := by
  intro hall
  have hrun : (runIf lengthStep (fun _ op => op.IsInt) (.init fun _ => 0)
      [.send (fun _ => 7) (-5)]).map (fun m => m.buffUsed) = some (-5) := by
    decide +kernel
  obtain ⟨m, hm, hused⟩ := Option.map_eq_some_iff.mp hrun
  have hrange := (hall m (reaches_of_runIf hm)).used.1
  omega

end MipsOs.Ipc
