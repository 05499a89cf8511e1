import Mathlib.Data.List.Infix

/-!
# Senders with one segment on the wire

A sender has a stream of symbols that grows at its end, has seen the first `acked` of them
acknowledged, and has sent the next `flight` symbols and waits for their acknowledgement; with
`flight = 0` the wire is free. The symbols on the wire are never copied: sending them again
reads them from the stream, which may have grown meanwhile.

`Slice` says which symbols of the stream a segment holds. A segment that is a slice of the
stream stays one however the stream grows, and a receiver that holds a prefix of the stream
extends it with the part of a slice behind that prefix.
-/

variable {α : Type}

/-- The symbols `l` are those of the stream from position `pos` on. -/
def Slice (stream : List α) (pos : Nat) (l : List α) : Prop :=
  l <+: stream.drop pos

theorem Slice.append {stream l : List α} {pos : Nat} (h : Slice stream pos l)
    (hpos : pos ≤ stream.length) (more : List α) : Slice (stream ++ more) pos l := by
  show l <+: (stream ++ more).drop pos
  rw [List.drop_append_of_le_length hpos]
  exact h.trans (List.prefix_append _ _)

theorem Slice.get {stream l : List α} {pos : Nat} (h : Slice stream pos l) {i : Nat}
    (hi : i < l.length) : stream[pos + i]? = l[i]? := by
  obtain ⟨t, ht⟩ := h
  have hget : (stream.drop pos)[i]? = l[i]? := by
    rw [← ht, List.getElem?_append_left hi]
  rwa [List.getElem?_drop] at hget

/-- **A segment that overlaps what is held, or ends where it ends, extends it.** -/
theorem Slice.extend {stream held l : List α} {pos : Nat} (h : Slice stream pos l)
    (hheld : held <+: stream) (hpos : pos ≤ held.length) :
    held ++ l.drop (held.length - pos) <+: stream := by
  obtain ⟨rest, rfl⟩ := hheld
  have hl : l.drop (held.length - pos) <+: rest := by
    have hdrop := List.IsPrefix.drop h (held.length - pos)
    rwa [List.drop_drop, Nat.add_sub_cancel' hpos, List.drop_left] at hdrop
  exact (List.prefix_append_right_inj held).mpr hl

/-- A stop-and-wait sender. -/
structure Sender (α : Type) where
  /-- Everything there is to send, from the first symbol on. -/
  stream : List α
  /-- How many symbols are acknowledged. -/
  acked : Nat
  /-- How many symbols are on the wire. -/
  flight : Nat
  /-- What is on the wire is part of the stream. -/
  sent_le : acked + flight ≤ stream.length

namespace Sender

/-- The symbols on the wire. -/
def onWire (q : Sender α) : List α := (q.stream.drop q.acked).take q.flight

@[simp] theorem length_onWire (q : Sender α) : q.onWire.length = q.flight := by
  have := q.sent_le
  simp only [onWire, List.length_take, List.length_drop]
  omega

/-- **What is on the wire is the stream at the first unacknowledged position.** -/
theorem slice_onWire (q : Sender α) : Slice q.stream q.acked q.onWire :=
  List.take_prefix _ _

/-- More to send. -/
def push (q : Sender α) (l : List α) : Sender α :=
  ⟨q.stream ++ l, q.acked, q.flight, by have := q.sent_le; simp; omega⟩

@[simp] theorem push_stream (q : Sender α) (l : List α) : (q.push l).stream = q.stream ++ l := rfl
@[simp] theorem push_acked (q : Sender α) (l : List α) : (q.push l).acked = q.acked := rfl

/-- What is on the wire does not change when the stream grows. -/
@[simp] theorem onWire_push (q : Sender α) (l : List α) : (q.push l).onWire = q.onWire := by
  have := q.sent_le
  show ((q.stream ++ l).drop q.acked).take q.flight = _
  rw [List.drop_append_of_le_length (by omega),
    List.take_append_of_le_length (by simp only [List.length_drop]; omega)]
  rfl

/-- The next `n` symbols go out. -/
def launch (q : Sender α) (n : Nat) (h : q.acked + n ≤ q.stream.length) : Sender α :=
  ⟨q.stream, q.acked, n, h⟩

/-- What was on the wire is acknowledged. -/
def land (q : Sender α) : Sender α :=
  ⟨q.stream, q.acked + q.flight, 0, by simpa using q.sent_le⟩

@[simp] theorem land_stream (q : Sender α) : q.land.stream = q.stream := rfl
@[simp] theorem land_acked (q : Sender α) : q.land.acked = q.acked + q.flight := rfl

/-- A segment landed leaves what is still to send without it. -/
theorem drop_land (q : Sender α) :
    q.land.stream.drop q.land.acked = (q.stream.drop q.acked).drop q.flight := by
  rw [land_stream, land_acked, List.drop_drop]

end Sender
