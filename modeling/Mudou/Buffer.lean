import Mathlib.Logic.Function.Basic
import Mudou.Lib.Bytes
import Mudou.Lib.Fifo

/-!
# The connection buffer

`Buffer` of `source/server.hpp`: a vector with a read offset and a write
offset. An operation whose assertion fails, or that reads or writes outside
the vector, is `none`. Sizes are unbounded: no vector has `2^63` bytes, so
the `uint64_t` sums do not wrap.

`run_refines_queues` is the result: any family of buffers under any sequence of
operations is a family of FIFO byte queues (`Op.spec`), whichever of the
three branches of `ensureWriteSpace` each write takes.
-/

namespace Mudou

open Fifo

structure Buffer where
  buffer : Bytes
  readerIdx : Nat
  writerIdx : Nat

namespace Buffer

def bufferDefaultSize : Nat := 1024

def new : Buffer := ⟨List.replicate bufferDefaultSize 0, 0, 0⟩

def tailIdleSize (b : Buffer) : Nat := b.buffer.length - b.writerIdx

def headIdleSize (b : Buffer) : Nat := b.readerIdx

def readAbleSize (b : Buffer) : Nat := b.writerIdx - b.readerIdx

/-- The `len` bytes of the vector from `ReadPosition()` on. -/
def fromReadPosition (b : Buffer) (len : Nat) : Option Bytes :=
  if b.readerIdx + len ≤ b.buffer.length then some (slice b.buffer b.readerIdx len) else none

def moveReadOffset (b : Buffer) (len : Nat) : Option Buffer :=
  if len = 0 then some b
  else if len ≤ b.readAbleSize then some { b with readerIdx := b.readerIdx + len }
  else none

def moveWriteOffset (b : Buffer) (len : Nat) : Option Buffer :=
  if len ≤ b.tailIdleSize then some { b with writerIdx := b.writerIdx + len } else none

/-- `std::vector::resize`. -/
def resize (xs : Bytes) (n : Nat) : Bytes := xs.take n ++ List.replicate (n - xs.length) 0

def ensureWriteSpace (b : Buffer) (len : Nat) : Option Buffer :=
  if len ≤ b.tailIdleSize then some b
  else if len ≤ b.tailIdleSize + b.headIdleSize then
    let rsz := b.readAbleSize
    if b.readerIdx + rsz ≤ b.buffer.length then
      some { buffer := copyWithin rsz b.buffer b.readerIdx 0, readerIdx := 0, writerIdx := rsz }
    else none
  else some { b with buffer := resize b.buffer (b.writerIdx + len) }

def write (b : Buffer) (data : Bytes) : Option Buffer :=
  if data.length = 0 then some b
  else do
    let b ← b.ensureWriteSpace data.length
    if b.writerIdx + data.length ≤ b.buffer.length then
      some { b with buffer := overwrite b.buffer b.writerIdx data }
    else none

def writeAndPush (b : Buffer) (data : Bytes) : Option Buffer := do
  let b ← b.write data
  b.moveWriteOffset data.length

def writeString (b : Buffer) (data : Bytes) : Option Buffer := b.write data

def writeStringAndPush (b : Buffer) (data : Bytes) : Option Buffer := do
  let b ← b.writeString data
  b.moveWriteOffset data.length

def writeBuffer (b data : Buffer) : Option Buffer := do
  let bytes ← data.fromReadPosition data.readAbleSize
  b.write bytes

def writeBufferAndPush (b data : Buffer) : Option Buffer := do
  let b ← b.writeBuffer data
  b.moveWriteOffset data.readAbleSize

def read (b : Buffer) (len : Nat) : Option Bytes :=
  if len ≤ b.readAbleSize then b.fromReadPosition len else none

def readAndPop (b : Buffer) (len : Nat) : Option (Bytes × Buffer) := do
  let buf ← b.read len
  let b ← b.moveReadOffset len
  some (buf, b)

def readAsString (b : Buffer) (len : Nat) : Option Bytes :=
  if len ≤ b.readAbleSize then b.read len else none

def readAsStringAndPop (b : Buffer) (len : Nat) : Option (Bytes × Buffer) :=
  if len ≤ b.readAbleSize then do
    let s ← b.readAsString len
    let b ← b.moveReadOffset len
    some (s, b)
  else none

/-- The offset of the first LF from `ReadPosition()`, as `memchr` finds it. -/
def findCRLF (b : Buffer) : Option (Option Nat) := do
  let bytes ← b.fromReadPosition b.readAbleSize
  some (bytes.findIdx? (· == lf))

def getLine (b : Buffer) : Option Bytes := do
  match ← b.findCRLF with
  | none => some []
  | some pos => b.readAsString (pos + 1)

def getLineAndPop (b : Buffer) : Option (Bytes × Buffer) := do
  let s ← b.getLine
  let b ← b.moveReadOffset s.length
  some (s, b)

def clear (b : Buffer) : Buffer := { b with readerIdx := 0, writerIdx := 0 }

/-! ## What the buffer holds -/

/-- The offsets are in order and inside the vector. -/
structure Valid (b : Buffer) : Prop where
  reader_le : b.readerIdx ≤ b.writerIdx
  writer_le : b.writerIdx ≤ b.buffer.length

/-- The bytes between the two offsets. -/
def readable (b : Buffer) : Bytes := slice b.buffer b.readerIdx b.readAbleSize

/-- `b` is a valid buffer that holds the queue `q`. -/
structure Holds (b : Buffer) (q : Bytes) : Prop extends Valid b where
  readable_eq : b.readable = q

theorem Holds.length {b : Buffer} {q : Bytes} (h : Holds b q) : q.length = b.readAbleSize := by
  have := h.writer_le; have := h.reader_le
  rw [← h.readable_eq, readable, length_slice, readAbleSize]
  omega

theorem Holds.fromReadPosition {b : Buffer} {q : Bytes} (h : Holds b q) {n : Nat}
    (hn : n ≤ q.length) : b.fromReadPosition n = some (q.take n) := by
  have := h.writer_le; have := h.reader_le
  have hl := h.length
  rw [readAbleSize] at hl
  rw [Buffer.fromReadPosition, if_pos (by omega), ← h.readable_eq, readable, slice, slice,
    List.take_take, readAbleSize, Nat.min_eq_left (by omega)]

theorem new_holds : Holds new [] where
  reader_le := Nat.le_refl 0
  writer_le := Nat.zero_le _
  readable_eq := rfl

theorem clear_holds (b : Buffer) : Holds b.clear [] where
  reader_le := Nat.le_refl 0
  writer_le := Nat.zero_le _
  readable_eq := rfl

theorem moveReadOffset_holds {b : Buffer} {q : Bytes} (h : Holds b q) {n : Nat}
    (hn : n ≤ q.length) : ∃ b', b.moveReadOffset n = some b' ∧ Holds b' (q.drop n) := by
  have := h.writer_le; have := h.reader_le
  have hl := h.length
  rw [moveReadOffset]
  by_cases h0 : n = 0
  · exact ⟨b, if_pos h0, by rw [h0, List.drop_zero]; exact h⟩
  · rw [readAbleSize] at hl
    refine ⟨{ b with readerIdx := b.readerIdx + n },
      by rw [if_neg h0, if_pos (by rw [readAbleSize]; omega)], ⟨?_, h.writer_le⟩, ?_⟩
    · show b.readerIdx + n ≤ b.writerIdx
      omega
    · show slice b.buffer (b.readerIdx + n) (b.writerIdx - (b.readerIdx + n)) = q.drop n
      rw [← h.readable_eq, readable, slice, slice, readAbleSize, List.drop_take, List.drop_drop,
        Nat.sub_add_eq]

theorem resize_eq {xs : Bytes} {n : Nat} (h : xs.length ≤ n) :
    resize xs n = xs ++ List.replicate (n - xs.length) 0 := by
  rw [resize, List.take_of_length_le h]

theorem length_resize {xs : Bytes} {n : Nat} (h : xs.length ≤ n) : (resize xs n).length = n := by
  rw [resize_eq h, List.length_append, List.length_replicate]
  omega

/-- Whichever way the space is made, it is there and the content is kept. The
copy goes to the front, so it never reads what it wrote. -/
theorem ensureWriteSpace_holds {b : Buffer} {q : Bytes} (h : Holds b q) (n : Nat) :
    ∃ b', b.ensureWriteSpace n = some b' ∧ Holds b' q ∧ n ≤ b'.tailIdleSize := by
  have hw := h.writer_le; have hr := h.reader_le
  rw [ensureWriteSpace]
  by_cases h₁ : n ≤ b.tailIdleSize
  · exact ⟨b, if_pos h₁, h, h₁⟩
  rw [if_neg h₁]
  by_cases h₂ : n ≤ b.tailIdleSize + b.headIdleSize
  · have hin : b.readerIdx + b.readAbleSize ≤ b.buffer.length := by rw [readAbleSize]; omega
    have hs : (slice b.buffer b.readerIdx b.readAbleSize).length = b.readAbleSize := by
      rw [length_slice]; omega
    have hc := copyWithin_eq b.readAbleSize b.buffer b.readerIdx 0 (Nat.zero_le _) hin
    have hlen : (copyWithin b.readAbleSize b.buffer b.readerIdx 0).length = b.buffer.length := by
      rw [hc, length_overwrite (by omega)]
    refine ⟨_, by rw [if_pos h₂]; exact if_pos hin, ⟨⟨Nat.zero_le _, ?_⟩, ?_⟩, ?_⟩
    · show b.readAbleSize ≤ (copyWithin _ _ _ _).length
      omega
    · show slice (copyWithin b.readAbleSize b.buffer b.readerIdx 0) 0 (b.readAbleSize - 0) = q
      rw [hc, Nat.sub_zero, ← h.readable_eq, readable]
      conv => lhs; arg 3; rw [← hs]
      exact slice_zero_overwrite (by omega)
    · show n ≤ (copyWithin b.readAbleSize b.buffer b.readerIdx 0).length - b.readAbleSize
      simp only [tailIdleSize, headIdleSize, readAbleSize] at *
      omega
  · have hle : b.buffer.length ≤ b.writerIdx + n := by rw [tailIdleSize] at h₁; omega
    have hlen : (resize b.buffer (b.writerIdx + n)).length = b.writerIdx + n := length_resize hle
    refine ⟨_, if_neg h₂, ⟨⟨hr, ?_⟩, ?_⟩, ?_⟩
    · show b.writerIdx ≤ (resize _ _).length
      omega
    · rw [← h.readable_eq]
      show slice (resize b.buffer (b.writerIdx + n)) b.readerIdx b.readAbleSize = _
      rw [resize_eq hle, slice_append_left _ (by rw [readAbleSize]; omega), readable]
    · show n ≤ (resize b.buffer (b.writerIdx + n)).length - b.writerIdx
      omega

/-- The bytes are behind the write offset, which has not moved yet. -/
theorem write_holds {b : Buffer} {q : Bytes} (h : Holds b q) (data : Bytes) :
    ∃ b', b.write data = some b' ∧ Holds b' q ∧ data.length ≤ b'.tailIdleSize ∧
      slice b'.buffer b'.writerIdx data.length = data := by
  rw [write]
  by_cases h0 : data.length = 0
  · rw [List.length_eq_zero_iff] at h0
    subst h0
    exact ⟨b, if_pos rfl, h, Nat.zero_le _, by simp [slice]⟩
  rw [if_neg h0]
  obtain ⟨b₁, e₁, h₁, ht⟩ := ensureWriteSpace_holds h data.length
  have hw := h₁.writer_le; have hr := h₁.reader_le
  have hin : b₁.writerIdx + data.length ≤ b₁.buffer.length := by rw [tailIdleSize] at ht; omega
  have hlen := length_overwrite hin
  refine ⟨{ b₁ with buffer := overwrite b₁.buffer b₁.writerIdx data },
    by simp only [e₁, Option.bind_eq_bind, Option.bind_some, if_pos hin], ⟨⟨hr, ?_⟩, ?_⟩, ?_, ?_⟩
  · show b₁.writerIdx ≤ (overwrite b₁.buffer b₁.writerIdx data).length
    omega
  · rw [← h₁.readable_eq]
    have hb : b₁.readerIdx + (b₁.writerIdx - b₁.readerIdx) ≤ b₁.writerIdx := by omega
    exact slice_overwrite_before hb hin
  · show data.length ≤ (overwrite b₁.buffer b₁.writerIdx data).length - b₁.writerIdx
    omega
  · exact slice_overwrite_self hin

/-- `MoveWriteOffset` after `Write`: the assertion holds, and the written
bytes are at the end of the queue. -/
theorem moveWriteOffset_holds {b : Buffer} {q data : Bytes} (h : Holds b q)
    (ht : data.length ≤ b.tailIdleSize) (hs : slice b.buffer b.writerIdx data.length = data) :
    ∃ b', b.moveWriteOffset data.length = some b' ∧ Holds b' (q ++ data) := by
  have hw := h.writer_le; have hr := h.reader_le
  refine ⟨_, if_pos ht, ⟨?_, ?_⟩, ?_⟩
  · show b.readerIdx ≤ b.writerIdx + data.length
    omega
  · show b.writerIdx + data.length ≤ b.buffer.length
    rw [tailIdleSize] at ht
    omega
  · show slice b.buffer b.readerIdx (b.writerIdx + data.length - b.readerIdx) = q ++ data
    conv => rhs; rw [← h.readable_eq, ← hs]
    rw [readable, readAbleSize,
      show b.writerIdx + data.length - b.readerIdx = b.writerIdx - b.readerIdx + data.length by omega,
      ← slice_append_slice, show b.readerIdx + (b.writerIdx - b.readerIdx) = b.writerIdx by omega]

theorem writeAndPush_holds {b : Buffer} {q : Bytes} (h : Holds b q) (data : Bytes) :
    ∃ b', b.writeAndPush data = some b' ∧ Holds b' (q ++ data) := by
  obtain ⟨b₁, e₁, h₁, ht, hs⟩ := write_holds h data
  obtain ⟨b₂, e₂, h₂⟩ := moveWriteOffset_holds h₁ ht hs
  exact ⟨b₂, by simp only [writeAndPush, e₁, Option.bind_eq_bind, Option.bind_some, e₂], h₂⟩

theorem writeBufferAndPush_holds {b data : Buffer} {q r : Bytes} (h : Holds b q)
    (hd : Holds data r) : ∃ b', b.writeBufferAndPush data = some b' ∧ Holds b' (q ++ r) := by
  obtain ⟨b₁, e₁, h₁, ht, hs⟩ := write_holds h r
  obtain ⟨b₂, e₂, h₂⟩ := moveWriteOffset_holds h₁ ht hs
  have hr : data.fromReadPosition data.readAbleSize = some r := by
    rw [← hd.length, hd.fromReadPosition (Nat.le_refl _), List.take_length]
  refine ⟨b₂, ?_, h₂⟩
  rw [writeBufferAndPush, writeBuffer, hr, ← hd.length]
  simp only [Option.bind_eq_bind, Option.bind_some, e₁, e₂]

theorem read_eq {b : Buffer} {q : Bytes} (h : Holds b q) {n : Nat} (hn : n ≤ q.length) :
    b.read n = some (q.take n) := by
  rw [read, if_pos (by rw [← h.length]; exact hn), h.fromReadPosition hn]

theorem readAsString_eq {b : Buffer} {q : Bytes} (h : Holds b q) {n : Nat} (hn : n ≤ q.length) :
    b.readAsString n = some (q.take n) := by
  rw [readAsString, if_pos (by rw [← h.length]; exact hn), read_eq h hn]

/-- The line `memchr` finds is the queue up to and including its first LF. -/
theorem getLine_eq {b : Buffer} {q : Bytes} (h : Holds b q) :
    b.getLine = some (popLine lf q).1 := by
  have hq : b.fromReadPosition b.readAbleSize = some q := by
    rw [← h.length, h.fromReadPosition (Nat.le_refl _), List.take_length]
  simp only [getLine, findCRLF, hq, Option.bind_eq_bind, Option.bind_some]
  by_cases hm : lf ∈ q
  · obtain ⟨l, r, rfl, hl⟩ := List.eq_append_cons_of_mem hm
    have hi : (l ++ lf :: r).findIdx? (· == lf) = some l.length := by
      rw [List.findIdx?_append, List.findIdx?_eq_none_iff.mpr fun x hx => ?_]
      · simp [List.findIdx?_cons]
      · exact beq_eq_false_iff_ne.mpr fun e => hl (e ▸ hx)
    rw [hi, popLine_append hl]
    simp only
    rw [readAsString_eq h (by simp), show l ++ lf :: r = (l ++ [lf]) ++ r by simp,
      List.take_left' (by simp)]
  · have hi : q.findIdx? (· == lf) = none :=
      List.findIdx?_eq_none_iff.mpr fun x hx => beq_eq_false_iff_ne.mpr fun e => hm (e ▸ hx)
    rw [hi, popLine_of_not_mem hm]

theorem getLineAndPop_holds {b : Buffer} {q : Bytes} (h : Holds b q) :
    ∃ b', b.getLineAndPop = some ((popLine lf q).1, b') ∧ Holds b' (popLine lf q).2 := by
  have hq := popLine_fst_append_snd lf q
  have hn : (popLine lf q).1.length ≤ q.length := by
    rw [← congrArg List.length hq, List.length_append]; omega
  obtain ⟨b', e, h'⟩ := moveReadOffset_holds h hn
  refine ⟨b', by simp only [getLineAndPop, getLine_eq h, Option.bind_eq_bind, Option.bind_some, e], ?_⟩
  have hd : q.drop (popLine lf q).1.length = (popLine lf q).2 := by
    conv => lhs; arg 2; rw [← hq]
    exact List.drop_left
  rwa [hd] at h'

/-! ## Sequences of operations -/

/-- The operations on a family of buffers. -/
inductive Op (ι : Type) where
  | writeAndPush (i : ι) (data : Bytes)
  | writeStringAndPush (i : ι) (data : Bytes)
  | writeBufferAndPush (i j : ι)
  | moveReadOffset (i : ι) (len : Nat)
  | readAndPop (i : ι) (len : Nat)
  | readAsStringAndPop (i : ι) (len : Nat)
  | getLineAndPop (i : ι)
  | clear (i : ι)

variable {ι : Type} [DecidableEq ι]

/-- An operation on buffers, with what it reads. -/
def Op.exec (s : ι → Buffer) : Op ι → Option ((ι → Buffer) × Bytes)
  | .writeAndPush i data => do
    let b ← (s i).writeAndPush data
    some (Function.update s i b, [])
  | .writeStringAndPush i data => do
    let b ← (s i).writeStringAndPush data
    some (Function.update s i b, [])
  | .writeBufferAndPush i j => do
    let b ← (s i).writeBufferAndPush (s j)
    some (Function.update s i b, [])
  | .moveReadOffset i len => do
    let b ← (s i).moveReadOffset len
    some (Function.update s i b, [])
  | .readAndPop i len => do
    let (bytes, b) ← (s i).readAndPop len
    some (Function.update s i b, bytes)
  | .readAsStringAndPop i len => do
    let (bytes, b) ← (s i).readAsStringAndPop len
    some (Function.update s i b, bytes)
  | .getLineAndPop i => do
    let (bytes, b) ← (s i).getLineAndPop
    some (Function.update s i b, bytes)
  | .clear i => some (Function.update s i (s i).clear, [])

/-- The same operation on queues, with what it reads. -/
def Op.spec (q : ι → Bytes) : Op ι → (ι → Bytes) × Bytes
  | .writeAndPush i data => (Function.update q i (q i ++ data), [])
  | .writeStringAndPush i data => (Function.update q i (q i ++ data), [])
  | .writeBufferAndPush i j => (Function.update q i (q i ++ q j), [])
  | .moveReadOffset i len => (Function.update q i ((q i).drop len), [])
  | .readAndPop i len => (Function.update q i ((q i).drop len), (q i).take len)
  | .readAsStringAndPop i len => (Function.update q i ((q i).drop len), (q i).take len)
  | .getLineAndPop i => (Function.update q i (popLine lf (q i)).2, (popLine lf (q i)).1)
  | .clear i => (Function.update q i [], [])

/-- The asserted length preconditions; a buffer is written from another one. -/
def Op.Pre (q : ι → Bytes) : Op ι → Prop
  | .writeBufferAndPush i j => i ≠ j
  | .moveReadOffset i len => len ≤ (q i).length
  | .readAndPop i len => len ≤ (q i).length
  | .readAsStringAndPop i len => len ≤ (q i).length
  | _ => True

def run : List (Op ι) → (ι → Buffer) → Option ((ι → Buffer) × List Bytes)
  | [], s => some (s, [])
  | op :: ops, s => do
    let (s, out) ← op.exec s
    let (s, outs) ← run ops s
    some (s, out :: outs)

def specRun : List (Op ι) → (ι → Bytes) → (ι → Bytes) × List Bytes
  | [], q => (q, [])
  | op :: ops, q =>
    let (q, out) := op.spec q
    let (q, outs) := specRun ops q
    (q, out :: outs)

/-- Every operation's preconditions hold when it is its turn. -/
def Permitted : List (Op ι) → (ι → Bytes) → Prop
  | [], _ => True
  | op :: ops, q => op.Pre q ∧ Permitted ops (op.spec q).1

theorem holds_update {s : ι → Buffer} {q : ι → Bytes} (h : ∀ i, Holds (s i) (q i)) {i : ι}
    {b : Buffer} {r : Bytes} (hb : Holds b r) :
    ∀ j, Holds (Function.update s i b j) (Function.update q i r j) := by
  intro j
  by_cases e : j = i
  · subst e
    rwa [Function.update_self, Function.update_self]
  · rw [Function.update_of_ne e, Function.update_of_ne e]
    exact h j

/-- One operation: it neither fails nor leaves the vector, reads what the
queue reads and leaves what the queue leaves. -/
theorem exec_refines {s : ι → Buffer} {q : ι → Bytes} (h : ∀ i, Holds (s i) (q i)) (op : Op ι)
    (hp : op.Pre q) : ∃ s', op.exec s = some (s', (op.spec q).2) ∧
      ∀ i, Holds (s' i) ((op.spec q).1 i) := by
  cases op with
  | writeAndPush i data =>
    obtain ⟨b, e, hb⟩ := writeAndPush_holds (h i) data
    exact ⟨_, by simp only [Op.exec, e, Option.bind_eq_bind, Option.bind_some]; rfl, holds_update h hb⟩
  | writeStringAndPush i data =>
    obtain ⟨b, e, hb⟩ := writeAndPush_holds (h i) data
    have e' : (s i).writeStringAndPush data = some b := e
    exact ⟨_, by simp only [Op.exec, e', Option.bind_eq_bind, Option.bind_some]; rfl, holds_update h hb⟩
  | writeBufferAndPush i j =>
    obtain ⟨b, e, hb⟩ := writeBufferAndPush_holds (h i) (h j)
    exact ⟨_, by simp only [Op.exec, e, Option.bind_eq_bind, Option.bind_some]; rfl, holds_update h hb⟩
  | moveReadOffset i len =>
    obtain ⟨b, e, hb⟩ := moveReadOffset_holds (h i) hp
    exact ⟨_, by simp only [Op.exec, e, Option.bind_eq_bind, Option.bind_some]; rfl, holds_update h hb⟩
  | readAndPop i len =>
    obtain ⟨b, e, hb⟩ := moveReadOffset_holds (h i) hp
    refine ⟨_, ?_, holds_update h hb⟩
    simp only [Op.exec, readAndPop, read_eq (h i) hp, e, Option.bind_eq_bind, Option.bind_some]
    rfl
  | readAsStringAndPop i len =>
    obtain ⟨b, e, hb⟩ := moveReadOffset_holds (h i) hp
    have hl : len ≤ (s i).readAbleSize := (h i).length ▸ hp
    refine ⟨_, ?_, holds_update h hb⟩
    simp only [Op.exec, readAsStringAndPop, if_pos hl, readAsString_eq (h i) hp, e,
      Option.bind_eq_bind, Option.bind_some]
    rfl
  | getLineAndPop i =>
    obtain ⟨b, e, hb⟩ := getLineAndPop_holds (h i)
    exact ⟨_, by simp only [Op.exec, e, Option.bind_eq_bind, Option.bind_some]; rfl, holds_update h hb⟩
  | clear i => exact ⟨_, rfl, holds_update h (clear_holds (s i))⟩

theorem run_holds (ops : List (Op ι)) : ∀ {s : ι → Buffer} {q : ι → Bytes},
    (∀ i, Holds (s i) (q i)) → Permitted ops q →
      ∃ s', run ops s = some (s', (specRun ops q).2) ∧ ∀ i, Holds (s' i) ((specRun ops q).1 i) := by
  induction ops with
  | nil => exact fun h _ => ⟨_, rfl, h⟩
  | cons op ops ih =>
    intro s q h hp
    obtain ⟨s₁, e₁, h₁⟩ := exec_refines h op hp.1
    obtain ⟨s₂, e₂, h₂⟩ := ih h₁ hp.2
    refine ⟨s₂, ?_, h₂⟩
    simp only [run, e₁, e₂, Option.bind_eq_bind, Option.bind_some]
    rfl

/-- A family of new buffers under any permitted operations: no assertion
fails and no copy leaves a vector, the offsets stay in order, and the buffers
hold, and have read, what FIFO queues would. -/
theorem run_refines_queues (ops : List (Op ι)) (hp : Permitted ops fun _ => []) :
    ∃ s, run ops (fun _ => new) = some (s, (specRun ops fun _ => []).2) ∧
      ∀ i, (s i).readerIdx ≤ (s i).writerIdx ∧ (s i).writerIdx ≤ (s i).buffer.length ∧
        (s i).readable = (specRun ops fun _ => []).1 i := by
  obtain ⟨s, e, h⟩ := run_holds ops (fun _ => new_holds) hp
  exact ⟨s, e, fun i => ⟨(h i).reader_le, (h i).writer_le, (h i).readable_eq⟩⟩

/-- A line read from one buffer, and the rest of it copied into the other. -/
def lineThenRest : List (Op Bool) :=
  [.writeAndPush true (str "GET\nrest"), .getLineAndPop true, .writeBufferAndPush false true,
    .readAsStringAndPop false 3]

theorem run_refines_queues_lineThenRest :
    ∃ s, run lineThenRest (fun _ => new) = some (s, [[], str "GET\n", [], str "res"]) ∧
      ∀ i, (s i).readerIdx ≤ (s i).writerIdx ∧ (s i).writerIdx ≤ (s i).buffer.length ∧
        (s i).readable = (specRun lineThenRest fun _ => []).1 i := by
  refine run_refines_queues lineThenRest ⟨trivial, trivial, ?_, ?_, trivial⟩
  · exact Bool.false_ne_true
  · show 3 ≤ (str "rest").length
    decide

end Buffer

end Mudou
