import Mudou.Buffer

/-!
# The buffer of `src/src`

`Buffer` of `src/src`: a vector with a read and a write index, and a prepend
area of eight bytes in front. `readFd` reads into the end of the vector and an
extra buffer on the stack at once, and appends what is in the extra buffer.

The constructor's `size_t` sum may wrap around. From any other buffer,
`run_refines_queue`: every sequence of operations is that of a FIFO byte queue.
-/

namespace Mudou.Src

open Fifo
open Mudou.Buffer (resize resize_eq length_resize)

structure Buffer where
  buffer : Bytes
  readerIndex : Nat
  writerIndex : Nat

/-- What `readv` does: it fills the given areas in order, or fails. -/
inductive Readv where
  | bytes (data : Bytes)
  | fail (errno : Int)

namespace Buffer

def kCheapPrepend : Nat := 8

/-- `char extrabuf[65536]` -/
def extrabufSize : Nat := 65536

def new (initialSize : UInt64) : Buffer where
  buffer := List.replicate (UInt64.ofNat kCheapPrepend + initialSize).toNat 0
  readerIndex := kCheapPrepend
  writerIndex := kCheapPrepend

def readableBytes (b : Buffer) : Nat := b.writerIndex - b.readerIndex

def writableBytes (b : Buffer) : Nat := b.buffer.length - b.writerIndex

def prependableBytes (b : Buffer) : Nat := b.readerIndex

def retrieveAll (b : Buffer) : Buffer :=
  { b with readerIndex := kCheapPrepend, writerIndex := kCheapPrepend }

def retrieve (b : Buffer) (len : Nat) : Buffer :=
  if len < b.readableBytes then { b with readerIndex := b.readerIndex + len } else b.retrieveAll

/-- `std::string(peek(), len)` -/
def peekString (b : Buffer) (len : Nat) : Option Bytes :=
  if b.readerIndex + len ≤ b.buffer.length then some (slice b.buffer b.readerIndex len) else none

def retrieveAsString (b : Buffer) (len : Nat) : Option (Bytes × Buffer) := do
  let result ← b.peekString len
  some (result, b.retrieve len)

def retrieveAllAsString (b : Buffer) : Option (Bytes × Buffer) := b.retrieveAsString b.readableBytes

def makeSpace (b : Buffer) (len : Nat) : Option Buffer :=
  if b.writableBytes + b.prependableBytes < len + kCheapPrepend then
    some { b with buffer := resize b.buffer (b.writerIndex + len) }
  else
    let readable := b.readableBytes
    if b.readerIndex + readable ≤ b.buffer.length ∧ kCheapPrepend + readable ≤ b.buffer.length then
      some {
        buffer := copyWithin readable b.buffer b.readerIndex kCheapPrepend
        readerIndex := kCheapPrepend
        writerIndex := kCheapPrepend + readable }
    else none

def ensureWriteableBytes (b : Buffer) (len : Nat) : Option Buffer :=
  if b.writableBytes < len then b.makeSpace len else some b

/-- `data` stored at `begin() + writerIndex_`. -/
def store (b : Buffer) (data : Bytes) : Option Buffer :=
  if b.writerIndex + data.length ≤ b.buffer.length then
    some { b with buffer := overwrite b.buffer b.writerIndex data }
  else none

def append (b : Buffer) (data : Bytes) : Option Buffer := do
  let b ← b.ensureWriteableBytes data.length
  let b ← b.store data
  some { b with writerIndex := b.writerIndex + data.length }

/-- The total length of the areas that `readFd` gives to `readv`. -/
def iovLength (b : Buffer) : Nat :=
  b.writableBytes + if b.writableBytes < extrabufSize then extrabufSize else 0

/-- `readv` with the areas of `readFd`: the buffer, and what is in `extrabuf`. -/
def readv (b : Buffer) (data : Bytes) : Option (Buffer × Bytes) :=
  if data.length ≤ b.iovLength then do
    let b' ← b.store (data.take b.writableBytes)
    some (b', data.drop b.writableBytes)
  else none

/-- The result, what is stored to `*saveErrno`, and the buffer. -/
def readFd (b : Buffer) : Readv → Option (Int × Option Int × Buffer)
  | .fail errno => some (-1, some errno, b)
  | .bytes data => do
    let writable := b.writableBytes
    let n := data.length
    let (b, extrabuf) ← b.readv data
    if n ≤ writable then some (n, none, { b with writerIndex := b.writerIndex + n })
    else
      let b ← { b with writerIndex := b.buffer.length }.append (extrabuf.take (n - writable))
      some (n, none, b)

/-! ## What the buffer holds -/

/-- The indices are in order behind the prepend area and inside the vector,
and the bytes between them are `q`. -/
structure Holds (b : Buffer) (q : Bytes) : Prop where
  prepend_le : kCheapPrepend ≤ b.readerIndex
  reader_le : b.readerIndex ≤ b.writerIndex
  writer_le : b.writerIndex ≤ b.buffer.length
  readable_eq : slice b.buffer b.readerIndex b.readableBytes = q

variable {b : Buffer} {q : Bytes}

theorem Holds.length (h : Holds b q) : q.length = b.readableBytes := by
  have := h.writer_le
  have := h.reader_le
  rw [← h.readable_eq, length_slice, readableBytes]
  omega

theorem Holds.new {initialSize : UInt64} (h : kCheapPrepend + initialSize.toNat < 18446744073709551616) :
    Holds (new initialSize) [] where
  prepend_le := Nat.le_refl _
  reader_le := Nat.le_refl _
  writer_le := by
    show kCheapPrepend ≤ (List.replicate (UInt64.ofNat kCheapPrepend + initialSize).toNat 0).length
    rw [List.length_replicate, UInt64.toNat_add]
    show 8 ≤ (8 + initialSize.toNat) % 18446744073709551616
    rw [kCheapPrepend] at h
    omega
  readable_eq := by
    show slice _ _ (kCheapPrepend - kCheapPrepend) = []
    simp [slice]

theorem Holds.retrieveAll (h : Holds b q) : Holds b.retrieveAll [] where
  prepend_le := Nat.le_refl _
  reader_le := Nat.le_refl _
  writer_le := Nat.le_trans h.prepend_le (Nat.le_trans h.reader_le h.writer_le)
  readable_eq := by
    show slice _ _ (kCheapPrepend - kCheapPrepend) = []
    simp [slice]

theorem Holds.retrieve (h : Holds b q) (len : Nat) : Holds (b.retrieve len) (q.drop len) := by
  have hl := h.length
  rw [Buffer.retrieve]
  by_cases hlt : len < b.readableBytes
  · rw [if_pos hlt]
    have hw := h.writer_le
    rw [readableBytes] at hlt hl
    refine ⟨Nat.le_trans h.prepend_le (Nat.le_add_right ..), ?_, hw, ?_⟩
    · show b.readerIndex + len ≤ b.writerIndex
      omega
    · show slice b.buffer (b.readerIndex + len) (b.writerIndex - (b.readerIndex + len)) = q.drop len
      rw [← h.readable_eq, slice, slice, readableBytes, List.drop_take, List.drop_drop, Nat.sub_add_eq]
  · rw [if_neg hlt, List.drop_of_length_le (by omega)]
    exact h.retrieveAll

theorem Holds.peekString (h : Holds b q) {len : Nat} (hn : len ≤ q.length) :
    b.peekString len = some (q.take len) := by
  have hw := h.writer_le
  have hr := h.reader_le
  have hl := h.length
  rw [readableBytes] at hl
  rw [Buffer.peekString, if_pos (by omega), ← h.readable_eq, slice, slice, List.take_take, readableBytes,
    Nat.min_eq_left (by omega)]

theorem Holds.retrieveAsString (h : Holds b q) {len : Nat} (hn : len ≤ q.length) :
    ∃ b', b.retrieveAsString len = some (q.take len, b') ∧ Holds b' (q.drop len) :=
  ⟨b.retrieve len, by rw [Buffer.retrieveAsString, h.peekString hn]; rfl, h.retrieve len⟩

/-! ## Writing -/

/-- Compaction or growth: the space is there and the content is kept. The copy
goes to the front, so it never reads what it wrote. -/
theorem Holds.makeSpace (h : Holds b q) {len : Nat} (hlt : b.writableBytes < len) :
    ∃ b', b.makeSpace len = some b' ∧ Holds b' q ∧ len ≤ b'.writableBytes := by
  have hp := h.prepend_le
  have hr := h.reader_le
  have hw := h.writer_le
  rw [Buffer.makeSpace]
  by_cases hg : b.writableBytes + b.prependableBytes < len + kCheapPrepend
  · have hle : b.buffer.length ≤ b.writerIndex + len := by
      rw [writableBytes] at hlt
      omega
    have hlen := length_resize hle
    refine ⟨_, if_pos hg, ⟨hp, hr, ?_, ?_⟩, ?_⟩
    · show b.writerIndex ≤ (resize _ _).length
      omega
    · show slice (resize b.buffer (b.writerIndex + len)) b.readerIndex b.readableBytes = q
      rw [resize_eq hle, slice_append_left _ (by rw [readableBytes]; omega), h.readable_eq]
    · show len ≤ (resize b.buffer (b.writerIndex + len)).length - b.writerIndex
      omega
  · have hin : b.readerIndex + b.readableBytes ≤ b.buffer.length := by
      rw [readableBytes]
      omega
    have hout : kCheapPrepend + b.readableBytes ≤ b.buffer.length := by omega
    have hs : (slice b.buffer b.readerIndex b.readableBytes).length = b.readableBytes := by
      rw [length_slice]
      omega
    have hc := copyWithin_eq b.readableBytes b.buffer b.readerIndex kCheapPrepend hp hin
    have hlen : (copyWithin b.readableBytes b.buffer b.readerIndex kCheapPrepend).length = b.buffer.length := by
      rw [hc, length_overwrite (by omega)]
    refine ⟨_, by rw [if_neg hg]; exact if_pos ⟨hin, hout⟩, ⟨Nat.le_refl _, Nat.le_add_right .., ?_, ?_⟩, ?_⟩
    · show kCheapPrepend + b.readableBytes ≤ (copyWithin _ _ _ _).length
      omega
    · show slice (copyWithin b.readableBytes b.buffer b.readerIndex kCheapPrepend) kCheapPrepend
        (kCheapPrepend + b.readableBytes - kCheapPrepend) = q
      rw [hc, Nat.add_sub_cancel_left, ← h.readable_eq]
      conv => lhs; arg 3; rw [← hs]
      exact slice_overwrite_self (by omega)
    · show len ≤ (copyWithin b.readableBytes b.buffer b.readerIndex kCheapPrepend).length -
        (kCheapPrepend + b.readableBytes)
      rw [writableBytes, prependableBytes] at hg
      rw [hlen, readableBytes]
      omega

theorem Holds.ensureWriteableBytes (h : Holds b q) (len : Nat) :
    ∃ b', b.ensureWriteableBytes len = some b' ∧ Holds b' q ∧ len ≤ b'.writableBytes := by
  rw [Buffer.ensureWriteableBytes]
  by_cases hlt : b.writableBytes < len
  · rw [if_pos hlt]
    exact h.makeSpace hlt
  · exact ⟨b, if_neg hlt, h, Nat.le_of_not_lt hlt⟩

/-- Bytes stored behind the write index, which moves behind them. -/
theorem Holds.store (h : Holds b q) {data : Bytes} (hd : data.length ≤ b.writableBytes) :
    ∃ b', b.store data = some b' ∧ b'.buffer.length = b.buffer.length ∧ b'.writerIndex = b.writerIndex ∧
      Holds { b' with writerIndex := b.writerIndex + data.length } (q ++ data) := by
  have hr := h.reader_le
  have hw := h.writer_le
  rw [writableBytes] at hd
  have hin : b.writerIndex + data.length ≤ b.buffer.length := by omega
  have hlen := length_overwrite hin
  refine ⟨_, if_pos hin, hlen, rfl, h.prepend_le, ?_, ?_, ?_⟩
  · show b.readerIndex ≤ b.writerIndex + data.length
    omega
  · show b.writerIndex + data.length ≤ (overwrite _ _ _).length
    omega
  · show slice (overwrite b.buffer b.writerIndex data) b.readerIndex
      (b.writerIndex + data.length - b.readerIndex) = q ++ data
    have hb : b.readerIndex + (b.writerIndex - b.readerIndex) = b.writerIndex := by omega
    rw [show b.writerIndex + data.length - b.readerIndex = b.writerIndex - b.readerIndex + data.length by omega,
      ← slice_append_slice, hb, slice_overwrite_self hin, slice_overwrite_before (by omega) hin,
      ← h.readable_eq, readableBytes]

theorem Holds.append (h : Holds b q) (data : Bytes) :
    ∃ b', b.append data = some b' ∧ Holds b' (q ++ data) := by
  obtain ⟨b₁, e₁, h₁, hd⟩ := h.ensureWriteableBytes data.length
  obtain ⟨b₂, e₂, _, hw, h₂⟩ := h₁.store hd
  refine ⟨_, by rw [Buffer.append, e₁]; simp only [Option.bind_eq_bind, Option.bind_some, e₂]; rfl, ?_⟩
  rw [hw]
  exact h₂

theorem Holds.readFd (h : Holds b q) {data : Bytes} (hd : data.length ≤ b.iovLength) :
    ∃ b', b.readFd (.bytes data) = some ((data.length : Int), none, b') ∧ Holds b' (q ++ data) := by
  have hw := h.writer_le
  have ht : (data.take b.writableBytes).length ≤ b.writableBytes := by
    rw [List.length_take]
    omega
  obtain ⟨b₁, e₁, hl₁, hw₁, h₁⟩ := h.store ht
  have er : b.readv data = some (b₁, data.drop b.writableBytes) := by
    rw [readv, if_pos hd, e₁]
    rfl
  rw [Buffer.readFd]
  simp only [er, Option.bind_eq_bind, Option.bind_some]
  by_cases hn : data.length ≤ b.writableBytes
  · rw [if_pos hn]
    refine ⟨_, rfl, ?_⟩
    rw [List.take_of_length_le hn] at h₁
    rw [hw₁]
    exact h₁
  · rw [if_neg hn]
    have hfull : b.writerIndex + (data.take b.writableBytes).length = b₁.buffer.length := by
      rw [List.length_take, hl₁, writableBytes] at *
      omega
    rw [hfull] at h₁
    obtain ⟨b₂, e₂, h₂⟩ := h₁.append ((data.drop b.writableBytes).take (data.length - b.writableBytes))
    refine ⟨b₂, by rw [e₂]; rfl, ?_⟩
    have hrest : (data.drop b.writableBytes).length ≤ data.length - b.writableBytes :=
      Nat.le_of_eq List.length_drop
    rw [List.take_of_length_le hrest, List.append_assoc, List.take_append_drop] at h₂
    exact h₂

/-! ## Sequences of operations -/

inductive Op where
  | append (data : Bytes)
  | retrieve (len : Nat)
  | retrieveAll
  | retrieveAsString (len : Nat)
  | retrieveAllAsString
  | readFd (r : Readv)

/-- An operation, with the string it returns. -/
def Op.exec (b : Buffer) : Op → Option (Bytes × Buffer)
  | .append data => (b.append data).map fun b => ([], b)
  | .retrieve len => some ([], b.retrieve len)
  | .retrieveAll => some ([], b.retrieveAll)
  | .retrieveAsString len => b.retrieveAsString len
  | .retrieveAllAsString => b.retrieveAllAsString
  | .readFd r => (b.readFd r).map fun r => ([], r.2.2)

/-- The same operation on a queue. -/
def Op.spec (q : Bytes) : Op → Bytes × Bytes
  | .append data => ([], q ++ data)
  | .retrieve len => ([], q.drop len)
  | .retrieveAll => ([], [])
  | .retrieveAsString len => (q.take len, q.drop len)
  | .retrieveAllAsString => (q, [])
  | .readFd (.bytes data) => ([], q ++ data)
  | .readFd (.fail _) => ([], q)

/-- A string is no longer than what is readable, and `readv` stays within the
areas it is given. -/
def Op.Pre (b : Buffer) : Op → Prop
  | .retrieveAsString len => len ≤ b.readableBytes
  | .readFd (.bytes data) => data.length ≤ b.iovLength
  | _ => True

/-- A run, with the strings it returns. -/
def run : List Op → Buffer → Option (List Bytes × Buffer)
  | [], b => some ([], b)
  | op :: ops, b => do
    let (s, b) ← op.exec b
    let (rest, b) ← run ops b
    some (s :: rest, b)

def specRun : List Op → Bytes → List Bytes × Bytes
  | [], q => ([], q)
  | op :: ops, q =>
    let (s, q) := op.spec q
    let (rest, q) := specRun ops q
    (s :: rest, q)

/-- Every operation's precondition holds when it is its turn. -/
def Permitted : List Op → Buffer → Prop
  | [], _ => True
  | op :: ops, b => op.Pre b ∧ ∀ s b', op.exec b = some (s, b') → Permitted ops b'

theorem Holds.exec (h : Holds b q) {op : Op} (hp : op.Pre b) :
    ∃ b', op.exec b = some ((op.spec q).1, b') ∧ Holds b' (op.spec q).2 := by
  have hl := h.length
  cases op with
  | append data =>
    obtain ⟨b', e, h'⟩ := h.append data
    exact ⟨b', by rw [Op.exec, e]; rfl, h'⟩
  | retrieve len => exact ⟨_, rfl, h.retrieve len⟩
  | retrieveAll => exact ⟨_, rfl, h.retrieveAll⟩
  | retrieveAsString len => exact h.retrieveAsString (le_of_le_of_eq hp hl.symm)
  | retrieveAllAsString =>
    obtain ⟨b', e, h'⟩ := h.retrieveAsString (Nat.le_refl _)
    refine ⟨b', ?_, ?_⟩
    · rw [Op.exec, retrieveAllAsString, ← hl, e, List.take_length]
      rfl
    · rw [List.drop_length] at h'
      exact h'
  | readFd r =>
    cases r with
    | fail errno => exact ⟨b, rfl, h⟩
    | bytes data =>
      obtain ⟨b', e, h'⟩ := h.readFd hp
      exact ⟨b', by rw [Op.exec, e]; rfl, h'⟩

theorem Holds.run (ops : List Op) : ∀ {b : Buffer} {q : Bytes}, Holds b q → Permitted ops b →
    ∃ b', run ops b = some ((specRun ops q).1, b') ∧ Holds b' (specRun ops q).2 := by
  induction ops with
  | nil => exact fun h _ => ⟨_, rfl, h⟩
  | cons op ops ih =>
    intro b q h hp
    obtain ⟨b₁, e₁, h₁⟩ := h.exec hp.1
    obtain ⟨b₂, e₂, h₂⟩ := ih h₁ (hp.2 _ _ e₁)
    refine ⟨b₂, ?_, h₂⟩
    simp only [Buffer.run, e₁, e₂, Option.bind_eq_bind, Option.bind_some]
    rfl

/-- Unless the size of the vector wraps around: every sequence of operations on
a new buffer stays inside the vector, returns what a FIFO queue returns, and
leaves the queue between indices that are in order. -/
theorem run_refines_queue (initialSize : UInt64)
    (hsize : kCheapPrepend + initialSize.toNat < 18446744073709551616) (ops : List Op)
    (hp : Permitted ops (new initialSize)) :
    ∃ b, run ops (new initialSize) = some ((specRun ops []).1, b) ∧ Holds b (specRun ops []).2 :=
  (Holds.new hsize).run ops hp

theorem run_refines_queue_spill : ∃ b, run [.append [1, 2, 3], .readFd (.bytes [4]), .retrieveAllAsString] (new 0) =
    some ([[], [], [1, 2, 3, 4]], b) ∧ Holds b [] := by
  refine run_refines_queue 0 (by decide) _ ⟨trivial, fun s b _ => ⟨?_, fun _ _ _ => ⟨trivial, fun _ _ _ => trivial⟩⟩⟩
  show 1 ≤ b.iovLength
  rw [iovLength, extrabufSize]
  split <;> omega

/-- The sum of the prepend area and the largest `size_t` is seven: the indices
of the new buffer are outside its vector. -/
theorem largest_not_holds : ¬ ∀ (initialSize : UInt64) (ops : List Op), Permitted ops (new initialSize) →
    ∃ b, run ops (new initialSize) = some ((specRun ops []).1, b) ∧ Holds b (specRun ops []).2 := by
  intro h
  obtain ⟨b, e, hb⟩ := h 18446744073709551615 [] trivial
  obtain rfl : new 18446744073709551615 = b := congrArg Prod.snd (Option.some.inj e)
  exact absurd hb.writer_le (by decide)

end Buffer

end Mudou.Src
