import MitosOS.Lib.EventSystem
import MitosOS.Lib.Ring

/-! The keyboard and serial input ring of `interrupts.rs`. The handler runs `enqueue_byte` to its end
at any point of the reader's `dequeue_byte`, which is a sequence of single loads and stores. -/
namespace MitosOS.Kernel
open MitosOS.Lib

def bufferSize : ℕ := 128

structure InputRing where
  buffer : Vector (BitVec 8) bufferSize
  head : ℕ
  tail : ℕ
  deriving DecidableEq

namespace InputRing

def new : InputRing where
  buffer := Vector.replicate bufferSize 0
  head := 0
  tail := 0

/-- The test of `enqueue_byte`: one cell always stays empty. -/
def HasRoom (r : InputRing) : Prop := (r.tail + 1) % bufferSize ≠ r.head

instance (r : InputRing) : Decidable r.HasRoom := inferInstanceAs (Decidable (_ ≠ _))

/-- A byte that finds no room is dropped; `none` is an index out of bounds. -/
def enqueueByte (r : InputRing) (byte : BitVec 8) : Option InputRing :=
  if r.HasRoom then
    if h : r.tail < bufferSize then
      some { r with buffer := r.buffer.set r.tail byte, tail := (r.tail + 1) % bufferSize }
    else none
  else some r

def cell (r : InputRing) (i : ℕ) : BitVec 8 := (r.buffer[i]?).getD 0

def pending (r : InputRing) : List (BitVec 8) :=
  ringContents bufferSize r.cell r.head (ringCount bufferSize r.head r.tail)

end InputRing

/-- Where the reader is in `dequeue_byte`, with its local variables. -/
inductive ReaderPc where
  | outside
  | loadedHead (currentHead : ℕ)
  | nonEmpty (currentHead : ℕ)
  | loadedByte (currentHead : ℕ) (byte : BitVec 8)
  deriving DecidableEq

/-- The ring and its reader. `accepted` and `returned` record what went in and what came out. -/
structure Input where
  ring : InputRing
  reader : ReaderPc
  panicked : Bool
  accepted : List (BitVec 8)
  returned : List (BitVec 8)
  deriving DecidableEq

inductive InputEvent where
  /-- The interrupt handler runs `enqueue_byte`. -/
  | enqueueByte (byte : BitVec 8)
  /-- The reader's next load or store. -/
  | dequeueByte

namespace Input

def new : Input where
  ring := .new
  reader := .outside
  panicked := false
  accepted := []
  returned := []

def enqueueByte (s : Input) (byte : BitVec 8) : Input :=
  match s.ring.enqueueByte byte with
  | none => { s with panicked := true }
  | some ring =>
    { s with
      ring := ring
      accepted := if s.ring.HasRoom then s.accepted ++ [byte] else s.accepted }

def dequeueByte (s : Input) : Input :=
  match s.reader with
  | .outside => { s with reader := .loadedHead s.ring.head }
  | .loadedHead currentHead =>
    { s with reader := if currentHead = s.ring.tail then .outside else .nonEmpty currentHead }
  | .nonEmpty currentHead =>
    if currentHead < bufferSize then
      { s with reader := .loadedByte currentHead (s.ring.cell currentHead) }
    else { s with panicked := true }
  | .loadedByte currentHead byte =>
    { s with
      ring := { s.ring with head := (currentHead + 1) % bufferSize }
      reader := .outside
      returned := s.returned ++ [byte] }

end Input

/-- Nothing happens after a panic. -/
def inputSystem : EventSystem Input InputEvent where
  Enabled s _ := s.panicked = false
  next s
    | .enqueueByte byte => s.enqueueByte byte
    | .dequeueByte => s.dequeueByte

instance (s : Input) (e : InputEvent) : Decidable (inputSystem.Enabled s e) :=
  inferInstanceAs (Decidable (s.panicked = false))

/-- What the reader knows: its copy of `HEAD` is current, and once it has seen a byte the ring stays
non-empty and the byte stays the first one. -/
def ReaderPc.Knows (r : InputRing) : ReaderPc → Prop
  | .outside => True
  | .loadedHead currentHead => currentHead = r.head
  | .nonEmpty currentHead => currentHead = r.head ∧ r.head ≠ r.tail
  | .loadedByte currentHead byte => currentHead = r.head ∧ r.head ≠ r.tail ∧ byte = r.cell r.head

/-- The ring is a queue: everything accepted is returned or pending, in order. -/
structure Input.Inv (s : Input) : Prop where
  head : s.ring.head < bufferSize
  tail : s.ring.tail < bufferSize
  running : s.panicked = false
  reader : s.reader.Knows s.ring
  queue : s.accepted = s.returned ++ s.ring.pending

section Steps
variable {s : Input} {r r' : InputRing} {byte : BitVec 8}

theorem Input.inv_new : Input.new.Inv where
  head := by decide
  tail := by decide
  running := rfl
  reader := trivial
  queue := rfl

theorem InputRing.pending_length (r : InputRing) :
    r.pending.length = ringCount bufferSize r.head r.tail := length_ringContents r.cell

/-- A byte is dropped exactly when 127 are pending. -/
theorem InputRing.hasRoom_iff (hhead : r.head < bufferSize) (htail : r.tail < bufferSize) :
    r.HasRoom ↔ r.pending.length ≠ 127 := by
  rw [InputRing.pending_length]
  exact not_congr (ringCount_full hhead htail)

/-- What `enqueue_byte` does when it finds room: the cell at `TAIL` is written, then `TAIL` moves. -/
structure InputRing.Enqueued (r r' : InputRing) (byte : BitVec 8) : Prop where
  head : r'.head = r.head
  tail : r'.tail = (r.tail + 1) % bufferSize
  cell : r'.cell = Function.update r.cell r.tail byte

theorem InputRing.enqueueByte_cases (htail : r.tail < bufferSize) (byte : BitVec 8) :
    (r.HasRoom ∧ ∃ r', r.enqueueByte byte = some r' ∧ r.Enqueued r' byte) ∨
      (¬ r.HasRoom ∧ r.enqueueByte byte = some r) := by
  unfold InputRing.enqueueByte
  by_cases hroom : r.HasRoom
  · refine Or.inl ⟨hroom, ?_⟩
    rw [if_pos hroom, dif_pos htail]
    refine ⟨_, rfl, rfl, rfl, ?_⟩
    funext i
    by_cases hi : i = r.tail
    · subst hi
      simp [InputRing.cell, htail]
    · have hne : r.tail ≠ i := Ne.symm hi
      simp [InputRing.cell, Function.update_of_ne hi, hne]
  · rw [if_neg hroom]
    exact Or.inr ⟨hroom, rfl⟩

theorem InputRing.Enqueued.pending (h : r.Enqueued r' byte) (hroom : r.HasRoom)
    (hhead : r.head < bufferSize) (htail : r.tail < bufferSize) :
    r'.pending = r.pending ++ [byte] := by
  have hcount := ringCount_push hhead htail hroom
  have hlt : ringCount bufferSize r.head r.tail < bufferSize := ringCount_lt hhead htail
  have hpush := ringContents_push r.cell hhead hlt byte
  rw [add_ringCount hhead htail] at hpush
  rw [InputRing.pending, h.head, h.tail, h.cell, hcount, hpush, InputRing.pending]

/-- The handler never touches the cell at `HEAD` while the ring is not empty. -/
theorem InputRing.Enqueued.knows (h : r.Enqueued r' byte) (hroom : r.HasRoom) {pc : ReaderPc}
    (hpc : pc.Knows r) : pc.Knows r' := by
  have hne : r'.head ≠ r'.tail := by
    rw [h.head, h.tail]
    exact Ne.symm hroom
  cases pc with
  | outside => trivial
  | loadedHead currentHead => exact hpc.trans h.head.symm
  | nonEmpty currentHead => exact ⟨hpc.1.trans h.head.symm, hne⟩
  | loadedByte currentHead b =>
    obtain ⟨hhead, hnonempty, hbyte⟩ := hpc
    refine ⟨hhead.trans h.head.symm, hne, ?_⟩
    rw [hbyte, h.cell, h.head, Function.update_of_ne hnonempty]

theorem Input.Inv.enqueueByte (h : s.Inv) (byte : BitVec 8) : (s.enqueueByte byte).Inv := by
  unfold Input.enqueueByte
  rcases InputRing.enqueueByte_cases h.tail byte with ⟨hroom, r', hrun, hr'⟩ | ⟨hroom, hrun⟩
  · have hqueue : s.accepted ++ [byte] = s.returned ++ r'.pending := by
      rw [hr'.pending hroom h.head h.tail, h.queue, List.append_assoc]
    rw [hrun]
    dsimp only
    rw [if_pos hroom]
    refine ⟨?_, ?_, h.running, hr'.knows hroom h.reader, hqueue⟩
    · rw [hr'.head]
      exact h.head
    · rw [hr'.tail]
      exact Nat.mod_lt _ (by decide)
  · rw [hrun]
    dsimp only
    rw [if_neg hroom]
    exact h

theorem InputRing.pending_pop (hhead : r.head < bufferSize) (htail : r.tail < bufferSize)
    (hne : r.head ≠ r.tail) : r.pending =
      r.cell r.head :: { r with head := (r.head + 1) % bufferSize : InputRing }.pending := by
  have hcount := ringCount_pop hhead htail hne
  rw [InputRing.pending, hcount, ringContents_succ r.cell hhead]
  rfl

theorem Input.Inv.dequeueByte (h : s.Inv) : s.dequeueByte.Inv := by
  obtain ⟨hhead, htail, hrunning, hreader, hqueue⟩ := h
  unfold Input.dequeueByte
  cases hpc : s.reader with
  | outside => exact ⟨hhead, htail, hrunning, rfl, hqueue⟩
  | loadedHead currentHead =>
    rw [hpc] at hreader
    have hcurrent : currentHead = s.ring.head := hreader
    refine ⟨hhead, htail, hrunning, ?_, hqueue⟩
    dsimp only
    split_ifs with hempty
    · trivial
    · exact ⟨hcurrent, hcurrent ▸ hempty⟩
  | nonEmpty currentHead =>
    rw [hpc] at hreader
    obtain ⟨hcurrent, hne⟩ := hreader
    have hbound : currentHead < bufferSize := hcurrent ▸ hhead
    dsimp only
    rw [if_pos hbound]
    exact ⟨hhead, htail, hrunning, ⟨hcurrent, hne, by rw [hcurrent]⟩, hqueue⟩
  | loadedByte currentHead byte =>
    rw [hpc] at hreader
    obtain ⟨hcurrent, hne, hbyte⟩ := hreader
    have hpop := InputRing.pending_pop hhead htail hne
    refine ⟨Nat.mod_lt _ (by decide), htail, hrunning, trivial, ?_⟩
    dsimp only
    rw [hqueue, hpop, hcurrent, hbyte]
    simp

theorem Input.Inv.of_run (h : inputSystem.Run .new s) : s.Inv := by
  refine h.invariant (fun s e hs _ _ => ?_) Input.inv_new
  cases e with
  | enqueueByte byte => exact hs.enqueueByte byte
  | dequeueByte => exact hs.dequeueByte

end Steps

/-- In every state of every run: the indices are in bounds and no access panics; the accepted bytes
are those returned, in order, followed by those pending; the next byte is dropped exactly when 127
are pending; a test that finds the ring empty is right; and a byte that was read is the next one. -/
theorem inputRing_fifo (s : Input) (h : inputSystem.Run .new s) :
    s.ring.head < 128 ∧ s.ring.tail < 128 ∧ s.panicked = false ∧
      s.accepted = s.returned ++ s.ring.pending ∧
      (∀ byte, (s.enqueueByte byte).accepted =
        if s.ring.pending.length = 127 then s.accepted else s.accepted ++ [byte]) ∧
      (∀ currentHead, s.reader = .loadedHead currentHead →
        (s.dequeueByte.reader = .outside ↔ s.ring.pending = [])) ∧
      ∀ currentHead byte, s.reader = .loadedByte currentHead byte →
        s.ring.pending.head? = some byte := by
  have hinv := Input.Inv.of_run h
  refine ⟨hinv.head, hinv.tail, hinv.running, hinv.queue, ?_, ?_, ?_⟩
  · intro byte
    have hroom := InputRing.hasRoom_iff hinv.head hinv.tail
    unfold Input.enqueueByte
    rcases InputRing.enqueueByte_cases hinv.tail byte with ⟨hyes, r', hrun, -⟩ | ⟨hno, hrun⟩
    · simp [hrun, hyes, hroom.mp hyes]
    · simp [hrun, hno, not_not.mp fun hne => hno (hroom.mpr hne)]
  · intro currentHead hpc
    have hknows := hinv.reader
    rw [hpc] at hknows
    have hcurrent : currentHead = s.ring.head := hknows
    have hempty : s.ring.pending = [] ↔ s.ring.head = s.ring.tail := by
      rw [← List.length_eq_zero_iff, InputRing.pending_length]
      exact ringCount_eq_zero hinv.head
    unfold Input.dequeueByte
    rw [hpc, hempty, hcurrent]
    simp
  · intro currentHead byte hpc
    have hknows := hinv.reader
    rw [hpc] at hknows
    obtain ⟨-, hne, hbyte⟩ := hknows
    rw [InputRing.pending_pop hinv.head hinv.tail hne, hbyte, List.head?_cons]

/-- A second byte arrives between the reader's test and its read. -/
theorem inputRing_fifo_preempted :
    ∃ s, inputSystem.Run .new s ∧ s.returned = [7] ∧ s.ring.pending = [8] ∧
      s.accepted = s.returned ++ s.ring.pending := by
  have hreach : ∃ s, inputSystem.Run .new s ∧ s.returned = [7] ∧ s.ring.pending = [8] := by
    apply EventSystem.exists_runWhen
      [.enqueueByte 7, .dequeueByte, .dequeueByte, .enqueueByte 8, .dequeueByte, .dequeueByte]
    decide
  obtain ⟨s, hrun, hreturned, hpending⟩ := hreach
  exact ⟨s, hrun, hreturned, hpending, (inputRing_fifo s hrun).2.2.2.1⟩

end MitosOS.Kernel
