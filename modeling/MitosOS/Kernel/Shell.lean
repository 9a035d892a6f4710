import MitosOS.Drivers.Uart
import MitosOS.Kernel.SystemCalls

/-! The loop of `shell::run`: a line editor between the input ring and the serial line. What the
commands do and write is a parameter. -/
namespace MitosOS.Kernel
open MitosOS.Lib
open MitosOS.Drivers (uartWriteStr)

def backspace : BitVec 8 := 0x08
def delete : BitVec 8 := 0x7F
def blank : BitVec 8 := 0x20

def greeting : List (BitVec 8) := textBytes "\nmitosOS shell -- type 'help' for commands.\n"
def prompt : List (BitVec 8) := textBytes "mitosOS> "

def isEnter (b : BitVec 8) : Bool := b == 0x0D || b == 0x0A
def isErase (b : BitVec 8) : Bool := b == backspace || b == delete
def isPrintable (b : BitVec 8) : Bool := decide (0x20 ≤ b.toNat) && decide (b.toNat < 0x7F)

/-- `str::trim`; the blank is the only white space that gets into a line. -/
def trimLine (line : List (BitVec 8)) : List (BitVec 8) :=
  ((line.dropWhile (· == blank)).reverse.dropWhile (· == blank)).reverse

/-- `run_command`, given the command, the history with it and the rest of the system: the system
afterwards, and what was sent to the UART. -/
abbrev Commands (σ : Type) := List (BitVec 8) → List (List (BitVec 8)) → σ → σ × List (BitVec 8)

/-- The local variables of `run`, the system around it, and all that was sent to the UART. -/
structure Shell (σ : Type) where
  currentLine : List (BitVec 8)
  history : List (List (BitVec 8))
  system : σ
  sent : List (BitVec 8)

namespace Shell
variable {σ : Type} (commands : Commands σ)

def send (s : Shell σ) (bytes : List (BitVec 8)) : Shell σ := { s with sent := s.sent ++ bytes }

def start (system : σ) : Shell σ where
  currentLine := []
  history := []
  system := system
  sent := uartWriteStr greeting ++ uartWriteStr prompt

def execute (s : Shell σ) (line : List (BitVec 8)) : Shell σ :=
  if line = [] then s
  else
    { s with
      history := s.history ++ [line]
      system := (commands line (s.history ++ [line]) s.system).1
      sent := s.sent ++ (commands line (s.history ++ [line]) s.system).2 }

def enter (s : Shell σ) : Shell σ :=
  ({ (s.send (uartWriteStr [0x0A])).execute commands (trimLine s.currentLine) with
    currentLine := [] }).send (uartWriteStr prompt)

def erase (s : Shell σ) : Shell σ :=
  if s.currentLine = [] then s
  else { s with currentLine := s.currentLine.dropLast }.send [backspace, blank, backspace]

def type (s : Shell σ) (b : BitVec 8) : Shell σ :=
  if s.currentLine.length < 1024 then { s with currentLine := s.currentLine ++ [b] }.send [b] else s

def handle (s : Shell σ) (b : BitVec 8) : Shell σ :=
  if isEnter b then s.enter commands
  else if isErase b then s.erase
  else if isPrintable b then s.type b
  else s

end Shell

/-- The shell with the ring that the interrupt handler fills. `accepted` records the bytes that
found room. -/
structure ShellSession (σ : Type) where
  ring : InputRing
  shell : Shell σ
  panicked : Bool
  accepted : List (BitVec 8)

inductive ShellEvent where
  /-- The interrupt handler runs `enqueue_byte`. -/
  | receive (byte : BitVec 8)
  /-- One round of the loop; interrupts are masked while it looks at the ring. -/
  | poll

namespace ShellSession
variable {σ : Type} (commands : Commands σ)

def boot (system : σ) : ShellSession σ where
  ring := .new
  shell := .start system
  panicked := false
  accepted := []

def receive (c : ShellSession σ) (byte : BitVec 8) : ShellSession σ :=
  match c.ring.enqueueByte byte with
  | none => { c with panicked := true }
  | some ring =>
    { c with
      ring := ring
      accepted := if c.ring.HasRoom then c.accepted ++ [byte] else c.accepted }

def poll (c : ShellSession σ) : ShellSession σ :=
  match c.ring.dequeueByte with
  | none => { c with panicked := true }
  | some (none, _) => c
  | some (some byte, ring) =>
    { c with
      ring := ring
      shell := c.shell.handle commands byte }

end ShellSession

def shellSystem {σ : Type} (commands : Commands σ) : EventSystem (ShellSession σ) ShellEvent where
  Enabled c _ := c.panicked = false
  next c
    | .receive byte => c.receive byte
    | .poll => c.poll commands

/-! What a terminal at the other end shows. -/

/-- The row of the cursor, of any width: what stands before the cursor, the nearest first, and what
stands after it. -/
structure Row where
  left : List (BitVec 8)
  right : List (BitVec 8)

namespace Row

/-- A line feed opens an empty row in the same column; other control bytes show nothing. -/
def put (r : Row) (b : BitVec 8) : Row :=
  if b = 0x0A then ⟨r.left.map fun _ => blank, []⟩
  else if b = 0x0D then ⟨[], r.left.reverse ++ r.right⟩
  else if b = backspace then
    match r.left with
    | [] => r
    | c :: left => ⟨left, c :: r.right⟩
  else if b.toNat < 0x20 ∨ b = delete then r
  else ⟨b :: r.left, r.right.drop 1⟩

def showAll (r : Row) (bytes : List (BitVec 8)) : Row := bytes.foldl put r

def empty : Row := ⟨[], []⟩

def RightBlank (r : Row) : Prop := ∀ b ∈ r.right, b = blank

end Row

/-- No command leaves anything but blanks behind the cursor. -/
def Commands.Tidy {σ : Type} (commands : Commands σ) : Prop :=
  ∀ line history system (r : Row), r.RightBlank →
    (r.showAll (commands line history system).2).RightBlank

section Rows
variable {r : Row} {b : BitVec 8}

theorem Row.showAll_append (r : Row) (xs ys : List (BitVec 8)) :
    r.showAll (xs ++ ys) = (r.showAll xs).showAll ys := List.foldl_append

theorem Row.put_printable (r : Row) (h : isPrintable b = true) :
    r.put b = ⟨b :: r.left, r.right.drop 1⟩ := by
  obtain ⟨hlow, hhigh⟩ := Bool.and_eq_true_iff.mp h
  have hlow : 0x20 ≤ b.toNat := of_decide_eq_true hlow
  have hhigh : b.toNat < 0x7F := of_decide_eq_true hhigh
  have hne : ∀ c : BitVec 8, c.toNat < 0x20 ∨ 0x7F ≤ c.toNat → b ≠ c := by
    rintro c hc rfl
    omega
  have hcontrol : ¬ (b.toNat < 0x20 ∨ b = delete) := by
    rintro (hcon | hcon)
    · omega
    · exact hne delete (.inr (by decide)) hcon
  rw [Row.put, if_neg (hne 0x0A (.inl (by decide))), if_neg (hne 0x0D (.inl (by decide))),
    if_neg (hne backspace (.inl (by decide))), if_neg hcontrol]

theorem Row.showAll_printable (bytes : List (BitVec 8)) : ∀ (r : Row),
    (∀ b ∈ bytes, isPrintable b = true) →
    (r.showAll bytes).left = bytes.reverse ++ r.left ∧
      (r.RightBlank → (r.showAll bytes).RightBlank) := by
  induction bytes with
  | nil => exact fun r _ => ⟨rfl, fun h => h⟩
  | cons b bytes ih =>
    intro r h
    obtain ⟨hleft, hright⟩ := ih (r.put b) fun c hc => h c (List.mem_cons_of_mem _ hc)
    have hput := r.put_printable (h b List.mem_cons_self)
    rw [hput] at hleft hright
    constructor
    · change ((r.put b).showAll bytes).left = _
      rw [hput, hleft, List.reverse_cons, List.append_assoc]
      rfl
    · intro hblank
      change ((r.put b).showAll bytes).RightBlank
      rw [hput]
      exact hright fun c hc => hblank c (List.mem_of_mem_drop hc)

/-- Backspace, blank, backspace: the byte before the cursor is gone and a blank stands after it. -/
theorem Row.showAll_erase {left right : List (BitVec 8)} (b : BitVec 8) :
    (⟨b :: left, right⟩ : Row).showAll [backspace, blank, backspace] = ⟨left, blank :: right⟩ := rfl

theorem Row.newline (r : Row) : (r.showAll (uartWriteStr [0x0A])).RightBlank :=
  fun _ hb => absurd hb List.not_mem_nil

theorem printable_prompt : ∀ b ∈ prompt, isPrintable b = true := by decide +kernel

theorem uartWriteStr_prompt : uartWriteStr prompt = prompt := by decide +kernel

end Rows

namespace Shell
variable {σ : Type} {commands : Commands σ} {s : Shell σ} {b : BitVec 8}

def row (s : Shell σ) : Row := Row.empty.showAll s.sent

/-- The prompt and the line stand before the cursor. -/
structure Shown (commands : Commands σ) (s : Shell σ) : Prop where
  printable : ∀ b ∈ s.currentLine, isPrintable b = true
  bounded : s.currentLine.length ≤ 1024
  left : ∃ rest, s.row.left = s.currentLine.reverse ++ (prompt.reverse ++ rest)
  right : commands.Tidy → s.row.RightBlank

theorem row_send (s : Shell σ) (bytes : List (BitVec 8)) :
    (s.send bytes).row = s.row.showAll bytes :=
  Row.showAll_append _ _ _

/-- After a prompt the line is empty and shown as such, whatever was on the screen. -/
theorem shown_prompt (hline : s.currentLine = []) (hright : commands.Tidy → s.row.RightBlank) :
    (s.send (uartWriteStr prompt)).Shown commands := by
  obtain ⟨hleft, hblank⟩ := Row.showAll_printable prompt s.row printable_prompt
  have hempty : (s.send (uartWriteStr prompt)).currentLine = [] := hline
  constructor
  · rw [hempty]
    exact fun _ hb => absurd hb List.not_mem_nil
  · rw [hempty]
    exact Nat.zero_le _
  · rw [hempty, row_send, uartWriteStr_prompt]
    exact ⟨s.row.left, hleft⟩
  · rw [row_send, uartWriteStr_prompt]
    exact fun htidy => hblank (hright htidy)

theorem shown_start (system : σ) : (start system).Shown commands := by
  have hgreeting : commands.Tidy →
      (⟨[], [], system, uartWriteStr greeting⟩ : Shell σ).row.RightBlank := by
    intro _
    have hright : (Row.empty.showAll (uartWriteStr greeting)).right = [] := by decide +kernel
    intro b hb
    change b ∈ (Row.empty.showAll (uartWriteStr greeting)).right at hb
    rw [hright] at hb
    exact absurd hb List.not_mem_nil
  exact shown_prompt (s := ⟨[], [], system, uartWriteStr greeting⟩) rfl hgreeting

theorem shown_enter (s : Shell σ) : (s.enter commands).Shown commands := by
  apply shown_prompt rfl
  intro htidy
  have hnewline : (s.send (uartWriteStr [0x0A])).row.RightBlank := by
    rw [row_send]
    exact Row.newline s.row
  change ((s.send (uartWriteStr [0x0A])).execute commands (trimLine s.currentLine)).row.RightBlank
  unfold execute
  split_ifs
  · exact hnewline
  · change ((s.send (uartWriteStr [0x0A])).send _).row.RightBlank
    rw [row_send]
    exact htidy _ _ _ _ hnewline

theorem Shown.erase (h : s.Shown commands) : s.erase.Shown commands := by
  unfold Shell.erase
  split_ifs with hempty
  · exact h
  · obtain ⟨rest, hleft⟩ := h.left
    obtain ⟨line, b, hline⟩ : ∃ line b, s.currentLine = line ++ [b] :=
      ⟨_, _, (List.dropLast_append_getLast hempty).symm⟩
    have hdrop : s.currentLine.dropLast = line := by
      rw [hline, List.dropLast_concat]
    rw [hline, List.reverse_append] at hleft
    have hrow : s.row = ⟨b :: (line.reverse ++ (prompt.reverse ++ rest)), s.row.right⟩ :=
      congrArg (fun left => (⟨left, s.row.right⟩ : Row)) hleft
    have hshown : ({ s with currentLine := s.currentLine.dropLast }.send
        [backspace, blank, backspace]).row =
          ⟨line.reverse ++ (prompt.reverse ++ rest), blank :: s.row.right⟩ := by
      rw [row_send]
      change s.row.showAll _ = _
      rw [hrow, Row.showAll_erase]
    constructor
    · intro c hc
      exact h.printable c (List.mem_of_mem_dropLast hc)
    · change s.currentLine.dropLast.length ≤ 1024
      rw [List.length_dropLast]
      exact Nat.le_trans (Nat.sub_le _ _) h.bounded
    · rw [hshown]
      change ∃ rest', _ = s.currentLine.dropLast.reverse ++ (prompt.reverse ++ rest')
      rw [hdrop]
      exact ⟨rest, rfl⟩
    · intro htidy
      rw [hshown]
      intro c hc
      rcases List.mem_cons.mp hc with hc | hc
      · exact hc
      · exact h.right htidy c hc

theorem Shown.type (h : s.Shown commands) (hb : isPrintable b = true) :
    (s.type b).Shown commands := by
  unfold Shell.type
  split_ifs with hroom
  · obtain ⟨rest, hleft⟩ := h.left
    have hshown : ({ s with currentLine := s.currentLine ++ [b] }.send [b]).row =
        ⟨b :: s.row.left, s.row.right.drop 1⟩ := by
      rw [row_send]
      exact s.row.put_printable hb
    constructor
    · intro c hc
      rcases List.mem_append.mp hc with hc | hc
      · exact h.printable c hc
      · rw [List.mem_singleton.mp hc]
        exact hb
    · change (s.currentLine ++ [b]).length ≤ 1024
      rw [List.length_append]
      exact hroom
    · rw [hshown]
      change ∃ rest', b :: s.row.left = (s.currentLine ++ [b]).reverse ++ (prompt.reverse ++ rest')
      rw [hleft, List.reverse_append]
      exact ⟨rest, rfl⟩
    · intro htidy
      rw [hshown]
      intro c hc
      exact h.right htidy c (List.mem_of_mem_drop hc)
  · exact h

theorem Shown.handle (h : s.Shown commands) (b : BitVec 8) :
    (s.handle commands b).Shown commands := by
  unfold Shell.handle
  split_ifs with henter herase hprintable
  · exact shown_enter s
  · exact h.erase
  · exact h.type hprintable
  · exact h

end Shell

def editLine (line : List (BitVec 8)) (b : BitVec 8) : List (BitVec 8) :=
  if isErase b then line.dropLast
  else if isPrintable b && decide (line.length < 1024) then line ++ [b]
  else line

def edited (keys : List (BitVec 8)) : List (BitVec 8) := keys.foldl editLine []

/-- The commands of the lines that were entered: edited, trimmed, and not blank. -/
def enteredCommands (lines : List (List (BitVec 8) × BitVec 8)) : List (List (BitVec 8)) :=
  (lines.map fun l => trimLine (edited l.1)).filter (· ≠ [])

/-- The system after the commands, each run with the history up to it. -/
def runCommands {σ : Type} (commands : Commands σ) (system : σ)
    (history : List (List (BitVec 8))) : σ :=
  (history.foldl (fun (done : List (List (BitVec 8)) × σ) line =>
    (done.1 ++ [line], (commands line (done.1 ++ [line]) done.2).1)) ([], system)).2

/-- The shell has read `heard`: complete lines, each with the byte that ended it, and the keys
since. -/
structure Shell.Read {σ : Type} (commands : Commands σ) (system : σ) (heard : List (BitVec 8))
    (lines : List (List (BitVec 8) × BitVec 8)) (keys : List (BitVec 8)) (s : Shell σ) : Prop where
  split : heard = lines.flatMap (fun l => l.1 ++ [l.2]) ++ keys
  entered : ∀ l ∈ lines, isEnter l.2 = true ∧ ∀ b ∈ l.1, isEnter b = false
  unfinished : ∀ b ∈ keys, isEnter b = false
  history : s.history = enteredCommands lines
  currentLine : s.currentLine = edited keys
  executed : s.system = runCommands commands system s.history

section Reading
variable {σ : Type} {commands : Commands σ} {system : σ} {s : Shell σ} {b : BitVec 8}
  {heard keys : List (BitVec 8)} {lines : List (List (BitVec 8) × BitVec 8)}

theorem edited_concat (keys : List (BitVec 8)) (b : BitVec 8) :
    edited (keys ++ [b]) = editLine (edited keys) b := by
  rw [edited, List.foldl_append]
  rfl

theorem enteredCommands_concat (lines : List (List (BitVec 8) × BitVec 8))
    (l : List (BitVec 8) × BitVec 8) :
    enteredCommands (lines ++ [l]) =
      enteredCommands lines ++ [trimLine (edited l.1)].filter (· ≠ []) := by
  rw [enteredCommands, List.map_append, List.filter_append]
  rfl

theorem runCommands_concat (history : List (List (BitVec 8))) (line : List (BitVec 8)) :
    runCommands commands system (history ++ [line]) =
      (commands line (history ++ [line]) (runCommands commands system history)).1 := by
  -- the fold carries the commands that have been run
  have hdone : ∀ (rest done : List (List (BitVec 8))) (system : σ),
      (rest.foldl (fun (done : List (List (BitVec 8)) × σ) line =>
        (done.1 ++ [line], (commands line (done.1 ++ [line]) done.2).1)) (done, system)).1 =
        done ++ rest := by
    intro rest
    induction rest with
    | nil => exact fun done _ => (List.append_nil done).symm
    | cons line rest ih =>
      intro done system
      rw [List.foldl_cons, ih, List.append_assoc]
      rfl
  rw [runCommands, List.foldl_append, List.foldl_cons, List.foldl_nil, hdone, List.nil_append]
  rfl

theorem Shell.handle_key (commands : Commands σ) (s : Shell σ) (hkey : isEnter b = false) :
    (s.handle commands b).currentLine = editLine s.currentLine b ∧
      (s.handle commands b).history = s.history ∧ (s.handle commands b).system = s.system := by
  unfold Shell.handle editLine
  rw [hkey, if_neg Bool.false_ne_true]
  split_ifs with herase hprintable htype htype
  · unfold Shell.erase
    split_ifs with hempty
    · rw [hempty]
      exact ⟨rfl, rfl, rfl⟩
    · exact ⟨rfl, rfl, rfl⟩
  · unfold Shell.type
    rw [if_pos (of_decide_eq_true (Bool.and_eq_true_iff.mp htype).2)]
    exact ⟨rfl, rfl, rfl⟩
  · unfold Shell.type
    have hfull : ¬ s.currentLine.length < 1024 := by
      intro hroom
      exact htype (Bool.and_eq_true_iff.mpr ⟨hprintable, decide_eq_true hroom⟩)
    rw [if_neg hfull]
    exact ⟨rfl, rfl, rfl⟩
  · exact absurd (Bool.and_eq_true_iff.mp htype).1 hprintable
  · exact ⟨rfl, rfl, rfl⟩

theorem Shell.Read.start (system : σ) :
    (Shell.start system).Read commands system [] [] [] where
  split := rfl
  entered _ hl := absurd hl List.not_mem_nil
  unfinished _ hb := absurd hb List.not_mem_nil
  history := rfl
  currentLine := rfl
  executed := rfl

theorem Shell.Read.key (h : s.Read commands system heard lines keys) (hkey : isEnter b = false) :
    (s.handle commands b).Read commands system (heard ++ [b]) lines (keys ++ [b]) := by
  obtain ⟨hline, hhistory, hsystem⟩ := Shell.handle_key commands s hkey
  refine ⟨?_, h.entered, ?_, ?_, ?_, ?_⟩
  · rw [h.split, List.append_assoc]
  · intro c hc
    rcases List.mem_append.mp hc with hc | hc
    · exact h.unfinished c hc
    · rw [List.mem_singleton.mp hc]
      exact hkey
  · rw [hhistory, h.history]
  · rw [hline, h.currentLine, edited_concat]
  · rw [hsystem, hhistory, h.executed]

theorem Shell.Read.enter (h : s.Read commands system heard lines keys) (henter : isEnter b = true) :
    (s.handle commands b).Read commands system (heard ++ [b]) (lines ++ [(keys, b)]) [] := by
  have hhandle : s.handle commands b = s.enter commands := if_pos henter
  have hresult : (s.enter commands).history = enteredCommands (lines ++ [(keys, b)]) ∧
      (s.enter commands).system = runCommands commands system (s.enter commands).history := by
    rw [enteredCommands_concat, ← h.history, ← h.currentLine]
    change ((s.send (uartWriteStr [0x0A])).execute commands (trimLine s.currentLine)).history = _ ∧
      ((s.send (uartWriteStr [0x0A])).execute commands (trimLine s.currentLine)).system =
        runCommands commands system
          ((s.send (uartWriteStr [0x0A])).execute commands (trimLine s.currentLine)).history
    unfold Shell.execute
    split_ifs with hblank
    · rw [hblank]
      exact ⟨(List.append_nil _).symm, h.executed⟩
    · constructor
      · rw [List.filter_singleton, decide_eq_true hblank]
        rfl
      · change _ = runCommands commands system (s.history ++ [trimLine s.currentLine])
        rw [runCommands_concat, ← h.executed]
        rfl
  rw [hhandle]
  refine ⟨?_, ?_, fun _ hb => absurd hb List.not_mem_nil, hresult.1, rfl, hresult.2⟩
  · rw [h.split, List.flatMap_append, List.flatMap_singleton, List.append_nil, List.append_assoc]
  · intro l hl
    rcases List.mem_append.mp hl with hl | hl
    · exact h.entered l hl
    · rw [List.mem_singleton.mp hl]
      exact ⟨henter, h.unfinished⟩

end Reading

/-- Nothing went wrong, no accepted byte is lost, and the shell is where the bytes it heard lead. -/
structure ShellSession.Inv {σ : Type} (commands : Commands σ) (system : σ)
    (c : ShellSession σ) : Prop where
  running : c.panicked = false
  ring : c.ring.InBounds
  shown : c.shell.Shown commands
  read : ∃ heard lines keys, c.accepted = heard ++ c.ring.pending ∧
    c.shell.Read commands system heard lines keys

namespace ShellSession
variable {σ : Type} {commands : Commands σ} {system : σ} {c : ShellSession σ}

theorem Inv.boot (system : σ) : (ShellSession.boot system).Inv commands system where
  running := rfl
  ring := ⟨Nat.zero_lt_succ _, Nat.zero_lt_succ _⟩
  shown := Shell.shown_start system
  read := ⟨[], [], [], rfl, .start system⟩

theorem Inv.receive (h : c.Inv commands system) (byte : BitVec 8) :
    (c.receive byte).Inv commands system := by
  obtain ⟨heard, lines, keys, haccepted, hread⟩ := h.read
  unfold ShellSession.receive
  rcases InputRing.enqueueByte_cases h.ring.tail byte with ⟨hroom, ring, heq, henq⟩ | ⟨hfull, heq⟩
  · rw [heq]
    refine ⟨h.running, ⟨?_, ?_⟩, h.shown, heard, lines, keys, ?_, hread⟩
    · exact henq.head.trans_lt h.ring.head
    · exact henq.tail.trans_lt (Nat.mod_lt _ (by decide))
    · change (if c.ring.HasRoom then c.accepted ++ [byte] else c.accepted) = heard ++ ring.pending
      rw [if_pos hroom, haccepted, henq.pending hroom h.ring.head h.ring.tail, List.append_assoc]
  · rw [heq]
    refine ⟨h.running, h.ring, h.shown, heard, lines, keys, ?_, hread⟩
    change (if c.ring.HasRoom then c.accepted ++ [byte] else c.accepted) = heard ++ c.ring.pending
    rw [if_neg hfull, haccepted]

theorem Inv.poll (h : c.Inv commands system) : (c.poll commands).Inv commands system := by
  obtain ⟨heard, lines, keys, haccepted, hread⟩ := h.read
  unfold ShellSession.poll
  rcases h.ring.dequeueByte with ⟨-, heq⟩ | ⟨byte, ring, hpending, heq, hring⟩
  · rw [heq]
    exact h
  · rw [heq]
    have hmoved : c.accepted = (heard ++ [byte]) ++ ring.pending := by
      rw [haccepted, hpending, List.append_assoc]
      rfl
    refine ⟨h.running, hring, h.shown.handle byte, ?_⟩
    cases hkey : isEnter byte with
    | true => exact ⟨_, _, _, hmoved, hread.enter hkey⟩
    | false => exact ⟨_, _, _, hmoved, hread.key hkey⟩

end ShellSession

/-- However the interrupts fall, the ring is never left out of bounds and no byte that found room is
lost. The prompt and the line stand before the cursor, and the commands that were run are those of
the lines that were entered, in order. -/
theorem shell_runs_entered_lines {σ : Type} {commands : Commands σ} {system : σ}
    {c : ShellSession σ} (hrun : (shellSystem commands).Run (.boot system) c) :
    c.panicked = false ∧ c.shell.Shown commands ∧
      ∃ heard lines keys, c.accepted = heard ++ c.ring.pending ∧
        c.shell.Read commands system heard lines keys := by
  have hinv : c.Inv commands system := by
    refine EventSystem.RunWhen.invariant ?_ hrun (.boot system)
    intro c e h _ _
    cases e with
    | receive byte => exact h.receive byte
    | poll => exact h.poll
  exact ⟨hinv.running, hinv.shown, hinv.read⟩

instance {σ : Type} (commands : Commands σ) (c : ShellSession σ) (e : ShellEvent) :
    Decidable ((shellSystem commands).Enabled c e) :=
  inferInstanceAs (Decidable (c.panicked = false))

def countCommands : Commands ℕ := fun _ _ n => (n + 1, [])

/-- The keys `l`, `s`, backspace and Enter run the command `l`. -/
theorem shell_runs_entered_lines_erased : ∃ c : ShellSession ℕ,
    (shellSystem countCommands).Run (.boot 0) c ∧
      (c.shell.history = [textBytes "l"] ∧ c.shell.system = 1) ∧
      c.panicked = false ∧ c.shell.Shown countCommands := by
  have hreach : ∃ c, (shellSystem countCommands).Run (.boot 0) c ∧
      c.shell.history = [textBytes "l"] ∧ c.shell.system = 1 := by
    apply EventSystem.exists_runWhen
      [.receive 0x6C, .receive 0x73, .poll, .receive backspace, .poll, .poll, .receive 0x0D, .poll]
    decide +kernel
  obtain ⟨c, hrun, hend⟩ := hreach
  obtain ⟨hrunning, hshown, -⟩ := shell_runs_entered_lines hrun
  exact ⟨c, hrun, hend, hrunning, hshown⟩

end MitosOS.Kernel
