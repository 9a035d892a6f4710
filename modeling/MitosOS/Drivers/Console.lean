import MitosOS.Drivers.Font
import MitosOS.Lib.Checked
import MitosOS.Lib.Reads
import MitosOS.Lib.Text
import Mathlib.Tactic.Ring

/-! The text console of `graphics.rs`: a cursor that moves over a framebuffer in memory. Every write
is recorded, so that the console can be shown to stay inside the framebuffer. -/
namespace MitosOS.Drivers
open MitosOS.Lib MitosOS.Lib.Action

structure Color where
  r : BitVec 8
  g : BitVec 8
  b : BitVec 8

def Color.white : Color := ⟨255#8, 255#8, 255#8⟩

def Color.toU32 (c : Color) : BitVec 32 :=
  (c.r.setWidth 32 <<< 16) ||| (c.g.setWidth 32 <<< 8) ||| c.b.setWidth 32

/-- A framebuffer that lies in the address space with all its rows, as the contract of
`Framebuffer::new` asks for. The row below the last line of text has a number of its own. -/
structure Framebuffer where
  address : ℕ
  width : ℕ
  height : ℕ
  pitch : ℕ
  height_le : height + 8 ≤ 2 ^ 64
  mapped : address + height * pitch < 2 ^ 64

def Framebuffer.Contains (fb : Framebuffer) (start n : ℕ) : Prop :=
  fb.address ≤ start ∧ start + n ≤ fb.address + fb.height * fb.pitch

/-- The terminal with the memory that it draws into and the byte ranges that it has written. -/
structure Terminal where
  cursorX : ℕ
  cursorY : ℕ
  textColor : Color
  memory : Memory
  written : List (ℕ × ℕ)

namespace Terminal

/-- `Terminal::new`, over memory with any contents. -/
def new (memory : Memory) : Terminal where
  cursorX := 0
  cursorY := 0
  textColor := .white
  memory := memory
  written := []

def read : Action Terminal Terminal := fun t => (.ok t, t)

def setX (x : ℕ) : Action Terminal Unit := fun t => (.ok (), { t with cursorX := x })

def setY (y : ℕ) : Action Terminal Unit := fun t => (.ok (), { t with cursorY := y })

def store (start n : ℕ) (f : Memory → Memory) : Action Terminal Unit := fun t =>
  (.ok (), { t with memory := f t.memory, written := (start, n) :: t.written })

end Terminal

namespace Framebuffer
variable (fb : Framebuffer) (checks : Bool)

def pixel (offset : ℕ) : ℕ := (fb.address + 4 * offset) % 2 ^ 64

def drawPixel (x y : ℕ) (color : Color) : Action Terminal Unit :=
  if fb.width ≤ x ∨ fb.height ≤ y then pure ()
  else do
    let row ← lift (mulU checks 64 y (fb.pitch / 4))
    let offset ← lift (addU checks 64 row x)
    Terminal.store (fb.pixel offset) 4 fun m => m.blit (fb.pixel offset) (le32 color.toU32)

def scrollUp : Action Terminal Unit := do
  let rows ← lift (subU checks 64 fb.height 8)
  let bytesToMove ← lift (mulU checks 64 rows fb.pitch)
  let lineBytes ← lift (mulU checks 64 8 fb.pitch)
  Terminal.store fb.address bytesToMove fun m =>
    m.copy fb.address ((fb.address + lineBytes) % 2 ^ 64) bytesToMove
  Terminal.store ((fb.address + bytesToMove) % 2 ^ 64) lineBytes fun m =>
    m.fill ((fb.address + bytesToMove) % 2 ^ 64) lineBytes 0#8

def drawBit (x y : ℕ) (rowBits : BitVec 8) (rowIdx colIdx : ℕ) (color : Color) : Action Terminal Unit :=
  if rowBits.toNat.testBit (7 - colIdx) then do
    let px ← lift (addU checks 64 x colIdx)
    let py ← lift (addU checks 64 y rowIdx)
    fb.drawPixel checks px py color
  else pure ()

def drawChar (x y : ℕ) (ascii : BitVec 8) (color : Color) : Action Terminal Unit :=
  match font8x8[ascii.toNat]? with
  | none => lift .panic
  | some glyph => glyph.toList.zipIdx.forM fun row =>
    (List.range 8).forM fun colIdx => fb.drawBit checks x y row.1 row.2 colIdx color

end Framebuffer

namespace Terminal
variable (fb : Framebuffer) (checks : Bool)

def newLine : Action Terminal Unit := do
  setX 0
  let t ← read
  let y ← lift (addU checks 64 t.cursorY 8)
  setY y
  if fb.height ≤ y then do
    fb.scrollUp checks
    let y ← lift (subU checks 64 y 8)
    setY y
  else pure ()

def wrap : Action Terminal Unit := do
  let t ← read
  if fb.width ≤ t.cursorX then newLine fb checks else pure ()

def writeByte (byte : BitVec 8) : Action Terminal Unit :=
  if byte = 0x0A then newLine fb checks
  else if byte = 0x0D then setX 0
  else do
    wrap fb checks
    let t ← read
    fb.drawChar checks t.cursorX t.cursorY byte t.textColor
    let x ← lift (addU checks 64 t.cursorX 8)
    setX x

def writeStr (s : String) : Action Terminal Unit :=
  (textBytes s).forM (writeByte fb checks)

end Terminal

/-- The cursor is at `(x, y)`, every write was inside the framebuffer, and the memory outside of it
still is what it was. -/
structure Terminal.At (fb : Framebuffer) (memory : Memory) (x y : ℕ) (t : Terminal) : Prop where
  x_eq : t.cursorX = x
  y_eq : t.cursorY = y
  inside : ∀ w ∈ t.written, fb.Contains w.1 w.2
  frame : ∀ a, ¬ fb.Contains a 1 → t.memory a = memory a

section Drawing
variable {fb : Framebuffer} {checks : Bool} {memory : Memory} {x y : ℕ}

theorem gives_store {start n : ℕ} (h : fb.Contains start n) {f : Memory → Memory}
    (hf : ∀ m a, a < start ∨ start + n ≤ a → f m a = m a) :
    Gives (Terminal.At fb memory x y) (Terminal.store start n f) (.ok ()) := by
  intro t ht
  refine ⟨rfl, ht.x_eq, ht.y_eq, ?_, ?_⟩
  · intro w hw
    rcases List.mem_cons.mp hw with rfl | hw
    · exact h
    · exact ht.inside w hw
  · intro a ha
    change f t.memory a = memory a
    unfold Framebuffer.Contains at h ha
    rw [hf _ a (by omega)]
    exact ht.frame a ha

theorem pixel_bound (hwidth : fb.width ≤ fb.pitch / 4) {px py : ℕ} (hx : px < fb.width)
    (hy : py < fb.height) : 4 * (py * (fb.pitch / 4) + px) + 4 ≤ fb.height * fb.pitch := by
  calc 4 * (py * (fb.pitch / 4) + px) + 4
      ≤ 4 * (py * (fb.pitch / 4) + fb.pitch / 4) := by omega
    _ = (py + 1) * (4 * (fb.pitch / 4)) := by ring
    _ ≤ fb.height * fb.pitch := Nat.mul_le_mul hy (Nat.mul_div_le fb.pitch 4)

theorem drawPixel_gives (hwidth : fb.width ≤ fb.pitch / 4) (px py : ℕ) (color : Color) :
    Gives (Terminal.At fb memory x y) (fb.drawPixel checks px py color) (.ok ()) := by
  unfold Framebuffer.drawPixel
  split_ifs with hout
  · exact gives_pure ()
  obtain ⟨hx, hy⟩ := not_or.mp hout
  have hbound := pixel_bound hwidth (Nat.not_le.mp hx) (Nat.not_le.mp hy)
  have hmapped := fb.mapped
  have hpixel : fb.pixel (py * (fb.pitch / 4) + px) =
      fb.address + 4 * (py * (fb.pitch / 4) + px) := Nat.mod_eq_of_lt (by omega)
  rw [mulU_of_lt checks (by omega), lift_ok_bind, addU_of_lt checks (by omega), lift_ok_bind, hpixel]
  apply gives_store
  · unfold Framebuffer.Contains
    omega
  · intro m a ha
    exact m.blit_apply_of_disjoint _ ha

theorem drawBit_gives (hwidth : fb.width ≤ fb.pitch / 4) {cx cy : ℕ} (rowBits : BitVec 8)
    {rowIdx colIdx : ℕ} {px py : ℕ} (hx : addU checks 64 cx colIdx = .ok px)
    (hy : addU checks 64 cy rowIdx = .ok py) (color : Color) :
    Gives (Terminal.At fb memory x y) (fb.drawBit checks cx cy rowBits rowIdx colIdx color)
      (.ok ()) := by
  unfold Framebuffer.drawBit
  split_ifs
  · rw [hx, lift_ok_bind, hy, lift_ok_bind]
    exact drawPixel_gives hwidth px py color
  · exact gives_pure ()

theorem eight_rows_le (hheight : 8 ≤ fb.height) : 8 * fb.pitch ≤ fb.height * fb.pitch :=
  Nat.mul_le_mul_right fb.pitch hheight

theorem scrollUp_gives (checks : Bool) (hheight : 8 ≤ fb.height) :
    Gives (Terminal.At fb memory x y) (fb.scrollUp checks) (.ok ()) := by
  have hsplit : (fb.height - 8) * fb.pitch + 8 * fb.pitch = fb.height * fb.pitch := by
    rw [← Nat.add_mul, Nat.sub_add_cancel hheight]
  have hmapped := fb.mapped
  have hdst : (fb.address + (fb.height - 8) * fb.pitch) % 2 ^ 64 =
      fb.address + (fb.height - 8) * fb.pitch := Nat.mod_eq_of_lt (by omega)
  unfold Framebuffer.scrollUp
  rw [subU_of_le checks hheight, lift_ok_bind, mulU_of_lt checks (by omega), lift_ok_bind,
    mulU_of_lt checks (by omega), lift_ok_bind, hdst]
  apply Ends.ok_bind
  · apply gives_store
    · unfold Framebuffer.Contains
      omega
    · intro m a ha
      exact m.copy_apply_of_disjoint ha
  · apply gives_store
    · unfold Framebuffer.Contains
      omega
    · intro m a ha
      exact m.fill_apply_of_disjoint 0#8 ha

theorem addU_row {cy n : ℕ} (hy : cy < fb.height) (hn : n ≤ 8) :
    addU checks 64 cy n = .ok (cy + n) := by
  have hheight := fb.height_le
  exact addU_of_lt checks (by omega)

theorem addU_column (hheight : 8 ≤ fb.height) (hwidth : fb.width ≤ fb.pitch / 4) {cx n : ℕ}
    (hx : cx ≤ fb.width + 8) (hn : n ≤ 8) : addU checks 64 cx n = .ok (cx + n) := by
  have hrows := eight_rows_le hheight
  have hmapped := fb.mapped
  exact addU_of_lt checks (by omega)

theorem glyph_index_lt {glyph : Glyph} {row : BitVec 8 × ℕ} (h : row ∈ glyph.toList.zipIdx) :
    row.2 < 8 := by
  have hlt := List.snd_lt_of_mem_zipIdx h
  simpa using hlt

theorem drawChar_gives (hheight : 8 ≤ fb.height) (hwidth : fb.width ≤ fb.pitch / 4)
    {cx cy : ℕ} (hx : cx ≤ fb.width + 8) (hy : cy < fb.height) {ascii : BitVec 8} (hascii : ascii < 128)
    (color : Color) :
    Gives (Terminal.At fb memory x y) (fb.drawChar checks cx cy ascii color) (.ok ()) := by
  have hindex : ascii.toNat < 128 := hascii
  unfold Framebuffer.drawChar
  rw [Vector.getElem?_eq_getElem hindex]
  apply gives_forM
  intro row hrow
  apply gives_forM
  intro colIdx hcol
  have hrowIdx := glyph_index_lt hrow
  have hcolIdx := List.mem_range.mp hcol
  exact drawBit_gives hwidth row.1 (addU_column hheight hwidth hx hcolIdx.le)
    (addU_row hy hrowIdx.le) color

theorem drawChar_panics {ascii : BitVec 8} (hascii : ¬ ascii < 128) (cx cy : ℕ) (color : Color)
    (t : Terminal) : fb.drawChar checks cx cy ascii color t = (.panic, t) := by
  have hindex : 128 ≤ ascii.toNat := Nat.not_lt.mp hascii
  unfold Framebuffer.drawChar
  rw [Vector.getElem?_eq_none hindex]
  rfl

end Drawing

structure Terminal.Ready (fb : Framebuffer) (memory : Memory) (t : Terminal) : Prop where
  x_le : t.cursorX ≤ fb.width + 8
  y_lt : t.cursorY < fb.height
  at_cursor : t.At fb memory t.cursorX t.cursorY

section Writing
variable {fb : Framebuffer} {checks : Bool} {memory : Memory} {x y : ℕ} {t : Terminal}

theorem Terminal.At.setX (h : t.At fb memory x y) (x' : ℕ) :
    Terminal.At fb memory x' y { t with cursorX := x' } := ⟨rfl, h.y_eq, h.inside, h.frame⟩

theorem Terminal.At.setY (h : t.At fb memory x y) (y' : ℕ) :
    Terminal.At fb memory x y' { t with cursorY := y' } := ⟨h.x_eq, rfl, h.inside, h.frame⟩

theorem Terminal.At.ready (h : t.At fb memory x y) (hx : x ≤ fb.width + 8) (hy : y < fb.height) :
    t.Ready fb memory := by
  obtain rfl := h.x_eq
  obtain rfl := h.y_eq
  exact ⟨hx, hy, h⟩

/-- A new line keeps the cursor on the screen: where it would leave it, the screen is scrolled. -/
theorem newLine_spec (checks : Bool) (hheight : 8 ≤ fb.height) (h : t.Ready fb memory) :
    ∃ t', Terminal.newLine fb checks t = (.ok (), t') ∧ t'.Ready fb memory ∧ t'.cursorX = 0 := by
  have hmoved : Terminal.At fb memory 0 (t.cursorY + 8)
      { t with cursorX := 0, cursorY := t.cursorY + 8 } :=
    (h.at_cursor.setX 0).setY (t.cursorY + 8)
  have hstart : Terminal.newLine fb checks t =
      (if fb.height ≤ t.cursorY + 8 then (do
        fb.scrollUp checks
        let y ← lift (subU checks 64 (t.cursorY + 8) 8)
        Terminal.setY y)
      else pure ()) { t with cursorX := 0, cursorY := t.cursorY + 8 } := by
    change (lift (addU checks 64 t.cursorY 8) >>= _) { t with cursorX := 0 } = _
    rw [addU_row h.y_lt (Nat.le_refl 8)]
    rfl
  rw [hstart]
  split_ifs with hbottom
  · obtain ⟨hscroll, hscrolled⟩ := scrollUp_gives checks hheight _ hmoved
    rw [bind_of_ok (Prod.ext hscroll rfl), subU_of_le checks (Nat.le_add_left 8 _), lift_ok_bind]
    refine ⟨_, rfl, (hscrolled.setY (t.cursorY + 8 - 8)).ready (Nat.zero_le _) ?_, hscrolled.x_eq⟩
    rw [Nat.add_sub_cancel]
    exact h.y_lt
  · exact ⟨_, rfl, hmoved.ready (Nat.zero_le _) (Nat.not_le.mp hbottom), rfl⟩

theorem wrap_spec (checks : Bool) (hheight : 8 ≤ fb.height) (h : t.Ready fb memory) :
    ∃ t', Terminal.wrap fb checks t = (.ok (), t') ∧ t'.Ready fb memory ∧
      (t'.cursorX < fb.width ∨ t'.cursorX = 0) := by
  change ∃ t', (if fb.width ≤ t.cursorX then Terminal.newLine fb checks else pure ()) t =
    (.ok (), t') ∧ _
  split_ifs with hedge
  · obtain ⟨t', heq, hready, hx⟩ := newLine_spec checks hheight h
    exact ⟨t', heq, hready, .inr hx⟩
  · exact ⟨t, rfl, h, .inl (Nat.not_le.mp hedge)⟩

/-- A byte of the font, a line feed or a carriage return is written; any other byte panics. In both
cases the cursor stays on the screen and all writes inside the framebuffer. -/
theorem writeByte_spec (hheight : 8 ≤ fb.height) (hwidth : fb.width ≤ fb.pitch / 4) (byte : BitVec 8)
    (t : Terminal) (h : t.Ready fb memory) :
    (Terminal.writeByte fb checks byte t).1.ReturnsIff (byte < 128) ∧
      (Terminal.writeByte fb checks byte t).2.Ready fb memory := by
  unfold Terminal.writeByte
  by_cases hlf : byte = 0x0A
  · obtain ⟨t', heq, hready, -⟩ := newLine_spec checks hheight h
    have hascii : byte < 128 := hlf ▸ by decide
    rw [if_pos hlf, heq]
    exact ⟨⟨fun _ => rfl, fun hbyte => absurd hascii hbyte⟩, hready⟩
  by_cases hcr : byte = 0x0D
  · have hascii : byte < 128 := hcr ▸ by decide
    rw [if_neg hlf, if_pos hcr]
    exact ⟨⟨fun _ => rfl, fun hbyte => absurd hascii hbyte⟩,
      (h.at_cursor.setX 0).ready (Nat.zero_le _) h.y_lt⟩
  obtain ⟨t', heq, hready, hcolumn⟩ := wrap_spec checks hheight h
  rw [if_neg hlf, if_neg hcr, bind_of_ok heq]
  change ((fb.drawChar checks t'.cursorX t'.cursorY byte t'.textColor >>= fun _ =>
      lift (addU checks 64 t'.cursorX 8) >>= Terminal.setX) t').1.ReturnsIff _ ∧
    Terminal.Ready fb memory ((fb.drawChar checks t'.cursorX t'.cursorY byte t'.textColor >>=
      fun _ => lift (addU checks 64 t'.cursorX 8) >>= Terminal.setX) t').2
  by_cases hascii : byte < 128
  · obtain ⟨hdraw, hdrawn⟩ := drawChar_gives hheight hwidth hready.x_le hready.y_lt hascii
      t'.textColor t' hready.at_cursor
    rw [bind_of_ok (Prod.ext hdraw rfl), addU_column hheight hwidth hready.x_le (Nat.le_refl 8),
      lift_ok_bind]
    refine ⟨⟨fun _ => rfl, fun hbyte => absurd hascii hbyte⟩,
      (hdrawn.setX (t'.cursorX + 8)).ready ?_ hready.y_lt⟩
    omega
  · rw [bind_of_panic (drawChar_panics hascii _ _ _ t')]
    exact ⟨⟨fun hbyte => absurd hbyte hascii, fun _ => rfl⟩, hready⟩

end Writing

/-- Whatever texts are written, the console writes inside the framebuffer only and keeps the cursor on
the screen. It panics exactly if a text is not ASCII: its font has 128 characters. -/
theorem console_panics_iff (fb : Framebuffer) (checks : Bool) (hheight : 8 ≤ fb.height)
    (hwidth : fb.width ≤ fb.pitch / 4) (memory : Memory) (texts : List String) :
    let result := texts.forM (Terminal.writeStr fb checks) (Terminal.new memory)
    result.1.ReturnsIff (∀ s ∈ texts, ∀ byte ∈ textBytes s, byte < 128) ∧
      (∀ w ∈ result.2.written, fb.Contains w.1 w.2) ∧
      (∀ a, ¬ fb.Contains a 1 → result.2.memory a = memory a) ∧
      result.2.cursorY < fb.height := by
  have hstart : (Terminal.new memory).Ready fb memory := by
    refine ⟨Nat.zero_le _, ?_, rfl, rfl, ?_, fun a _ => rfl⟩
    · exact Nat.lt_of_lt_of_le (Nat.succ_pos 7) hheight
    · exact fun w hw => absurd hw List.not_mem_nil
  have hstr : ∀ s t, Terminal.Ready fb memory t →
      (Terminal.writeStr fb checks s t).1.ReturnsIff (∀ byte ∈ textBytes s, byte < 128) ∧
        Terminal.Ready fb memory (Terminal.writeStr fb checks s t).2 := by
    intro s t ht
    exact forM_returnsIff (textBytes s) (writeByte_spec hheight hwidth) ht
  obtain ⟨hresult, hready⟩ := forM_returnsIff texts hstr hstart
  exact ⟨hresult, hready.at_cursor.inside, hready.at_cursor.frame, hready.y_lt⟩

def fallbackFramebuffer : Framebuffer where
  address := 0xFD000000
  width := 1024
  height := 768
  pitch := 4096
  height_le := by decide
  mapped := by decide

theorem console_writes_hi :
    8 ≤ fallbackFramebuffer.height ∧
      fallbackFramebuffer.width ≤ fallbackFramebuffer.pitch / 4 ∧
      (["hi\n"].forM (Terminal.writeStr fallbackFramebuffer true) (Terminal.new fun _ => 0#8)).1 =
        .ok () := by
  have hheight : 8 ≤ fallbackFramebuffer.height := by decide
  have hwidth : fallbackFramebuffer.width ≤ fallbackFramebuffer.pitch / 4 := by decide
  obtain ⟨hresult, -⟩ := console_panics_iff fallbackFramebuffer true hheight hwidth (fun _ => 0#8)
    ["hi\n"]
  refine ⟨hheight, hwidth, hresult.returns ?_⟩
  decide

/-- The letter `é` is two bytes above 127: the console panics in every build. -/
theorem console_panics_on_accent :
    8 ≤ fallbackFramebuffer.height ∧
      fallbackFramebuffer.width ≤ fallbackFramebuffer.pitch / 4 ∧
      textBytes "é" = [0xC3, 0xA9] ∧
      ∀ checks, (["é"].forM (Terminal.writeStr fallbackFramebuffer checks)
        (Terminal.new fun _ => 0#8)).1 = .panic := by
  refine ⟨by decide, by decide, by decide, ?_⟩
  decide

end MitosOS.Drivers
