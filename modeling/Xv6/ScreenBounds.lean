import Xv6.ConsoleFont

/-!
# The console on the screen

`graphic_putc` draws a character pixel by pixel with `font_render` and moves the
picture up by one row of characters when the cursor has passed the last cell.  The
cursor starts there, one past the last cell.  A newline moves it before the bottom
is tested and any other character after it.  From the bounds of the cursor follows
that every byte of the screen that is read or written lies in the video memory.
-/

namespace Xv6.Graphic

/-- `struct graphic_config` of the boot parameters. -/
structure GraphicConfig where
  frameBase : BitVec 64
  frameSize : BitVec 64
  horizontalResolution : BitVec 64
  verticalResolution : BitVec 64
  pixelsPerLine : BitVec 64

/-- `struct gpu` -/
structure Gpu where
  pvramAddr : BitVec 32
  vvramAddr : BitVec 32
  vramSize : BitVec 32
  horizontalResolution : BitVec 32
  verticalResolution : BitVec 32
  pixelsPerLine : BitVec 32

/-- `DEVSPACE` -/
abbrev devspace : BitVec 32 := 0xFE000000

/-- `graphic_init` -/
def graphicInit (config : GraphicConfig) : Gpu where
  pvramAddr := config.frameBase.setWidth 32
  vvramAddr := devspace - config.frameSize.setWidth 32
  vramSize := config.frameSize.setWidth 32
  horizontalResolution := config.horizontalResolution.setWidth 32
  verticalResolution := config.verticalResolution.setWidth 32
  pixelsPerLine := config.pixelsPerLine.setWidth 32

/-- `struct graphic_pixel` -/
structure GraphicPixel where
  blue : UInt8
  green : UInt8
  red : UInt8
  black : UInt8

/-- `black_pixel` -/
def blackPixel : GraphicPixel := ⟨0, 0, 0, 0⟩

/-- `white_pixel` -/
def whitePixel : GraphicPixel := ⟨0xFF, 0xFF, 0xFF, 0⟩

/-- What is done to a byte of memory. -/
inductive Touch where
  | store (address : BitVec 32) (value : UInt8)
  | move (source target : BitVec 32)

/-- The addresses that are read or written. -/
def Touch.addresses : Touch → List (BitVec 32)
  | .store address _ => [address]
  | .move source target => [source, target]

/-- `graphic_draw_pixel` -/
def graphicDrawPixel (gpu : Gpu) (x y : Int) (buffer : GraphicPixel) : List Touch :=
  let pixelAddr := 4 * (BitVec.ofInt 32 y * gpu.pixelsPerLine + BitVec.ofInt 32 x)
  let pixel := gpu.vvramAddr + pixelAddr
  [.store pixel buffer.blue, .store (pixel + 1) buffer.green, .store (pixel + 2) buffer.red]

/-- `font_render`, with the table `font_bin` as a parameter.  Bit `14 - j` of a row
is its pixel `j`. -/
def fontRender (gpu : Gpu) (fontBin : Int → Nat → BitVec 16) (x y index : Int) :
    List Touch :=
  (List.range 30).flatMap fun (i : Nat) => (List.range 15).flatMap fun (j : Nat) =>
    graphicDrawPixel gpu (x + j) (y + i)
      (if (fontBin (index - 0x20) i).getLsbD (14 - j) then whitePixel else blackPixel)

/-- `memmove`, from the last byte on if the target starts inside the source. -/
def memmove (dst src n : BitVec 32) : List Touch :=
  let bytes := (List.range n.toNat).map fun k =>
    Touch.move (src + BitVec.ofNat 32 k) (dst + BitVec.ofNat 32 k)
  if src < dst ∧ dst < src + n then bytes.reverse else bytes

/-- `memset`, by words if the address and the length allow it. -/
def memset (dst : BitVec 32) (c : UInt8) (n : BitVec 32) : List Touch :=
  if dst.toNat % 4 = 0 ∧ n.toNat % 4 = 0 then
    (List.range (n.toNat / 4)).flatMap fun word => (List.range 4).map fun byte =>
      .store (dst + BitVec.ofNat 32 (4 * word + byte)) c
  else (List.range n.toNat).map fun k => .store (dst + BitVec.ofNat 32 k) c

/-- `graphic_scroll_up` -/
def graphicScrollUp (gpu : Gpu) (height : BitVec 32) : List Touch :=
  let addrDiff := 4 * gpu.pixelsPerLine * height
  memmove gpu.vvramAddr (gpu.vvramAddr + addrDiff) (gpu.vramSize - addrDiff) ++
    memset (gpu.vvramAddr + gpu.vramSize - addrDiff) 0 addrDiff

/-- `graphic_putc`: the new `console_pos` and what is done to the memory. -/
def graphicPutc (gpu : Gpu) (fontBin : Int → Nat → BitVec 16) (pos c : Int) :
    Int × List Touch :=
  if c = Console.newline.toNat then
    let pos := pos + (Console.consoleHorizontalMax - pos.tmod Console.consoleHorizontalMax)
    if pos ≥ Console.consoleVerticalMax * Console.consoleHorizontalMax then
      (pos - Console.consoleHorizontalMax, graphicScrollUp gpu 30)
    else (pos, [])
  else if c = Console.backspace then (if pos > 0 then pos - 1 else pos, [])
  else
    let (pos, scrolled) :=
      if pos ≥ Console.consoleVerticalMax * Console.consoleHorizontalMax then
        (pos - Console.consoleHorizontalMax, graphicScrollUp gpu 30)
      else (pos, [])
    let x := pos.tmod Console.consoleHorizontalMax * 15 + 2
    let y := pos.tdiv Console.consoleHorizontalMax * 30
    (pos + 1, scrolled ++ fontRender gpu fontBin x y c)

/-- `graphic_putc` for one character after the other. -/
def graphicPuts (gpu : Gpu) (fontBin : Int → Nat → BitVec 16) (pos : Int) :
    List Int → Int × List Touch
  | [] => (pos, [])
  | c :: rest =>
      let (next, touches) := graphicPutc gpu fontBin pos c
      let (last, more) := graphicPuts gpu fontBin next rest
      (last, touches ++ more)

/-- The cursor moves as it does for the accesses to the font table. -/
theorem graphicPutc_pos (gpu : Gpu) (fontBin : Int → Nat → BitVec 16) (pos c : Int) :
    (graphicPutc gpu fontBin pos c).1 = (Console.graphicPutc pos c).1 := by
  unfold graphicPutc Console.graphicPutc
  by_cases line : c = Console.newline.toNat
  · simp only [if_pos line]
    split <;> rfl
  · by_cases back : c = Console.backspace
    · simp only [if_neg line, if_pos back]
    · simp only [if_neg line, if_neg back]
      split <;> rfl

/-! ## The video memory -/

/-- The screen has room for the console, and its lines are in the video memory. -/
structure Mode (gpu : Gpu) : Prop where
  wide : 797 ≤ gpu.pixelsPerLine.toNat
  tall : 600 ≤ gpu.verticalResolution.toNat
  covered : 4 * gpu.pixelsPerLine.toNat * gpu.verticalResolution.toNat ≤ gpu.vramSize.toNat

/-- The address is one of `vvram_addr`, …, `vvram_addr + vram_size - 1`. -/
def InVram (gpu : Gpu) (address : BitVec 32) : Prop :=
  ∃ k < gpu.vramSize.toNat, address = gpu.vvramAddr + BitVec.ofNat 32 k

/-- Nothing outside the video memory is read or written. -/
def Inside (gpu : Gpu) (touches : List Touch) : Prop :=
  ∀ touch ∈ touches, ∀ address ∈ touch.addresses, InVram gpu address

/-- `graphic_init` sets up a mode that the firmware reports with a frame of four bytes
for each pixel. -/
theorem mode_graphicInit {config : GraphicConfig}
    (wide : 797 ≤ config.pixelsPerLine.toNat) (tall : 600 ≤ config.verticalResolution.toNat)
    (covered : 4 * config.pixelsPerLine.toNat * config.verticalResolution.toNat ≤
      config.frameSize.toNat) (small : config.frameSize.toNat < 2 ^ 32) :
    Mode (graphicInit config) := by
  have lines : 4 * config.pixelsPerLine.toNat * 600 ≤ config.frameSize.toNat :=
    (Nat.mul_le_mul_left _ tall).trans covered
  have columns : 4 * 797 * config.verticalResolution.toNat ≤ config.frameSize.toNat :=
    (Nat.mul_le_mul_right _ (Nat.mul_le_mul_left 4 wide)).trans covered
  have line : config.pixelsPerLine.toNat % 2 ^ 32 = config.pixelsPerLine.toNat :=
    Nat.mod_eq_of_lt (by omega)
  have column : config.verticalResolution.toNat % 2 ^ 32 = config.verticalResolution.toNat :=
    Nat.mod_eq_of_lt (by omega)
  have frame : config.frameSize.toNat % 2 ^ 32 = config.frameSize.toNat :=
    Nat.mod_eq_of_lt small
  constructor
  · rwa [graphicInit, BitVec.toNat_setWidth, line]
  · rwa [graphicInit, BitVec.toNat_setWidth, column]
  · rwa [graphicInit, BitVec.toNat_setWidth, BitVec.toNat_setWidth, BitVec.toNat_setWidth,
      line, column, frame]

theorem Inside.append {gpu : Gpu} {first second : List Touch} (left : Inside gpu first)
    (right : Inside gpu second) : Inside gpu (first ++ second) :=
  List.forall_mem_append.mpr ⟨left, right⟩

theorem inside_nil (gpu : Gpu) : Inside gpu [] :=
  fun _ isHere => absurd isHere List.not_mem_nil

/-- A mode of that size covers the first 600 lines. -/
theorem Mode.lines {gpu : Gpu} (mode : Mode gpu) :
    2400 * gpu.pixelsPerLine.toNat ≤ gpu.vramSize.toNat := by
  have := (Nat.mul_le_mul_left (4 * gpu.pixelsPerLine.toNat) mode.tall).trans mode.covered
  omega

/-! ## Pixels -/

/-- A pixel in the first 600 lines and the first 797 columns is in the video memory. -/
theorem graphicDrawPixel_inside {gpu : Gpu} (mode : Mode gpu) {x y : Nat} (column : x < 797)
    (line : y < 600) (buffer : GraphicPixel) :
    Inside gpu (graphicDrawPixel gpu x y buffer) := by
  have wide := mode.wide
  have lines := mode.lines
  have above : y * gpu.pixelsPerLine.toNat ≤ 599 * gpu.pixelsPerLine.toNat :=
    Nat.mul_le_mul_right _ (by omega)
  have pixel : 4 * (BitVec.ofInt 32 y * gpu.pixelsPerLine + BitVec.ofInt 32 x) =
      BitVec.ofNat 32 (4 * (y * gpu.pixelsPerLine.toNat + x)) := by
    simp only [BitVec.ofNat_mul, BitVec.ofNat_add, BitVec.ofNat_toNat, BitVec.setWidth_eq,
      BitVec.ofInt_natCast]
    rfl
  have byte (k : Nat) (isByte : k < 3) : InVram gpu (gpu.vvramAddr +
      BitVec.ofNat 32 (4 * (y * gpu.pixelsPerLine.toNat + x)) + BitVec.ofNat 32 k) := by
    refine ⟨4 * (y * gpu.pixelsPerLine.toNat + x) + k, by omega, ?_⟩
    rw [BitVec.ofNat_add, BitVec.add_assoc]
  unfold graphicDrawPixel Inside
  simp only [pixel, List.forall_mem_cons, Touch.addresses]
  refine ⟨⟨?_, nofun⟩, ⟨byte 1 (by omega), nofun⟩, ⟨byte 2 (by omega), nofun⟩, nofun⟩
  simpa using byte 0 (by omega)

/-- A character in one of the cells is in the video memory. -/
theorem fontRender_inside {gpu : Gpu} (mode : Mode gpu) (fontBin : Int → Nat → BitVec 16)
    {x y : Nat} (column : x ≤ 782) (line : y ≤ 570) (index : Int) :
    Inside gpu (fontRender gpu fontBin x y index) := by
  intro touch isHere
  obtain ⟨i, isRow, inRow⟩ := List.mem_flatMap.mp isHere
  obtain ⟨j, isPixel, inPixel⟩ := List.mem_flatMap.mp inRow
  rw [List.mem_range] at isRow isPixel
  rw [← Int.natCast_add, ← Int.natCast_add] at inPixel
  exact graphicDrawPixel_inside mode (by omega) (by omega) _ touch inPixel

/-! ## Scrolling -/

theorem memmove_inside {gpu : Gpu} (dst src : Nat) {n : BitVec 32}
    (target : dst + n.toNat ≤ gpu.vramSize.toNat) (source : src + n.toNat ≤ gpu.vramSize.toNat) :
    Inside gpu (memmove (gpu.vvramAddr + BitVec.ofNat 32 dst)
      (gpu.vvramAddr + BitVec.ofNat 32 src) n) := by
  intro touch isHere
  have isByte : touch ∈ (List.range n.toNat).map fun k =>
      Touch.move (gpu.vvramAddr + BitVec.ofNat 32 src + BitVec.ofNat 32 k)
        (gpu.vvramAddr + BitVec.ofNat 32 dst + BitVec.ofNat 32 k) := by
    unfold memmove at isHere
    split at isHere
    · exact List.mem_reverse.mp isHere
    · exact isHere
  obtain ⟨k, inRange, rfl⟩ := List.mem_map.mp isByte
  rw [List.mem_range] at inRange
  simp only [Touch.addresses, List.forall_mem_cons]
  refine ⟨⟨src + k, by omega, ?_⟩, ⟨dst + k, by omega, ?_⟩, nofun⟩
  · rw [BitVec.ofNat_add, BitVec.add_assoc]
  · rw [BitVec.ofNat_add, BitVec.add_assoc]

theorem memset_inside {gpu : Gpu} {dst : Nat} {n : BitVec 32}
    (target : dst + n.toNat ≤ gpu.vramSize.toNat) (c : UInt8) :
    Inside gpu (memset (gpu.vvramAddr + BitVec.ofNat 32 dst) c n) := by
  have byte (k : Nat) (isByte : k < n.toNat) :
      InVram gpu (gpu.vvramAddr + BitVec.ofNat 32 dst + BitVec.ofNat 32 k) := by
    refine ⟨dst + k, by omega, ?_⟩
    rw [BitVec.ofNat_add, BitVec.add_assoc]
  intro touch isHere
  unfold memset at isHere
  split at isHere
  · obtain ⟨word, isWord, inWord⟩ := List.mem_flatMap.mp isHere
    obtain ⟨k, isByte, rfl⟩ := List.mem_map.mp inWord
    rw [List.mem_range] at isWord isByte
    exact List.forall_mem_singleton.mpr (byte _ (by omega))
  · obtain ⟨k, isByte, rfl⟩ := List.mem_map.mp isHere
    exact List.forall_mem_singleton.mpr (byte _ (List.mem_range.mp isByte))

/-- Moving the picture up by a row of characters stays in the video memory. -/
theorem graphicScrollUp_inside {gpu : Gpu} (mode : Mode gpu) :
    Inside gpu (graphicScrollUp gpu 30) := by
  have lines := mode.lines
  have size := gpu.vramSize.isLt
  have diff : 4 * gpu.pixelsPerLine * 30 =
      BitVec.ofNat 32 (120 * gpu.pixelsPerLine.toNat) := by
    rw [BitVec.mul_comm 4, BitVec.mul_assoc, BitVec.mul_comm, BitVec.ofNat_mul,
      BitVec.ofNat_toNat, BitVec.setWidth_eq]
    rfl
  have diffNat : (BitVec.ofNat 32 (120 * gpu.pixelsPerLine.toNat)).toNat =
      120 * gpu.pixelsPerLine.toNat := by
    rw [BitVec.toNat_ofNat, Nat.mod_eq_of_lt (by omega)]
  have rest : gpu.vramSize - BitVec.ofNat 32 (120 * gpu.pixelsPerLine.toNat) =
      BitVec.ofNat 32 (gpu.vramSize.toNat - 120 * gpu.pixelsPerLine.toNat) := by
    apply BitVec.eq_of_toNat_eq
    rw [BitVec.toNat_sub_of_le (by rw [BitVec.le_def, diffNat]; omega), diffNat,
      BitVec.toNat_ofNat, Nat.mod_eq_of_lt (by omega)]
  have restNat : (BitVec.ofNat 32 (gpu.vramSize.toNat -
      120 * gpu.pixelsPerLine.toNat)).toNat =
      gpu.vramSize.toNat - 120 * gpu.pixelsPerLine.toNat := by
    rw [BitVec.toNat_ofNat, Nat.mod_eq_of_lt (by omega)]
  have cleared : gpu.vvramAddr + gpu.vramSize -
      BitVec.ofNat 32 (120 * gpu.pixelsPerLine.toNat) = gpu.vvramAddr +
      BitVec.ofNat 32 (gpu.vramSize.toNat - 120 * gpu.pixelsPerLine.toNat) := by
    rw [← rest, BitVec.sub_eq_add_neg, BitVec.sub_eq_add_neg, BitVec.add_assoc]
  unfold graphicScrollUp
  simp only [diff, rest, cleared]
  apply Inside.append
  · have moved : Inside gpu (memmove (gpu.vvramAddr + BitVec.ofNat 32 0)
        (gpu.vvramAddr + BitVec.ofNat 32 (120 * gpu.pixelsPerLine.toNat))
        (BitVec.ofNat 32 (gpu.vramSize.toNat - 120 * gpu.pixelsPerLine.toNat))) :=
      memmove_inside 0 _ (by omega) (by omega)
    simpa using moved
  · apply memset_inside
    omega

/-! ## The cursor -/

/-- The cursor is on a cell of the screen or one past the last. -/
def OnScreen (pos : Int) : Prop :=
  0 ≤ pos ∧ pos ≤ Console.consoleHorizontalMax * Console.consoleVerticalMax

/-- A character in a cell of the screen. -/
theorem cell_inside {gpu : Gpu} (mode : Mode gpu) (fontBin : Int → Nat → BitVec 16)
    {pos : Nat} (isCell : pos < 1060) (c : Int) :
    Inside gpu (fontRender gpu fontBin
      ((pos : Int).tmod Console.consoleHorizontalMax * 15 + 2)
      ((pos : Int).tdiv Console.consoleHorizontalMax * 30) c) := by
  have column := fontRender_inside mode fontBin (x := pos % 53 * 15 + 2) (y := pos / 53 * 30)
    (by omega) (by omega) c
  exact column

/-- One character keeps the cursor on the screen and touches video memory only. -/
theorem graphicPutc_onScreen {gpu : Gpu} (mode : Mode gpu)
    (fontBin : Int → Nat → BitVec 16) {pos : Int} (onScreen : OnScreen pos) (c : Int) :
    OnScreen (graphicPutc gpu fontBin pos c).1 ∧
      Inside gpu (graphicPutc gpu fontBin pos c).2 := by
  obtain ⟨low, high⟩ := onScreen
  lift pos to Nat using low
  have scrolled := graphicScrollUp_inside mode
  have remainder : (pos : Int).tmod 53 = ((pos % 53 : Nat) : Int) := rfl
  unfold graphicPutc OnScreen
  simp only [Console.consoleHorizontalMax, Console.consoleVerticalMax] at high ⊢
  by_cases line : c = Console.newline.toNat
  · simp only [if_pos line, remainder]
    split
    · exact ⟨by omega, scrolled⟩
    · exact ⟨by omega, inside_nil gpu⟩
  · by_cases back : c = Console.backspace
    · simp only [if_neg line, if_pos back]
      refine ⟨?_, inside_nil gpu⟩
      split <;> omega
    · simp only [if_neg line, if_neg back]
      by_cases bottom : (pos : Int) ≥ 20 * 53
      · simp only [if_pos bottom]
        have moved : (pos : Int) - 53 = ((pos - 53 : Nat) : Int) := by omega
        rw [moved]
        exact ⟨by omega, scrolled.append (cell_inside mode fontBin (by omega) c)⟩
      · simp only [if_neg bottom]
        exact ⟨by omega, (inside_nil gpu).append (cell_inside mode fontBin (by omega) c)⟩

/-- Whatever is written from a cursor on the screen, the cursor stays on the screen, and
only video memory is touched. -/
theorem graphicPuts_onScreen {gpu : Gpu} (mode : Mode gpu)
    (fontBin : Int → Nat → BitVec 16) (chars : List Int) {pos : Int}
    (onScreen : OnScreen pos) :
    OnScreen (graphicPuts gpu fontBin pos chars).1 ∧
      Inside gpu (graphicPuts gpu fontBin pos chars).2 := by
  induction chars generalizing pos with
  | nil => exact ⟨onScreen, inside_nil gpu⟩
  | cons c rest ih =>
      obtain ⟨next, first⟩ := graphicPutc_onScreen mode fontBin onScreen c
      obtain ⟨last, others⟩ := ih next
      exact ⟨last, first.append others⟩

/-- The initial `console_pos` -/
def consolePos : Int := Console.consoleHorizontalMax * Console.consoleVerticalMax

/-- The graphic console stays on the screen. -/
theorem console_staysOnScreen {gpu : Gpu} (mode : Mode gpu)
    (fontBin : Int → Nat → BitVec 16) (chars : List Int) :
    OnScreen (graphicPuts gpu fontBin consolePos chars).1 ∧
      Inside gpu (graphicPuts gpu fontBin consolePos chars).2 :=
  graphicPuts_onScreen mode fontBin chars ⟨by decide, by decide⟩

/-- A screen of 800 pixels and 600 lines. -/
def smallScreen : Gpu :=
  graphicInit ⟨0x80000000, 1920000, 800, 600, 800⟩

theorem smallScreen_staysOnScreen :
    OnScreen (graphicPuts smallScreen (fun _ _ => 0) consolePos [65, 10, 0x100]).1 ∧
      Inside smallScreen
        (graphicPuts smallScreen (fun _ _ => 0) consolePos [65, 10, 0x100]).2 :=
  console_staysOnScreen
    (mode_graphicInit (by decide) (by decide) (by decide) (by decide)) _ _

end Xv6.Graphic
