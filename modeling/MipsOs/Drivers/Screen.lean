import MipsOs.Lib.Loop
import MipsOs.Lib.Run

/-!
# The screen

`drivers/screen.c` keeps the text of the screen in `new_screen`, and in
`old_screen` what it has sent to the terminal.  `screen_reflush` sends the cells
in which the two differ.  A zero in `old_screen` stands for a cell of which
nothing is known.

The terminal is any `Terminal`: a cursor move followed by a printable character
sets that cell, and the other sequences set none.  A buffer is read and written
inside its 4000 cells, and an index outside of them has no defined outcome.

`reflush_repaints` is the result: no run goes outside of the buffers, and every
`screen_reflush` leaves the terminal with the text of the screen.
-/

namespace MipsOs.Drivers

open MipsOs.Lib

/-- `SCREEN_WIDTH` -/
def screenWidth : Nat := 80

/-- `SCREEN_HEIGHT` -/
def screenHeight : Nat := 50

/-- The number of cells of `new_screen` and of `old_screen`. -/
def screenSize : Nat := screenHeight * screenWidth

/-- The characters that set a cell of a terminal. -/
def Printable (ch : UInt8) : Prop := 32 ≤ ch ∧ ch ≤ 126

instance (ch : UInt8) : Decidable (Printable ch) := inferInstanceAs (Decidable (_ ∧ _))

/-- The character `' '`. -/
def space : UInt8 := 32

/-- `'\n'` -/
def newline : UInt8 := 10

/-- The backspace, 8. -/
def backspace : UInt8 := 8

/-- The enter key, 13. -/
def carriageReturn : UInt8 := 13

/-! ## The terminal -/

/-- A terminal with the sequences that the driver sends.  `cell t i j` is what
the terminal shows in row `i` and column `j`. -/
structure Terminal where
  State : Type
  hideCursor : State → State
  showCursor : State → State
  clear : State → State
  moveCursor : Int → Int → State → State
  writeCh : UInt8 → State → State
  cell : State → Nat → Nat → UInt8
  cell_hideCursor : ∀ t, cell (hideCursor t) = cell t
  cell_showCursor : ∀ t, cell (showCursor t) = cell t
  cell_moveCursor : ∀ x y t, cell (moveCursor x y t) = cell t
  /-- The cursor counts rows and columns from 1. -/
  cell_writeCh : ∀ t ch i j, Printable ch → i < screenHeight → j < screenWidth →
    ∀ k l, k < screenHeight → l < screenWidth →
      cell (writeCh ch (moveCursor (j + 1) (i + 1) t)) k l =
        if k = i ∧ l = j then ch else cell t k l

/-! ## The driver -/

/-- The variables of the driver, and the terminal. -/
structure Screen (T : Terminal) where
  cursorX : Int
  cursorY : Int
  newScreen : Nat → UInt8
  oldScreen : Nat → UInt8
  term : T.State

namespace Screen

variable {T : Terminal}

/-- An index into a buffer. -/
def index (i : Int) : Option Nat := if 0 ≤ i ∧ i < screenSize then some i.toNat else none

/-- `new_screen[i]` -/
def getNew (s : Screen T) (i : Int) : Option UInt8 := (index i).map s.newScreen

/-- `old_screen[i]` -/
def getOld (s : Screen T) (i : Int) : Option UInt8 := (index i).map s.oldScreen

/-- `new_screen[i] = ch` -/
def setNew (s : Screen T) (i : Int) (ch : UInt8) : Option (Screen T) :=
  (index i).map fun k => { s with newScreen := Function.update s.newScreen k ch }

/-- `old_screen[i] = ch` -/
def setOld (s : Screen T) (i : Int) (ch : UInt8) : Option (Screen T) :=
  (index i).map fun k => { s with oldScreen := Function.update s.oldScreen k ch }

/-- The cells of the lines `line1, …, line2`, in the order of the nested loops. -/
def cells (line1 line2 : Nat) : List (Nat × Nat) :=
  (List.range' line1 (line2 + 1 - line1)).flatMap fun i =>
    (List.range screenWidth).map fun j => (i, j)

/-- `i * SCREEN_WIDTH + j` -/
def position (i j : Int) : Int := i * screenWidth + j

/-- `vt100_move_cursor` -/
def vt100MoveCursor (s : Screen T) (x y : Int) : Screen T :=
  { s with term := T.moveCursor x y s.term }

/-- `vt100_clear` -/
def vt100Clear (s : Screen T) : Screen T := { s with term := T.clear s.term }

/-- `vt100_hidden_cursor` -/
def vt100HiddenCursor (s : Screen T) : Screen T := { s with term := T.hideCursor s.term }

/-- `vt100_show_cursor` -/
def vt100ShowCursor (s : Screen T) : Screen T := { s with term := T.showCursor s.term }

/-- `port_write_ch` -/
def portWriteCh (s : Screen T) (ch : UInt8) : Screen T := { s with term := T.writeCh ch s.term }

/-- The second loop of `screen_scroll`, one cell. -/
def scrollCell (line2 : Nat) (s : Screen T) (c : Nat × Nat) : Option (Screen T) :=
  if c.1 = line2 then
    s.setNew (position c.1 c.2) space
  else do
    let ch ← s.getNew (position (c.1 + 1) c.2)
    s.setNew (position c.1 c.2) ch

/-- `screen_scroll`: the old cells are forgotten, and the lines move up by one. -/
def screenScroll (s : Screen T) (line1 line2 : Nat) : Option (Screen T) := do
  let s ← (cells line1 line2).foldlM (fun s c => s.setOld (position c.1 c.2) 0) s
  (cells line1 line2).foldlM (scrollCell line2) s

/-- The first part of `screen_write_ch`: the effect of the character itself. -/
def putCh (s : Screen T) (ch : UInt8) : Option (Screen T) :=
  if ch = newline then
    some { s with cursorX := 0, cursorY := s.cursorY + 1 }
  else if ch = backspace then
    if s.cursorX > 0 then
      { s with cursorX := s.cursorX - 1 }.setNew (position s.cursorY (s.cursorX - 1)) space
    else
      some s
  else if ch = carriageReturn then
    some { s with cursorX := 0, cursorY := s.cursorY + 1 }
  else do
    let s ← s.setNew (position s.cursorY s.cursorX) ch
    return { s with cursorX := s.cursorX + 1 }

/-- The checks of the column, and of a row above the screen. -/
def wrap (s : Screen T) : Screen T :=
  let s := if s.cursorX < 0 then { s with cursorX := 0 } else s
  let s := if s.cursorX ≥ screenWidth then { s with cursorX := 0, cursorY := s.cursorY + 1 } else s
  if s.cursorY < 0 then { s with cursorY := 0 } else s

/-- `screen_write_ch`, which scrolls when the cursor leaves the last line. -/
def screenWriteCh (s : Screen T) (ch : UInt8) : Option (Screen T) := do
  let s := wrap (← s.putCh ch)
  if s.cursorY ≥ screenHeight then do
    let s ← s.screenScroll (screenHeight / 2 + 1) (screenHeight - 1)
    return { s with cursorX := 0, cursorY := screenHeight - 1 }
  else
    return s

/-- One cell of `screen_reflush`, and whether a cell was sent. -/
def reflushCell (r : Screen T × Bool) (c : Nat × Nat) : Option (Screen T × Bool) := do
  let new ← r.1.getNew (position c.1 c.2)
  let old ← r.1.getOld (position c.1 c.2)
  if new ≠ old then do
    let s := (r.1.vt100HiddenCursor.vt100MoveCursor (c.2 + 1) (c.1 + 1)).portWriteCh new
    let s ← s.setOld (position c.1 c.2) new
    return (s, true)
  else
    return r

/-- `screen_reflush`: the cells that have changed are sent to the terminal. -/
def screenReflush (s : Screen T) : Option (Screen T) := do
  let (s, hasModified) ← (cells 0 (screenHeight - 1)).foldlM reflushCell (s, false)
  let s := s.vt100MoveCursor (s.cursorX + 1) (s.cursorY + 1)
  return if hasModified then s.vt100ShowCursor else s

/-- One cell of `screen_clear`. -/
def clearCell (s : Screen T) (c : Nat × Nat) : Option (Screen T) := do
  let s ← s.setNew (position c.1 c.2) space
  s.setOld (position c.1 c.2) 0

/-- `screen_clear`, which clears all lines whatever its arguments are. -/
def screenClear (s : Screen T) (_line1 _line2 : Int) : Option (Screen T) := do
  let s ← (cells 0 (screenHeight - 1)).foldlM clearCell s
  { s with cursorX := 0, cursorY := 0 }.screenReflush

/-- `init_screen` -/
def initScreen (s : Screen T) : Option (Screen T) := do
  let s ← s.vt100HiddenCursor.vt100Clear.screenClear 0 (screenHeight - 1)
  return s.vt100ShowCursor

/-- `screen_move_cursor` -/
def screenMoveCursor (s : Screen T) (x y : Int) : Screen T :=
  { s with cursorX := x, cursorY := y }

/-- `screen_write` of a string without its terminating zero. -/
def screenWrite (s : Screen T) (buff : List UInt8) : Option (Screen T) :=
  buff.foldlM screenWriteCh s

/-! ## The invariant -/

/-- The cursor is inside the screen. -/
structure Inside (s : Screen T) : Prop where
  x_nonneg : 0 ≤ s.cursorX
  x_lt : s.cursorX < screenWidth
  y_nonneg : 0 ≤ s.cursorY
  y_lt : s.cursorY < screenHeight

/-- The text of the screen is printable, and what is known to be sent is what
the terminal shows. -/
structure Tracked (s : Screen T) : Prop where
  printable : ∀ k < screenSize, Printable (s.newScreen k)
  shown : ∀ i < screenHeight, ∀ j < screenWidth, s.oldScreen (i * screenWidth + j) ≠ 0 →
    T.cell s.term i j = s.oldScreen (i * screenWidth + j)

/-- The terminal shows the text of the screen, and the driver knows it. -/
structure Repainted (s : Screen T) : Prop where
  shown : ∀ i < screenHeight, ∀ j < screenWidth,
    T.cell s.term i j = s.newScreen (i * screenWidth + j)
  sent : ∀ k < screenSize, s.oldScreen k = s.newScreen k

section Cells

variable {s t : Screen T} {i j : Nat} {ch : UInt8}

theorem printable_space : Printable space := by decide

theorem ne_zero_of_printable (h : Printable ch) : ch ≠ 0 := by
  rintro rfl
  exact absurd h (by decide)

theorem mem_cells {line1 line2 : Nat} {c : Nat × Nat} :
    c ∈ cells line1 line2 ↔ line1 ≤ c.1 ∧ c.1 ≤ line2 ∧ c.2 < screenWidth := by
  obtain ⟨i, j⟩ := c
  simp only [cells, List.mem_flatMap, List.mem_map, List.mem_range, List.mem_range'_1,
    Prod.mk.injEq]
  constructor
  · rintro ⟨a, ha, b, hb, rfl, rfl⟩
    omega
  · intro h
    exact ⟨i, by omega, j, h.2.2, rfl, rfl⟩

theorem position_lt (hi : i < screenHeight) (hj : j < screenWidth) :
    i * screenWidth + j < screenSize := by
  simp only [screenSize, screenHeight, screenWidth] at hi hj ⊢
  omega

/-- Every index is the position of a cell. -/
theorem exists_position {k : Nat} (hk : k < screenSize) :
    ∃ i < screenHeight, ∃ j < screenWidth, i * screenWidth + j = k := by
  refine ⟨k / screenWidth, ?_, k % screenWidth, Nat.mod_lt _ (by decide), ?_⟩
  · simp only [screenSize, screenHeight, screenWidth] at hk ⊢
    omega
  · rw [Nat.mul_comm, Nat.div_add_mod]

theorem position_inj {k l : Nat} (hj : j < screenWidth) (hl : l < screenWidth) :
    k * screenWidth + l = i * screenWidth + j ↔ k = i ∧ l = j := by
  simp only [screenWidth] at hj hl ⊢
  omega

theorem index_position (hi : i < screenHeight) (hj : j < screenWidth) :
    index (position i j) = some (i * screenWidth + j) := by
  have hlt := position_lt hi hj
  have hpos : position i j = ((i * screenWidth + j : Nat) : Int) := by
    unfold position
    push_cast
    rfl
  rw [hpos, index, if_pos ⟨Int.natCast_nonneg _, by exact_mod_cast hlt⟩, Int.toNat_natCast]

theorem getNew_eq (hi : i < screenHeight) (hj : j < screenWidth) :
    s.getNew (position i j) = some (s.newScreen (i * screenWidth + j)) := by
  rw [getNew, index_position hi hj]
  rfl

theorem getOld_eq (hi : i < screenHeight) (hj : j < screenWidth) :
    s.getOld (position i j) = some (s.oldScreen (i * screenWidth + j)) := by
  rw [getOld, index_position hi hj]
  rfl

theorem setNew_eq (hi : i < screenHeight) (hj : j < screenWidth) :
    s.setNew (position i j) ch =
      some { s with newScreen := Function.update s.newScreen (i * screenWidth + j) ch } := by
  rw [setNew, index_position hi hj]
  rfl

theorem setOld_eq (hi : i < screenHeight) (hj : j < screenWidth) :
    s.setOld (position i j) ch =
      some { s with oldScreen := Function.update s.oldScreen (i * screenWidth + j) ch } := by
  rw [setOld, index_position hi hj]
  rfl

/-- A printable character in one cell. -/
theorem Tracked.setNew (h : s.Tracked) (hch : Printable ch) {k : Nat} :
    Tracked { s with newScreen := Function.update s.newScreen k ch } where
  printable l hl := by
    show Printable (Function.update s.newScreen k ch l)
    by_cases hlk : l = k
    · rw [hlk, Function.update_self]
      exact hch
    · rw [Function.update_of_ne hlk]
      exact h.printable l hl
  shown := h.shown

/-- A cell of which nothing is known any more. -/
theorem Tracked.forget (h : s.Tracked) {k : Nat} :
    Tracked { s with oldScreen := Function.update s.oldScreen k 0 } where
  printable := h.printable
  shown i hi j hj hne := by
    dsimp only at hne ⊢
    by_cases hk : i * screenWidth + j = k
    · rw [hk, Function.update_self] at hne
      exact absurd rfl hne
    · rw [Function.update_of_ne hk] at hne ⊢
      exact h.shown i hi j hj hne

theorem Tracked.cursor (h : s.Tracked) (x y : Int) :
    Tracked { s with cursorX := x, cursorY := y } :=
  ⟨h.printable, h.shown⟩

end Cells

/-! ## Scrolling and writing -/

section Write

variable {s : Screen T} {ch : UInt8}

theorem screenScroll_tracked (h : s.Tracked) {line1 line2 : Nat} (hline : line2 < screenHeight) :
    Ends (s.screenScroll line1 line2) Tracked := by
  unfold screenScroll
  apply Ends.bind (P := Tracked)
  · apply Ends.foldlM (cells line1 line2) (fun _ => Tracked) h
    intro done c rest t hl ht
    obtain ⟨_, hi, hj⟩ := mem_cells.mp (hl ▸ List.mem_append_right done List.mem_cons_self)
    rw [setOld_eq (by omega) hj]
    exact Ends.some ht.forget
  · intro t ht
    apply Ends.foldlM (cells line1 line2) (fun _ => Tracked) ht
    intro done c rest u hl hu
    obtain ⟨_, hi, hj⟩ := mem_cells.mp (hl ▸ List.mem_append_right done List.mem_cons_self)
    unfold scrollCell
    by_cases hlast : c.1 = line2
    · rw [if_pos hlast, setNew_eq (by omega) hj]
      exact Ends.some (hu.setNew printable_space)
    · have hnext : c.1 + 1 < screenHeight := by omega
      have hget := getNew_eq (s := u) hnext hj
      push_cast at hget
      rw [if_neg hlast, hget, Option.bind_eq_bind, Option.bind_some, setNew_eq (by omega) hj]
      exact Ends.some (hu.setNew (hu.printable _ (position_lt hnext hj)))

/-- The characters of the strings that are written. -/
def Writable (ch : UInt8) : Prop :=
  Printable ch ∨ ch = newline ∨ ch = carriageReturn ∨ ch = backspace

/-- The cursor leaves the screen by one column or one row at most. -/
theorem putCh_tracked (h : s.Tracked) (hin : s.Inside) (hch : Writable ch) :
    Ends (s.putCh ch) fun t => t.Tracked ∧ 0 ≤ t.cursorX ∧ t.cursorX ≤ screenWidth ∧
      0 ≤ t.cursorY ∧ t.cursorY ≤ screenHeight ∧
      (t.cursorX = screenWidth → t.cursorY < screenHeight) := by
  obtain ⟨hx, hxlt, hy, hylt⟩ := hin
  obtain ⟨j, hj⟩ := Int.eq_ofNat_of_zero_le hx
  obtain ⟨i, hi⟩ := Int.eq_ofNat_of_zero_le hy
  have hwidth : (0 : Int) < screenWidth := by decide
  rw [hj] at hxlt
  rw [hi] at hylt
  have hjlt : j < screenWidth := by exact_mod_cast hxlt
  have hilt : i < screenHeight := by exact_mod_cast hylt
  unfold putCh
  by_cases hnl : ch = newline
  · rw [if_pos hnl]
    refine Ends.some ⟨h.cursor _ _, le_rfl, hwidth.le, ?_, ?_, ?_⟩ <;> dsimp only <;> omega
  rw [if_neg hnl]
  by_cases hbs : ch = backspace
  · rw [if_pos hbs]
    by_cases hpos : s.cursorX > 0
    · have hcol : s.cursorX - 1 = ((j - 1 : Nat) : Int) := by omega
      rw [if_pos hpos, hi, hcol, setNew_eq hilt (by omega)]
      refine Ends.some ⟨(h.cursor _ _).setNew printable_space, ?_, ?_, ?_, ?_, ?_⟩ <;>
        dsimp only <;> omega
    · rw [if_neg hpos]
      refine Ends.some ⟨h, ?_, ?_, ?_, ?_, ?_⟩ <;> omega
  rw [if_neg hbs]
  by_cases hcr : ch = carriageReturn
  · rw [if_pos hcr]
    refine Ends.some ⟨h.cursor _ _, le_rfl, hwidth.le, ?_, ?_, ?_⟩ <;> dsimp only <;> omega
  · have hprint : Printable ch := by
      rcases hch with hch | hch | hch | hch
      · exact hch
      · exact absurd hch hnl
      · exact absurd hch hcr
      · exact absurd hch hbs
    rw [if_neg hcr, hi, hj, setNew_eq hilt hjlt, Option.bind_eq_bind, Option.bind_some]
    refine Ends.some ⟨(h.setNew hprint).cursor _ _, ?_, ?_, ?_, ?_, ?_⟩ <;> dsimp only <;> omega

/-- A row below the screen scrolls it, so the cursor is inside again. -/
theorem screenWriteCh_tracked (h : s.Tracked) (hin : s.Inside) (hch : Writable ch) :
    Ends (s.screenWriteCh ch) fun t => t.Tracked ∧ t.Inside := by
  unfold screenWriteCh
  apply (putCh_tracked h hin hch).bind
  rintro t ⟨ht, hx, hxle, hy, hyle, hcorner⟩
  have hwrap : (wrap t).Tracked ∧ 0 ≤ (wrap t).cursorX ∧ (wrap t).cursorX < screenWidth ∧
      0 ≤ (wrap t).cursorY ∧ (wrap t).cursorY ≤ screenHeight := by
    have hwidth : (0 : Int) < screenWidth := by decide
    have hcol : ¬ t.cursorX < 0 := by omega
    have hrow : ¬ t.cursorY < 0 := by omega
    have hnext : ¬ t.cursorY + 1 < 0 := by omega
    unfold wrap
    dsimp only
    rw [if_neg hcol]
    by_cases hend : t.cursorX ≥ screenWidth
    · rw [if_pos hend, if_neg hnext]
      refine ⟨ht.cursor _ _, le_rfl, hwidth, ?_, ?_⟩ <;> dsimp only <;> omega
    · rw [if_neg hend, if_neg hrow]
      exact ⟨ht, hx, by omega, hy, hyle⟩
  obtain ⟨hw, hwx, hwxlt, hwy, hwyle⟩ := hwrap
  dsimp only
  by_cases hscroll : (wrap t).cursorY ≥ screenHeight
  · rw [if_pos hscroll]
    apply (screenScroll_tracked hw (by decide)).bind
    intro u hu
    have hwidth : (0 : Int) < screenWidth := by decide
    have hbottom : (0 : Int) ≤ screenHeight - 1 := by decide
    have hheight : (screenHeight : Int) - 1 < screenHeight := by decide
    exact Ends.some ⟨hu.cursor _ _, le_rfl, hwidth, hbottom, hheight⟩
  · rw [if_neg hscroll]
    exact Ends.some ⟨hw, hwx, hwxlt, hwy, by omega⟩

theorem screenWrite_tracked (h : s.Tracked) (hin : s.Inside) {buff : List UInt8}
    (hbuff : ∀ ch ∈ buff, Writable ch) :
    Ends (s.screenWrite buff) fun t => t.Tracked ∧ t.Inside := by
  apply Ends.foldlM buff (fun _ (t : Screen T) => t.Tracked ∧ t.Inside) ⟨h, hin⟩
  rintro done c rest t hl ⟨ht, htin⟩
  exact screenWriteCh_tracked ht htin (hbuff c (hl ▸ List.mem_append_right done List.mem_cons_self))

end Write

/-! ## Repainting -/

section Reflush

variable {s : Screen T}

/-- The invariant of the loop of `screen_reflush`. -/
structure Sending (s : Screen T) (done : List (Nat × Nat)) (r : Screen T × Bool) : Prop where
  tracked : r.1.Tracked
  text : r.1.newScreen = s.newScreen
  cursorX : r.1.cursorX = s.cursorX
  cursorY : r.1.cursorY = s.cursorY
  sent : ∀ c ∈ done, r.1.oldScreen (c.1 * screenWidth + c.2) =
    r.1.newScreen (c.1 * screenWidth + c.2)

/-- A cell that is sent shows the text, and the others show what they showed. -/
theorem Tracked.send {t : Screen T} (h : t.Tracked) {i j : Nat} (hi : i < screenHeight)
    (hj : j < screenWidth) :
    Tracked
      { t with
        oldScreen := Function.update t.oldScreen (i * screenWidth + j)
          (t.newScreen (i * screenWidth + j))
        term := T.writeCh (t.newScreen (i * screenWidth + j))
          (T.moveCursor (j + 1) (i + 1) (T.hideCursor t.term)) } where
  printable := h.printable
  shown k hk l hl hne := by
    dsimp only at hne ⊢
    rw [T.cell_writeCh _ _ _ _ (h.printable _ (position_lt hi hj)) hi hj k l hk hl]
    by_cases hsame : k = i ∧ l = j
    · rw [if_pos hsame, hsame.1, hsame.2, Function.update_self]
    · have hpos : k * screenWidth + l ≠ i * screenWidth + j :=
        fun heq => hsame ((position_inj hj hl).mp heq)
      rw [Function.update_of_ne hpos] at hne
      rw [if_neg hsame, Function.update_of_ne hpos, T.cell_hideCursor]
      exact h.shown k hk l hl hne

theorem reflushCell_sending {done : List (Nat × Nat)} {r : Screen T × Bool} {c : Nat × Nat}
    (h : Sending s done r) (hi : c.1 < screenHeight) (hj : c.2 < screenWidth) :
    Ends (reflushCell r c) (Sending s (done ++ [c])) := by
  obtain ⟨t, sent⟩ := r
  unfold reflushCell
  rw [getNew_eq hi hj, getOld_eq hi hj]
  simp only [Option.bind_eq_bind, Option.bind_some]
  by_cases hdiff : t.newScreen (c.1 * screenWidth + c.2) ≠ t.oldScreen (c.1 * screenWidth + c.2)
  · rw [if_pos hdiff, setOld_eq hi hj]
    refine Ends.some ⟨h.tracked.send hi hj, h.text, h.cursorX, h.cursorY, ?_⟩
    intro d hd
    show Function.update t.oldScreen _ _ _ = _
    by_cases heq : d.1 * screenWidth + d.2 = c.1 * screenWidth + c.2
    · rw [heq, Function.update_self]
      rfl
    · rw [Function.update_of_ne heq]
      rcases List.mem_append.mp hd with hold | hnew
      · exact h.sent d hold
      · rw [List.mem_singleton.mp hnew] at heq
        exact absurd rfl heq
  · rw [if_neg hdiff]
    refine Ends.some ⟨h.tracked, h.text, h.cursorX, h.cursorY, ?_⟩
    intro d hd
    rcases List.mem_append.mp hd with hold | hnew
    · exact h.sent d hold
    · rw [List.mem_singleton.mp hnew]
      exact (not_ne_iff.mp hdiff).symm

/-- After `screen_reflush` the terminal shows the text. -/
theorem screenReflush_repainted (h : s.Tracked) :
    Ends s.screenReflush fun t => t.Tracked ∧ t.Repainted ∧ t.newScreen = s.newScreen ∧
      t.cursorX = s.cursorX ∧ t.cursorY = s.cursorY := by
  unfold screenReflush
  apply Ends.bind (P := Sending s (cells 0 (screenHeight - 1)))
  · refine Ends.foldlM _ (Sending s) ⟨h, rfl, rfl, rfl, ?_⟩ ?_
    · intro c hc
      cases hc
    · intro done c rest r hl hr
      obtain ⟨_, hi, hj⟩ := mem_cells.mp (hl ▸ List.mem_append_right done List.mem_cons_self)
      exact reflushCell_sending hr (by unfold screenHeight at hi ⊢; omega) hj
  · rintro ⟨t, sent⟩ ⟨ht, htext, hx, hy, hsent⟩
    have hall : ∀ i < screenHeight, ∀ j < screenWidth,
        t.oldScreen (i * screenWidth + j) = t.newScreen (i * screenWidth + j) := by
      intro i hi j hj
      exact hsent (i, j) (mem_cells.mpr ⟨Nat.zero_le _, by omega, hj⟩)
    have hcells : ∀ k < screenSize, t.oldScreen k = t.newScreen k := by
      intro k hk
      obtain ⟨i, hi, j, hj, rfl⟩ := exists_position hk
      exact hall i hi j hj
    have hshown : ∀ i < screenHeight, ∀ j < screenWidth,
        T.cell t.term i j = t.newScreen (i * screenWidth + j) := by
      intro i hi j hj
      have hne := ne_zero_of_printable (ht.printable _ (position_lt hi hj))
      rw [← hall i hi j hj] at hne ⊢
      exact ht.shown i hi j hj hne
    have hend : T.cell (T.moveCursor (t.cursorX + 1) (t.cursorY + 1) t.term) = T.cell t.term :=
      T.cell_moveCursor _ _ _
    have hlast : T.cell (T.showCursor (T.moveCursor (t.cursorX + 1) (t.cursorY + 1) t.term)) =
        T.cell t.term := (T.cell_showCursor _).trans hend
    cases sent with
    | true =>
      refine Ends.some ⟨⟨ht.printable, ?_⟩, ⟨?_, hcells⟩, htext, hx, hy⟩
      · intro i hi j hj hne
        exact (congrFun (congrFun hlast i) j).trans (ht.shown i hi j hj hne)
      · intro i hi j hj
        exact (congrFun (congrFun hlast i) j).trans (hshown i hi j hj)
    | false =>
      refine Ends.some ⟨⟨ht.printable, ?_⟩, ⟨?_, hcells⟩, htext, hx, hy⟩
      · intro i hi j hj hne
        exact (congrFun (congrFun hend i) j).trans (ht.shown i hi j hj hne)
      · intro i hi j hj
        exact (congrFun (congrFun hend i) j).trans (hshown i hi j hj)

/-- Whatever the buffers held, a cleared screen is tracked: nothing is known of
the terminal. -/
theorem clearLoop_tracked :
    Ends ((cells 0 (screenHeight - 1)).foldlM clearCell s) Tracked := by
  apply Ends.mono (P := fun t => ∀ c ∈ cells 0 (screenHeight - 1),
    t.newScreen (c.1 * screenWidth + c.2) = space ∧ t.oldScreen (c.1 * screenWidth + c.2) = 0)
  · apply Ends.foldlM (cells 0 (screenHeight - 1)) (fun done (t : Screen T) => ∀ c ∈ done,
      t.newScreen (c.1 * screenWidth + c.2) = space ∧ t.oldScreen (c.1 * screenWidth + c.2) = 0)
    · intro c hc
      cases hc
    · intro done c rest t hl ht
      obtain ⟨_, hi, hj⟩ := mem_cells.mp (hl ▸ List.mem_append_right done List.mem_cons_self)
      have hrow : c.1 < screenHeight := by
        unfold screenHeight at hi ⊢
        omega
      rw [clearCell, setNew_eq hrow hj, Option.bind_eq_bind, Option.bind_some, setOld_eq hrow hj]
      refine Ends.some fun d hd => ?_
      dsimp only
      by_cases heq : d.1 * screenWidth + d.2 = c.1 * screenWidth + c.2
      · rw [heq, Function.update_self, Function.update_self]
        exact ⟨rfl, rfl⟩
      · rw [Function.update_of_ne heq, Function.update_of_ne heq]
        rcases List.mem_append.mp hd with hold | hnew
        · exact ht d hold
        · rw [List.mem_singleton.mp hnew] at heq
          exact absurd rfl heq
  · intro t ht
    constructor
    · intro k hk
      obtain ⟨i, hi, j, hj, rfl⟩ := exists_position hk
      rw [(ht (i, j) (mem_cells.mpr ⟨Nat.zero_le _, by omega, hj⟩)).1]
      exact printable_space
    · intro i hi j hj hne
      exact absurd (ht (i, j) (mem_cells.mpr ⟨Nat.zero_le _, by omega, hj⟩)).2 hne

theorem screenClear_repainted (line1 line2 : Int) :
    Ends (s.screenClear line1 line2) fun t => t.Tracked ∧ t.Inside ∧ t.Repainted := by
  unfold screenClear
  apply clearLoop_tracked.bind
  intro t ht
  apply (screenReflush_repainted (ht.cursor 0 0)).mono
  rintro u ⟨hu, hpaint, _, hx, hy⟩
  have hwidth : (0 : Int) < screenWidth := by decide
  have hheight : (0 : Int) < screenHeight := by decide
  refine ⟨hu, ⟨?_, ?_, ?_, ?_⟩, hpaint⟩
  · rw [hx]
  · rw [hx]
    exact hwidth
  · rw [hy]
  · rw [hy]
    exact hheight

theorem initScreen_tracked : Ends s.initScreen fun t => t.Tracked ∧ t.Inside := by
  unfold initScreen
  apply (screenClear_repainted 0 (screenHeight - 1)).bind
  rintro t ⟨ht, hin, _⟩
  refine Ends.some ⟨⟨ht.printable, ?_⟩, hin.x_nonneg, hin.x_lt, hin.y_nonneg, hin.y_lt⟩
  intro i hi j hj hne
  exact (congrFun (congrFun (T.cell_showCursor _) i) j).trans (ht.shown i hi j hj hne)

end Reflush

end Screen

/-! ## Runs -/

/-- A call of the driver. -/
inductive ScreenOp where
  | write (buff : List UInt8)
  | moveCursor (x y : Int)
  | clear (line1 line2 : Int)
  | reflush

namespace ScreenSystem

open Screen

variable {T : Terminal}

/-- One call.  `none` when it leaves the arrays of the screen. -/
def step (s : Screen T) : ScreenOp → Option (Screen T)
  | .write buff => s.screenWrite buff
  | .moveCursor x y => some (s.screenMoveCursor x y)
  | .clear line1 line2 => s.screenClear line1 line2
  | .reflush => s.screenReflush

/-- Strings are of printable characters, line ends and backspaces, and the
cursor is moved to positions inside of the screen. -/
def CallerOk (_ : Screen T) : ScreenOp → Prop
  | .write buff => ∀ ch ∈ buff, Writable ch
  | .moveCursor x y => 0 ≤ x ∧ x < screenWidth ∧ 0 ≤ y ∧ y < screenHeight
  | .clear _ _ => True
  | .reflush => True

theorem step_tracked {s : Screen T} (h : s.Tracked) (hin : s.Inside) {op : ScreenOp}
    (hok : CallerOk s op) : Ends (step s op) fun t => t.Tracked ∧ t.Inside := by
  cases op with
  | write buff => exact screenWrite_tracked h hin hok
  | moveCursor x y => exact Ends.some ⟨h.cursor x y, hok.1, hok.2.1, hok.2.2.1, hok.2.2.2⟩
  | clear line1 line2 =>
    exact (screenClear_repainted line1 line2).mono fun t ht => ⟨ht.1, ht.2.1⟩
  | reflush =>
    apply (screenReflush_repainted h).mono
    rintro t ⟨ht, _, _, hx, hy⟩
    obtain ⟨hx0, hxlt, hy0, hylt⟩ := hin
    rw [← hx] at hx0 hxlt
    rw [← hy] at hy0 hylt
    exact ⟨ht, hx0, hxlt, hy0, hylt⟩

/-- In every run after `init_screen`, from any content of the buffers and of the
terminal, the cursor is inside of the screen, also after each beginning of a
string; no call uses an index outside of the buffers; and `screen_reflush` leaves
the terminal with the text of the screen. -/
theorem reflush_repaints (T : Terminal) (s : Screen T) :
    Ends s.initScreen fun start => ∀ t, Reaches step CallerOk start t →
      t.Inside ∧ (∀ op, CallerOk t op → Ends (step t op) Inside) ∧
        Ends (step t .reflush) fun u => u.Repainted ∧ u.newScreen = t.newScreen := by
  apply initScreen_tracked.mono
  intro start hstart t hreach
  have hinv : t.Tracked ∧ t.Inside := by
    apply hreach.invariant (fun u : Screen T => u.Tracked ∧ u.Inside) hstart
    intro a op b ha hok hstep
    obtain ⟨c, hc, hinv⟩ := step_tracked ha.1 ha.2 hok
    rw [hstep] at hc
    obtain rfl := Option.some.inj hc
    exact hinv
  refine ⟨hinv.2, fun op hok => (step_tracked hinv.1 hinv.2 hok).mono fun u hu => hu.2, ?_⟩
  exact (screenReflush_repainted hinv.1).mono fun u hu => ⟨hu.2.1, hu.2.2.1⟩

end ScreenSystem

/-! ## A terminal -/

/-- What a plain terminal shows, and where its cursor is. -/
structure Grid where
  cell : Nat → Nat → UInt8
  row : Int
  col : Int

/-- A terminal that writes each character at the cursor. -/
def plainTerminal : Terminal where
  State := Grid
  hideCursor := id
  showCursor := id
  clear t := { t with cell := fun _ _ => space }
  moveCursor x y t := { t with row := y, col := x }
  writeCh ch t :=
    { t with
      cell := fun k l => if (k : Int) + 1 = t.row ∧ (l : Int) + 1 = t.col then ch else t.cell k l }
  cell t := t.cell
  cell_hideCursor _ := rfl
  cell_showCursor _ := rfl
  cell_moveCursor _ _ _ := rfl
  cell_writeCh t ch i j _ _ _ k l _ _ := by
    dsimp only
    have hiff : ((k : Int) + 1 = i + 1 ∧ (l : Int) + 1 = j + 1) ↔ k = i ∧ l = j := by omega
    rw [if_congr hiff rfl rfl]

/-- The lines `"a"` and `"b"`. -/
def twoLines : List UInt8 := [97, newline, 98]

/-- On a plain terminal, from zeroed buffers: written in the last row, the line end
scrolls the screen, and then it is sent. -/
theorem plain_reflush_repaints :
    Ends
      (Screen.initScreen (T := plainTerminal) ⟨0, 0, fun _ => 0, fun _ => 0, ⟨fun _ _ => 0, 0, 0⟩⟩)
      fun start => Ends (ScreenSystem.step (start.screenMoveCursor 0 49) (.write twoLines)) fun t =>
        Ends (ScreenSystem.step t .reflush) fun u =>
          u.Repainted ∧ u.newScreen = t.newScreen := by
  apply (ScreenSystem.reflush_repaints plainTerminal _).mono
  intro start h
  have hmoves : ScreenSystem.CallerOk start (.moveCursor 0 49) :=
    ⟨le_rfl, by decide, by decide, by decide⟩
  have hmove : Reaches ScreenSystem.step ScreenSystem.CallerOk start
      (start.screenMoveCursor 0 49) :=
    (Reaches.refl start).snoc hmoves rfl
  have hwrites : ScreenSystem.CallerOk (start.screenMoveCursor 0 49) (.write twoLines) := by
    intro ch hch
    simp only [twoLines, List.mem_cons, List.not_mem_nil, or_false] at hch
    rcases hch with rfl | rfl | rfl
    · exact .inl (by decide)
    · exact .inr (.inl rfl)
    · exact .inl (by decide)
  obtain ⟨t, hwrite, _⟩ := (h _ hmove).2.1 (.write twoLines) hwrites
  exact ⟨t, hwrite, (h t (hmove.snoc hwrites hwrite)).2.2⟩

end MipsOs.Drivers
