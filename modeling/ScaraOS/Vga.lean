import Mathlib.Algebra.Group.Nat.Defs
import ScaraOS.Lib.Lines
import ScaraOS.Lib.Loops

/-! The text screen: `vga_preinit`, `vga_put` and `vga_curs` of `arch-ia32/vga.c`. -/
namespace ScaraOS.Vga

open Function
open Lines (Text)

def cols : Nat := 80
def rows : Nat := 25

theorem cols_pos : 0 < cols := by decide
theorem rows_pos : 0 < rows := by decide

inductive Monitor where
  | none
  | colour
  | mono
  | unknown
  deriving DecidableEq, Repr

structure Crtc where
  index : Nat
  regs : Nat → Nat

def crtcIndexReg : Nat := 0x3d4
def crtcDataReg : Nat := 0x3d5

def Crtc.outb (d : Crtc) (port value : Nat) : Crtc :=
  if port = crtcIndexReg then { d with index := value % 2 ^ 8 }
  else if port = crtcDataReg then { d with regs := update d.regs d.index (value % 2 ^ 8) }
  else d

/-- A write of two bytes is one to the port and one to the port after it. -/
def Crtc.outw (d : Crtc) (port value : Nat) : Crtc :=
  (d.outb port value).outb (port + 1) (value / 2 ^ 8)

/-- The static variables of the driver, the memory from `vidmem` on and the cursor registers.
`touched` are the offsets from `vidmem` that were read or written. -/
structure Driver where
  vidmem : Nat → UInt8
  attrib : Nat
  xpos : Nat
  ypos : Nat
  monitor : Monitor
  crtc : Crtc
  touched : List Nat

def boot (vidmem : Nat → UInt8) (crtc : Crtc) : Driver :=
  ⟨vidmem, 0x0017, 0, 0, .none, crtc, []⟩

def Driver.read (s : Driver) (off : Nat) : UInt8 × Driver :=
  (s.vidmem off, { s with touched := off :: s.touched })

def Driver.write (s : Driver) (off : Nat) (b : UInt8) : Driver :=
  { s with vidmem := update s.vidmem off b, touched := off :: s.touched }

def Driver.draw (s : Driver) (off : Nat) (c : UInt8) : Driver :=
  (s.write off c).write (off + 1) (UInt8.ofNat s.attrib)

def vgaCurs (s : Driver) (x y : Int) : Driver :=
  let x := if x < 0 then s.xpos else x.toNat
  let y := if y < 0 then s.ypos else y.toNat
  let vidOff := (x + y * cols) * 2 % 2 ^ 32 / 2
  { s with
    crtc := (((s.crtc.outb crtcIndexReg 0x0f).outb crtcDataReg (vidOff &&& 0xfff)).outw
      crtcIndexReg 0x0e).outb crtcDataReg (vidOff >>> 8) }

def detect (equipment : UInt8) (s : Driver) : Driver :=
  let bits := equipment &&& 0x30
  if bits = 0x00 then { s with monitor := .none }
  else if bits = 0x20 then { s with monitor := .colour }
  -- `0x00 - 7` in 16 bits
  else if bits = 0x30 then { s with monitor := .mono, attrib := 2 ^ 16 - 7 }
  else { s with monitor := .unknown }

def clear (s : Driver) : Driver :=
  (List.range' 0 (cols * rows) 2).foldl (fun s i => s.draw i 0) s

def vgaPreinit (equipment : UInt8) (s : Driver) : Driver :=
  vgaCurs (clear (detect equipment s)) 0 0

def Driver.moveUp (s : Driver) (i : Nat) : Driver :=
  let (c, s) := s.read (i * 2)
  s.write ((i - cols) * 2) c

def moveLines (s : Driver) : Driver :=
  (List.range' cols (rows * cols - cols)).foldl Driver.moveUp s

def blankLast (s : Driver) : Driver :=
  (List.range cols).foldl (fun s i => s.draw ((rows * cols - cols + i) * 2) 32) s

/-- From the label `newline` on. -/
def newline (s : Driver) : Driver :=
  let s := { s with xpos := 0, ypos := (s.ypos + 1) % 2 ^ 8 }
  if rows ≤ s.ypos then
    let s := blankLast (moveLines s)
    { s with ypos := s.ypos - 1 }
  else s

def Driver.here (s : Driver) : Nat := (s.xpos + s.ypos * cols) * 2

def back (s : Driver) : Driver :=
  if s.xpos = 0 then
    { s with ypos := if s.ypos = 0 then 0 else s.ypos - 1, xpos := cols - 1 }
  else { s with xpos := s.xpos - 1 }

/-- The character and the step to the right, before it is seen whether the line is full. -/
def putChar (s : Driver) (c : UInt8) : Driver :=
  let s := s.draw s.here c
  { s with xpos := (s.xpos + 1) % 2 ^ 8 }

def vgaPut (s : Driver) (c : UInt8) : Driver :=
  if c = 8 then
    let s := back s
    s.draw s.here 32
  else if c = 10 ∨ c = 13 then newline s
  else
    let s := putChar s c
    if cols ≤ s.xpos then newline s else s

def screen (equipment : UInt8) (vidmem : Nat → UInt8) (crtc : Crtc) (bytes : List UInt8) : Driver :=
  bytes.foldl vgaPut (vgaPreinit equipment (boot vidmem crtc))

def Driver.Uniform (s : Driver) : Prop :=
  ∀ i < cols * rows, s.vidmem (i * 2 + 1) = UInt8.ofNat s.attrib

structure Drawn (s u : Driver) : Prop where
  xpos : u.xpos = s.xpos
  ypos : u.ypos = s.ypos
  attrib : u.attrib = s.attrib
  touched : ∀ off ∈ u.touched, off ∈ s.touched ∨ off < cols * rows * 2
  uniform : s.Uniform → u.Uniform

theorem Drawn.refl (s : Driver) : Drawn s s := ⟨rfl, rfl, rfl, fun _ h => .inl h, id⟩

variable {s u : Driver} {i : Nat} {t : Text UInt8}

theorem Drawn.trans {v : Driver} (first : Drawn s u) (second : Drawn u v) : Drawn s v where
  xpos := second.xpos.trans first.xpos
  ypos := second.ypos.trans first.ypos
  attrib := second.attrib.trans first.attrib
  touched := by
    intro off member
    rcases second.touched off member with before | inside
    · exact first.touched off before
    · exact .inr inside
  uniform := fun uniform => second.uniform (first.uniform uniform)

theorem Drawn.foldl {step : Driver → Nat → Driver} {l : List Nat}
    (turn : ∀ s, ∀ i ∈ l, Drawn s (step s i)) (s : Driver) : Drawn s (l.foldl step s) := by
  induction l generalizing s with
  | nil => exact Drawn.refl s
  | cons i rest ih =>
    have first := turn s i List.mem_cons_self
    exact first.trans (ih (fun s j member => turn s j (List.mem_cons_of_mem i member)) _)

theorem draw_drawn (s : Driver) (c : UInt8) (inside : i < cols * rows) :
    Drawn s (s.draw (i * 2) c) where
  xpos := rfl
  ypos := rfl
  attrib := rfl
  touched := by
    intro off member
    simp only [Driver.draw, Driver.write, List.mem_cons] at member
    rcases member with rfl | rfl | before
    · right; omega
    · right; omega
    · exact .inl before
  uniform := by
    intro uniform j below
    simp only [Driver.draw, Driver.write]
    by_cases same : j = i
    · rw [same, update_self]
    · rw [update_of_ne (by omega), update_of_ne (by omega)]
      exact uniform j below

theorem moveUp_drawn (s : Driver) (inside : i < cols * rows) : Drawn s (s.moveUp i) where
  xpos := rfl
  ypos := rfl
  attrib := rfl
  touched := by
    intro off member
    simp only [Driver.moveUp, Driver.read, Driver.write, List.mem_cons] at member
    rcases member with rfl | rfl | before
    · right; omega
    · right; omega
    · exact .inl before
  uniform := by
    -- attributes stand at odd offsets, and the move writes even ones
    intro uniform j below
    simp only [Driver.moveUp, Driver.read, Driver.write]
    rw [update_of_ne (by omega)]
    exact uniform j below

theorem moveLines_drawn (s : Driver) : Drawn s (moveLines s) := by
  apply Drawn.foldl
  intro s i member
  rw [List.mem_range'_1] at member
  exact moveUp_drawn s (by unfold cols rows at *; omega)

theorem blankLast_drawn (s : Driver) : Drawn s (blankLast s) := by
  apply Drawn.foldl
  intro s i member
  rw [List.mem_range] at member
  exact draw_drawn s 32 (by unfold cols rows at *; omega)

theorem mem_clear (member : i ∈ List.range' 0 (cols * rows) 2) : ∃ k < cols * rows, i = k * 2 := by
  obtain ⟨k, below, eq⟩ := List.mem_range'.mp member
  exact ⟨k, below, by omega⟩

theorem clear_drawn (s : Driver) : Drawn s (clear s) := by
  apply Drawn.foldl
  intro s i member
  obtain ⟨k, below, rfl⟩ := mem_clear member
  exact draw_drawn s 0 below

theorem clear_eq (s : Driver) :
    clear s = (List.range' 0 (cols * rows) 2).foldl (fun s i => s.draw (i / 2 * 2) 0) s := by
  apply List.foldl_ext
  intro s i member
  obtain ⟨k, -, rfl⟩ := mem_clear member
  rw [Nat.mul_div_cancel k (by decide)]

theorem foldl_draw_attribs (cell : Nat → Nat) (c : UInt8) (l : List Nat) (s : Driver) (i : Nat) :
    (l.foldl (fun s i => s.draw (cell i * 2) c) s).vidmem (i * 2 + 1) =
      Loops.stores cell (fun _ => UInt8.ofNat s.attrib) l (fun i => s.vidmem (i * 2 + 1)) i := by
  induction l generalizing s with
  | nil => rfl
  | cons j rest ih =>
    have first : (fun i => (s.draw (cell j * 2) c).vidmem (i * 2 + 1)) =
        update (fun i => s.vidmem (i * 2 + 1)) (cell j) (UInt8.ofNat s.attrib) := by
      funext i
      simp only [Driver.draw, Driver.write]
      by_cases same : i = cell j
      · rw [same, update_self, update_self]
      · rw [update_of_ne (by omega), update_of_ne (by omega),
          update_of_ne same]
    rw [List.foldl_cons, ih, first]
    rfl

theorem clear_uniform (s : Driver) : (clear s).Uniform := by
  intro i inside
  rw [(clear_drawn s).attrib, clear_eq, foldl_draw_attribs (· / 2)]
  apply Loops.stores_inside
  · exact ⟨i * 2, List.mem_range'.mpr ⟨i, inside, by omega⟩, by omega⟩
  · intro _ _ _
    rfl

structure Safe (s : Driver) : Prop where
  ypos : s.ypos < rows
  touched : ∀ off ∈ s.touched, off < cols * rows * 2
  uniform : s.Uniform

structure Inside (s : Driver) : Prop extends Safe s where
  xpos : s.xpos < cols

theorem Drawn.within (drawn : Drawn s u) (touched : ∀ off ∈ s.touched, off < cols * rows * 2) :
    ∀ off ∈ u.touched, off < cols * rows * 2 := by
  intro off member
  rcases drawn.touched off member with before | inside
  · exact touched off before
  · exact inside

theorem Safe.drawn (safe : Safe s) (drawn : Drawn s u) : Safe u :=
  ⟨drawn.ypos ▸ safe.ypos, drawn.within safe.touched, drawn.uniform safe.uniform⟩

theorem newline_cases (low : s.ypos < rows) : let begun := { s with xpos := 0, ypos := s.ypos + 1 }
    s.ypos + 1 < rows ∧ newline s = begun ∨
      s.ypos + 1 = rows ∧ newline s = { blankLast (moveLines begun) with ypos := s.ypos } := by
  intro begun
  have next : (s.ypos + 1) % 2 ^ 8 = s.ypos + 1 := by
    unfold rows at low
    omega
  unfold newline
  simp only [next]
  split
  · next full =>
    have drawn := (moveLines_drawn begun).trans (blankLast_drawn _)
    have back : (blankLast (moveLines begun)).ypos - 1 = s.ypos := by
      rw [drawn.ypos]
      exact Nat.add_sub_cancel s.ypos 1
    exact .inr ⟨by omega, congrArg (fun y => { blankLast (moveLines begun) with ypos := y }) back⟩
  · next room => exact .inl ⟨Nat.lt_of_not_le room, rfl⟩

theorem newline_inside (safe : Safe s) : Inside (newline s) := by
  rcases newline_cases safe.ypos with ⟨room, eq⟩ | ⟨-, eq⟩
  · rw [eq]
    exact ⟨⟨room, safe.touched, safe.uniform⟩, cols_pos⟩
  · rw [eq]
    have drawn := (moveLines_drawn { s with xpos := 0, ypos := s.ypos + 1 }).trans (blankLast_drawn _)
    generalize blankLast _ = u at drawn ⊢
    refine ⟨⟨safe.ypos, drawn.within safe.touched, drawn.uniform safe.uniform⟩, ?_⟩
    show u.xpos < cols
    rw [drawn.xpos]
    exact cols_pos

section

variable (inside : Inside s)
include inside

theorem Inside.here : s.xpos + s.ypos * cols < cols * rows := by
  have right := inside.xpos
  have low := inside.ypos
  unfold cols rows at *
  omega

theorem putChar_safe (c : UInt8) : Safe (putChar s c) := by
  have safe := inside.toSafe.drawn (draw_drawn s c inside.here)
  exact ⟨safe.ypos, safe.touched, safe.uniform⟩

theorem back_inside : Inside (back s) := by
  have right := inside.xpos
  have low := inside.ypos
  unfold back
  split
  · refine ⟨⟨?_, inside.touched, inside.uniform⟩, (by decide : cols - 1 < cols)⟩
    show (if s.ypos = 0 then 0 else s.ypos - 1) < rows
    split <;> omega
  · exact ⟨⟨low, inside.touched, inside.uniform⟩, (by omega : s.xpos - 1 < cols)⟩

theorem vgaPut_inside (c : UInt8) : Inside (vgaPut s c) := by
  unfold vgaPut
  split
  · have moved := back_inside inside
    have drawn := draw_drawn (back s) 32 moved.here
    exact ⟨moved.toSafe.drawn drawn, drawn.xpos ▸ moved.xpos⟩
  · split
    · exact newline_inside inside.toSafe
    · have safe := putChar_safe inside c
      simp only
      split
      · exact newline_inside safe
      · next room => exact ⟨safe, Nat.lt_of_not_le room⟩

theorem foldl_vgaPut_inside (bytes : List UInt8) : Inside (bytes.foldl vgaPut s) := by
  induction bytes generalizing s with
  | nil => exact inside
  | cons c rest ih => exact ih (vgaPut_inside inside c)

end

def Driver.cells (s : Driver) (i : Nat) : UInt8 := s.vidmem (i * 2)

def Driver.char (s : Driver) (row x : Nat) : UInt8 := s.cells (x + row * cols)

theorem draw_cells (s : Driver) (i : Nat) (c : UInt8) :
    (s.draw (i * 2) c).cells = update s.cells i c := by
  funext j
  simp only [Driver.cells, Driver.draw, Driver.write]
  rw [update_of_ne (by omega)]
  by_cases same : j = i
  · rw [same, update_self, update_self]
  · rw [update_of_ne (by omega), update_of_ne same]
    rfl

theorem moveUp_cells (s : Driver) (i : Nat) :
    (s.moveUp i).cells = update s.cells (i - cols) (s.cells i) := by
  funext j
  simp only [Driver.cells, Driver.moveUp, Driver.read, Driver.write]
  by_cases same : j = i - cols
  · rw [same, update_self, update_self]
  · rw [update_of_ne (by omega), update_of_ne same]
    rfl

theorem foldl_draw_cells (cell : Nat → Nat) (c : UInt8) (l : List Nat) (s : Driver) :
    (l.foldl (fun s i => s.draw (cell i * 2) c) s).cells =
      Loops.stores cell (fun _ => c) l s.cells :=
  (List.foldl_hom Driver.cells fun s i => (draw_cells s (cell i) c).symm).symm

theorem moveLines_cells (s : Driver) (i : Nat) :
    (moveLines s).cells i =
      if i < rows * cols - cols then s.cells (i + cols) else s.cells i := by
  have loop : (moveLines s).cells = Loops.shift cols (rows * cols - cols) s.cells :=
    (List.foldl_hom Driver.cells fun s i => (moveUp_cells s i).symm).symm
  rw [loop, Loops.shift_eq]

theorem blankLast_cells (s : Driver) (inside : i < cols * rows) :
    (blankLast s).cells i = if i < rows * cols - cols then s.cells i else 32 := by
  unfold blankLast
  rw [foldl_draw_cells (fun i => rows * cols - cols + i)]
  split
  · next above =>
    apply Loops.stores_outside
    intro k _
    omega
  · next last =>
    apply Loops.stores_inside
    · refine ⟨i - (rows * cols - cols), ?_, by omega⟩
      rw [List.mem_range]
      unfold cols rows at *
      omega
    · intro _ _ _
      rfl

theorem clear_cells (s : Driver) (inside : i < cols * rows) : (clear s).cells i = 0 := by
  rw [clear_eq, foldl_draw_cells (· / 2)]
  apply Loops.stores_inside
  · exact ⟨i * 2, List.mem_range'.mpr ⟨i, inside, by omega⟩, by omega⟩
  · intro _ _ _
    rfl

theorem scrolled_char (s : Driver) (row x : Nat) (low : row < rows) (right : x < cols) :
    (blankLast (moveLines s)).char row x = if row + 1 < rows then s.char (row + 1) x else 32 := by
  unfold Driver.char
  rw [blankLast_cells _ (by unfold cols rows at *; omega), moveLines_cells]
  by_cases more : row + 1 < rows
  · have above : x + row * cols < rows * cols - cols := by
      unfold cols rows at *
      omega
    rw [if_pos above, if_pos above, if_pos more]
    congr 1
    unfold cols
    omega
  · rw [if_neg (by unfold cols rows at *; omega), if_neg more]

theorem detect_boot (equipment : UInt8) (vidmem : Nat → UInt8) (crtc : Crtc) :
    ∃ attrib monitor, detect equipment (boot vidmem crtc) =
      ⟨vidmem, attrib, 0, 0, monitor, crtc, []⟩ := by
  unfold detect
  simp only
  split_ifs <;> exact ⟨_, _, rfl⟩

theorem vgaCurs_inside (inside : Inside s) (x y : Int) : Inside (vgaCurs s x y) where
  __ := inside
  uniform := fun i below => inside.uniform i below

theorem vgaPreinit_inside (equipment : UInt8) (vidmem : Nat → UInt8) (crtc : Crtc) :
    Inside (vgaPreinit equipment (boot vidmem crtc)) := by
  obtain ⟨attrib, monitor, eq⟩ := detect_boot equipment vidmem crtc
  unfold vgaPreinit
  rw [eq]
  apply vgaCurs_inside
  have drawn := clear_drawn ⟨vidmem, attrib, 0, 0, monitor, crtc, []⟩
  refine ⟨⟨?_, drawn.within (by simp), clear_uniform _⟩, ?_⟩
  · rw [drawn.ypos]
    exact rows_pos
  · rw [drawn.xpos]
    exact cols_pos

def filler (j : Nat) : UInt8 := if j < rows then 0 else 32

structure Shows (s : Driver) (t : Text UInt8) : Prop where
  xpos : s.xpos = t.line.length
  ypos : s.ypos = t.cur - t.top rows
  char : ∀ row < rows, ∀ x < cols,
    s.char row x = ((t.nth (row + t.top rows))[x]?).getD (filler (row + t.top rows))

theorem Shows.vgaCurs (shows : Shows s t) (x y : Int) : Shows (vgaCurs s x y) t where
  __ := shows
  char := fun row low x right => shows.char row low x right

theorem vgaPreinit_shows (equipment : UInt8) (vidmem : Nat → UInt8) (crtc : Crtc) :
    Shows (vgaPreinit equipment (boot vidmem crtc)) ⟨[], []⟩ := by
  obtain ⟨attrib, monitor, eq⟩ := detect_boot equipment vidmem crtc
  have drawn := clear_drawn ⟨vidmem, attrib, 0, 0, monitor, crtc, []⟩
  unfold vgaPreinit
  rw [eq]
  apply Shows.vgaCurs
  refine ⟨drawn.xpos, drawn.ypos, ?_⟩
  intro row low x right
  have top : (⟨[], []⟩ : Text UInt8).top rows = 0 := rfl
  have empty : (⟨[], []⟩ : Text UInt8).nth row = [] := by
    cases row with
    | zero => rfl
    | succ row => exact Text.nth_above (Nat.succ_pos row)
  rw [top, Nat.add_zero, empty, filler, if_pos low]
  exact clear_cells _ (by unfold cols rows at *; omega)

theorem newline_shows (shows : Shows s t) : Shows (newline s) t.endLine := by
  have ypos : s.ypos = t.cur - (t.cur - 24) := shows.ypos
  have cur : t.endLine.cur = t.cur + 1 := Text.cur_endLine t
  have first : t.top rows = t.cur - 24 := rfl
  have first' : t.endLine.top rows = t.endLine.cur - 24 := rfl
  rcases newline_cases (show s.ypos < rows by unfold rows; omega) with ⟨room, eq⟩ | ⟨full, eq⟩
  · rw [eq]
    have still : t.endLine.top rows = t.top rows := by
      unfold rows at room
      omega
    refine ⟨rfl, ?_, ?_⟩
    · show s.ypos + 1 = _
      unfold rows at room
      omega
    · intro row low x right
      rw [still, Text.nth_endLine]
      exact shows.char row low x right
  · rw [eq]
    have up : t.endLine.top rows = t.top rows + 1 := by
      unfold rows at full
      omega
    have scrolled := scrolled_char { s with xpos := 0, ypos := s.ypos + 1 }
    have drawn := (moveLines_drawn { s with xpos := 0, ypos := s.ypos + 1 }).trans (blankLast_drawn _)
    generalize blankLast _ = u at drawn scrolled ⊢
    refine ⟨drawn.xpos, ?_, ?_⟩
    · show s.ypos = _
      omega
    · intro row low x right
      refine (scrolled row x low right).trans ?_
      rw [up, Text.nth_endLine]
      split
      · next more =>
        rw [← Nat.add_assoc, Nat.add_right_comm]
        exact shows.char (row + 1) more x right
      · -- the last row is that of the line that begins
        have above : t.cur < row + (t.top rows + 1) := by
          unfold rows at *
          omega
        rw [Text.nth_above above, filler, if_neg (by unfold rows at *; omega)]
        rfl

theorem getD_extend (l : List UInt8) (c d : UInt8) (x : Nat) :
    ((l ++ [c])[x]?).getD d = if x = l.length then c else (l[x]?).getD d := by
  split
  · next last => rw [last, List.getElem?_concat_length, Option.getD_some]
  · next other =>
    rcases Nat.lt_or_gt_of_ne other with below | above
    · rw [List.getElem?_append_left below]
    · rw [List.getElem?_eq_none (by simp; omega), List.getElem?_eq_none (by omega)]

theorem putChar_shows (inside : Inside s) (shows : Shows s t) (c : UInt8) :
    Shows (putChar s c) (t.extend c) := by
  have right := inside.xpos
  have low := inside.ypos
  have ypos : s.ypos = t.cur - (t.cur - 24) := shows.ypos
  have first : t.top rows = t.cur - 24 := rfl
  have first' : (t.extend c).top rows = t.top rows := rfl
  refine ⟨?_, shows.ypos, ?_⟩
  · show (s.xpos + 1) % 2 ^ 8 = (t.line ++ [c]).length
    rw [List.length_append, List.length_singleton, shows.xpos.symm]
    unfold cols at right
    omega
  · intro row below x left
    have drawn : (putChar s c).char row x =
        update s.cells (s.xpos + s.ypos * cols) c (x + row * cols) :=
      congrFun (draw_cells s (s.xpos + s.ypos * cols) c) (x + row * cols)
    rw [drawn, first']
    by_cases same : row = s.ypos
    · have line : row + t.top rows = t.cur := by omega
      have before := shows.char row below x left
      rw [line, Text.nth_cur] at before
      rw [line, ← Text.cur_extend t c, Text.nth_cur, Text.cur_extend]
      show _ = ((t.line ++ [c])[x]?).getD _
      rw [getD_extend, ← shows.xpos, ← before]
      by_cases here : x = s.xpos
      · rw [if_pos here, here, same, update_self]
      · rw [if_neg here, update_of_ne (by rw [same]; omega)]
        rfl
    · have other : row + t.top rows ≠ t.cur := by omega
      rw [Text.nth_extend c other, update_of_ne (by unfold cols at *; omega)]
      exact shows.char row below x left

def endsLine (c : UInt8) : Bool := c = 10 || c = 13

def lines (bytes : List UInt8) : Text UInt8 := Lines.cut endsLine cols bytes

theorem vgaPut_shows {c : UInt8} (inside : Inside s) (shows : Shows s t) (forward : c ≠ 8) :
    Shows (vgaPut s c) (t.feed endsLine cols c) := by
  have ends : endsLine c = true ↔ c = 10 ∨ c = 13 := by simp [endsLine]
  unfold vgaPut Text.feed
  rw [if_neg forward]
  simp only [ends]
  split
  · exact newline_shows shows
  · have put := putChar_shows inside shows c
    rw [← put.xpos]
    by_cases full : cols ≤ (putChar s c).xpos
    · rw [if_pos full, if_neg (Nat.not_lt.mpr full)]
      exact newline_shows put
    · rw [if_neg full, if_pos (Nat.lt_of_not_le full)]
      exact put

theorem foldl_vgaPut_shows {bytes : List UInt8} (inside : Inside s) (shows : Shows s t)
    (forward : 8 ∉ bytes) :
    Shows (bytes.foldl vgaPut s) (bytes.foldl (Text.feed endsLine cols) t) := by
  induction bytes generalizing s t with
  | nil => exact shows
  | cons c rest ih =>
    rw [List.mem_cons, not_or] at forward
    exact ih (vgaPut_inside inside c) (vgaPut_shows inside shows (Ne.symm forward.1)) forward.2

/-- Whatever is sent to it, the driver stays inside the screen. If no backspace is among it,
the screen shows the last lines of the text: the character in column `x` of line `j` stands
in row `j - (cur - 24)`, the row and the column of the next character are those of the end of
the current line, and where there is no character is a blank. -/
theorem screen_shows_text (equipment : UInt8) (vidmem : Nat → UInt8) (crtc : Crtc)
    (bytes : List UInt8) :
    let s := screen equipment vidmem crtc bytes
    let t := lines bytes
    (∀ off ∈ s.touched, off < 80 * 25 * 2) ∧ s.xpos < 80 ∧ s.ypos < 25 ∧
    (8 ∉ bytes →
      s.xpos = t.line.length ∧ s.ypos = t.cur - (t.cur - 24) ∧
      (∀ j x c, t.cur - 24 ≤ j → (t.nth j)[x]? = some c →
        x < 80 ∧ j - (t.cur - 24) < 25 ∧ s.char (j - (t.cur - 24)) x = c) ∧
      ∀ row < 25, ∀ x < 80, (t.nth (row + (t.cur - 24))).length ≤ x →
        s.char row x = 0 ∨ s.char row x = 32) := by
  intro s t
  have inside : Inside s := foldl_vgaPut_inside (vgaPreinit_inside equipment vidmem crtc) bytes
  refine ⟨inside.touched, inside.xpos, inside.ypos, ?_⟩
  intro forward
  have shows : Shows s t := foldl_vgaPut_shows (vgaPreinit_inside equipment vidmem crtc)
    (vgaPreinit_shows equipment vidmem crtc) forward
  have fits : t.Fits cols := Lines.cut_fits cols_pos bytes
  refine ⟨shows.xpos, shows.ypos, ?_, ?_⟩
  · intro j x c shown found
    have within : j ≤ t.cur := by
      by_contra above
      rw [Text.nth_above (by omega)] at found
      exact absurd found (by simp)
    have right : x < cols :=
      Nat.lt_of_lt_of_le (List.getElem?_eq_some_iff.mp found).1 (fits.nth_le j)
    have low : j - (t.cur - 24) < rows := by
      unfold rows
      omega
    have cell := shows.char _ low x right
    have line : j - (t.cur - 24) + t.top rows = j := Nat.sub_add_cancel shown
    rw [line, found] at cell
    exact ⟨right, low, cell⟩
  · intro row low x right beyond
    have cell := shows.char row low x right
    have past : (t.nth (row + t.top rows))[x]? = none := List.getElem?_eq_none beyond
    rw [past, Option.getD_none, filler] at cell
    rw [cell]
    split
    · exact .inl rfl
    · exact .inr rfl

/-- After 30 newlines the text is in the last row. -/
theorem screen_shows_text_scrolled :
    let bytes : List UInt8 := List.replicate 30 10 ++ [104, 105]
    let s := screen 0x20 (fun _ => 0xff) ⟨0, fun _ => 0⟩ bytes
    8 ∉ bytes ∧ s.xpos = 2 ∧ s.ypos = 24 ∧ s.char 24 0 = 104 ∧ s.char 24 1 = 105 := by
  intro bytes s
  have forward : 8 ∉ bytes := by decide
  obtain ⟨-, -, -, shown⟩ := screen_shows_text 0x20 (fun _ => 0xff) ⟨0, fun _ => 0⟩ bytes
  obtain ⟨xpos, ypos, chars, -⟩ := shown forward
  have cur : (lines bytes).cur = 30 := by decide +kernel
  rw [cur] at ypos chars
  refine ⟨forward, xpos.trans (by decide +kernel), ypos, ?_, ?_⟩
  · exact (chars 30 0 104 (by decide) (by decide +kernel)).2.2
  · exact (chars 30 1 105 (by decide) (by decide +kernel)).2.2

end ScaraOS.Vga
