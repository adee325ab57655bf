import ScaraOS.Blk
import ScaraOS.Lib.Loops
import ScaraOS.Slab.Kmalloc

/-! The transfers of the floppy controller: `dma_cmd` and `dma_read` of `arch-ia32/dma.c`, the
controller they program, and the buffers `blk_read` has from `kmalloc`. -/
namespace ScaraOS.Dma

open Function Slab
open Blk (Blkdev blkSetBlocksize Accepts blkSetBlocksize_accepted blkSetBlocksize_refused)

structure Ports where
  page : Nat
  addr : Nat
  count : Nat
  mask : Nat
  mode : Nat
  clear : Nat
  deriving DecidableEq, Repr

def dmaChan : List Ports := [
  ⟨0x87, 0x00, 0x01, 0x0a, 0x0b, 0x0c⟩,
  ⟨0x83, 0x02, 0x03, 0x0a, 0x0b, 0x0c⟩,
  ⟨0x81, 0x04, 0x05, 0x0a, 0x0b, 0x0c⟩,
  ⟨0x82, 0x06, 0x07, 0x0a, 0x0b, 0x0c⟩,
  ⟨0x8f, 0xc0, 0xc2, 0xd4, 0xd6, 0xd8⟩,
  ⟨0x8b, 0xc6, 0xc6, 0xd4, 0xd6, 0xd8⟩,
  ⟨0x89, 0xc8, 0xca, 0xd4, 0xd6, 0xd8⟩,
  ⟨0x8a, 0xcc, 0xce, 0xd4, 0xd6, 0xd8⟩]

/-- The controller of the 8-bit channels and its page registers. The address and the count
are 16 bits wide and written through 8-bit ports; `high` says which byte comes next. -/
structure Controller where
  page : Nat → Nat
  addr : Nat → Nat
  count : Nat → Nat
  mode : Nat → Nat
  masked : Nat → Bool
  high : Bool

def setByte (high : Bool) (old value : Nat) : Nat :=
  if high then old % 2 ^ 8 + value * 2 ^ 8 else old / 2 ^ 8 * 2 ^ 8 + value

def pageOf : Nat → Option Nat
  | 0x87 => some 0
  | 0x83 => some 1
  | 0x81 => some 2
  | 0x82 => some 3
  | _ => none

def Controller.outb (d : Controller) (port value : Nat) : Controller :=
  if port < 8 then
    let chan := port / 2
    if port % 2 = 0 then
      { d with
        addr := update d.addr chan (setByte d.high (d.addr chan) value)
        high := !d.high }
    else
      { d with
        count := update d.count chan (setByte d.high (d.count chan) value)
        high := !d.high }
  else if port = 0x0a then
    { d with masked := update d.masked (value % 4) (value.testBit 2) }
  else if port = 0x0b then { d with mode := update d.mode (value % 4) (value / 4) }
  else if port = 0x0c then { d with high := false }
  else
    match pageOf port with
    | some chan => { d with page := update d.page chan value }
    | none => d

/-- Where byte `i` of a transfer goes. The address register is what is counted up, so that a
transfer never leaves its 64 KiB. -/
def Controller.byte (d : Controller) (chan i : Nat) : Nat :=
  d.page chan * 2 ^ 16 + (d.addr chan + i) % 2 ^ 16

def commands (c : Ports) (chan page ofs len mode : Nat) : List (Nat × Nat) := [
  (c.mask, 0x04 ||| chan),
  (c.clear, 0x00),
  (c.mode, mode),
  (c.addr, ofs &&& 0xff),
  (c.addr, (ofs >>> 8) &&& 0xff),
  (c.page, page),
  (c.count, len &&& 0xff),
  (c.count, (len >>> 8) &&& 0xff),
  (c.mask, chan)]

/-- There is no result where `BUG_ON` stops. -/
def dmaCmd (d : Controller) (chan page ofs len mode : Nat) : Option Controller :=
  (dmaChan[chan]?).map fun c =>
    (commands c chan page ofs len mode).foldl (fun d (port, value) => d.outb port value) d

/-- The page is cut to 8 bits, the offset and the length to 16. -/
def dmaRead (d : Controller) (chan addr len : Nat) : Option Controller :=
  dmaCmd d chan ((addr >>> 16) % 2 ^ 8) (addr &&& 0xffff) ((len + (2 ^ 16 - 1)) % 2 ^ 16)
    ((0x44 + chan) % 2 ^ 8)

theorem setByte_both {old value : Nat} (word : value < 2 ^ 16) :
    setByte true (setByte false old (value &&& 0xff)) ((value >>> 8) &&& 0xff) = value := by
  have low : value &&& 0xff = value % 2 ^ 8 := Nat.and_two_pow_sub_one_eq_mod value 8
  have high : (value >>> 8) &&& 0xff = value / 2 ^ 8 := by
    rw [Nat.shiftRight_eq_div_pow]
    exact (Nat.and_two_pow_sub_one_eq_mod _ 8).trans
      (Nat.mod_eq_of_lt (Nat.div_lt_of_lt_mul (by omega)))
  rw [low, high]
  simp only [setByte, if_true, Bool.false_eq_true, if_false]
  omega

theorem dmaCmd_two (d : Controller) (page : Nat) {ofs len : Nat} (mode : Nat) (offset : ofs < 2 ^ 16)
    (length : len < 2 ^ 16) :
    ∃ d', dmaCmd d 2 page ofs len mode = some d' ∧ d'.page 2 = page ∧ d'.addr 2 = ofs ∧
      d'.count 2 = len ∧ d'.masked 2 = false := by
  refine ⟨_, rfl, rfl, ?_, ?_, rfl⟩
  · exact setByte_both offset
  · exact setByte_both length

def physical (a : Nat) : Nat := (wordSize - pageOffset + a) % wordSize

/-- The transfer that is programmed is to these bytes and to no others, and does not cross
64 KiB. -/
structure Denotes (d : Controller) (chan addr len : Nat) : Prop where
  length : d.count chan + 1 = len
  inside : d.addr chan + d.count chan < 2 ^ 16
  bytes : ∀ i < len, d.byte chan i = physical (addr + i)

theorem physical_inside {p x : Nat} (frame : p < nrFrames) (inside : x < pageSize) :
    physical (pageAddress p + x) = p * pageSize + x := by
  unfold nrFrames at frame
  unfold pageSize at inside
  unfold physical pageAddress pageOffset pageSize wordSize
  omega

theorem low_bits (p x : Nat) : (pageAddress p + x) % 2 ^ 24 = (p * pageSize + x) % 2 ^ 24 := by
  unfold pageAddress pageOffset pageSize wordSize
  omega

theorem room_in_page {p x : Nat} (inside : x + 512 ≤ pageSize) :
    (pageAddress p + x) % 2 ^ 16 + 511 < 2 ^ 16 := by
  unfold pageSize at inside
  unfold pageAddress pageOffset pageSize wordSize
  omega

theorem page_offset (a : Nat) : (a >>> 16) % 2 ^ 8 * 2 ^ 16 + (a &&& 0xffff) = a % 2 ^ 24 := by
  have low : a &&& 0xffff = a % 2 ^ 16 := Nat.and_two_pow_sub_one_eq_mod a 16
  rw [low, Nat.shiftRight_eq_div_pow]
  omega

theorem dmaRead_denotes_iff (d : Controller) {p x : Nat} (frame : p < nrFrames)
    (inside : x + 512 ≤ pageSize) :
    (∃ d', dmaRead d 2 (pageAddress p + x) 512 = some d' ∧ Denotes d' 2 (pageAddress p + x) 512) ↔
      p < 4096 := by
  have low : (pageAddress p + x) &&& 0xffff = (pageAddress p + x) % 2 ^ 16 :=
    Nat.and_two_pow_sub_one_eq_mod _ 16
  have room := room_in_page (p := p) inside
  rw [← low] at room
  have word : (pageAddress p + x) &&& 0xffff < 2 ^ 16 := by omega
  obtain ⟨d', programmed, page, addr, count, -⟩ := dmaCmd_two d
    (((pageAddress p + x) >>> 16) % 2 ^ 8) ((0x44 + 2) % 2 ^ 8) word (show 511 < 2 ^ 16 by decide)
  have goes : ∀ i < 512, d'.byte 2 i = (p * pageSize + x) % 2 ^ 24 + i := by
    intro i below
    have stays : ((pageAddress p + x) &&& 0xffff) + i < 2 ^ 16 := by omega
    rw [Controller.byte, page, addr, Nat.mod_eq_of_lt stays, ← Nat.add_assoc, page_offset, low_bits]
  constructor
  · rintro ⟨d'', again, denotes⟩
    cases programmed.symm.trans again
    have first := denotes.bytes 0 (by decide)
    rw [goes 0 (by decide), Nat.add_zero, Nat.add_zero, physical_inside frame (by omega)] at first
    have below : p * pageSize + x < 2 ^ 24 := by
      rw [← first]
      exact Nat.mod_lt _ (by decide)
    unfold pageSize at below
    omega
  · intro early
    have small : p * pageSize + x < 2 ^ 24 := by
      unfold pageSize at inside ⊢
      omega
    refine ⟨d', programmed, ?_, ?_, ?_⟩
    · rw [count]
    · rw [addr, count]
      exact room
    · intro i below
      rw [goes i below, Nat.mod_eq_of_lt small, Nat.add_assoc (pageAddress p),
        physical_inside frame (by omega), Nat.add_assoc]

def floppy0 : Blkdev := ⟨512, 0, Nat.succ_pos 511⟩

def blocksizes (sizes : List Nat) : Blkdev :=
  sizes.foldl (fun dev size => (blkSetBlocksize dev size).1) floppy0

theorem blkSetBlocksize_keeps {dev : Blkdev} (size : Nat)
    (inv : dev.sectsize = 512 ∧ dev.count ≤ 8) :
    (blkSetBlocksize dev size).1.sectsize = 512 ∧ (blkSetBlocksize dev size).1.count ≤ 8 := by
  by_cases good : Accepts dev size
  · rw [blkSetBlocksize_accepted good]
    split
    · exact inv
    · refine ⟨inv.1, ?_⟩
      have most := good.2.2.1
      unfold pageSize at most
      show size / dev.sectsize ≤ 8
      rw [inv.1]
      omega
  · rw [blkSetBlocksize_refused good]
    exact inv

theorem blocksizes_small (sizes : List Nat) :
    (blocksizes sizes).sectsize = 512 ∧ (blocksizes sizes).count ≤ 8 := by
  have kept : ∀ dev : Blkdev, dev.sectsize = 512 ∧ dev.count ≤ 8 →
      (sizes.foldl (fun dev size => (blkSetBlocksize dev size).1) dev).sectsize = 512 ∧
      (sizes.foldl (fun dev size => (blkSetBlocksize dev size).1) dev).count ≤ 8 := by
    induction sizes with
    | nil => exact fun dev inv => inv
    | cons size rest ih => exact fun dev inv => ih _ (blkSetBlocksize_keeps size inv)
  exact kept floppy0 (by decide)

/-- Whatever the controller was doing, the transfer of sector `k` of a block goes to its slot. -/
def Reaches (dev : Blkdev) (buf k : Nat) : Prop :=
  ∀ d : Controller, ∃ d', dmaRead d 2 (buf + k * dev.sectsize) dev.sectsize = some d' ∧
    Denotes d' 2 (buf + k * dev.sectsize) dev.sectsize

/-- For every buffer `blk_read` has from `kmalloc`, whatever was allocated and freed before. -/
theorem floppy_reaches_iff (mem : Bytes.Mem) (page : Nat → Page) (pages : Nat → Option Nat)
    (ops : List Op) (s : State) (framed : ∀ op ∈ kmallocInit pages ++ ops, Framed op.page)
    (ran : Run.exec step (memchunkInit mem page) (kmallocInit pages ++ ops) = some s)
    (sizes : List Nat) (given : Option Nat) (fit : Framed given) (t : State) (buf : Nat)
    (called : kmalloc s (blocksizes sizes).bLen given = .ok (t, buf)) (nonzero : buf ≠ 0) (k : Nat)
    (below : k < (blocksizes sizes).count) :
    Reaches (blocksizes sizes) buf k ↔ virtToPage buf < 4096 := by
  obtain ⟨frame, start, finish⟩ := kmalloc_spec ⟨mem, page, pages, ops, framed, ran⟩ fit called nonzero
  obtain ⟨sector, small⟩ := blocksizes_small sizes
  have length : (blocksizes sizes).bLen = (blocksizes sizes).count * 512 := by
    rw [Blkdev.bLen, sector]
    omega
  rw [length] at finish
  have place : buf + k * 512 = pageAddress (virtToPage buf) +
      (buf - pageAddress (virtToPage buf) + k * 512) := by omega
  have inside : buf - pageAddress (virtToPage buf) + k * 512 + 512 ≤ pageSize := by omega
  unfold Reaches
  rw [sector, place]
  constructor
  · intro reaches
    exact (dmaRead_denotes_iff ⟨fun _ => 0, fun _ => 0, fun _ => 0, fun _ => 0, fun _ => true, false⟩
      frame inside).mp (reaches _)
  · intro early d
    exact (dmaRead_denotes_iff d frame inside).mpr early

def sampleBuffer (frame : Nat) : Option Nat :=
  (Run.exec step boot (kmallocInit (fun _ => some 7) ++ [])).bind fun s =>
    (kmalloc s (blocksizes [1024]).bLen (some frame)).toOption.map fun r => r.2

theorem sampleBuffer_called {frame buf : Nat} (evaluated : sampleBuffer frame = some buf) :
    ∃ s t, Run.exec step boot (kmallocInit (fun _ => some 7) ++ []) = some s ∧
      kmalloc s (blocksizes [1024]).bLen (some frame) = .ok (t, buf) := by
  obtain ⟨s, ran, later⟩ := Option.bind_eq_some_iff.mp evaluated
  obtain ⟨⟨t, _⟩, called, rfl⟩ := Option.map_eq_some_iff.mp later
  exact ⟨s, t, ran, Loops.ok_of_toOption called⟩

theorem floppy_reaches_iff_low : sampleBuffer 8 = some (pageAddress 8) ∧
    Reaches (blocksizes [1024]) (pageAddress 8) 1 := by
  have evaluated : sampleBuffer 8 = some (pageAddress 8) := by decide
  obtain ⟨s, t, ran, called⟩ := sampleBuffer_called evaluated
  have fit : Framed (some 8) := by
    rintro p ⟨⟩
    decide
  exact ⟨evaluated, (floppy_reaches_iff _ _ _ [] s (pages_of_checked (by decide)) ran [1024]
    (some 8) fit t _ called (by decide) 1 (by decide)).mpr (by decide)⟩

/- In the first frame that is not below 16 MiB, the sectors go to the start of memory. -/
theorem floppy_writes_low_memory : sampleBuffer 4096 = some (pageAddress 4096) ∧
    (∀ d, ∃ d', dmaRead d 2 (pageAddress 4096) 512 = some d' ∧ d'.byte 2 0 = 0) ∧
    physical (pageAddress 4096) = 2 ^ 24 ∧ ¬ Reaches (blocksizes [1024]) (pageAddress 4096) 0 := by
  have first : ∀ d, ∃ d', dmaRead d 2 (pageAddress 4096) 512 = some d' ∧ d'.byte 2 0 = 0 := by
    intro d
    obtain ⟨d', programmed, page, addr, -⟩ := dmaCmd_two d ((pageAddress 4096 >>> 16) % 2 ^ 8)
      ((0x44 + 2) % 2 ^ 8) (show pageAddress 4096 &&& 0xffff < 2 ^ 16 by decide)
      (show 511 < 2 ^ 16 by decide)
    refine ⟨d', programmed, ?_⟩
    rw [Controller.byte, page, addr]
    decide
  refine ⟨by decide, first, by decide, fun reaches => ?_⟩
  obtain ⟨d', programmed, denotes⟩ := reaches ⟨fun _ => 0, fun _ => 0, fun _ => 0, fun _ => 0,
    fun _ => true, false⟩
  obtain ⟨d'', again, zero⟩ := first _
  cases programmed.symm.trans again
  have there := denotes.bytes 0 (by decide)
  rw [zero] at there
  revert there
  decide

end ScaraOS.Dma
