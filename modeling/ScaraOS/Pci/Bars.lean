import ScaraOS.Pci

/-! Sizing the base address registers of a device: `pcidev_scan_bars` of `drivers/pci.c`. Here
a device has bits that a write does not change. -/
namespace ScaraOS.Pci

open Bytes

def pciNumBars : Nat := 6
def pciConf0Bar0 : Nat := 0x10
def pciConf0Irq : Nat := 0x3c

def settle (writable old new : Mem) : Mem := fun x =>
  (old x &&& ~~~ writable x) ||| (new x &&& writable x)

/-- `pcidev_conf_write32` to such a device. -/
def deviceWrite32 (writable : Mem) (d : Dom) (dev : PciDev) (addr v : Nat) : Dom :=
  let written := pcidevConfWrite32 d dev addr v
  { written with
    bus := { written.bus with conf := settle writable d.bus.conf written.bus.conf } }

inductive Line where
  | bar (io : Bool) (i sz bar : Nat)
  | irq (line pin : Nat)
  deriving DecidableEq, Repr

def scanBar (writable : Mem) (dev : PciDev) (d : Dom) (i : Nat) : Dom × Nat × Option Line :=
  let addr := pciConf0Bar0 + (i <<< 2)
  let (d, bar) := pcidevConfRead32 d dev addr
  let d := deviceWrite32 writable d dev addr (2 ^ 32 - 1)
  let (d, sz) := pcidevConfRead32 d dev addr
  if bar = 0 then (d, i + 1, none)
  else if bar &&& 1 ≠ 0 then
    let bar := bar &&& 0xfffffffc
    let sz := (2 ^ 32 - (sz &&& 0xfffffffc)) % 2 ^ 32
    (d, i + 1, some (.bar true i sz bar))
  else
    match (bar &&& 0x3) >>> 1 with
    | 0 | 1 =>
      let bar := bar &&& 0xfffffff0
      let sz := (2 ^ 32 - (sz &&& 0xfffffff0)) % 2 ^ 32
      (d, i + 1, some (.bar false i sz bar))
    -- the other half of a register of 64 bits is skipped
    | 2 => (d, i + 2, none)
    | _ => (d, i + 1, none)

/-- The index goes up at each turn, so that there are no more turns than registers. -/
def scanBars (writable : Mem) (dev : PciDev) : Nat → Dom → Nat → Dom × List Line
  | 0, d, _ => (d, [])
  | turns + 1, d, i =>
    if i < pciNumBars then
      let (d, next, line) := scanBar writable dev d i
      let (d, lines) := scanBars writable dev turns d next
      (d, line.toList ++ lines)
    else (d, [])

def pcidevScanBars (writable : Mem) (dev : PciDev) (d : Dom) : Dom × List Line :=
  let (d, lines) := scanBars writable dev pciNumBars d 0
  let (d, irq) := pcidevConfRead32 d dev pciConf0Irq
  (d, lines ++ if irq &&& 0xff ≠ 0 then [.irq (irq &&& 0xff) ((irq >>> 8) &&& 0xff)] else [])

theorem settle_eq {b v w r : UInt8} (bits : ∀ i, r.toBitVec.getLsbD i =
      if w.toBitVec.getLsbD i then v.toBitVec.getLsbD i else b.toBitVec.getLsbD i) :
    (b &&& ~~~ w) ||| (v &&& w) = r := by
  apply UInt8.eq_of_toBitVec_eq
  apply BitVec.eq_of_getLsbD_eq
  intro i low
  simp only [bits, UInt8.toBitVec_or, UInt8.toBitVec_and, UInt8.toBitVec_not, BitVec.getLsbD_or,
    BitVec.getLsbD_and, BitVec.getLsbD_not, low, decide_true, Bool.true_and]
  cases w.toBitVec.getLsbD i <;> simp

theorem settle_same (b w : UInt8) : (b &&& ~~~ w) ||| (b &&& w) = b := by
  apply settle_eq
  intro i
  rw [ite_self]

theorem settle_ones (b w : UInt8) : (b &&& ~~~ w) ||| (0xff &&& w) = b ||| w := by
  have ones : (0xff &&& w : UInt8) = w &&& w := by
    have all : (0xff : UInt8) = -1 := by decide
    rw [all, UInt8.neg_one_and, UInt8.and_self]
  rw [ones]
  apply settle_eq
  intro i
  rw [UInt8.toBitVec_or, BitVec.getLsbD_or]
  cases w.toBitVec.getLsbD i <;> simp

def ones (writable m : Mem) (a n : Nat) : Mem := fun x =>
  if a ≤ x ∧ x < a + n then m x ||| writable x else m x

def barLoc (dev : PciDev) (i : Nat) : Nat := dev.pciBdf * 256 + (pciConf0Bar0 + 4 * i)

theorem settle_store (writable m : Mem) (a : Nat) :
    settle writable m (store m a 4 (2 ^ 32 - 1)) = ones writable m a 4 := by
  funext x
  simp only [settle, ones]
  by_cases inside : a ≤ x ∧ x < a + 4
  · have byte : ∀ k < 4, UInt8.ofNat ((2 ^ 32 - 1) / 2 ^ (8 * k)) = 0xff := by decide
    rw [store_inside m inside, if_pos inside, byte _ (by omega), settle_ones]
  · rw [store_outside m inside, if_neg inside, settle_same]

section

variable {d : Dom} (inv : Inv d) (dev : PciDev) {i : Nat} (below : i < pciNumBars)

include inv

theorem read32_spec {ofs : Nat} (inside : ofs < 256) (aligned : ofs % 4 = 0) :
    Inv (pcidevConfRead32 d dev ofs).1 ∧ (pcidevConfRead32 d dev ofs).1.bus.conf = d.bus.conf := by
  have kept : Inv (call d (.read .w32 dev ofs)).1 := call_inv inv ⟨inside, aligned⟩
  have port := (confLoc_and dev inside).2.2 aligned
  exact ⟨kept, (readConf1_spec inv dev inside port (by omega)).1⟩

theorem write32_spec (writable : Mem) {ofs : Nat} (inside : ofs < 256) (aligned : ofs % 4 = 0) :
    Inv (deviceWrite32 writable d dev ofs (2 ^ 32 - 1)) ∧
      (deviceWrite32 writable d dev ofs (2 ^ 32 - 1)).bus.conf =
        ones writable d.bus.conf (dev.pciBdf * 256 + ofs) 4 := by
  have kept : Inv (call d (.write .w32 dev ofs (2 ^ 32 - 1))).1 := call_inv inv ⟨inside, aligned⟩
  have stored : (pcidevConfWrite32 d dev ofs (2 ^ 32 - 1)).bus.conf = _ :=
    writeConf1_spec inv dev inside (by decide)
  rw [aligned, Nat.and_zero, Nat.add_zero, Nat.sub_zero] at stored
  refine ⟨kept, ?_⟩
  show settle writable d.bus.conf (pcidevConfWrite32 d dev ofs (2 ^ 32 - 1)).bus.conf = _
  rw [stored, settle_store]

include below

theorem scanBar_spec (writable : Mem) : Inv (scanBar writable dev d i).1 ∧
    (scanBar writable dev d i).1.bus.conf = ones writable d.bus.conf (barLoc dev i) 4 ∧
    (scanBar writable dev d i).2.1 = i + 1 := by
  have shifted : i <<< 2 = 4 * i := by
    rw [Nat.shiftLeft_eq]
    exact Nat.mul_comm i 4
  have inside : pciConf0Bar0 + i <<< 2 < 256 := by
    unfold pciNumBars at below
    unfold pciConf0Bar0
    omega
  have aligned : (pciConf0Bar0 + i <<< 2) % 4 = 0 := by
    unfold pciConf0Bar0
    omega
  have loc : dev.pciBdf * 256 + (pciConf0Bar0 + i <<< 2) = barLoc dev i := by
    rw [barLoc, shifted]
  obtain ⟨inv₁, conf₁⟩ := read32_spec inv dev inside aligned
  obtain ⟨inv₂, conf₂⟩ := write32_spec inv₁ dev writable inside aligned
  obtain ⟨inv₃, conf₃⟩ := read32_spec inv₂ dev inside aligned
  rw [conf₁, loc] at conf₂
  have last := conf₃.trans conf₂
  have two : ∀ x : Nat, (x &&& 0x3) >>> 1 < 2 := by
    intro x
    rw [and_three, Nat.shiftRight_eq_div_pow]
    omega
  unfold scanBar
  simp only
  split
  · exact ⟨inv₃, last, rfl⟩
  · split
    · exact ⟨inv₃, last, rfl⟩
    · split
      · exact ⟨inv₃, last, rfl⟩
      · exact ⟨inv₃, last, rfl⟩
      · rename_i wide
        exact absurd (wide ▸ two _) (by decide)
      · exact ⟨inv₃, last, rfl⟩

end

theorem ones_append (writable m : Mem) (a k n : Nat) :
    ones writable (ones writable m a k) (a + k) n = ones writable m a (k + n) := by
  funext x
  simp only [ones]
  split_ifs <;> first | rfl | omega

theorem scanBars_spec (writable : Mem) (dev : PciDev) {turns : Nat} {d : Dom} {i : Nat}
    (inv : Inv d) (left : i + turns = pciNumBars) :
    Inv (scanBars writable dev turns d i).1 ∧ (scanBars writable dev turns d i).1.bus.conf =
      ones writable d.bus.conf (barLoc dev i) (4 * turns) := by
  induction turns generalizing d i with
  | zero =>
    refine ⟨inv, ?_⟩
    funext x
    rw [ones, if_neg (by omega)]
    rfl
  | succ turns ih =>
    have below : i < pciNumBars := by omega
    obtain ⟨first, conf, next⟩ := scanBar_spec inv dev below writable
    obtain ⟨last, rest⟩ := ih first (i := i + 1) (by omega)
    have place : barLoc dev (i + 1) = barLoc dev i + 4 := by
      unfold barLoc
      omega
    rw [scanBars, if_pos below]
    simp only [next]
    refine ⟨last, ?_⟩
    rw [rest, conf, place, ones_append, Nat.mul_succ, Nat.add_comm 4]

theorem pcidevScanBars_conf (writable : Mem) (dev : PciDev) {d : Dom} (inv : Inv d) :
    (pcidevScanBars writable dev d).1.bus.conf =
      ones writable d.bus.conf (barLoc dev 0) (4 * pciNumBars) := by
  obtain ⟨after, conf⟩ := scanBars_spec writable dev inv (Nat.zero_add pciNumBars)
  have irq : (pcidevScanBars writable dev d).1.bus.conf = _ :=
    (read32_spec after dev (show pciConf0Irq < 256 by decide) (by decide)).2
  exact irq.trans conf

def Untouched (writable : Mem) (dev : PciDev) (d : Dom) : Prop :=
  ∀ i < pciNumBars, load (pcidevScanBars writable dev d).1.bus.conf (barLoc dev i) 4 =
    load d.bus.conf (barLoc dev i) 4

/-- The registers keep their values if all their bits that can be written are ones. -/
theorem bars_untouched_iff (writable : Mem) (dev : PciDev) (d : Dom) (inv : Inv d) :
    Untouched writable dev d ↔ ∀ i < pciNumBars, ∀ k < 4,
      d.bus.conf (barLoc dev i + k) ||| writable (barLoc dev i + k) =
        d.bus.conf (barLoc dev i + k) := by
  unfold Untouched
  refine forall₂_congr fun i below => ?_
  rw [load_inj]
  refine forall₂_congr fun k few => ?_
  rw [pcidevScanBars_conf writable dev inv, ones, if_pos]
  unfold barLoc pciNumBars at *
  omega

/-- Register 0 is in port space, and 16 ports wide. -/
def ioWritable : Mem := store (fun _ => 0) (barLoc sampleDev 0) 4 0xfffffff0

def ioBus (bar : Nat) : Bus := ⟨0, store (fun _ => 0) (barLoc sampleDev 0) 4 bar⟩

/-- A register that is at the end of the port space already. -/
theorem bars_untouched_iff_last : load (ioBus 0xfffffff1).conf (barLoc sampleDev 0) 4 = 0xfffffff1 ∧
    (pcidevScanBars ioWritable sampleDev (pciConf1 (ioBus 0xfffffff1))).2 =
      [.bar true 0 16 0xfffffff0] ∧
    Untouched ioWritable sampleDev (pciConf1 (ioBus 0xfffffff1)) := by
  refine ⟨by decide, by decide +kernel, ?_⟩
  exact (bars_untouched_iff ioWritable sampleDev (pciConf1 (ioBus 0xfffffff1)) (.inl rfl)).mpr
    (by decide)

/- At port 0xc000 it is sized, and stays at the end of the port space. -/
theorem bars_lose_address :
    load (ioBus 0xc001).conf (barLoc sampleDev 0) 4 = 0xc001 ∧
    (pcidevScanBars ioWritable sampleDev (pciConf1 (ioBus 0xc001))).2 = [.bar true 0 16 0xc000] ∧
    load (pcidevScanBars ioWritable sampleDev (pciConf1 (ioBus 0xc001))).1.bus.conf
      (barLoc sampleDev 0) 4 = 0xfffffff1 ∧
    ¬ Untouched ioWritable sampleDev (pciConf1 (ioBus 0xc001)) := by
  have moved : load (pcidevScanBars ioWritable sampleDev (pciConf1 (ioBus 0xc001))).1.bus.conf
      (barLoc sampleDev 0) 4 = 0xfffffff1 := by
    rw [pcidevScanBars_conf ioWritable sampleDev (.inl rfl)]
    decide
  refine ⟨by decide, by decide +kernel, moved, fun untouched => ?_⟩
  have kept := untouched 0 (by decide)
  rw [moved] at kept
  exact absurd kept (by decide)

end ScaraOS.Pci
