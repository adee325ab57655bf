import ScaraOS.Lib.Bits
import ScaraOS.Lib.Bytes

/-! PCI configuration space: configuration mechanism 1 of `arch-ia32/pci.c` under the
accessors of `drivers/pci.c`. -/
namespace ScaraOS.Pci

open Bytes

def pciConfreg : Nat := 0x0cf8
def pciConfdata : Nat := 0x0cfc

/-- `PCI_BDF`. -/
def pciBdf (bus dev fn : Nat) : Nat :=
  (bus &&& 0xff) <<< 8 ||| (dev &&& 0x1f) <<< 3 ||| (fn &&& 0x7) <<< 0

structure PciDev where
  pciBdf : Nat
  added : ∃ bus dev fn, pciBdf = Pci.pciBdf bus dev fn

/-- `CONF_LOC`. -/
def confLoc (bdf ofs : Nat) : Nat := 0x80000000 ||| bdf <<< 8 ||| ofs &&& 0xff

/-- The address latch, and the configuration bytes of all functions: byte `ofs` of function
`bdf` is at `bdf * 256 + ofs`. -/
structure Bus where
  latch : Nat
  conf : Mem

def Bus.selected (b : Bus) : Nat := b.latch % 2 ^ 24 / 4 * 4

def Bus.reaches (b : Bus) (n port : Nat) : Bool :=
  b.latch / 2 ^ 31 % 2 = 1 ∧ pciConfdata ≤ port ∧ port + n ≤ pciConfdata + 4

def Bus.out (n : Nat) (b : Bus) (port v : Nat) : Bus :=
  if port = pciConfreg ∧ n = 4 then { b with latch := v % 2 ^ 32 }
  else if b.reaches n port then
    { b with conf := store b.conf (b.selected + (port - pciConfdata)) n v }
  else b

/-- `inb`, `inw` and `inl`; nothing there reads as ones. -/
def Bus.inp (n : Nat) (b : Bus) (port : Nat) : Nat :=
  if port = pciConfreg ∧ n = 4 then b.latch
  else if b.reaches n port then load b.conf (b.selected + (port - pciConfdata)) n
  else 2 ^ (8 * n) - 1

/-- A `struct pci_dom_conf1`, with the bus it drives. -/
structure Dom where
  confreg : Nat
  bus : Bus

def confLatch (d : Dom) (latch : Nat) : Dom :=
  if d.confreg ≠ latch then ⟨latch, d.bus.out 4 pciConfreg latch⟩ else d

/-- The three readers, by their width and the bits of the address that go to the port. -/
def readConf1 (n mask : Nat) (d : Dom) (addr : Nat) : Dom × Nat :=
  let d := confLatch d addr
  (d, d.bus.inp n (pciConfdata + (addr &&& mask)))

def readConf1x32 : Dom → Nat → Dom × Nat := readConf1 4 0
def readConf1x16 : Dom → Nat → Dom × Nat := readConf1 2 0x2
def readConf1x8 : Dom → Nat → Dom × Nat := readConf1 1 0x3

/-- The three writers. The bits of the address are added to the value, not to the port. -/
def writeConf1 (n mask : Nat) (d : Dom) (addr w : Nat) : Dom :=
  let d := confLatch d addr
  { d with bus := d.bus.out n pciConfdata (w + (addr &&& mask)) }

def writeConf1x32 : Dom → Nat → Nat → Dom := writeConf1 4 0
def writeConf1x16 : Dom → Nat → Nat → Dom := writeConf1 2 0x2
def writeConf1x8 : Dom → Nat → Nat → Dom := writeConf1 1 0x3

/-- `struct pci_dom_ops`. -/
structure DomOps where
  readConf32 : Dom → Nat → Dom × Nat
  writeConf32 : Dom → Nat → Nat → Dom
  readConf16 : Dom → Nat → Dom × Nat
  writeConf16 : Dom → Nat → Nat → Dom
  readConf8 : Dom → Nat → Dom × Nat
  writeConf8 : Dom → Nat → Nat → Dom

def pciConf1Ops : DomOps where
  readConf32 := readConf1x32
  writeConf32 := writeConf1x32
  readConf16 := readConf1x16
  writeConf16 := writeConf1x16
  readConf8 := readConf1x8
  writeConf8 := writeConf1x8

def pcidevConfRead32 (d : Dom) (dev : PciDev) (addr : Nat) : Dom × Nat :=
  pciConf1Ops.readConf32 d (confLoc dev.pciBdf addr)

def pcidevConfWrite32 (d : Dom) (dev : PciDev) (addr v : Nat) : Dom :=
  pciConf1Ops.writeConf32 d (confLoc dev.pciBdf addr) v

def pcidevConfRead16 (d : Dom) (dev : PciDev) (addr : Nat) : Dom × Nat :=
  pciConf1Ops.readConf16 d (confLoc dev.pciBdf addr)

/-- The writer for 8 bits is called, which takes the low byte. -/
def pcidevConfWrite16 (d : Dom) (dev : PciDev) (addr v : Nat) : Dom :=
  pciConf1Ops.writeConf8 d (confLoc dev.pciBdf addr) (v % 2 ^ 8)

def pcidevConfRead8 (d : Dom) (dev : PciDev) (addr : Nat) : Dom × Nat :=
  pciConf1Ops.readConf8 d (confLoc dev.pciBdf addr)

def pcidevConfWrite8 (d : Dom) (dev : PciDev) (addr v : Nat) : Dom :=
  pciConf1Ops.writeConf8 d (confLoc dev.pciBdf addr) (v % 2 ^ 8)

inductive Width where
  | w8 | w16 | w32
  deriving DecidableEq, Repr

def Width.bytes : Width → Nat
  | .w8 => 1
  | .w16 => 2
  | .w32 => 4

inductive Call where
  | read (w : Width) (dev : PciDev) (ofs : Nat)
  | write (w : Width) (dev : PciDev) (ofs v : Nat)

def call (d : Dom) : Call → Dom × Option Nat
  | .read .w8 dev ofs => (pcidevConfRead8 d dev ofs).map id some
  | .read .w16 dev ofs => (pcidevConfRead16 d dev ofs).map id some
  | .read .w32 dev ofs => (pcidevConfRead32 d dev ofs).map id some
  | .write .w8 dev ofs v => (pcidevConfWrite8 d dev ofs v, none)
  | .write .w16 dev ofs v => (pcidevConfWrite16 d dev ofs v, none)
  | .write .w32 dev ofs v => (pcidevConfWrite32 d dev ofs v, none)

def pciConf1 (bus : Bus) : Dom := ⟨2 ^ 32 - 1, bus⟩

def calls (d : Dom) (cs : List Call) : Dom := cs.foldl (fun d c => (call d c).1) d

def Call.width : Call → Width
  | .read w _ _ => w
  | .write w _ _ _ => w

def Call.ofs : Call → Nat
  | .read _ _ ofs => ofs
  | .write _ _ ofs _ => ofs

def Call.Aligned (c : Call) : Prop := c.ofs < 256 ∧ c.ofs % c.width.bytes = 0

instance (c : Call) : Decidable c.Aligned := inferInstanceAs (Decidable (_ ∧ _))

/-- What a call is meant to do. -/
def array (m : Mem) : Call → Mem × Option Nat
  | .read w dev ofs => (m, some (load m (dev.pciBdf * 256 + ofs) w.bytes))
  | .write w dev ofs v => (store m (dev.pciBdf * 256 + ofs) w.bytes v, none)

/-- The call does to the bytes what it is meant to do, and returns what it is meant to. -/
def Refines (d : Dom) (c : Call) : Prop :=
  ((call d c).1.bus.conf, (call d c).2) = array d.bus.conf c

/-- A write of 8 or 16 bits stores one byte, the low one of the value plus the offset in the
dword, at the start of the dword. That is right if no other byte should change. -/
def Lucky (m : Mem) : Call → Prop
  | .read _ _ _ => True
  | .write .w32 _ _ _ => True
  | .write w dev ofs v =>
    let loc := dev.pciBdf * 256 + ofs
    UInt8.ofNat (v + ofs % 4) = store m loc w.bytes v (loc - ofs % 4) ∧
      ∀ i < w.bytes, i + ofs % 4 ≠ 0 → m (loc + i) = UInt8.ofNat (v / 2 ^ (8 * i))

theorem pciBdf_lt (bus dev fn : Nat) : pciBdf bus dev fn < 2 ^ 16 := by
  have part : ∀ x k w, w + k ≤ 16 → (x &&& (2 ^ w - 1)) <<< k < 2 ^ 16 := by
    intro x k w fits
    rw [Nat.and_two_pow_sub_one_eq_mod, Nat.shiftLeft_eq]
    calc x % 2 ^ w * 2 ^ k < 2 ^ w * 2 ^ k :=
          Nat.mul_lt_mul_of_pos_right (Nat.mod_lt _ (Nat.two_pow_pos w)) (Nat.two_pow_pos k)
      _ = 2 ^ (w + k) := (Nat.pow_add 2 w k).symm
      _ ≤ 2 ^ 16 := Nat.pow_le_pow_right (by decide) fits
  exact Nat.or_lt_two_pow (Nat.or_lt_two_pow (part bus 8 8 (by decide)) (part dev 3 5 (by decide)))
    (part fn 0 3 (by decide))

theorem PciDev.bdf_lt (dev : PciDev) : dev.pciBdf < 2 ^ 16 := by
  obtain ⟨bus, slot, fn, is⟩ := dev.added
  rw [is]
  exact pciBdf_lt bus slot fn

theorem confLoc_eq (dev : PciDev) {ofs : Nat} (inside : ofs < 256) :
    confLoc dev.pciBdf ofs = 2 ^ 31 + (dev.pciBdf * 256 + ofs) := by
  have low : ofs &&& 0xff = ofs := by
    have masked := Nat.and_two_pow_sub_one_eq_mod ofs 8
    rw [Nat.mod_eq_of_lt inside] at masked
    exact masked
  have small : dev.pciBdf * 2 ^ 8 + ofs < 2 ^ 31 := by
    have := dev.bdf_lt
    omega
  unfold confLoc
  rw [low, Nat.or_assoc, Bits.or_low inside]
  have high : (0x80000000 : Nat) = 1 <<< 31 := by decide
  rw [high, Bits.or_low small, Nat.one_mul]
  rfl

def Inv (d : Dom) : Prop := d.confreg = 2 ^ 32 - 1 ∨ d.bus.latch = d.confreg

variable {d : Dom} {n mask v : Nat} {c : Call}

theorem confLatch_spec {addr : Nat} (inv : Inv d) (word : addr < 2 ^ 32 - 1) :
    (confLatch d addr).confreg = addr ∧ (confLatch d addr).bus = ⟨addr, d.bus.conf⟩ := by
  unfold confLatch
  split
  · have kept : addr % 2 ^ 32 = addr := Nat.mod_eq_of_lt (by omega)
    refine ⟨rfl, ?_⟩
    simp only [Bus.out, and_self, if_true, kept]
  · rename_i same
    have same : d.confreg = addr := not_not.mp same
    rcases inv with unset | set
    · omega
    · refine ⟨same, ?_⟩
      rw [← same, ← set]

section

variable {d : Dom} (inv : Inv d) (dev : PciDev) {ofs : Nat} (inside : ofs < 256)

include inv inside

theorem confLatch_loc : (confLatch d (confLoc dev.pciBdf ofs)).confreg = confLoc dev.pciBdf ofs ∧
    (confLatch d (confLoc dev.pciBdf ofs)).bus =
      ⟨2 ^ 31 + (dev.pciBdf * 256 + ofs), d.bus.conf⟩ := by
  have small := dev.bdf_lt
  have loc := confLoc_eq dev inside
  have word : confLoc dev.pciBdf ofs < 2 ^ 32 - 1 := by omega
  obtain ⟨reg, bus⟩ := confLatch_spec inv word
  exact ⟨reg, bus.trans (by rw [loc])⟩

omit inv in
theorem reaches_loc {k : Nat} (fits : k + n ≤ 4) :
    Bus.reaches ⟨2 ^ 31 + (dev.pciBdf * 256 + ofs), d.bus.conf⟩ n (pciConfdata + k) = true := by
  have small := dev.bdf_lt
  refine decide_eq_true ⟨?_, by omega, by omega⟩
  dsimp only
  omega

omit inv in
theorem selected_loc :
    Bus.selected ⟨2 ^ 31 + (dev.pciBdf * 256 + ofs), d.bus.conf⟩ =
      dev.pciBdf * 256 + ofs - ofs % 4 := by
  have small := dev.bdf_lt
  unfold Bus.selected
  dsimp only
  omega

theorem readConf1_spec (port : confLoc dev.pciBdf ofs &&& mask = ofs % 4) (fits : ofs % 4 + n ≤ 4) :
    (readConf1 n mask d (confLoc dev.pciBdf ofs)).1.bus.conf = d.bus.conf ∧
      (readConf1 n mask d (confLoc dev.pciBdf ofs)).2 =
        load d.bus.conf (dev.pciBdf * 256 + ofs) n := by
  obtain ⟨-, bus⟩ := confLatch_loc inv dev inside
  have data : ¬ (pciConfdata + ofs % 4 = pciConfreg ∧ n = 4) := by
    unfold pciConfdata pciConfreg
    omega
  have place : dev.pciBdf * 256 + ofs - ofs % 4 + (pciConfdata + ofs % 4 - pciConfdata) =
      dev.pciBdf * 256 + ofs := by omega
  simp only [readConf1, bus, port, Bus.inp, if_neg data, reaches_loc dev inside fits, if_true,
    selected_loc dev inside, place, and_self]

theorem writeConf1_spec (few : n ≤ 4) :
    (writeConf1 n mask d (confLoc dev.pciBdf ofs) v).bus.conf =
      store d.bus.conf (dev.pciBdf * 256 + ofs - ofs % 4) n
        (v + (confLoc dev.pciBdf ofs &&& mask)) := by
  obtain ⟨-, bus⟩ := confLatch_loc inv dev inside
  have data : ¬ (pciConfdata = pciConfreg ∧ n = 4) := by
    unfold pciConfdata pciConfreg
    omega
  have reached := reaches_loc (d := d) dev inside (n := n) (k := 0) (by omega)
  rw [Nat.add_zero] at reached
  simp only [writeConf1, bus, Bus.out, if_neg data, reached, if_true, selected_loc dev inside,
    Nat.sub_self, Nat.add_zero]

end

theorem and_three (x : Nat) : x &&& 0x3 = x % 4 := Nat.and_two_pow_sub_one_eq_mod x 2

theorem and_two (x : Nat) : x &&& 0x2 = x / 2 % 2 * 2 := Bits.and_bit x 1

theorem confLoc_and (dev : PciDev) {ofs : Nat} (inside : ofs < 256) :
    confLoc dev.pciBdf ofs &&& 0x3 = ofs % 4 ∧
      (ofs % 2 = 0 → confLoc dev.pciBdf ofs &&& 0x2 = ofs % 4) ∧
      (ofs % 4 = 0 → confLoc dev.pciBdf ofs &&& 0 = ofs % 4) := by
  rw [and_three, and_two, Nat.and_zero, confLoc_eq dev inside]
  omega

theorem call_inv (inv : Inv d) (aligned : c.Aligned) : Inv (call d c).1 := by
  cases c with
  | read w dev ofs =>
    have inside : ofs < 256 := aligned.1
    obtain ⟨reg, bus⟩ := confLatch_loc inv dev inside
    have kept : Inv (confLatch d (confLoc dev.pciBdf ofs)) := by
      refine .inr ?_
      rw [bus, reg, confLoc_eq dev inside]
    cases w <;> exact kept
  | write w dev ofs v =>
    have inside : ofs < 256 := aligned.1
    obtain ⟨reg, bus⟩ := confLatch_loc inv dev inside
    have latch : ∀ (n x : Nat), n ≤ 4 →
        ((confLatch d (confLoc dev.pciBdf ofs)).bus.out n pciConfdata x).latch =
          confLoc dev.pciBdf ofs := by
      intro n x _
      rw [bus, confLoc_eq dev inside]
      unfold Bus.out
      rw [if_neg (by unfold pciConfdata pciConfreg; omega)]
      split <;> rfl
    cases w <;> exact .inr ((latch _ _ (by decide)).trans reg.symm)

theorem byteWrite_iff {m : Mem} {dev : PciDev} {ofs u : Nat}
    (low : UInt8.ofNat u = UInt8.ofNat (v + ofs % 4)) :
    store m (dev.pciBdf * 256 + ofs - ofs % 4) 1 u = store m (dev.pciBdf * 256 + ofs) n v ↔
      UInt8.ofNat (v + ofs % 4) = store m (dev.pciBdf * 256 + ofs) n v
          (dev.pciBdf * 256 + ofs - ofs % 4) ∧
        ∀ i < n, i + ofs % 4 ≠ 0 →
          m (dev.pciBdf * 256 + ofs + i) = UInt8.ofNat (v / 2 ^ (8 * i)) := by
  rw [store_eq_iff m _ _ n u v, low]
  refine and_congr_right fun _ => ?_
  constructor
  · intro rest i few other
    have byte := rest (dev.pciBdf * 256 + ofs + i) (by omega) (by omega) (by omega)
    rw [Nat.add_sub_cancel_left] at byte
    exact byte
  · intro rest x above below other
    have byte := rest (x - (dev.pciBdf * 256 + ofs)) (by omega) (by omega)
    rw [Nat.add_sub_of_le above] at byte
    exact byte

theorem ofNat_mod (x y : Nat) : UInt8.ofNat (x % 2 ^ 8 + y) = UInt8.ofNat (x + y) := by
  apply UInt8.toNat_inj.mp
  simp only [UInt8.toNat_ofNat']
  omega

theorem refines_iff (inv : Inv d) (aligned : c.Aligned) : Refines d c ↔ Lucky d.bus.conf c := by
  obtain ⟨inside, multiple⟩ := aligned
  cases c with
  | read w dev ofs =>
    replace inside : ofs < 256 := inside
    obtain ⟨three, two, zero⟩ := confLoc_and dev inside
    refine iff_of_true ?_ trivial
    have read : ∀ n mask, confLoc dev.pciBdf ofs &&& mask = ofs % 4 → ofs % 4 + n ≤ 4 →
        ((readConf1 n mask d (confLoc dev.pciBdf ofs)).1.bus.conf,
          some (readConf1 n mask d (confLoc dev.pciBdf ofs)).2) =
        (d.bus.conf, some (load d.bus.conf (dev.pciBdf * 256 + ofs) n)) := by
      intro n mask port fits
      obtain ⟨conf, value⟩ := readConf1_spec inv dev inside port fits
      rw [conf, value]
    simp only [Call.ofs, Call.width] at multiple
    cases w with
    | w8 => exact read 1 0x3 three (by omega)
    | w16 =>
      have even : ofs % 2 = 0 := multiple
      exact read 2 0x2 (two even) (by omega)
    | w32 =>
      have whole : ofs % 4 = 0 := multiple
      exact read 4 0 (zero whole) (by omega)
  | write w dev ofs v =>
    replace inside : ofs < 256 := inside
    obtain ⟨three, -, -⟩ := confLoc_and dev inside
    simp only [Call.ofs, Call.width] at multiple
    have byte : (writeConf1 1 0x3 d (confLoc dev.pciBdf ofs) (v % 2 ^ 8)).bus.conf =
        store d.bus.conf (dev.pciBdf * 256 + ofs - ofs % 4) 1 (v % 2 ^ 8 + ofs % 4) := by
      rw [writeConf1_spec inv dev inside (by decide), three]
    have short : ∀ n, ((writeConf1 1 0x3 d (confLoc dev.pciBdf ofs) (v % 2 ^ 8)).bus.conf,
          (none : Option Nat)) = (store d.bus.conf (dev.pciBdf * 256 + ofs) n v, none) ↔
        UInt8.ofNat (v + ofs % 4) = store d.bus.conf (dev.pciBdf * 256 + ofs) n v
          (dev.pciBdf * 256 + ofs - ofs % 4) ∧ ∀ i < n, i + ofs % 4 ≠ 0 →
            d.bus.conf (dev.pciBdf * 256 + ofs + i) = UInt8.ofNat (v / 2 ^ (8 * i)) := by
      intro n
      rw [byte, Prod.mk.injEq, and_iff_left rfl]
      exact byteWrite_iff (ofNat_mod v (ofs % 4))
    cases w with
    | w8 => exact short 1
    | w16 => exact short 2
    | w32 =>
      have whole : ofs % 4 = 0 := multiple
      refine iff_of_true ?_ trivial
      have conf : (writeConf1 4 0 d (confLoc dev.pciBdf ofs) v).bus.conf = _ :=
        writeConf1_spec inv dev inside (by decide)
      rw [whole, Nat.and_zero, Nat.add_zero, Nat.sub_zero] at conf
      exact Prod.ext conf rfl

theorem calls_inv {cs : List Call} (inv : Inv d) (aligned : ∀ c ∈ cs, c.Aligned) :
    Inv (calls d cs) := by
  induction cs generalizing d with
  | nil => exact inv
  | cons c cs ih =>
    exact ih (call_inv inv (aligned c List.mem_cons_self))
      fun b member => aligned b (List.mem_cons_of_mem c member)

/-- Every call of a sequence does what it is meant to do exactly if every write of 8 or 16
bits stores a byte that belongs at the start of its dword, and all other bytes it is to
store have their values already. -/
theorem conf_refines_iff (bus : Bus) (cs : List Call) (aligned : ∀ c ∈ cs, c.Aligned) :
    (∀ pre c post, cs = pre ++ c :: post → Refines (calls (pciConf1 bus) pre) c) ↔
      ∀ pre c post, cs = pre ++ c :: post → Lucky (calls (pciConf1 bus) pre).bus.conf c := by
  have each : ∀ pre c post, cs = pre ++ c :: post →
      (Refines (calls (pciConf1 bus) pre) c ↔ Lucky (calls (pciConf1 bus) pre).bus.conf c) := by
    rintro pre c post rfl
    apply refines_iff
    · apply calls_inv (.inl rfl)
      exact fun b member => aligned b (List.mem_append_left _ member)
    · exact aligned c (List.mem_append_right _ List.mem_cons_self)
  constructor
  · exact fun all pre c post split => (each pre c post split).mp (all pre c post split)
  · exact fun all pre c post split => (each pre c post split).mpr (all pre c post split)

theorem lucky_first (m : Mem) (dev : PciDev) {ofs : Nat} (first : ofs % 4 = 0) (v : Nat) :
    Lucky m (.write .w8 dev ofs v) := by
  simp only [Lucky, first, Nat.add_zero, Nat.sub_zero, Width.bytes]
  refine ⟨?_, by omega⟩
  rw [store_inside m ⟨Nat.le_refl _, Nat.lt_succ_self _⟩]
  simp

def sampleDev : PciDev := ⟨pciBdf 0 3 0, 0, 3, 0, rfl⟩

def blankBus : Bus := ⟨0, fun _ => 0⟩

def sampleCalls : List Call :=
  [.read .w32 sampleDev 0x10, .write .w32 sampleDev 0x10 0xffffffff, .write .w8 sampleDev 0x3c 11,
    .read .w16 sampleDev 0x3e]

theorem conf_refines_iff_sample : (∀ c ∈ sampleCalls, c.Aligned) ∧
    ∀ pre c post, sampleCalls = pre ++ c :: post → Refines (calls (pciConf1 blankBus) pre) c := by
  have lucky : ∀ c ∈ sampleCalls, ∀ m, Lucky m c := by
    intro c member m
    simp only [sampleCalls, List.mem_cons, List.not_mem_nil, or_false] at member
    rcases member with rfl | rfl | rfl | rfl
    · trivial
    · trivial
    · exact lucky_first m sampleDev (by decide) 11
    · trivial
  have aligned : ∀ c ∈ sampleCalls, c.Aligned := by decide
  refine ⟨aligned, (conf_refines_iff blankBus sampleCalls aligned).mpr ?_⟩
  intro pre c post split
  apply lucky
  rw [split]
  exact List.mem_append_right _ List.mem_cons_self

/-- A byte that is not the first of its dword, and a word: both end up in the first byte. -/
theorem short_write_misses :
    (Call.write .w8 sampleDev 0x0d 5).Aligned ∧
    ¬ Refines (pciConf1 blankBus) (.write .w8 sampleDev 0x0d 5) ∧
    (Call.write .w16 sampleDev 0x04 0x0107).Aligned ∧
    ¬ Refines (pciConf1 blankBus) (.write .w16 sampleDev 0x04 0x0107) := by
  refine ⟨by decide, ?_, by decide, ?_⟩
  · intro refines
    have byte := congrArg (fun r => r.1 (pciBdf 0 3 0 * 256 + 0x0d)) refines
    exact absurd byte (by decide +kernel)
  · intro refines
    have byte := congrArg (fun r => r.1 (pciBdf 0 3 0 * 256 + 0x05)) refines
    exact absurd byte (by decide +kernel)

end ScaraOS.Pci
