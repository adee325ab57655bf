import ScaraOS.Ext2.Pread
import ScaraOS.Lib.Attempt
import ScaraOS.Lib.Bytes
import ScaraOS.Lib.Loops

/-! Mounting an EXT2 file system: `super_get` of `fs/mount.c` with `ext2_get_super` and
`ext2_read_inode` of `fs/ext2.c`. A block buffer is seen from its first byte on. The objects
that an attempt to mount takes are named by what they are for. -/
namespace ScaraOS.Ext2.Super

abbrev Buffer := Nat → UInt8

inductive Obj where
  | sb
  | sbh
  | array
  | desc (i : Nat)
  | inode
  | table
  deriving DecidableEq, Repr

inductive Event where
  | alloc (o : Obj)
  | free (o : Obj)
  /-- `blk_free` of a null pointer. -/
  | freeNull
  deriving DecidableEq, Repr

inductive Fault where
  | divide
  /-- `s_group_desc` behind the blocks that were read. -/
  | index
  /-- A byte behind a block. -/
  | outside
  /-- A null pointer. -/
  | null
  deriving DecidableEq, Repr

abbrev Try (α : Type) := Attempt Event Fault α

open Attempt

/-- What is used of `struct ext2_super_block`. -/
structure Es where
  sInodesCount : Nat
  sBlocksCount : Nat
  sFirstDataBlock : Nat
  sLogBlockSize : Nat
  sBlocksPerGroup : Nat
  sInodesPerGroup : Nat
  sMagic : Nat
  sInodeSize : Nat
  deriving DecidableEq, Repr

def readEs (b : Buffer) : Es where
  sInodesCount := Bytes.load32 b 0
  sBlocksCount := Bytes.load32 b 4
  sFirstDataBlock := Bytes.load32 b 20
  sLogBlockSize := Bytes.load32 b 24
  sBlocksPerGroup := Bytes.load32 b 32
  sInodesPerGroup := Bytes.load32 b 40
  sMagic := Bytes.load b 56 2
  sInodeSize := Bytes.load b 88 2

structure Info where
  sEs : Es
  sInodesPerBlock : Nat
  sBlocksPerGroup : Nat
  sInodesPerGroup : Nat
  sItbPerGroup : Nat
  sDescPerBlock : Nat
  sGroupsCount : Nat
  sGroupDesc : List Buffer

def div (a b : Nat) : Except Fault Nat := if b = 0 then .error .divide else .ok (a / b)

def ext2SuperMagic : Nat := 0xEF53
def ext2RootIno : Nat := 2

def groupDescSize : Nat := 32

def sbInfo (es : Es) : Except Fault Info := do
  let sInodesPerBlock ← div sBlocksize es.sInodeSize
  let sItbPerGroup ← div es.sInodesPerGroup sInodesPerBlock
  let blocks := es.sBlocksCount + (wordSize - es.sFirstDataBlock) + (es.sBlocksPerGroup + wordSize - 1)
  let sGroupsCount ← div (blocks % wordSize) es.sBlocksPerGroup
  return {
    sEs := es
    sInodesPerBlock
    sBlocksPerGroup := es.sBlocksPerGroup
    sInodesPerGroup := es.sInodesPerGroup
    sItbPerGroup
    sDescPerBlock := sBlocksize / groupDescSize
    sGroupsCount
    sGroupDesc := [] }

def dbCount (info : Info) : Nat :=
  (info.sGroupsCount + info.sDescPerBlock - 1) % wordSize / info.sDescPerBlock

def bgInodeTable (b : Buffer) (desc : Nat) : Nat := Bytes.load32 b (desc * groupDescSize + 8)

/-- `i_ino - 1`. -/
def pred (ino : Nat) : Nat := (ino + wordSize - 1) % wordSize

/-- Where `ext2_read_inode` looks for an inode: the block and the offset; `none` if it
refuses the number. -/
def locate (info : Info) (ino : Nat) : Except Fault (Option (Nat × Nat)) :=
  if info.sEs.sInodesCount < ino then return none
  else do
    let blockGroup ← div (pred ino) info.sInodesPerGroup
    if info.sGroupsCount ≤ blockGroup then return none
    else
      let groupDesc ← div blockGroup info.sDescPerBlock
      let desc := blockGroup % info.sDescPerBlock
      match info.sGroupDesc[groupDesc]? with
      | none => throw .index
      | some b =>
        let inTable ← div (pred ino) info.sInodesPerBlock
        let block := (bgInodeTable b desc + inTable) % wordSize
        let offset := pred ino * info.sEs.sInodeSize % wordSize % sBlocksize
        return some (block, offset)

variable {info : Info} {q ino : Nat}

/-- The number 0 is in no group, as long as the inodes of all groups number less than 2^32. -/
theorem locate_zero (some : info.sInodesPerGroup ≠ 0)
    (few : info.sGroupsCount * info.sInodesPerGroup < wordSize) : locate info 0 = .ok none := by
  have behind : info.sGroupsCount ≤ (wordSize - 1) / info.sInodesPerGroup :=
    (Nat.le_div_iff_mul_le (Nat.pos_of_ne_zero some)).mpr (by omega)
  have last : pred 0 = wordSize - 1 := rfl
  simp only [locate, Nat.not_lt_zero, if_false, div, if_neg some, last]
  exact if_pos behind

structure RawInode where
  /-- `i_iop` is that of directories. -/
  isDir : Bool
  iMode : Nat
  iUid : Nat
  iGid : Nat
  iSize : Nat
  iNlink : Nat
  iBlocks : Nat
  block : List Nat
  deriving DecidableEq, Repr

/-- `i_mode & S_IFMT`, of which `S_IFDIR` is 4 and `S_IFREG` 8. -/
def fileType (mode : Nat) : Nat := mode / 2 ^ 12

def copyInode (b : Buffer) (offset : Nat) : Except Fault (Option RawInode) :=
  if bLen < offset + 2 then throw .outside
  else
    let mode := Bytes.load b offset 2
    if fileType mode = 4 ∨ fileType mode = 8 then
      -- the last field that is copied is `i_block`, at 40
      if bLen < offset + 100 then throw .outside
      else
        return some {
          isDir := fileType mode = 4
          iMode := mode
          iUid := Bytes.load b (offset + 2) 2
          iGid := Bytes.load b (offset + 24) 2
          iSize := Bytes.load32 b (offset + 4)
          iNlink := Bytes.load b (offset + 26) 2
          iBlocks := Bytes.load32 b (offset + 28)
          block := (List.range 15).map fun i => Bytes.load32 b (offset + 40 + 4 * i) }
    else return none

/-- `ext2_read_inode`; `table` is what `blk_read` gives for a block of the inode table. -/
def readInode (info : Info) (table : Nat → Option Buffer) (ino : Nat) : Try (Option RawInode) := do
  match ← ofExcept (locate info ino) with
  | none => pure none
  | some (block, offset) =>
    match table block with
    | none => pure none
    | some b =>
      emit (.alloc .table)
      let inode ← ofExcept (copyInode b offset)
      emit (.free .table)
      pure inode

/-- What the attempt meets: which allocations succeed, and what `blk_read` gives. -/
structure Env where
  sb : Bool
  blksize : Bool
  super : Option Buffer
  array : Bool
  desc : Nat → Option Buffer
  inode : Bool
  table : Nat → Option Buffer

/-- `iget` of a number that is not in the cache. -/
def iget (env : Env) (info : Info) (ino : Nat) : Try (Option RawInode) :=
  if env.inode then do
    emit (.alloc .inode)
    match ← readInode info env.table ino with
    | none =>
      emit (.free .inode)
      pure none
    | some inode => pure (some inode)
  else pure none

def given (env : Env) (count : Nat) : Bool := env.array && decide (count * 4 ≤ 4096)

def readDescs (env : Env) (array : Bool) : (left i : Nat) → Try (Option (List Buffer))
  | 0, _ => pure (some [])
  | left + 1, i =>
    match env.desc i with
    | some b => do
      emit (.alloc (.desc i))
      if array then
        match ← readDescs env array left (i + 1) with
        | none => pure none
        | some rest => pure (some (b :: rest))
      else fault .null
    | none =>
      if array then
        -- the clean-up frees the `i`th buffer, as often as there are buffers before it
        if 0 < i then do
          emit .freeNull
          fault .null
        else pure none
      else fault .null

/-- `err`. -/
def err {α : Type} : Try (Option α) := do
  emit (.free .sbh)
  pure none

def getRoot (env : Env) (info : Info) : Try (Option (Info × RawInode)) := do
  match ← iget env info ext2RootIno with
  | none => err
  | some root => pure (some (info, root))

/-- The group descriptors are read, into the array or through a null pointer. -/
def getDescs (env : Env) (info : Info) (array : Bool) : Try (Option (Info × RawInode)) := do
  match ← readDescs env array (dbCount info) 0 with
  | none => err
  | some descs => getRoot env { info with sGroupDesc := descs }

/-- `ext2_get_super` once the super block has been read. -/
def fillSuper (env : Env) (es : Es) : Try (Option (Info × RawInode)) :=
  if es.sMagic ≠ ext2SuperMagic then err
  else if es.sLogBlockSize ≠ 0 then err
  else do
    let info ← ofExcept (sbInfo es)
    if given env (dbCount info) then
      emit (.alloc .array)
      getDescs env info true
    else getDescs env info false

def ext2GetSuper (env : Env) : Try (Option (Info × RawInode)) :=
  if env.blksize then
    match env.super with
    | none => pure none
    | some b => do
      emit (.alloc .sbh)
      fillSuper env (readEs b)
  else pure none

def superGet (env : Env) : Try (Option (Info × RawInode)) :=
  if env.sb then do
    emit (.alloc .sb)
    match ← ext2GetSuper env with
    | none =>
      emit (.free .sb)
      pure none
    | some mounted => pure (some mounted)
  else pure none

/-- What `ext2_get_super` makes of a super block and of the descriptors. -/
structure Geometry (b : Buffer) (info : Info) : Prop where
  made : sbInfo (readEs b) = .ok { info with sGroupDesc := [] }
  descs : info.sGroupDesc.length = dbCount info

theorem div_ok {a b : Nat} : div a b = .ok q ↔ b ≠ 0 ∧ q = a / b := by
  unfold div
  by_cases zero : b = 0
  · simp [zero]
  · simp [zero, eq_comm]

structure Sized (es : Es) (info : Info) : Prop where
  same : info.sEs = es
  size : es.sInodeSize ≠ 0
  perGroup : es.sBlocksPerGroup ≠ 0
  any : info.sInodesPerBlock ≠ 0
  perBlock : info.sInodesPerBlock = sBlocksize / es.sInodeSize
  inodes : info.sInodesPerGroup = es.sInodesPerGroup
  tables : info.sItbPerGroup = info.sInodesPerGroup / info.sInodesPerBlock
  desc : info.sDescPerBlock = 32
  word : info.sGroupsCount < wordSize

theorem sbInfo_ok {es : Es} (made : sbInfo es = .ok info) : Sized es info := by
  unfold sbInfo at made
  obtain ⟨ipb, first, made⟩ := Loops.bind_ok.mp made
  obtain ⟨itb, second, made⟩ := Loops.bind_ok.mp made
  obtain ⟨groups, third, made⟩ := Loops.bind_ok.mp made
  obtain ⟨size, rfl⟩ := div_ok.mp first
  obtain ⟨any, rfl⟩ := div_ok.mp second
  obtain ⟨per, rfl⟩ := div_ok.mp third
  cases made
  exact ⟨rfl, size, per, any, rfl, rfl, rfl, rfl,
    Nat.lt_of_le_of_lt (Nat.div_le_self _ _) (Nat.mod_lt _ (by decide))⟩

theorem Geometry.sized {b : Buffer} (geometry : Geometry b info) : Sized (readEs b) info := by
  obtain ⟨same, size, perGroup, any, perBlock, inodes, tables, desc, word⟩ := sbInfo_ok geometry.made
  exact ⟨same, size, perGroup, any, perBlock, inodes, tables, desc, word⟩

theorem pred_eq (first : 1 ≤ ino) (word : ino ≤ wordSize) : pred ino = ino - 1 := by
  unfold pred wordSize at *
  omega

def groupOf (info : Info) (ino : Nat) : Nat := pred ino / info.sInodesPerGroup

def offsetOf (info : Info) (ino : Nat) : Nat :=
  pred ino * info.sEs.sInodeSize % wordSize % sBlocksize

theorem locate_eq (per : info.sDescPerBlock = 32) (any : info.sInodesPerBlock ≠ 0) (ino : Nat) :
    locate info ino =
      if info.sEs.sInodesCount < ino then .ok none
      else if info.sInodesPerGroup = 0 then .error .divide
      else if info.sGroupsCount ≤ groupOf info ino then .ok none
      else
        match info.sGroupDesc[groupOf info ino / 32]? with
        | none => .error .index
        | some b => .ok (some
          ((bgInodeTable b (groupOf info ino % 32) + pred ino / info.sInodesPerBlock) % wordSize,
            offsetOf info ino)) := by
  unfold locate
  by_cases bad : info.sEs.sInodesCount < ino
  · simp only [if_pos bad]
    rfl
  · simp only [if_neg bad]
    by_cases zero : info.sInodesPerGroup = 0
    · simp only [div, if_pos zero]
      rfl
    · simp only [if_neg zero, div, per, if_neg any]
      by_cases beyond : info.sGroupsCount ≤ groupOf info ino
      · rw [if_pos beyond]
        exact if_pos beyond
      · rw [if_neg beyond]
        refine (if_neg beyond).trans ?_
        unfold groupOf offsetOf
        have word : ¬ (32 = 0) := by decide
        simp only [if_neg word, bind, Except.bind]
        cases info.sGroupDesc[pred ino / info.sInodesPerGroup / 32]? with
        | none | some b => rfl

/-- The place of an inode: the slot of its number in the table of its group, the descriptor
of which is there. -/
def Located (info : Info) (ino : Nat) : Prop :=
  let group := (ino - 1) / info.sInodesPerGroup
  let slot := (ino - 1) % info.sInodesPerGroup
  ∃ b, info.sGroupDesc[group / 32]? = some b ∧
    let table := bgInodeTable b (group % 32)
    ∃ block offset, locate info ino = .ok (some (block, offset)) ∧
      block = table + slot / info.sInodesPerBlock ∧
      offset = slot % info.sInodesPerBlock * info.sEs.sInodeSize ∧
      table ≤ block ∧ block < table + info.sItbPerGroup

/-- The number is one of the first group, that group has its descriptor, and the number of
the block is a word. -/
def InFirst (info : Info) (ino : Nat) : Prop :=
  ino ≤ info.sInodesPerGroup ∧ 0 < info.sGroupsCount ∧ info.sGroupsCount + 31 < wordSize ∧
    ∀ b, info.sGroupDesc[0]? = some b → bgInodeTable b 0 + (ino - 1) / info.sInodesPerBlock < wordSize

def TablesDisjoint (info : Info) : Prop :=
  ∀ g h, g < info.sGroupsCount → h < info.sGroupsCount → g ≠ h → ∀ b c,
    info.sGroupDesc[g / 32]? = some b → info.sGroupDesc[h / 32]? = some c →
    bgInodeTable b (g % 32) + info.sItbPerGroup ≤ bgInodeTable c (h % 32) ∨
      bgInodeTable c (h % 32) + info.sItbPerGroup ≤ bgInodeTable b (g % 32)

def Separate (info : Info) : Prop :=
  ∀ ino ino', 1 ≤ ino → ino ≤ info.sEs.sInodesCount → 1 ≤ ino' → ino' ≤ info.sEs.sInodesCount →
    ino ≠ ino' → ∀ place, locate info ino = .ok (some place) → locate info ino' ≠ .ok (some place)

theorem dbCount_pos (per : info.sDescPerBlock = 32) (word : info.sGroupsCount < wordSize) :
    0 < dbCount info ↔ 0 < info.sGroupsCount ∧ info.sGroupsCount + 31 < wordSize := by
  unfold dbCount wordSize at *
  rw [per]
  omega

section

variable {b : Buffer} {info : Info} {k : Nat} (geometry : Geometry b info) (high : k ≤ 10)
  (size : (readEs b).sInodeSize = 2 ^ k) (multiple : info.sInodesPerBlock ∣ info.sInodesPerGroup)

include geometry high size in
theorem perBlock_eq : info.sInodesPerBlock * info.sEs.sInodeSize = sBlocksize := by
  have split : sBlocksize = 2 ^ (10 - k) * 2 ^ k := by
    rw [← Nat.pow_add, Nat.sub_add_cancel high]
    rfl
  have count : info.sInodesPerBlock = 2 ^ (10 - k) := by
    rw [geometry.sized.perBlock, size, split, Nat.mul_div_cancel _ (Nat.two_pow_pos k)]
  rw [count, geometry.sized.same, size, split]

include geometry high size in
theorem offsetOf_eq (first : 1 ≤ ino) (word : ino ≤ wordSize) :
    offsetOf info ino = (ino - 1) % info.sInodesPerBlock * info.sEs.sInodeSize := by
  have divides : sBlocksize ∣ wordSize := by decide
  unfold offsetOf
  rw [pred_eq first word, Nat.mod_mod_of_dvd _ divides, ← perBlock_eq geometry high size,
    Nat.mul_mod_mul_right]

include geometry in
theorem ino_word (known : ino ≤ info.sEs.sInodesCount) : ino < wordSize := by
  rw [geometry.sized.same] at known
  exact Nat.lt_of_le_of_lt known (Bytes.load32_lt b 0)

include geometry in
theorem desc_zero : (∃ c, info.sGroupDesc[0]? = some c) ↔
    0 < info.sGroupsCount ∧ info.sGroupsCount + 31 < wordSize := by
  rw [← dbCount_pos geometry.sized.desc geometry.sized.word, ← geometry.descs,
    ← Option.isSome_iff_exists]
  simp

theorem not_in_table {table itb : Nat} (small : table < wordSize) (word : q < wordSize)
    (far : itb ≤ q) :
    ¬ (table ≤ (table + q) % wordSize ∧ (table + q) % wordSize < table + itb) := by
  unfold wordSize at *
  omega

include geometry high size in
theorem locate_iff (first : 1 ≤ ino) (known : ino ≤ info.sEs.sInodesCount) {place : Nat × Nat} :
    locate info ino = .ok (some place) ↔
      info.sInodesPerGroup ≠ 0 ∧ (ino - 1) / info.sInodesPerGroup < info.sGroupsCount ∧
      ∃ c, info.sGroupDesc[(ino - 1) / info.sInodesPerGroup / 32]? = some c ∧
        place = ((bgInodeTable c ((ino - 1) / info.sInodesPerGroup % 32) +
          (ino - 1) / info.sInodesPerBlock) % wordSize,
          (ino - 1) % info.sInodesPerBlock * info.sEs.sInodeSize) := by
  have word : ino ≤ wordSize := Nat.le_of_lt (ino_word geometry known)
  have group : groupOf info ino = (ino - 1) / info.sInodesPerGroup := by
    rw [groupOf, pred_eq first word]
  rw [locate_eq geometry.sized.desc geometry.sized.any, if_neg (by omega), group, pred_eq first word,
    offsetOf_eq geometry high size first word]
  by_cases zero : info.sInodesPerGroup = 0
  · simp [zero]
  · rw [if_neg zero]
    by_cases beyond : info.sGroupsCount ≤ (ino - 1) / info.sInodesPerGroup
    · rw [if_pos beyond]
      exact iff_of_false (by simp) fun right => absurd right.2.1 (by omega)
    · rw [if_neg beyond]
      cases info.sGroupDesc[(ino - 1) / info.sInodesPerGroup / 32]? with
      | none => simp
      | some c => simp [zero, Nat.lt_of_not_le beyond, eq_comm]

include geometry high size multiple in
theorem located_iff (first : 1 ≤ ino) (known : ino ≤ info.sEs.sInodesCount) :
    Located info ino ↔ InFirst info ino := by
  have word := ino_word geometry known
  have tables : info.sItbPerGroup * info.sInodesPerBlock = info.sInodesPerGroup := by
    rw [geometry.sized.tables, Nat.div_mul_cancel multiple]
  have any := Nat.pos_of_ne_zero geometry.sized.any
  constructor
  · rintro ⟨c, desc, block, offset, run, at', -, low, top⟩
    obtain ⟨some', inside, c', desc', place⟩ := (locate_iff geometry high size first known).mp run
    rw [desc] at desc'
    cases desc'
    obtain ⟨rfl, -⟩ := Prod.mk.inj place
    have inGroup : ino ≤ info.sInodesPerGroup := by
      by_contra later
      -- in a later group the quotient is counted from the first one
      have far : info.sItbPerGroup ≤ (ino - 1) / info.sInodesPerBlock := by
        rw [Nat.le_div_iff_mul_le any, tables]
        omega
      have small : (ino - 1) / info.sInodesPerBlock < wordSize :=
        Nat.lt_of_le_of_lt (Nat.div_le_self _ _) (by omega)
      exact not_in_table (Bytes.load32_lt c _) small far ⟨low, top⟩
    have zero : (ino - 1) / info.sInodesPerGroup = 0 := Nat.div_eq_of_lt (by omega)
    rw [zero, Nat.zero_div] at desc
    rw [zero, Nat.zero_mod, Nat.mod_eq_of_lt (show ino - 1 < info.sInodesPerGroup by omega)] at at'
    obtain ⟨groups, few⟩ := (desc_zero geometry).mp ⟨c, desc⟩
    refine ⟨inGroup, groups, few, fun d found => ?_⟩
    rw [found] at desc
    cases desc
    rw [← at']
    exact Nat.mod_lt _ (by decide)
  · rintro ⟨inGroup, groups, few, small⟩
    obtain ⟨c, desc⟩ := (desc_zero geometry).mpr ⟨groups, few⟩
    have zero : (ino - 1) / info.sInodesPerGroup = 0 := Nat.div_eq_of_lt (by omega)
    have slot : (ino - 1) % info.sInodesPerGroup = ino - 1 := Nat.mod_eq_of_lt (by omega)
    have below : (ino - 1) / info.sInodesPerBlock < info.sItbPerGroup := by
      rw [Nat.div_lt_iff_lt_mul any, tables]
      omega
    have fits := small c desc
    refine ⟨c, by rw [zero]; exact desc, _, _,
      (locate_iff geometry high size first known).mpr
        ⟨by omega, by omega, c, by rw [zero]; exact desc, rfl⟩,
      ?_, ?_, ?_, ?_⟩
    · rw [zero, slot, Nat.zero_mod, Nat.mod_eq_of_lt fits]
    · rw [slot]
    · rw [zero, Nat.zero_mod, Nat.mod_eq_of_lt fits]
      exact Nat.le_add_right _ _
    · rw [zero, Nat.zero_mod, Nat.mod_eq_of_lt fits]
      exact Nat.add_lt_add_left below _

include geometry high size in
theorem separate_first (all : ∀ ino, 1 ≤ ino → ino ≤ info.sEs.sInodesCount → InFirst info ino) :
    Separate info := by
  intro ino ino' first known first' known' differ place run run'
  obtain ⟨-, -, c, desc, eq⟩ := (locate_iff geometry high size first known).mp run
  obtain ⟨-, -, c', desc', eq'⟩ := (locate_iff geometry high size first' known').mp run'
  obtain ⟨inGroup, -, -, small⟩ := all ino first known
  obtain ⟨inGroup', -, -, small'⟩ := all ino' first' known'
  have zero : (ino - 1) / info.sInodesPerGroup = 0 := Nat.div_eq_of_lt (by omega)
  have zero' : (ino' - 1) / info.sInodesPerGroup = 0 := Nat.div_eq_of_lt (by omega)
  rw [zero] at desc eq
  rw [zero'] at desc' eq'
  rw [desc] at desc'
  cases desc'
  rw [eq] at eq'
  obtain ⟨block, offset⟩ := Prod.mk.inj eq'
  rw [Nat.zero_mod, Nat.mod_eq_of_lt (small c desc), Nat.mod_eq_of_lt (small' c desc)] at block
  have positive : 0 < info.sEs.sInodeSize := by
    rw [geometry.sized.same]
    exact Nat.pos_of_ne_zero geometry.sized.size
  have quotients := Nat.add_left_cancel block
  have remainders := Nat.eq_of_mul_eq_mul_right positive offset
  have one := Nat.div_add_mod (ino - 1) info.sInodesPerBlock
  have other := Nat.div_add_mod (ino' - 1) info.sInodesPerBlock
  rw [quotients, remainders, other] at one
  omega

end

/-- Every number is looked for in its place, and no two in one, exactly if all are numbers of
the first group. -/
theorem inode_location_iff (b : Buffer) (info : Info) (k : Nat) (geometry : Geometry b info)
    (high : k ≤ 10) (size : (readEs b).sInodeSize = 2 ^ k)
    (multiple : info.sInodesPerBlock ∣ info.sInodesPerGroup) :
    (∀ ino, 1 ≤ ino → ino ≤ info.sEs.sInodesCount → (Located info ino ↔ InFirst info ino)) ∧
    (((∀ ino, 1 ≤ ino → ino ≤ info.sEs.sInodesCount → Located info ino) ∧
      (TablesDisjoint info → Separate info)) ↔
      ∀ ino, 1 ≤ ino → ino ≤ info.sEs.sInodesCount → InFirst info ino) := by
  have each : ∀ ino, 1 ≤ ino → ino ≤ info.sEs.sInodesCount → (Located info ino ↔ InFirst info ino) :=
    fun ino first known => located_iff geometry high size multiple first known
  refine ⟨each, fun right ino first known => ?_, fun all => ⟨fun ino first known => ?_, fun _ => ?_⟩⟩
  · exact (each ino first known).mp (right.1 ino first known)
  · exact (each ino first known).mpr (all ino first known)
  · exact separate_first geometry high size all

def twoGroups : Buffer := fun i =>
  ([(0, 64), (5, 64), (20, 1), (33, 32), (40, 32), (56, 0x53), (57, 0xEF), (88, 128)].lookup i).getD 0

def twoDescs : Buffer := fun i => ([(8, 5), (40, 20)].lookup i).getD 0

def twoGroupsInfo : Info where
  sEs := readEs twoGroups
  sInodesPerBlock := 8
  sBlocksPerGroup := 8192
  sInodesPerGroup := 32
  sItbPerGroup := 4
  sDescPerBlock := 32
  sGroupsCount := 2
  sGroupDesc := [twoDescs]

theorem twoGroups_geometry : Geometry twoGroups twoGroupsInfo := by
  refine ⟨?_, by decide +kernel⟩
  have es : readEs twoGroups = ⟨64, 16384, 1, 0, 8192, 32, 0xEF53, 128⟩ := by decide +kernel
  rw [twoGroupsInfo, es]
  rfl

/-- Inode 33, the first of the second group, is looked for in block 24; the table has the
blocks 20 to 23. -/
theorem inode_location_second_group :
    locate twoGroupsInfo 33 = .ok (some (24, 0)) ∧ ¬ Located twoGroupsInfo 33 := by
  have run : (locate twoGroupsInfo 33).toOption = some (some (24, 0)) := by decide +kernel
  have found := Loops.ok_of_toOption run
  refine ⟨found, fun located => ?_⟩
  obtain ⟨b, desc, block, offset, place, -, -, -, top⟩ := located
  rw [found] at place
  cases place
  rw [show twoGroupsInfo.sGroupDesc[(33 - 1) / twoGroupsInfo.sInodesPerGroup / 32]? =
    some twoDescs from rfl] at desc
  cases desc
  exact absurd top (by decide +kernel)

theorem inode_location_first_group : Located twoGroupsInfo 9 := by
  have first : InFirst twoGroupsInfo 9 := by
    refine ⟨by decide, by decide, by decide, fun b desc => ?_⟩
    cases desc
    decide +kernel
  exact ((inode_location_iff twoGroups twoGroupsInfo 7 twoGroups_geometry (by decide) (by decide +kernel)
    (by decide)).1 9 (by decide) (by decide +kernel)).mpr first

end ScaraOS.Ext2.Super
