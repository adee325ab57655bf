import ScaraOS.Exec.Read
import ScaraOS.Ext2.Slice

/-! Which files `do_exec` takes for programs. Here the file is read by `ext2_pread`, with
its `BUG_ON` and its copies that run past the buffer. -/
namespace ScaraOS.Exec

open RbTree Paging Mm Ext2

/-- The file through `ext2_pread` on a disk that can be read; `buf` is what the buffer
held before. -/
def diskImage (d : Disk) (ino : Nat) (buf : Bytes.Mem) : Image where
  pread len off :=
    let out := ext2Pread (device fun _ => false) (d.inode ino) len off
    (out.ret.getD (-1), out.copies.foldl (poke d) buf)

def tableRead (d : Disk) (ino : Nat) (hdr : Ehdr) : Ext2.Outcome :=
  ext2Pread (device fun _ => false) (d.inode ino) (phbufsz hdr) hdr.ePhoff

/-- `do_exec` of a file. No result is the `BUG_ON` of `ext2_pread`, which the read of the
header never meets. -/
def execFile (k : Kernel) (w : World) (d : Disk) (ino old : Nat) (buf : Bytes.Mem)
    (supply : Supply) : Option (Except Stop (World × Option Nat)) :=
  match readHeader k (diskImage d ino buf) with
  | none => some (.ok (w, none))
  | some hdr =>
    if supply.phbuf = true ∧ (tableRead d ino hdr).ret = none then none
    else some (execImage k w ino old (diskImage d ino buf) supply)

/-- The read of the program headers goes past the ends of the two buffers. -/
def Overruns (k : Kernel) (d : Disk) (ino : Nat) (buf : Bytes.Mem) : Prop :=
  ∃ hdr, readHeader k (diskImage d ino buf) = some hdr ∧
    ¬ Safe (phbufsz hdr) (tableRead d ino hdr).copies

def fileHeader (d : Disk) (ino : Nat) : Ehdr := ehdr (fileByte d ino)

structure HeaderGood (d : Disk) (ino : Nat) : Prop where
  full : ehdrSize ≤ fileSize d ino
  type : (fileHeader d ino).eType = etExec
  machine : (fileHeader d ino).eMachine = em386
  entry : phdrSize ≤ (fileHeader d ino).ePhentsize

def Magic (d : Disk) (ino : Nat) : Prop :=
  fileByte d ino 0 = 0x7f ∧ fileByte d ino 1 = 0x45 ∧ fileByte d ino 2 = 0x4c ∧ fileByte d ino 3 = 0x46

instance (d : Disk) (ino : Nat) : Decidable (Magic d ino) :=
  inferInstanceAs (Decidable (_ ∧ _ ∧ _ ∧ _))

structure TableInside (d : Disk) (ino : Nat) : Prop where
  some_entries : 0 < (fileHeader d ino).ePhnum
  inside : (fileHeader d ino).ePhoff + phbufsz (fileHeader d ino) ≤ fileSize d ino

def fileTable (d : Disk) (ino : Nat) : List Phdr :=
  (List.range (fileHeader d ino).ePhnum).map fun i =>
    phdr (fun j => fileByte d ino ((fileHeader d ino).ePhoff + j)) (i * (fileHeader d ino).ePhentsize)

/-- Every `setup_vma` for these program headers and the stack succeeds. -/
def SetsUp (k : Kernel) (w : World) (ino : Nat) (supply : Supply) (ps : List Phdr) : Prop :=
  ∃ c f w', supply.ctx = some c ∧ supply.pgd = some f ∧
    setupAll (started k.initPgd w c f) c (requests ino ps) supply.vmas = .ok (w', true)

structure Wanted (k : Kernel) (w : World) (d : Disk) (ino : Nat) (supply : Supply) : Prop where
  header : HeaderGood d ino
  magic : Magic d ino
  table : TableInside d ino
  setsUp : SetsUp k w ino supply (fileTable d ino)

/-- Programs are committed to, and all else is refused with nothing touched. -/
def Validates (k : Kernel) (w : World) (d : Disk) (ino old : Nat) (buf : Bytes.Mem)
    (supply : Supply) : Prop :=
  (Wanted k w d ino supply → ∃ w' c, execFile k w d ino old buf supply = some (.ok (w', some c))) ∧
  (¬ Wanted k w d ino supply → ¬ Overruns k d ino buf ∧
    ∃ w', execFile k w d ino old buf supply = some (.ok (w', none)) ∧ Restored w w')

/-- The sixteen bytes that `memcmp` looks at are those at `ELFMAG`. -/
def SameIdent (k : Kernel) (d : Disk) (ino : Nat) : Prop :=
  ∀ i < eiNident, fileByte d ino i = elfmag k i

/-- The read of the program headers stays below the thirteenth block, and does not end
before it starts in one and the same block. -/
structure ClearRead (i : Inode) (len off : Nat) : Prop where
  direct : readEnd i len off < ext2NdirBlocks * sBlocksize
  forward : off ≤ readEnd i len off ∨ readEnd i len off / sBlocksize ≠ off / sBlocksize

section

variable {d : Disk} {ino : Nat} (buf : Bytes.Mem) {len off : Nat}

theorem pread_forward (word : off + len < 2 ^ 32)
    (start : off ≤ fileSize d ino) (direct : off + sliceLen d ino len off < 12288) :
    (ext2Pread (device fun _ => false) (d.inode ino) len off).ret =
      some ((sliceLen d ino len off : Nat) : Int) ∧
    ∀ j < sliceLen d ino len off,
      ((diskImage d ino buf).pread len off).2 j = fileByte d ino (off + j) := by
  have short : sliceLen d ino len off ≤ len := Nat.min_le_left _ _
  have slice := ext2Pread_slice (device fun _ => false) start word (by omega)
  obtain ⟨got, reads, ret, bytes⟩ := preadLoop_reads d ino (fun _ => false) _
    (sliceLen d ino len off) off 0 rfl (by omega) (by omega)
  rw [reads_all reads, Nat.zero_add] at ret
  rw [reads_all reads, Nat.zero_add] at bytes
  refine ⟨by rw [slice, ret], ?_⟩
  intro j below
  change (ext2Pread _ _ _ _).copies.foldl (poke d) buf j = _
  rw [slice, bytes, if_pos ⟨Nat.zero_le j, below⟩, Nat.sub_zero]

theorem pread_inside (inside : off + len ≤ fileSize d ino) (direct : off + len < 12288) :
    (ext2Pread (device fun _ => false) (d.inode ino) len off).ret = some ((len : Nat) : Int) ∧
    ∀ j < len, ((diskImage d ino buf).pread len off).2 j = fileByte d ino (off + j) := by
  have all : sliceLen d ino len off = len := by
    unfold sliceLen
    unfold fileSize at inside
    omega
  have size : fileSize d ino < 2 ^ 32 := d.sizes ino
  have word : off + len < 2 ^ 32 := by omega
  have start : off ≤ fileSize d ino := by omega
  have read := pread_forward buf word start (by omega)
  rw [all] at read
  exact read

section

variable (offWord : off < 2 ^ 32) (small : len ≤ 4096)
include offWord small

theorem pread_outside (clear : ClearRead (d.inode ino) len off)
    (outside : len = 0 ∨ fileSize d ino < off + len) :
    ∃ got : Nat, (ext2Pread (device fun _ => false) (d.inode ino) len off).ret = some (got : Int) ∧
      (got = 0 ∨ got < len) := by
  have size := d.sizes ino
  have direct : readEnd (d.inode ino) len off < 12288 := clear.direct
  unfold fileSize at outside
  by_cases forward : off ≤ readEnd (d.inode ino) len off
  · have bounds : off ≤ (d.inode ino).iSize ∧ off + len < 2 ^ 32 := by
      unfold readEnd wordSize at forward
      omega
    have same : off + sliceLen d ino len off = readEnd (d.inode ino) len off := by
      unfold sliceLen readEnd wordSize
      omega
    refine ⟨sliceLen d ino len off, (pread_forward (fun _ => 0) bounds.2 bounds.1 (by omega)).1, ?_⟩
    unfold sliceLen
    omega
  · -- the loop does not run
    have blocks : readEnd (d.inode ino) len off / 1024 ≠ off / 1024 :=
      clear.forward.resolve_left forward
    have none : readEnd (d.inode ino) len off / 1024 + 1 - off / 1024 = 0 := by omega
    refine ⟨0, ?_, .inl rfl⟩
    rw [ext2Pread_eq _ (by unfold wordSize; omega) offWord size, if_neg (by omega), none]
    rfl

theorem pread_clear (clear : ClearRead (d.inode ino) len off) :
    Safe len (ext2Pread (device fun _ => false) (d.inode ino) len off).copies := by
  refine ext2Pread_safe (by unfold wordSize; omega) offWord (d.sizes ino) ?_ _
  rintro ⟨backward, block, -⟩
  rcases clear.forward with forward | blocks
  · omega
  · exact blocks block

theorem pread_unclear (unclear : ¬ ClearRead (d.inode ino) len off) :
    (ext2Pread (device fun _ => false) (d.inode ino) len off).ret = none ∨
    ¬ Safe len (ext2Pread (device fun _ => false) (d.inode ino) len off).copies ∧
      fileSize d ino < off + len := by
  have size := d.sizes ino
  by_cases direct : readEnd (d.inode ino) len off < 12288
  · refine .inr ?_
    have backward : readEnd (d.inode ino) len off < off ∧
        readEnd (d.inode ino) len off / 1024 = off / 1024 := by
      by_contra other
      refine unclear ⟨direct, ?_⟩
      unfold sBlocksize
      omega
    obtain ⟨behind, block⟩ := backward
    have overrun :=
      pread_backward_unsafe (by unfold wordSize; omega) offWord size behind block (by omega)
    refine ⟨overrun, ?_⟩
    unfold readEnd wordSize at behind
    unfold fileSize
    omega
  · refine .inl ?_
    rw [ext2Pread_eq _ (by unfold wordSize; omega) offWord size, if_pos (by omega)]

end

end

theorem load16_lt (m : Bytes.Mem) (a : Nat) : load16 m a < 2 ^ 16 := by
  have low := (m a).toNat_lt
  have high := (m (a + 1)).toNat_lt
  unfold load16
  omega

section

variable {d : Disk} {ino : Nat} (buf : Bytes.Mem)

theorem header_read (full : ehdrSize ≤ fileSize d ino) :
    ((diskImage d ino buf).pread ehdrSize 0).1 = ehdrSize ∧
    ∀ j < ehdrSize, ((diskImage d ino buf).pread ehdrSize 0).2 j = fileByte d ino j := by
  have inside : 0 + ehdrSize ≤ fileSize d ino := by omega
  obtain ⟨ret, bytes⟩ := pread_inside buf inside (by decide)
  refine ⟨?_, ?_⟩
  · change (ext2Pread _ _ _ _).ret.getD (-1) = _
    rw [ret]
    rfl
  · intro j below
    rw [bytes j below, Nat.zero_add]

theorem header_short (short : fileSize d ino < ehdrSize) :
    ((diskImage d ino buf).pread ehdrSize 0).1 ≠ ehdrSize := by
  have clear : ClearRead (d.inode ino) ehdrSize 0 := by
    refine ⟨?_, .inl (Nat.zero_le _)⟩
    unfold fileSize ehdrSize at short
    unfold readEnd ext2NdirBlocks sBlocksize
    omega
  obtain ⟨got, ret, less⟩ := pread_outside (by decide) (by decide) clear (.inr (by omega))
  change (ext2Pread _ _ _ _).ret.getD (-1) ≠ _
  rw [ret]
  unfold ehdrSize at less ⊢
  simp only [Option.getD_some, ne_eq]
  omega

structure SameTable (hdr hdr' : Ehdr) : Prop where
  ePhoff : hdr.ePhoff = hdr'.ePhoff
  ePhentsize : hdr.ePhentsize = hdr'.ePhentsize
  ePhnum : hdr.ePhnum = hdr'.ePhnum

theorem readHeader_cases (k : Kernel) (d : Disk) (ino : Nat) (buf : Bytes.Mem) :
    (readHeader k (diskImage d ino buf) = none ∧ (HeaderGood d ino → SameIdent k d ino)) ∨
    ∃ hdr, readHeader k (diskImage d ino buf) = some hdr ∧ HeaderGood d ino ∧ ¬ SameIdent k d ino ∧
      SameTable hdr (fileHeader d ino) := by
  by_cases full : ehdrSize ≤ fileSize d ino
  · obtain ⟨ret, bytes⟩ := header_read buf full
    have byte : ∀ j < 52, ((diskImage d ino buf).pread ehdrSize 0).2 j = fileByte d ino j := bytes
    have type : (ehdr ((diskImage d ino buf).pread ehdrSize 0).2).eType = (fileHeader d ino).eType := by
      simp only [fileHeader, ehdr, load16, byte 16 (by decide), byte 17 (by decide)]
    have machine : (ehdr ((diskImage d ino buf).pread ehdrSize 0).2).eMachine =
        (fileHeader d ino).eMachine := by
      simp only [fileHeader, ehdr, load16, byte 18 (by decide), byte 19 (by decide)]
    have same : SameTable (ehdr ((diskImage d ino buf).pread ehdrSize 0).2) (fileHeader d ino) := by
      refine ⟨?_, ?_, ?_⟩
      · simp only [fileHeader, ehdr, Bytes.load32, byte 28 (by decide), byte 29 (by decide),
          byte 30 (by decide), byte 31 (by decide)]
      · simp only [fileHeader, ehdr, load16, byte 42 (by decide), byte 43 (by decide)]
      · simp only [fileHeader, ehdr, load16, byte 44 (by decide), byte 45 (by decide)]
    have ident : (∀ i < eiNident, (ehdr ((diskImage d ino buf).pread ehdrSize 0).2).eIdent i =
        elfmag k i) ↔ SameIdent k d ino := by
      refine forall₂_congr fun i below => ?_
      have early : i < 52 := by
        unfold eiNident at below
        omega
      simp only [ehdr, byte i early]
    have whole : ¬ (((diskImage d ino buf).pread ehdrSize 0).1 ≤ 0 ∨
        ((diskImage d ino buf).pread ehdrSize 0).1 ≠ ehdrSize) := by
      rw [ret]
      decide
    unfold readHeader
    simp only [if_neg whole, type, machine, same.ePhentsize]
    by_cases refused : SameIdent k d ino
    · exact .inl ⟨if_pos (ident.mpr refused), fun _ => refused⟩
    rw [if_neg fun equal => refused (ident.mp equal)]
    by_cases good : HeaderGood d ino
    · refine .inr ⟨_, ?_, good, refused, same⟩
      rw [if_neg (not_not.mpr good.type), if_neg (not_not.mpr good.machine),
        if_neg (Nat.not_lt.mpr good.entry)]
    · refine .inl ⟨?_, fun is => absurd is good⟩
      by_cases t : (fileHeader d ino).eType = etExec
      · rw [if_neg (not_not.mpr t)]
        by_cases m : (fileHeader d ino).eMachine = em386
        · rw [if_neg (not_not.mpr m)]
          exact if_pos (Nat.lt_of_not_le fun e => good ⟨full, t, m, e⟩)
        · exact if_pos m
      · exact if_pos t
  · refine .inl ⟨?_, fun good => absurd good.full full⟩
    unfold readHeader
    exact if_pos (.inr (header_short buf (Nat.lt_of_not_le full)))

theorem phdr_congr {m m' : Bytes.Mem} {a b : Nat} (same : ∀ j < 32, m (a + j) = m' (b + j)) :
    phdr m a = phdr m' b := by
  have word : ∀ j, j + 3 < 32 → Bytes.load32 m (a + j) = Bytes.load32 m' (b + j) := by
    intro j below
    simp only [Bytes.load32, Nat.add_assoc, same j (by omega), same (j + 1) (by omega),
      same (j + 2) (by omega), same (j + 3) (by omega)]
  have first := word 0 (by decide)
  rw [Nat.add_zero, Nat.add_zero] at first
  simp only [phdr, first, word 4 (by decide), word 8 (by decide), word 16 (by decide),
    word 20 (by decide)]

theorem readPhdrs_inside {hdr : Ehdr} (same : SameTable hdr (fileHeader d ino))
    (good : HeaderGood d ino) (table : TableInside d ino)
    (direct : hdr.ePhoff + phbufsz hdr < 12288) :
    readPhdrs (diskImage d ino buf) hdr = some (fileTable d ino) := by
  have size : phbufsz hdr = phbufsz (fileHeader d ino) := by
    unfold phbufsz
    rw [same.ePhentsize, same.ePhnum]
  have inside : hdr.ePhoff + phbufsz hdr ≤ fileSize d ino := by
    rw [size, same.ePhoff]
    exact table.inside
  have some_entries : 0 < hdr.ePhnum := by
    rw [same.ePhnum]
    exact table.some_entries
  have entry : 32 ≤ hdr.ePhentsize := by
    rw [same.ePhentsize]
    exact good.entry
  obtain ⟨ret, bytes⟩ := pread_inside buf inside direct
  have positive : 0 < phbufsz hdr := Nat.mul_pos (by omega) some_entries
  have whole : ¬ (((diskImage d ino buf).pread (phbufsz hdr) hdr.ePhoff).1 ≤ 0 ∨
      ((diskImage d ino buf).pread (phbufsz hdr) hdr.ePhoff).1 ≠ phbufsz hdr) := by
    have value : ((diskImage d ino buf).pread (phbufsz hdr) hdr.ePhoff).1 = phbufsz hdr := by
      change (ext2Pread _ _ _ _).ret.getD (-1) = _
      rw [ret]
      rfl
    rw [value]
    omega
  unfold readPhdrs fileTable
  simp only [if_neg whole, ← same.ePhnum, ← same.ePhentsize, ← same.ePhoff]
  refine congrArg some (List.map_congr_left fun i member => ?_)
  have low := List.mem_range.mp member
  refine phdr_congr fun j below => ?_
  refine bytes _ ?_
  have room : (i + 1) * hdr.ePhentsize ≤ hdr.ePhnum * hdr.ePhentsize := Nat.mul_le_mul_right _ low
  unfold phbufsz
  rw [Nat.mul_comm hdr.ePhentsize]
  rw [Nat.succ_mul] at room
  omega

theorem readPhdrs_outside {hdr : Ehdr} {got : Nat} (ret : (tableRead d ino hdr).ret = some (got : Int))
    (less : got = 0 ∨ got < phbufsz hdr) : readPhdrs (diskImage d ino buf) hdr = none := by
  have value : ((diskImage d ino buf).pread (phbufsz hdr) hdr.ePhoff).1 = got := by
    change (tableRead d ino hdr).ret.getD (-1) = _
    rw [ret]
    rfl
  unfold readPhdrs
  refine if_pos ?_
  rw [value]
  omega

end

theorem execImage_commits {k : Kernel} {w : World} {ino old : Nat} {image : Image} {supply : Supply}
    {oldShape : Shape} {ps : List Phdr} (ready : Ready w old oldShape)
    (accepted : programHeaders k image = some ps)
    (provided : Provided w supply (requests ino ps).length) (granted : ¬ supply.Fails) :
    (SetsUp k w ino supply ps ∧ ∃ w' c, execImage k w ino old image supply = .ok (w', some c)) ∨
    (¬ SetsUp k w ino supply ps ∧ ∃ e, execImage k w ino old image supply = .error e) := by
  have given : ∀ qs, programHeaders k image = some qs → Provided w supply (requests ino qs).length := by
    intro qs again
    cases accepted.symm.trans again
    exact provided
  obtain ⟨hdr, header, table⟩ := Option.bind_eq_some_iff.mp accepted
  have bufs : ¬ supply.phbuf = false := fun no => granted (.inl no)
  rcases memCtxNew_cases k.initPgd provided.ctx provided.pgd with ⟨-, failed⟩ | ⟨c, f, obj, pgd, ran⟩
  · exact absurd (.inr (failed.imp id .inl)) granted
  have nonzero := (provided.ctx c obj).1
  have start := built_start (started k.initPgd w c f) c
    (Finset.mem_insert_self c w.memctx) (by simp [started])
  have unique : SetsUp k w ino supply ps ↔
      ∃ w', setupAll (started k.initPgd w c f) c (requests ino ps) supply.vmas = .ok (w', true) := by
    constructor
    · rintro ⟨c', f', w', obj', pgd', all⟩
      cases obj.symm.trans obj'
      cases pgd.symm.trans pgd'
      exact ⟨w', all⟩
    · rintro ⟨w', all⟩
      exact ⟨c, f, w', obj, pgd, all⟩
  rw [unique]
  rcases setupAll_cases (requests ino ps) start provided.vmas provided.long with
    ⟨bug, -⟩ | ⟨w₁, -, -, -, -, lost⟩ | ⟨w₁, shape, loop, built⟩
  · obtain ⟨e, stops⟩ : ∃ e, setupAll (started k.initPgd w c f) c (requests ino ps) supply.vmas =
        .error e := by
      rcases bug with bug | bug
      · exact ⟨_, bug⟩
      · exact ⟨_, bug⟩
    refine .inr ⟨?_, e, ?_⟩
    · rintro ⟨w', all⟩
      cases stops.symm.trans all
    · simp only [execImage, header, if_neg bufs, table, ran, if_neg nonzero, stops]
  · exact absurd (.inr (.inr (.inr lost))) granted
  · rw [List.nil_append] at built
    obtain ⟨w₂, put, -⟩ := put_old ready (provided.ctx c obj).2 built
    refine .inl ⟨⟨w₁, loop⟩, w₂, c, ?_⟩
    simp only [execImage, header, if_neg bufs, table, ran, if_neg nonzero, loop, put]
    rfl

section

variable {k : Kernel} {w : World} {d : Disk} {ino old : Nat} {buf : Bytes.Mem} {supply : Supply}
  {hdr : Ehdr}

theorem validates_refused (refused : readHeader k (diskImage d ino buf) = none) :
    Validates k w d ino old buf supply ↔ ¬ Wanted k w d ino supply := by
  have ran : execFile k w d ino old buf supply = some (.ok (w, none)) := by
    simp only [execFile, refused]
  have calm : ¬ Overruns k d ino buf := by
    rintro ⟨hdr, passed, -⟩
    cases refused.symm.trans passed
  constructor
  · rintro ⟨commits, -⟩ wanted
    obtain ⟨w', c, done⟩ := commits wanted
    cases ran.symm.trans done
  · exact fun unwanted => ⟨fun wanted => absurd wanted unwanted,
      fun _ => ⟨calm, w, ran, restored_refl w⟩⟩

theorem SameTable.phbufsz {hdr' : Ehdr} (same : SameTable hdr hdr') :
    phbufsz hdr = phbufsz hdr' := by
  unfold Exec.phbufsz
  rw [same.ePhentsize, same.ePhnum]

theorem tableRead_eq (same : SameTable hdr (fileHeader d ino)) :
    tableRead d ino hdr = ext2Pread (device fun _ => false) (d.inode ino)
      (phbufsz (fileHeader d ino)) (fileHeader d ino).ePhoff := by
  unfold tableRead
  rw [same.phbufsz, same.ePhoff]

variable (passed : readHeader k (diskImage d ino buf) = some hdr)
  (same : SameTable hdr (fileHeader d ino)) (page : phbufsz (fileHeader d ino) ≤ 4096)

include passed same

theorem validates_inside {oldShape : Shape} (ready : Ready w old oldShape) (good : HeaderGood d ino)
    (clear : ClearRead (d.inode ino) (phbufsz (fileHeader d ino)) (fileHeader d ino).ePhoff)
    (table : TableInside d ino)
    (provided : Provided w supply (requests ino (fileTable d ino)).length)
    (granted : ¬ supply.Fails) : Validates k w d ino old buf supply ↔
      Magic d ino ∧ SetsUp k w ino supply (fileTable d ino) := by
  have size := d.sizes ino
  have inside := table.inside
  have direct : (fileHeader d ino).ePhoff + phbufsz (fileHeader d ino) < 12288 := by
    have low : readEnd _ _ _ < 12288 := clear.direct
    unfold readEnd wordSize at low
    unfold fileSize at inside
    omega
  have accepted : programHeaders k (diskImage d ino buf) = some (fileTable d ino) := by
    rw [programHeaders, passed]
    exact readPhdrs_inside buf same good table (by rw [same.phbufsz, same.ePhoff]; exact direct)
  have ran : execFile k w d ino old buf supply =
      some (execImage k w ino old (diskImage d ino buf) supply) := by
    simp only [execFile, passed]
    refine if_neg ?_
    rw [tableRead_eq same, (pread_inside buf inside direct).1]
    simp
  unfold Validates
  rw [ran]
  rcases execImage_commits ready accepted provided granted with
    ⟨sets, w', c, done⟩ | ⟨fails, e, stopped⟩
  · rw [done]
    constructor
    · rintro ⟨-, refuses⟩
      refine ⟨?_, sets⟩
      by_contra wrong
      obtain ⟨-, w'', no, -⟩ := refuses fun wanted => wrong wanted.magic
      cases no
    · rintro ⟨magic, -⟩
      exact ⟨fun _ => ⟨w', c, rfl⟩, fun unwanted => absurd ⟨good, magic, table, sets⟩ unwanted⟩
  · rw [stopped]
    refine iff_of_false ?_ fun right => fails right.2
    rintro ⟨-, refuses⟩
    obtain ⟨-, w'', no, -⟩ := refuses fun wanted => fails wanted.setsUp
    cases no

include page

theorem validates_outside
    (clear : ClearRead (d.inode ino) (phbufsz (fileHeader d ino)) (fileHeader d ino).ePhoff)
    (table : ¬ TableInside d ino) : Validates k w d ino old buf supply := by
  have offWord : (fileHeader d ino).ePhoff < 2 ^ 32 := Bytes.load32_lt _ _
  have calm : ¬ Overruns k d ino buf := by
    rintro ⟨hdr', passed', overrun⟩
    cases passed.symm.trans passed'
    rw [same.phbufsz, tableRead_eq same] at overrun
    exact overrun (pread_clear offWord page clear)
  have outside : phbufsz (fileHeader d ino) = 0 ∨
      fileSize d ino < (fileHeader d ino).ePhoff + phbufsz (fileHeader d ino) := by
    by_contra both
    have positive : 0 < phbufsz (fileHeader d ino) := by omega
    exact table ⟨Nat.pos_of_mul_pos_left positive, by omega⟩
  obtain ⟨got, ret, less⟩ := pread_outside offWord page clear outside
  rw [← tableRead_eq same] at ret
  rw [← same.phbufsz] at less
  have ran : execFile k w d ino old buf supply = some (.ok (w, none)) := by
    simp only [execFile, passed]
    rw [if_neg (by rw [ret]; simp)]
    simp only [execImage, passed, readPhdrs_outside buf ret less, ite_self]
  exact ⟨fun wanted => absurd wanted.table table, fun _ => ⟨calm, w, ran, restored_refl w⟩⟩

theorem not_validates_unclear (phbuf : supply.phbuf = true)
    (unclear : ¬ ClearRead (d.inode ino) (phbufsz (fileHeader d ino)) (fileHeader d ino).ePhoff) :
    ¬ Validates k w d ino old buf supply := by
  have offWord : (fileHeader d ino).ePhoff < 2 ^ 32 := Bytes.load32_lt _ _
  rintro ⟨commits, refuses⟩
  rcases pread_unclear offWord page unclear with bug | ⟨overrun, past⟩
  · have ran : execFile k w d ino old buf supply = none := by
      simp only [execFile, passed]
      exact if_pos ⟨phbuf, by rw [tableRead_eq same, bug]⟩
    by_cases wanted : Wanted k w d ino supply
    · obtain ⟨w', c, done⟩ := commits wanted
      cases ran.symm.trans done
    · obtain ⟨-, w', done, -⟩ := refuses wanted
      cases ran.symm.trans done
  · have unwanted : ¬ Wanted k w d ino supply := fun wanted =>
      Nat.not_le_of_lt past wanted.table.inside
    refine (refuses unwanted).1 ⟨hdr, passed, ?_⟩
    rw [same.phbufsz, tableRead_eq same]
    exact overrun

end

def magicFile (first : UInt8) : List UInt8 := (elf goodSegments).set 0 first

theorem magicFile_short (first : UInt8) : (magicFile first).length < 2 ^ 32 := by
  rw [magicFile, List.length_set]
  decide +kernel

def magicDisk (first : UInt8) : Disk := fileDisk (magicFile first) (magicFile_short first)

theorem magicDisk_header : ∀ first ∈ [0x7f, (0 : UInt8)], HeaderGood (magicDisk first) 5 ∧
    TableInside (magicDisk first) 5 ∧ phbufsz (fileHeader (magicDisk first) 5) = 64 ∧
    fileTable (magicDisk first) 5 = goodSegments := by
  have fields : ∀ first ∈ [0x7f, (0 : UInt8)],
      (ehdrSize ≤ fileSize (magicDisk first) 5 ∧ (fileHeader (magicDisk first) 5).eType = etExec ∧
        (fileHeader (magicDisk first) 5).eMachine = em386 ∧
        phdrSize ≤ (fileHeader (magicDisk first) 5).ePhentsize) ∧
      (0 < (fileHeader (magicDisk first) 5).ePhnum ∧ (fileHeader (magicDisk first) 5).ePhoff +
        phbufsz (fileHeader (magicDisk first) 5) ≤ fileSize (magicDisk first) 5) ∧
      phbufsz (fileHeader (magicDisk first) 5) = 64 ∧
      fileTable (magicDisk first) 5 = goodSegments := by
    decide +kernel
  intro first member
  obtain ⟨⟨full, type, machine, entry⟩, ⟨some_entries, inside⟩, size, table⟩ := fields first member
  exact ⟨⟨full, type, machine, entry⟩, ⟨some_entries, inside⟩, size, table⟩

theorem goodSegments_setsUp : SetsUp sampleKernel sampleWorld 5 sampleSupply goodSegments := by
  have set : (setupAll (started sampleKernel.initPgd sampleWorld 128 7) 128 (requests 5 goodSegments)
      sampleSupply.vmas).toOption.map (·.2) = some true := by
    decide +kernel
  obtain ⟨⟨w', ok⟩, ran, rfl⟩ := Option.map_eq_some_iff.mp set
  exact ⟨128, 7, w', rfl, rfl, Loops.ok_of_toOption ran⟩

end ScaraOS.Exec
