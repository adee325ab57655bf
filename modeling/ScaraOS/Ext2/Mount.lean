import ScaraOS.Ext2.Super

/-! What can happen to an attempt to mount a file system: the faults that its super block can
lead to, and the objects that a failed attempt leaves behind. -/
namespace ScaraOS.Ext2.Super

open Attempt

variable {info : Info} {table : Nat → Option Buffer} {ino offset left i : Nat} {e : Fault}
  {env : Env} {es : Es} {b : Buffer} {array : Bool}

theorem readInode_locate (stopped : locate info ino = .error e) :
    (readInode info table ino).result = .error e := by
  unfold readInode
  rw [stopped, ofExcept_error_bind, fault_result]

theorem readInode_none (refused : locate info ino = .ok none) :
    readInode info table ino = pure none := by
  unfold readInode
  rw [refused, ofExcept_ok_bind]

theorem readInode_some {block : Nat} (place : locate info ino = .ok (some (block, offset))) :
    (readInode info table ino).result =
      (table block).elim (.ok none) fun b => copyInode b offset := by
  unfold readInode
  rw [place, ofExcept_ok_bind]
  simp only
  cases table block with
  | none => rfl
  | some b =>
    simp only [emit_bind_result, Option.elim_some]
    cases copyInode b offset with
    | error e | ok inode => rfl

theorem iget_result (env : Env) (info : Info) (ino : Nat) : (iget env info ino).result =
    if env.inode then (readInode info env.table ino).result else .ok none := by
  unfold iget
  by_cases got : env.inode = true
  · rw [if_pos got, if_pos got, emit_bind_result]
    cases read : (readInode info env.table ino).result with
    | error e => rw [bind_of_error read]
    | ok inode =>
      rw [bind_of_ok read]
      cases inode with
      | none | some inode => rfl
  · rw [if_neg got, if_neg got, pure_result]

theorem readDescs_all (all : ∀ n, i ≤ n → n < i + left → (env.desc n).isSome) :
    readDescs env true left i =
      ⟨(List.range' i left).map fun n => .alloc (.desc n),
        .ok (some ((List.range' i left).filterMap env.desc))⟩ := by
  induction left generalizing i with
  | zero => rfl
  | succ left ih =>
    obtain ⟨b, here⟩ := Option.isSome_iff_exists.mp (all i (Nat.le_refl i) (by omega))
    have rest := ih (i := i + 1) fun n low high => all n (by omega) (by omega)
    rw [readDescs, here, List.range'_succ, List.map_cons, List.filterMap_cons_some here]
    simp only [if_true, rest]
    rw [bind_of_ok rfl, bind_of_ok rfl]
    simp [emit]

theorem readDescs_missing (missing : ∃ n, i ≤ n ∧ n < i + left ∧ env.desc n = none) :
    (readDescs env true left i).result = .error .null ∨
      (readDescs env true left i).result = .ok none := by
  induction left generalizing i with
  | zero =>
    obtain ⟨n, low, high, -⟩ := missing
    omega
  | succ left ih =>
    rw [readDescs]
    cases here : env.desc i with
    | none =>
      by_cases later : 0 < i
      · exact .inl (by simp [later])
      · exact .inr (by simp [later])
    | some b =>
      obtain ⟨n, low, high, none⟩ := missing
      have after : i + 1 ≤ n := by
        by_contra first
        have same : n = i := by omega
        rw [same, here] at none
        cases none
      simp only [emit_bind_result, if_true]
      rcases ih ⟨n, after, by omega, none⟩ with stopped | short
      · rw [bind_of_error stopped]
        exact .inl rfl
      · rw [bind_of_ok short]
        exact .inr rfl

theorem readDescs_null (env : Env) (left i : Nat) :
    (readDescs env false (left + 1) i).result = .error .null := by
  rw [readDescs]
  cases env.desc i with
  | none | some b => rfl

theorem getRoot_result (env : Env) (info : Info) : (getRoot env info).result =
    (iget env info ext2RootIno).result.map (Option.map fun root => (info, root)) := by
  unfold getRoot
  cases got : (iget env info ext2RootIno).result with
  | error e => rw [bind_of_error got]; rfl
  | ok root =>
    rw [bind_of_ok got]
    cases root with
    | none | some root => rfl

def descBlocks (env : Env) (count : Nat) : List Buffer := (List.range count).filterMap env.desc

def withDescs (env : Env) (info : Info) : Info :=
  { info with sGroupDesc := descBlocks env (dbCount info) }

def DescsRead (env : Env) (info : Info) (array : Bool) : Prop :=
  dbCount info = 0 ∨ array = true ∧ ∀ i < dbCount info, (env.desc i).isSome

theorem getDescs_read (read : DescsRead env info array) :
    getDescs env info array = ⟨((List.range (dbCount info)).map fun i => .alloc (.desc i)) ++
      (getRoot env (withDescs env info)).events, (getRoot env (withDescs env info)).result⟩ := by
  have run : readDescs env array (dbCount info) 0 =
      ⟨(List.range (dbCount info)).map fun i => .alloc (.desc i),
        .ok (some (descBlocks env (dbCount info)))⟩ := by
    unfold descBlocks
    rw [List.range_eq_range']
    rcases read with none | ⟨rfl, all⟩
    · rw [none]
      rfl
    · exact readDescs_all fun n _ high => all n (by omega)
  unfold getDescs
  rw [run, bind_of_ok rfl]
  rfl

theorem getDescs_unread (unread : ¬ DescsRead env info array) :
    (getDescs env info array).result = .error .null ∨ array = true ∧ getDescs env info array =
      ⟨(readDescs env true (dbCount info) 0).events ++ [.free .sbh], .ok none⟩ := by
  obtain ⟨some', short⟩ := not_or.mp unread
  unfold getDescs
  cases array with
  | false =>
    obtain ⟨n, eq⟩ := Nat.exists_eq_succ_of_ne_zero some'
    rw [eq]
    rw [bind_of_error (readDescs_null env n 0)]
    exact .inl rfl
  | true =>
    simp only [true_and, not_forall, Option.not_isSome_iff_eq_none] at short
    obtain ⟨i, below, lost⟩ := short
    have missing : ∃ n, 0 ≤ n ∧ n < 0 + dbCount info ∧ env.desc n = none :=
      ⟨i, Nat.zero_le i, by omega, lost⟩
    rcases readDescs_missing missing with stopped | ended
    · rw [bind_of_error stopped]
      exact .inl rfl
    · rw [bind_of_ok ended]
      exact .inr ⟨rfl, rfl⟩

def Checked (es : Es) : Prop := es.sMagic = ext2SuperMagic ∧ es.sLogBlockSize = 0

theorem fillSuper_refused (env : Env) (bad : ¬ Checked es) : fillSuper env es = err := by
  unfold fillSuper
  by_cases magic : es.sMagic = ext2SuperMagic
  · rw [if_neg (not_not.mpr magic), if_pos fun log => bad ⟨magic, log⟩]
  · rw [if_pos magic]

theorem fillSuper_fault (env : Env) (checked : Checked es) (stopped : sbInfo es = .error e) :
    (fillSuper env es).result = .error e := by
  unfold fillSuper
  rw [if_neg (not_not.mpr checked.1), if_neg (not_not.mpr checked.2), stopped]
  rfl

theorem fillSuper_made (env : Env) (checked : Checked es) (made : sbInfo es = .ok info) :
    fillSuper env es =
      if given env (dbCount info) then do
        emit (.alloc .array)
        getDescs env info true
      else getDescs env info false := by
  unfold fillSuper
  rw [if_neg (not_not.mpr checked.1), if_neg (not_not.mpr checked.2), made]
  rfl

theorem fillSuper_made_result (env : Env) (checked : Checked es) (made : sbInfo es = .ok info) :
    (fillSuper env es).result =
      (getDescs env info (given env (dbCount info))).result := by
  rw [fillSuper_made env checked made]
  by_cases got : given env (dbCount info) = true
  · rw [if_pos got, got]
    rfl
  · rw [if_neg got, Bool.eq_false_iff.mpr got]

theorem superGet_result (sb : env.sb = true) (blksize : env.blksize = true)
    (super : env.super = some b) : (superGet env).result = (fillSuper env (readEs b)).result := by
  unfold superGet ext2GetSuper
  rw [if_pos sb, if_pos blksize, super]
  simp only [emit_bind_result]
  cases filled : (fillSuper env (readEs b)).result with
  | error e =>
    rw [bind_of_error (e := e) (by rw [emit_bind_result]; exact filled)]
  | ok mounted =>
    rw [bind_of_ok (a := mounted) (by rw [emit_bind_result]; exact filled)]
    cases mounted with
    | none | some mounted => rfl

theorem superGet_early (early : env.sb = false ∨ env.blksize = false ∨ env.super = none) :
    (superGet env).result = .ok none ∧
      ((superGet env).events = [] ∨ (superGet env).events = [.alloc .sb, .free .sb]) := by
  unfold superGet ext2GetSuper
  by_cases sb : env.sb = true
  · rw [if_pos sb]
    by_cases blksize : env.blksize = true
    · have super : env.super = none := by
        rcases early with no | no | no
        · rw [no] at sb
          cases sb
        · rw [no] at blksize
          cases blksize
        · exact no
      rw [if_pos blksize, super]
      exact ⟨rfl, .inr rfl⟩
    · rw [if_neg blksize]
      exact ⟨rfl, .inr rfl⟩
  · rw [if_neg sb]
    exact ⟨rfl, .inl rfl⟩

/-- The only fault there may be is that of a null pointer. -/
def Harmless {α : Type} (r : Except Fault α) : Prop := ∀ e, r = .error e → e = .null

/-- Whatever the descriptors and the inode table hold and whatever succeeds, the attempt to
mount with this super block is harmless; and if it mounts the file system, so is reading any
inode of it at any time. -/
def SafeSuper (b : Buffer) : Prop :=
  ∀ env, env.super = some b → Harmless (superGet env).result ∧
    ∀ info root, (superGet env).result = .ok (some (info, root)) → ∀ table ino, ino < wordSize →
      Harmless (readInode info table ino).result

def SafeIno (info : Info) (ino : Nat) : Prop :=
  ino ≤ info.sEs.sInodesCount → info.sInodesPerGroup ≠ 0 ∧ (groupOf info ino < info.sGroupsCount →
    groupOf info ino / 32 < info.sGroupDesc.length ∧ offsetOf info ino + 100 ≤ bLen)

def dirs : Nat → Option Buffer := fun _ => some fun _ => 0x40

theorem copyInode_fits (fits : offset + 100 ≤ bLen) (b : Buffer) :
    ∃ r, copyInode b offset = .ok r := by
  unfold copyInode
  rw [if_neg (by omega)]
  simp only
  rw [if_neg (show ¬ bLen < offset + 100 by omega)]
  split
  · exact ⟨_, rfl⟩
  · exact ⟨_, rfl⟩

theorem copyInode_dirs (offset : Nat) :
    (∃ root, copyInode (fun _ => 0x40) offset = .ok (some root)) ∧ offset + 100 ≤ bLen ∨
      copyInode (fun _ => 0x40) offset = .error .outside ∧ ¬ offset + 100 ≤ bLen := by
  have mode : fileType (Bytes.load (fun _ => 0x40) offset 2) = 4 := by
    simp [fileType, Bytes.load]
  unfold copyInode
  simp only [mode, true_or, if_true]
  by_cases fits : offset + 100 ≤ bLen
  · rw [if_neg (by omega), if_neg (by omega)]
    exact .inl ⟨⟨_, rfl⟩, fits⟩
  · refine .inr ⟨?_, fits⟩
    split
    · rfl
    · rw [if_pos (by omega)]
      rfl

theorem locate_found (sized : Sized es info) (known : ino ≤ info.sEs.sInodesCount)
    (any : info.sInodesPerGroup ≠ 0) (inside : groupOf info ino < info.sGroupsCount) {c : Buffer}
    (desc : info.sGroupDesc[groupOf info ino / 32]? = some c) :
    ∃ block, locate info ino = .ok (some (block, offsetOf info ino)) := by
  refine ⟨(bgInodeTable c (groupOf info ino % 32) + pred ino / info.sInodesPerBlock) % wordSize, ?_⟩
  rw [locate_eq sized.desc sized.any, if_neg (by omega), if_neg any, if_neg (by omega), desc]

theorem readInode_safe (sized : Sized es info) (safe : SafeIno info ino)
    (table : Nat → Option Buffer) : ∃ r, (readInode info table ino).result = .ok r := by
  have place := locate_eq sized.desc sized.any ino
  by_cases bad : info.sEs.sInodesCount < ino
  · rw [if_pos bad] at place
    rw [readInode_none place]
    exact ⟨none, rfl⟩
  · obtain ⟨any, inside⟩ := safe (by omega)
    by_cases beyond : info.sGroupsCount ≤ groupOf info ino
    · rw [if_neg bad, if_neg any, if_pos beyond] at place
      rw [readInode_none place]
      exact ⟨none, rfl⟩
    · obtain ⟨below, fits⟩ := inside (by omega)
      obtain ⟨block, found⟩ :=
        locate_found sized (by omega) any (by omega) (List.getElem?_eq_getElem below)
      rw [readInode_some found]
      cases table block with
      | none => exact ⟨none, rfl⟩
      | some b =>
        rw [Option.elim_some]
        exact copyInode_fits fits b

theorem readInode_dirs (sized : Sized es info) (known : ino ≤ info.sEs.sInodesCount)
    (harmless : Harmless (readInode info dirs ino).result) :
    info.sInodesPerGroup ≠ 0 ∧ (groupOf info ino < info.sGroupsCount →
      (groupOf info ino / 32 < info.sGroupDesc.length ∧ offsetOf info ino + 100 ≤ bLen) ∧
        ∃ root, (readInode info dirs ino).result = .ok (some root)) := by
  have place := locate_eq sized.desc sized.any ino
  rw [if_neg (by omega)] at place
  by_cases zero : info.sInodesPerGroup = 0
  · rw [if_pos zero] at place
    exact absurd (harmless _ (readInode_locate place)) (by decide)
  · refine ⟨zero, fun inside => ?_⟩
    cases desc : info.sGroupDesc[groupOf info ino / 32]? with
    | none =>
      rw [if_neg zero, if_neg (by omega), desc] at place
      exact absurd (harmless _ (readInode_locate place)) (by decide)
    | some c =>
      obtain ⟨below, -⟩ := List.getElem?_eq_some_iff.mp desc
      obtain ⟨block, found⟩ := locate_found sized known zero inside desc
      have read : (readInode info dirs ino).result = copyInode (fun _ => 0x40) (offsetOf info ino) := by
        rw [readInode_some found, dirs, Option.elim_some]
      rcases copyInode_dirs (offsetOf info ino) with ⟨⟨root, copied⟩, fits⟩ | ⟨stopped, -⟩
      · exact ⟨⟨below, fits⟩, root, read.trans copied⟩
      · exact absurd (harmless _ (read.trans stopped)) (by decide)

/-- The divisors of the super block are not zero; and if a root inode can be in a group, the
array for the descriptors being one that can be allocated, every number that is not refused
leads to a descriptor that was read and to an inode that lies in its block. -/
def Sane (es : Es) : Prop :=
  es.sInodeSize ≠ 0 ∧ es.sInodeSize ≤ sBlocksize ∧ es.sBlocksPerGroup ≠ 0 ∧
    ∀ info, sbInfo es = .ok info → dbCount info * 4 ≤ 4096 → ext2RootIno ≤ es.sInodesCount →
      es.sInodesPerGroup ≠ 0 ∧ (groupOf info ext2RootIno < info.sGroupsCount →
        info.sGroupsCount + 31 < wordSize ∧
        ∀ ino < wordSize, ino ≤ es.sInodesCount → groupOf info ino < info.sGroupsCount →
          offsetOf info ino + 100 ≤ bLen)

theorem sbInfo_made (size : es.sInodeSize ≠ 0) (fits : es.sInodeSize ≤ sBlocksize)
    (per : es.sBlocksPerGroup ≠ 0) : ∃ info, sbInfo es = .ok info := by
  have some' : sBlocksize / es.sInodeSize ≠ 0 :=
    Nat.ne_of_gt (Nat.div_pos fits (Nat.pos_of_ne_zero size))
  unfold sbInfo
  simp only [div, bind, Except.bind, if_neg size, if_neg some', if_neg per]
  exact ⟨_, rfl⟩

theorem div_error {a b : Nat} (stopped : div a b = .error e) : e = .divide := by
  unfold div at stopped
  split at stopped
  · cases stopped
    rfl
  · cases stopped

theorem sbInfo_error (stopped : sbInfo es = .error e) : e = .divide := by
  unfold sbInfo at stopped
  cases first : div sBlocksize es.sInodeSize with
  | error f =>
    rw [first] at stopped
    cases stopped
    exact div_error first
  | ok ipb =>
    rw [first] at stopped
    cases second : div es.sInodesPerGroup ipb with
    | error f =>
      simp only [bind, Except.bind, second] at stopped
      cases stopped
      exact div_error second
    | ok itb =>
      simp only [bind, Except.bind, second] at stopped
      split at stopped
      · rename_i third
        cases stopped
        exact div_error third
      · cases stopped

theorem dbCount_covers (per : info.sDescPerBlock = 32) (word : info.sGroupsCount < wordSize)
    (group : Nat) (inside : group < info.sGroupsCount) :
    group / 32 < dbCount info ↔ info.sGroupsCount + 31 < wordSize := by
  unfold dbCount wordSize at *
  rw [per]
  omega

theorem withDescs_sized (sized : Sized es info) (env : Env) : Sized es (withDescs env info) :=
  ⟨sized.same, sized.size, sized.perGroup, sized.any, sized.perBlock, sized.inodes, sized.tables,
    sized.desc, sized.word⟩

theorem descBlocks_length {count : Nat} (all : ∀ i < count, (env.desc i).isSome) :
    (descBlocks env count).length = count := by
  unfold descBlocks
  induction count with
  | zero => rfl
  | succ count ih =>
    obtain ⟨b, last⟩ := Option.isSome_iff_exists.mp (all count (Nat.lt_succ_self count))
    rw [List.range_succ, List.filterMap_append, List.length_append,
      ih fun i below => all i (Nat.lt_succ_of_lt below)]
    simp [last]

theorem descs_length (read : DescsRead env info array) :
    (withDescs env info).sGroupDesc.length = dbCount info := by
  refine descBlocks_length fun i below => ?_
  rcases read with none | ⟨-, all⟩
  · omega
  · exact all i below

def eager (b : Buffer) : Env where
  sb := true
  blksize := true
  super := some b
  array := true
  desc := fun _ => some fun _ => 0
  inode := true
  table := dirs

theorem sane_of_safe (safe : SafeSuper b) (checked : Checked (readEs b)) : Sane (readEs b) := by
  obtain ⟨harmless, later⟩ := safe (eager b) rfl
  have run : (superGet (eager b)).result = (fillSuper (eager b) (readEs b)).result :=
    superGet_result rfl rfl rfl
  rw [run] at harmless later
  cases made : sbInfo (readEs b) with
  | error e =>
    have null := harmless e (fillSuper_fault _ checked made)
    rw [sbInfo_error made] at null
    cases null
  | ok info =>
    have sized := sbInfo_ok made
    refine ⟨sized.size, ?_, sized.perGroup, fun info' made' array known => ?_⟩
    · have any := sized.any
      rw [sized.perBlock] at any
      by_contra large
      exact any (Nat.div_eq_of_lt (by omega))
    · cases made.symm.trans made'
      have got : given (eager b) (dbCount info) = true := by
        unfold given
        simp [eager, array]
      have read : DescsRead (eager b) info true := .inr ⟨rfl, fun _ _ => rfl⟩
      have result : (fillSuper (eager b) (readEs b)).result =
          (readInode (withDescs (eager b) info) dirs ext2RootIno).result.map
            (Option.map fun root => (withDescs (eager b) info, root)) := by
        rw [fillSuper_made_result _ checked made, got, getDescs_read read]
        exact (getRoot_result _ _).trans (by rw [iget_result]; rfl)
      rw [result] at harmless later
      have sized' := withDescs_sized sized (eager b)
      have count : (withDescs (eager b) info).sEs.sInodesCount = (readEs b).sInodesCount := by
        rw [sized'.same]
      have rootHarmless : Harmless (readInode (withDescs (eager b) info) dirs ext2RootIno).result :=
        fun e stopped => harmless e (by rw [stopped]; rfl)
      obtain ⟨any, inside⟩ := readInode_dirs sized' (by omega) rootHarmless
      refine ⟨by rw [← sized.inodes]; exact any, fun root => ?_⟩
      obtain ⟨⟨below, -⟩, inode, mounted⟩ := inside root
      rw [descs_length read] at below
      refine ⟨(dbCount_covers sized.desc sized.word _ root).mp below, fun ino word small group => ?_⟩
      have all := later _ inode (by rw [mounted]; rfl) dirs ino word
      exact ((readInode_dirs sized' (by omega) all).2 group).1.2

theorem safe_of_failed {r : Except Fault (Option (Info × RawInode))}
    (failed : r = .error .null ∨ r = .ok none) : Harmless r ∧
      ∀ info root, r = .ok (some (info, root)) → ∀ table ino, ino < wordSize →
        Harmless (readInode info table ino).result := by
  rcases failed with rfl | rfl
  · refine ⟨fun e stopped => ?_, fun info root mounted => ?_⟩
    · cases stopped
      rfl
    · cases mounted
  · refine ⟨fun e stopped => ?_, fun info root mounted => ?_⟩
    · cases stopped
    · cases mounted

theorem safeIno_of_sane (sane : Sane es) (made : sbInfo es = .ok info)
    (few : dbCount info * 4 ≤ 4096) (read : DescsRead env info array)
    (known : ext2RootIno ≤ es.sInodesCount) (root : groupOf info ext2RootIno < info.sGroupsCount)
    (word : ino < wordSize) : SafeIno (withDescs env info) ino := by
  have sized := sbInfo_ok made
  obtain ⟨any, inside⟩ := sane.2.2.2 info made few known
  obtain ⟨covered, fits⟩ := inside root
  intro small
  refine ⟨fun zero => any (sized.inodes ▸ zero), fun group => ⟨?_, ?_⟩⟩
  · rw [descs_length read]
    exact (dbCount_covers sized.desc sized.word _ group).mpr covered
  · refine fits ino word ?_ group
    rw [← sized.same]
    exact small

theorem safe_of_root (sane : Sane es) (made : sbInfo es = .ok info)
    (few : dbCount info * 4 ≤ 4096) (read : DescsRead env info array) (table : Nat → Option Buffer) :
    Harmless ((readInode (withDescs env info) table ext2RootIno).result.map
      (Option.map fun root => (withDescs env info, root))) ∧
    ∀ mounted root, (readInode (withDescs env info) table ext2RootIno).result.map
      (Option.map fun root => (withDescs env info, root)) = .ok (some (mounted, root)) →
      ∀ later ino, ino < wordSize → Harmless (readInode mounted later ino).result := by
  have sized := withDescs_sized (sbInfo_ok made) env
  have place := locate_eq sized.desc sized.any ext2RootIno
  have refused : locate (withDescs env info) ext2RootIno = .ok none →
      (readInode (withDescs env info) table ext2RootIno).result.map
        (Option.map fun root => (withDescs env info, root)) = .ok none := by
    intro none
    rw [readInode_none none]
    rfl
  by_cases known : ext2RootIno ≤ es.sInodesCount
  · obtain ⟨any, -⟩ := sane.2.2.2 info made few known
    by_cases root : groupOf info ext2RootIno < info.sGroupsCount
    · have safe : ∀ ino < wordSize, SafeIno (withDescs env info) ino := fun ino word =>
        safeIno_of_sane sane made few read known root word
      obtain ⟨r, ok⟩ := readInode_safe sized (safe ext2RootIno (by decide)) table
      rw [ok]
      refine ⟨fun e stopped => ?_, fun mounted root' eq later ino word e stopped => ?_⟩
      · cases stopped
      · cases r with
        | none => cases eq
        | some root'' =>
          cases eq
          obtain ⟨r, read⟩ := readInode_safe sized (safe ino word) later
          rw [read] at stopped
          cases stopped
    · have beyond : (withDescs env info).sGroupsCount ≤ groupOf (withDescs env info) ext2RootIno :=
        Nat.le_of_not_lt root
      rw [if_neg (by rw [sized.same]; omega), if_neg (fun zero => any (sized.inodes ▸ zero)),
        if_pos beyond] at place
      exact safe_of_failed (.inr (refused place))
  · rw [if_pos (by rw [sized.same]; omega)] at place
    exact safe_of_failed (.inr (refused place))

theorem safe_of_sane (sane : Checked (readEs b) → Sane (readEs b)) : SafeSuper b := by
  intro env super
  by_cases early : env.sb = false ∨ env.blksize = false
  · rw [(superGet_early (early.imp_right .inl)).1]
    exact safe_of_failed (.inr rfl)
  · simp only [not_or, Bool.not_eq_false] at early
    rw [superGet_result early.1 early.2 super]
    by_cases checked : Checked (readEs b)
    · obtain ⟨info, made⟩ := sbInfo_made (sane checked).1 (sane checked).2.1 (sane checked).2.2.1
      rw [fillSuper_made_result env checked made]
      by_cases read : DescsRead env info (given env (dbCount info))
      · rw [getDescs_read read]
        simp only [getRoot_result, iget_result]
        have few : dbCount info * 4 ≤ 4096 := by
          rcases read with none | ⟨got, -⟩
          · omega
          · unfold given at got
            simp only [Bool.and_eq_true, decide_eq_true_eq] at got
            exact got.2
        by_cases inode : env.inode = true
        · rw [if_pos inode]
          exact safe_of_root (sane checked) made few read env.table
        · rw [if_neg inode]
          exact safe_of_failed (.inr rfl)
      · rcases getDescs_unread read with stopped | ⟨-, ended⟩
        · exact safe_of_failed (.inl stopped)
        · rw [ended]
          exact safe_of_failed (.inr rfl)
    · rw [fillSuper_refused env checked]
      exact safe_of_failed (.inr rfl)

/-- A super block does no harm exactly if it is refused by the two checks or is sane. -/
theorem safe_super_iff (b : Buffer) : SafeSuper b ↔ (Checked (readEs b) → Sane (readEs b)) :=
  ⟨fun safe checked => sane_of_safe safe checked, safe_of_sane⟩

def revisionZero : Buffer := fun i =>
  ([(0, 64), (5, 64), (20, 1), (33, 32), (40, 32), (56, 0x53), (57, 0xEF)].lookup i).getD 0

theorem super_divides_by_zero : (superGet (eager revisionZero)).result = .error .divide ∧
    ¬ SafeSuper revisionZero := by
  have es : readEs revisionZero = ⟨64, 16384, 1, 0, 8192, 32, 0xEF53, 0⟩ := by decide +kernel
  have checked : Checked (readEs revisionZero) := by
    rw [es]
    exact ⟨rfl, rfl⟩
  have stopped : sbInfo (readEs revisionZero) = .error .divide := by
    rw [es]
    rfl
  have run : (superGet (eager revisionZero)).result = .error .divide :=
    (superGet_result rfl rfl rfl).trans (fillSuper_fault _ checked stopped)
  refine ⟨run, fun safe => ?_⟩
  exact absurd ((safe (eager revisionZero) rfl).1 _ run) (by decide)

theorem safe_super_two_groups : SafeSuper twoGroups := by
  refine (safe_super_iff twoGroups).mpr fun _ => ?_
  have es : readEs twoGroups = ⟨64, 16384, 1, 0, 8192, 32, 0xEF53, 128⟩ := by decide +kernel
  rw [es]
  refine ⟨by decide, by decide, by decide, fun info made few _ => ⟨by decide, fun _ => ⟨?_, ?_⟩⟩⟩
  · have known := twoGroups_geometry.made
    rw [es] at known
    cases known.symm.trans made
    decide
  · intro ino _ _ _
    have size : info.sEs.sInodeSize = 128 := by rw [(sbInfo_ok made).same]
    unfold offsetOf
    rw [size]
    simp only [wordSize, sBlocksize, bLen, sectsize]
    omega

def Balanced (events : List Event) : Prop :=
  ∀ o, events.count (.free o) = events.count (.alloc o) ∧ events.count (.alloc o) ≤ 1

/-- An attempt that fails returns a null pointer and leaves nothing behind. The faults that a
super block can lead to are not failures of a read or of an allocation. -/
def Clean (env : Env) : Prop :=
  (superGet env).result ≠ .error .null ∧
    ((superGet env).result = .ok none → Balanced (superGet env).events ∧
      .freeNull ∉ (superGet env).events)

/-- Once the super block has been accepted, either there is an array for the descriptors, all
of which can be read, and the root inode is not refused, or there is no array and no
descriptor. -/
def Undisturbed (env : Env) : Prop :=
  ∀ b info, env.sb = true → env.blksize = true → env.super = some b → Checked (readEs b) →
    sbInfo (readEs b) = .ok info →
    (given env (dbCount info) = true → (∀ i < dbCount info, (env.desc i).isSome) ∧
      (iget env (withDescs env info) ext2RootIno).result ≠ .ok none) ∧
    (given env (dbCount info) = false → dbCount info = 0)

theorem readInode_not_null (sized : Sized es info) (table : Nat → Option Buffer) (ino : Nat) :
    (readInode info table ino).result ≠ .error .null := by
  cases place : locate info ino with
  | error e =>
    rw [readInode_locate place]
    rw [locate_eq sized.desc sized.any] at place
    intro stopped
    cases stopped
    split at place
    · cases place
    · split at place
      · cases place
      · split at place
        · cases place
        · split at place <;> cases place
  | ok found =>
    cases found with
    | none =>
      rw [readInode_none place]
      exact fun stopped => by cases stopped
    | some found =>
      rw [readInode_some place]
      cases table found.1 with
      | none => exact fun stopped => by cases stopped
      | some b =>
        rw [Option.elim_some]
        unfold copyInode
        intro stopped
        split at stopped
        · cases stopped
        · simp only at stopped
          split at stopped
          · split at stopped <;> cases stopped
          · cases stopped

theorem iget_not_null (sized : Sized es info) (env : Env) (ino : Nat) :
    (iget env info ino).result ≠ .error .null := by
  rw [iget_result]
  split
  · exact readInode_not_null sized env.table ino
  · exact fun stopped => by cases stopped

theorem readInode_events {r : Option RawInode} (ok : (readInode info table ino).result = .ok r) :
    (readInode info table ino).events = [] ∨
      (readInode info table ino).events = [.alloc .table, .free .table] := by
  cases place : locate info ino with
  | error e =>
    rw [readInode_locate place] at ok
    cases ok
  | ok found =>
    cases found with
    | none =>
      rw [readInode_none place]
      exact .inl rfl
    | some found =>
      rw [readInode_some place] at ok
      unfold readInode
      rw [place, ofExcept_ok_bind]
      simp only
      cases fetched : table found.1 with
      | none => exact .inl rfl
      | some b =>
        rw [fetched, Option.elim_some] at ok
        simp only [ok]
        exact .inr rfl

theorem iget_events (failed : (iget env info ino).result = .ok none) :
    (iget env info ino).events = [] ∨ (iget env info ino).events = [.alloc .inode, .free .inode] ∨
      (iget env info ino).events = [.alloc .inode, .alloc .table, .free .table, .free .inode] := by
  rw [iget_result] at failed
  unfold iget
  by_cases got : env.inode = true
  · rw [if_pos got] at failed
    rw [if_pos got, emit_bind_events, bind_of_ok failed]
    rcases readInode_events failed with events | events
    · rw [events]
      exact .inr (.inl rfl)
    · rw [events]
      exact .inr (.inr rfl)
  · rw [if_neg got]
    exact .inl rfl

theorem readDescs_events (env : Env) (array : Bool) (left i : Nat) (o : Obj) :
    .free o ∉ (readDescs env array left i).events := by
  induction left generalizing i with
  | zero => simp [readDescs]
  | succ left ih =>
    rw [readDescs]
    cases env.desc i with
    | none =>
      simp only
      split
      · split
        · simp [fault]
        · simp
      · simp [fault]
    | some b =>
      simp only [emit_bind_events, List.mem_cons, reduceCtorEq, false_or]
      split
      · cases rest : (readDescs env array left (i + 1)).result with
        | error e =>
          rw [bind_of_error rest]
          exact ih (i + 1)
        | ok descs =>
          rw [bind_of_ok rest]
          cases descs with
          | none | some descs => simpa using ih (i + 1)
      · simp [fault]

theorem superGet_events (sb : env.sb = true) (blksize : env.blksize = true)
    (super : env.super = some b) (failed : (fillSuper env (readEs b)).result = .ok none) :
    (superGet env).events =
      .alloc .sb :: .alloc .sbh :: (fillSuper env (readEs b)).events ++ [.free .sb] := by
  unfold superGet ext2GetSuper
  rw [if_pos sb, if_pos blksize, super, emit_bind_events]
  simp only
  rw [bind_of_ok (a := none) (by rw [emit_bind_result]; exact failed), emit_bind_events]
  rfl

theorem getRoot_events (failed : (iget env info ext2RootIno).result = .ok none) :
    (getRoot env info).events = (iget env info ext2RootIno).events ++ [.free .sbh] := by
  unfold getRoot
  rw [bind_of_ok failed]
  rfl

theorem map_ok_none {α β : Type} {f : α → β} {r : Except Fault (Option α)}
    (none : r.map (Option.map f) = .ok none) : r = .ok Option.none := by
  cases r with
  | error e => cases none
  | ok a =>
    cases a with
    | none => rfl
    | some a => cases none

theorem map_not_null {α β : Type} {f : α → β} {r : Except Fault α} (other : r ≠ .error .null) :
    r.map f ≠ .error .null := by
  intro stopped
  cases r with
  | error e =>
    cases stopped
    exact other rfl
  | ok a => cases stopped

theorem not_balanced {before after : List Event}
    (kept : .free .array ∉ before ++ .alloc .array :: after) :
    ¬ Balanced (before ++ .alloc .array :: after) := by
  intro balanced
  obtain ⟨same, -⟩ := balanced .array
  rw [List.count_eq_zero_of_not_mem kept] at same
  have taken : 0 < (before ++ .alloc .array :: after).count (.alloc .array) :=
    List.count_pos_iff.mpr (by simp)
  omega

section

variable (sb : env.sb = true) (blksize : env.blksize = true) (super : env.super = some b)
  (checked : Checked (readEs b)) (made : sbInfo (readEs b) = .ok info)
include sb blksize super checked made

theorem clean_array_iff (got : given env (dbCount info) = true) :
    Clean env ↔ (∀ i < dbCount info, (env.desc i).isSome) ∧
      (iget env (withDescs env info) ext2RootIno).result ≠ .ok none := by
  have run := superGet_result sb blksize super
  have filled := fillSuper_made env checked made
  rw [if_pos got] at filled
  have result : (fillSuper env (readEs b)).result = (getDescs env info true).result := by
    rw [filled, emit_bind_result]
  have leaks : (getDescs env info true).result = .ok none →
      .free .array ∉ (getDescs env info true).events → ¬ Clean env := by
    intro failed kept clean
    rw [← result] at failed
    have events := superGet_events sb blksize super failed
    rw [filled, emit_bind_events] at events
    obtain ⟨balanced, -⟩ := clean.2 (run.trans failed)
    rw [events] at balanced
    have split : Event.alloc .sb :: .alloc .sbh :: (.alloc .array :: (getDescs env info true).events) ++
        [.free .sb] = [.alloc .sb, .alloc .sbh] ++ .alloc .array ::
          ((getDescs env info true).events ++ [.free .sb]) := by
      simp
    rw [split] at balanced
    refine not_balanced ?_ balanced
    simp [kept]
  by_cases read : DescsRead env info true
  · have all : ∀ i < dbCount info, (env.desc i).isSome := by
      rcases read with none | ⟨-, all⟩
      · exact fun i below => by omega
      · exact all
    have root : (getDescs env info true).result = (getRoot env (withDescs env info)).result := by
      rw [getDescs_read read]
    by_cases refused : (iget env (withDescs env info) ext2RootIno).result = .ok none
    · refine iff_of_false (leaks ?_ ?_) fun right => right.2 refused
      · rw [root, getRoot_result, refused]
        rfl
      · rw [getDescs_read read]
        simp only [getRoot_events refused]
        rcases iget_events refused with events | events | events <;> simp [events]
    · refine iff_of_true ⟨?_, fun failed => ?_⟩ ⟨all, refused⟩
      · rw [run, result, root, getRoot_result]
        exact map_not_null (iget_not_null (withDescs_sized (sbInfo_ok made) env) env ext2RootIno)
      · rw [run, result, root, getRoot_result] at failed
        exact absurd (map_ok_none failed) refused
  · refine iff_of_false (fun clean => ?_) fun right => read (.inr ⟨rfl, right.1⟩)
    rcases getDescs_unread read with stopped | ⟨-, ended⟩
    · exact clean.1 (run.trans (result.trans stopped))
    · refine leaks (by rw [ended]) ?_ clean
      rw [ended]
      simp [readDescs_events env true (dbCount info) 0 .array]

theorem clean_null_iff (lost : given env (dbCount info) = false) :
    Clean env ↔ dbCount info = 0 := by
  have run := superGet_result sb blksize super
  have filled := fillSuper_made env checked made
  rw [if_neg (by rw [lost]; decide)] at filled
  by_cases none : dbCount info = 0
  · refine iff_of_true ?_ none
    have read : DescsRead env info false := .inl none
    have same := getDescs_read read
    rw [none] at same
    have root : (fillSuper env (readEs b)).result = (getRoot env (withDescs env info)).result := by
      rw [filled, same]
    refine ⟨?_, fun failed => ?_⟩
    · rw [run, root, getRoot_result]
      exact map_not_null (iget_not_null (withDescs_sized (sbInfo_ok made) env) env ext2RootIno)
    · rw [run] at failed
      have events := superGet_events sb blksize super failed
      rw [root, getRoot_result] at failed
      have refused := map_ok_none failed
      rw [events, filled, same]
      simp only [getRoot_events refused]
      rcases iget_events refused with events | events | events
      · rw [events]
        exact ⟨fun o => by cases o <;> simp, by decide⟩
      · rw [events]
        exact ⟨fun o => by cases o <;> simp, by decide⟩
      · rw [events]
        exact ⟨fun o => by cases o <;> simp, by decide⟩
  · refine iff_of_false (fun clean => ?_) none
    have unread : ¬ DescsRead env info false := fun read => by
      rcases read with zero | ⟨no, -⟩
      · exact none zero
      · cases no
    rcases getDescs_unread unread with stopped | ⟨no, -⟩
    · exact clean.1 (run.trans (by rw [filled, stopped]))
    · cases no

end

/-- A failed attempt to mount leaves nothing behind exactly if it fails before the array of
the descriptors is allocated, or that fails and there are none. -/
theorem mount_clean_iff (env : Env) : Clean env ↔ Undisturbed env := by
  by_cases early : env.sb = false ∨ env.blksize = false ∨ env.super = none
  · refine iff_of_true ⟨?_, fun _ => ?_⟩ fun b info sb blksize super => ?_
    · rw [(superGet_early early).1]
      exact fun stopped => by cases stopped
    · rcases (superGet_early early).2 with events | events
      · rw [events]
        exact ⟨fun o => by simp, by decide⟩
      · rw [events]
        exact ⟨fun o => by cases o <;> simp, by decide⟩
    · rcases early with no | no | no
      · rw [sb] at no
        cases no
      · rw [blksize] at no
        cases no
      · rw [super] at no
        cases no
  · simp only [not_or, Bool.not_eq_false] at early
    obtain ⟨sb, blksize, super⟩ := early
    obtain ⟨b, super⟩ := Option.ne_none_iff_exists'.mp super
    have only : ∀ b', env.super = some b' → b' = b := fun b' super' => by
      rw [super] at super'
      cases super'
      rfl
    by_cases checked : Checked (readEs b)
    · cases made : sbInfo (readEs b) with
      | error e =>
        have run : (superGet env).result = .error e :=
          (superGet_result sb blksize super).trans (fillSuper_fault env checked made)
        refine iff_of_true ⟨?_, fun failed => ?_⟩ fun b' info _ _ super' _ made' => ?_
        · rw [run, sbInfo_error made]
          exact fun stopped => by cases stopped
        · rw [run] at failed
          cases failed
        · rw [only b' super', made] at made'
          cases made'
      | ok info =>
        have here : Undisturbed env ↔
            (given env (dbCount info) = true → (∀ i < dbCount info, (env.desc i).isSome) ∧
              (iget env (withDescs env info) ext2RootIno).result ≠ .ok none) ∧
            (given env (dbCount info) = false → dbCount info = 0) := by
          refine ⟨fun all => all b info sb blksize super checked made, ?_⟩
          intro right b' info' _ _ super' _ made'
          rw [only b' super', made] at made'
          cases made'
          exact right
        rw [here]
        cases got : given env (dbCount info) with
        | true =>
          rw [clean_array_iff sb blksize super checked made got]
          simp
        | false =>
          rw [clean_null_iff sb blksize super checked made got]
          simp
    · refine iff_of_true ⟨?_, fun _ => ?_⟩ fun b' info _ _ super' checked' => ?_
      · rw [superGet_result sb blksize super, fillSuper_refused env checked]
        exact fun stopped => by cases stopped
      · have refused := fillSuper_refused env checked
        have events := superGet_events sb blksize super (by rw [refused]; rfl)
        rw [events, refused]
        exact ⟨fun o => by cases o <;> simp [err], by decide⟩
      · rw [only b' super'] at checked'
        exact absurd checked' checked

/-- The attempt to mount `twoGroups`, in which the block of descriptors cannot be read. -/
def descLost : Env := { eager twoGroups with desc := fun _ => none }

/-- It returns a null pointer, and the array of the descriptors is never given back. -/
theorem mount_leaves_array : (superGet descLost).result = .ok none ∧
    (superGet descLost).events =
      [.alloc .sb, .alloc .sbh, .alloc .array, .free .sbh, .free .sb] ∧ ¬ Clean descLost := by
  have events : (superGet descLost).events =
      [.alloc .sb, .alloc .sbh, .alloc .array, .free .sbh, .free .sb] := by
    decide +kernel
  have value : (superGet descLost).result.toOption.map Option.isNone = some true := by decide +kernel
  obtain ⟨mounted, ok, null⟩ := Option.map_eq_some_iff.mp value
  have failed : (superGet descLost).result = .ok none := by
    rw [Loops.ok_of_toOption ok, Option.isNone_iff_eq_none.mp null]
  refine ⟨failed, events, fun clean => ?_⟩
  obtain ⟨balanced, -⟩ := clean.2 failed
  rw [events] at balanced
  exact absurd (balanced .array).1 (by decide)

theorem mount_clean_refused : Clean (eager fun _ => 0) := by
  refine (mount_clean_iff (eager fun _ => 0)).mpr fun b info _ _ super checked => ?_
  cases super
  exact absurd checked.1 (by decide +kernel)

end ScaraOS.Ext2.Super
