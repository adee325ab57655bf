import ScaraOS.Format
import ScaraOS.Slab.Kmalloc

/-! Writing to the console: `_sys_write` of `arch-ia32/syscalls.c`, with `copy_from_user` and
`printk`. The copy of the user's bytes is an object of `kmalloc`. -/
namespace ScaraOS.Console

open Function Printf

inductive Device where
  | serio
  | vga
  deriving DecidableEq, Repr

/-- What the call works on. `heap` are the object caches with the kernel's memory, `page` is
what `alloc_page` returns, `user` are the bytes the task can read, `buf` is memory from the
static buffer of `printk` on, which lies at `bufAddr`, and `stack` the words above the arguments
of `printk`. -/
structure Kernel where
  heap : Slab.State
  page : Option Nat
  user : Nat → Option UInt8
  buf : Nat → UInt8
  bufAddr : Nat
  placed : 0 < bufAddr ∧ bufAddr + 512 ≤ 2 ^ 32
  stack : Nat → Nat

def Readable (k : Kernel) (s c : Nat) : Prop := ∀ i < c, (k.user (s + i)).isSome

instance (k : Kernel) (s c : Nat) : Decidable (Readable k s c) :=
  inferInstanceAs (Decidable (∀ i < c, (k.user (s + i)).isSome))

/-- `copy_from_user`; what a copy that runs into a fault leaves at `d` is not looked at. -/
def copyFromUser (k : Kernel) (mem : Nat → UInt8) (d s c : Nat) : (Nat → UInt8) × Int :=
  if Readable k s c then
    (fun x => if d ≤ x ∧ x < d + c then (k.user (s + (x - d))).getD 0 else mem x, toInt c)
  else (mem, -1)

/-- The loop of `printkv_unlocked`. -/
def emit (buf : Nat → UInt8) (len : Int) : List (Device × UInt8) :=
  (List.range len.toNat).flatMap fun i => [(.serio, buf i), (.vga, buf i)]

def printk (k : Kernel) (mem : Nat → UInt8) (fmt : List UInt8) (va : Nat → Nat) :
    List (Device × UInt8) :=
  let (st, len) := vsnprintf mem k.buf k.bufAddr 512 fmt va
  emit st.out.buf len

def twoArgs (k : Kernel) (x y : Nat) : Nat → Nat
  | 0 => x
  | 1 => y
  | n + 2 => k.stack n

def unimplemented : List UInt8 :=
  "sys_write: fd=%i len=%lu unimplemented\n".toList.map ch

/-- `_sys_write`: what it sends to the devices, and the value it returns, unless `kmalloc` or
`kfree` stops. -/
def sysWrite (k : Kernel) (fd : Int) (buf count : Nat) :
    Slab.Result (List (Device × UInt8) × Int) :=
  if uaddrOk buf count then
    if fd = 1 then do
      let (heap, kbuf) ← Slab.kmalloc k.heap count k.page
      if kbuf = 0 then .ok ([], -1)
      else
        let (mem, sz) := copyFromUser k heap.mem kbuf buf count
        if sz < 0 then .ok ([], -1)
        else do
          let sent := printk k mem precString (twoArgs k (toWord sz) kbuf)
          let _ ← Slab.objcacheFree { Slab.handOut heap kbuf with mem := mem } kbuf
          .ok (sent, toInt count)
    else .ok (printk k k.heap.mem unimplemented (twoArgs k (toWord fd) count), -1)
  else .ok ([], -1)

/-- The `n` bytes go out in order, each to both devices, and `n` is returned. -/
def Sends (k : Kernel) (buf n : Nat) : Prop :=
  sysWrite k 1 buf n = .ok (emit (fun i => (k.user (buf + i)).getD 0) n, (n : Int))

/-- The general cache has an object for the copy, and takes it back. -/
def Serves (k : Kernel) (i buf n : Nat) : Prop :=
  ∃ t obj, Slab.objcacheAlloc k.heap (Slab.generalCache i) k.page = .ok (t, obj) ∧ obj ≠ 0 ∧
    ∃ u, Slab.objcacheFree { Slab.handOut t obj with
      mem := (copyFromUser k t.mem obj buf n).1 } obj = .ok u

/-- The same of the caches alone: the object does not start where the current slab ends, which
`kfree` takes for an address that was never handed out. -/
def Spares (k : Kernel) (i : Nat) : Prop :=
  ∃ t obj, Slab.objcacheAlloc k.heap (Slab.generalCache i) k.page = .ok (t, obj) ∧
    ∀ o, t.caches[Slab.generalCache i]? = some o → obj ≠ o.oPtrEnd

theorem emit_length (buf : Nat → UInt8) (n : Nat) : (emit buf n).length = 2 * n := by
  unfold emit
  rw [List.length_flatMap]
  simp [Nat.mul_comm]

theorem emit_succ (buf : Nat → UInt8) (n : Nat) :
    emit buf (n + 1 : Nat) = emit buf n ++ [(.serio, buf n), (.vga, buf n)] := by
  unfold emit
  rw [Int.toNat_natCast, Int.toNat_natCast, List.range_succ, List.flatMap_append,
    List.flatMap_singleton]

theorem emit_eq_iff (buf buf' : Nat → UInt8) (n : Nat) :
    emit buf n = emit buf' n ↔ ∀ i < n, buf i = buf' i := by
  induction n with
  | zero => simp [emit]
  | succ n ih =>
    have lengths : (emit buf n).length = (emit buf' n).length := by
      rw [emit_length, emit_length]
    rw [emit_succ, emit_succ]
    constructor
    · intro same i below
      obtain ⟨before, last⟩ := List.append_inj same lengths
      by_cases here : i = n
      · rw [here]
        simpa using last
      · exact ih.mp before i (by omega)
    · intro all
      rw [ih.mpr fun i below => all i (Nat.lt_succ_of_lt below), all n (Nat.lt_succ_self n)]

theorem strnlen_full_iff (s : Nat → UInt8) (n : Nat) : strnlen s n 0 = n ↔ ∀ i < n, s i ≠ 0 := by
  constructor
  · intro full i below zero
    have early : strnlen s n 0 ≤ i := strnlen_stops (Nat.zero_le i) zero
    omega
  · intro text
    exact strnlen_eq (Nat.zero_le n) (by omega) (fun j _ high => text j high) (.inl (by omega))

variable {mem : Nat → UInt8} {n buf i : Nat} {k : Kernel}

theorem printk_precString (k : Kernel) {ptr : Nat} (given : ptr ≠ 0) (small : n < 2 ^ 31) :
    let len := strnlen (fun i => mem (ptr + i)) n 0
    let stored := (puts 512 ⟨k.buf, 0⟩ ((List.range len).map fun i => mem (ptr + i))).buf
    printk k mem precString (twoArgs k n ptr) = emit (update stored (min len 511) 0) len := by
  intro len stored
  have whole : room k.bufAddr 512 = 512 := by
    obtain ⟨low, high⟩ := k.placed
    unfold room
    rw [if_neg (by omega)]
  have bound : len ≤ n := by
    have limit := strnlen_le (fun i => mem (ptr + i)) n 0
    omega
  have formatted : format 512 (twoArgs k n ptr) precString.length ⟨mem, ⟨k.buf, 0⟩, 0⟩ precString =
      ⟨mem, puts 512 ⟨k.buf, 0⟩ ((List.range len).map fun i => mem (ptr + i)), 2⟩ :=
    format_precString given small
  have signed : toInt len = len := toInt_small (by omega)
  have count : (puts 512 ⟨k.buf, 0⟩ ((List.range len).map fun i => mem (ptr + i))).str = len := by
    simp
  have last : (if len < 512 then update stored len 0
      else if 0 < 512 then update stored (512 - 1) 0 else stored) =
      update stored (min len 511) 0 := by
    by_cases fits : len < 512
    · rw [if_pos fits, Nat.min_eq_left (by omega)]
    · rw [if_neg fits, if_pos (by decide), Nat.min_eq_right (by omega)]
  unfold printk vsnprintf
  simp only [whole, formatted]
  rw [count, signed]
  exact congrArg (emit · len) last

theorem sysWrite_eq {t : Slab.State} {obj : Nat} (user : uaddrOk buf n = true)
    (readable : Readable k buf n) (page : n ≤ 4096)
    (served : Slab.kmalloc k.heap n k.page = .ok (t, obj)) (given : obj ≠ 0) :
    let mem := (copyFromUser k t.mem obj buf n).1
    (∀ i < n, mem (obj + i) = (k.user (buf + i)).getD 0) ∧
      sysWrite k 1 buf n = (Slab.objcacheFree { Slab.handOut t obj with mem := mem } obj).map fun _ =>
        (printk k mem precString (twoArgs k n obj), (n : Int)) := by
  have signed : toInt n = n := toInt_small (by omega)
  refine ⟨fun i below => ?_, ?_⟩
  · rw [copyFromUser, if_pos readable]
    simp only [if_pos (show obj ≤ obj + i ∧ obj + i < obj + n by omega), Nat.add_sub_cancel_left]
  · have copied : (copyFromUser k t.mem obj buf n).2 = n := by
      rw [copyFromUser, if_pos readable, signed]
    unfold sysWrite
    simp only [user, if_true, served, Slab.ok_bind, if_neg given, copied, signed,
      toWord_small (show n < 2 ^ 31 by omega)]
    rw [if_neg (by omega)]
    cases Slab.objcacheFree { Slab.handOut t obj with
        mem := (copyFromUser k t.mem obj buf n).1 } obj <;> rfl

theorem stored_eq_iff {old bytes : Nat → UInt8} (text : ∀ i < n, bytes i ≠ 0) :
    (∀ i < n, update (puts 512 ⟨old, 0⟩ ((List.range n).map bytes)).buf (min n 511) 0 i =
      bytes i) ↔ n < 512 := by
  have inside : ∀ i < n, i < 511 →
      update (puts 512 ⟨old, 0⟩ ((List.range n).map bytes)).buf (min n 511) 0 i = bytes i := by
    intro i below early
    have inRange : i < ((List.range n).map bytes).length := by simpa using below
    have put := puts_inside 512 ⟨old, 0⟩ ((List.range n).map bytes) inRange (by simp; omega)
    rw [update_of_ne (by omega)]
    simpa using put
  constructor
  · intro same
    by_contra long
    have cut := same 511 (by omega)
    rw [Nat.min_eq_right (by omega), update_self] at cut
    exact text 511 (by omega) cut.symm
  · intro short i below
    exact inside i below (by omega)

/-- Without an object, or one that the cache does not take back, the call does not return `n`. -/
theorem sends_serves (user : uaddrOk buf n = true) (readable : Readable k buf n) (page : n ≤ 4096)
    (cache : Slab.kmalloc k.heap n k.page =
      Slab.objcacheAlloc k.heap (Slab.generalCache i) k.page) (sends : Sends k buf n) :
    Serves k i buf n := by
  unfold Sends at sends
  cases served : Slab.objcacheAlloc k.heap (Slab.generalCache i) k.page with
  | error e =>
    simp only [sysWrite, user, if_true, cache, served, Slab.error_bind] at sends
    cases sends
  | ok r =>
    obtain ⟨t, obj⟩ := r
    rw [served] at cache
    by_cases given : obj = 0
    · simp only [sysWrite, user, if_true, cache, Slab.ok_bind, if_pos given] at sends
      have value := congrArg Prod.snd (Except.ok.inj sends)
      simp only at value
      omega
    · rw [(sysWrite_eq user readable page cache given).2] at sends
      cases freed : Slab.objcacheFree { Slab.handOut t obj with
        mem := (copyFromUser k t.mem obj buf n).1 } obj with
      | error e =>
        rw [freed] at sends
        cases sends
      | ok u => exact ⟨t, obj, served, given, u, freed⟩

theorem copied_inside (k : Kernel) {d s c y : Nat}
    (changed : (copyFromUser k mem d s c).1 y ≠ mem y) : d ≤ y ∧ y < d + c := by
  unfold copyFromUser at changed
  split at changed
  · by_contra outside
    exact changed (if_neg outside)
  · exact absurd rfl changed

theorem serves_iff (running : Slab.Running k.heap) (fit : Slab.Framed k.page)
    (low : i < Slab.nrCache) (room : n ≤ 4 <<< i) (buf : Nat) : Serves k i buf n ↔ Spares k i := by
  refine exists₂_congr fun t obj => and_congr_right fun called => ?_
  obtain ⟨given, -⟩ := Slab.general_alloc running low fit called
  rw [and_iff_right given]
  refine Slab.general_free running low fit called fun y changed => ?_
  obtain ⟨start, inside⟩ := copied_inside k changed
  omega

/-- The `n` bytes reach the console exactly if there is memory for a copy of them, they are
fewer than 512, and none of them is zero. Whether there is memory depends on the caches alone. -/
theorem write_sends_iff (k : Kernel) (buf n : Nat) (user : uaddrOk buf n = true)
    (readable : Readable k buf n) (page : n ≤ 4096) : ∃ i < Slab.nrCache,
      Slab.kmalloc k.heap n k.page = Slab.objcacheAlloc k.heap (Slab.generalCache i) k.page ∧
      (Sends k buf n ↔ Serves k i buf n ∧ n < 512 ∧ ∀ j < n, k.user (buf + j) ≠ some 0) ∧
      (Slab.Running k.heap → Slab.Framed k.page → (Serves k i buf n ↔ Spares k i)) := by
  obtain ⟨i, low, room, cache⟩ := Slab.kmalloc_cache k.heap k.page page
  refine ⟨i, low, cache, ?_, fun running fit => serves_iff running fit low room buf⟩
  by_cases serves : Serves k i buf n
  · obtain ⟨t, obj, served, given, u, freed⟩ := serves
    obtain ⟨copy, run⟩ := sysWrite_eq user readable page (cache.trans served) given
    have zeros : (∀ j < n, k.user (buf + j) ≠ some 0) ↔
        ∀ j < n, (copyFromUser k t.mem obj buf n).1 (obj + j) ≠ 0 := by
      refine forall₂_congr fun j below => ?_
      rw [copy j below]
      obtain ⟨b, eq⟩ := Option.isSome_iff_exists.mp (readable j below)
      simp [eq]
    rw [freed] at run
    generalize (copyFromUser k t.mem obj buf n).1 = mem at copy run zeros
    have bytes : emit (fun i => (k.user (buf + i)).getD 0) n = emit (fun i => mem (obj + i)) n :=
      (emit_eq_iff _ _ n).mpr fun i below => (copy i below).symm
    have whole := strnlen_full_iff (fun i => mem (obj + i)) n
    rw [and_iff_right ⟨t, obj, served, given, u, freed⟩]
    unfold Sends
    rw [run, Except.map, printk_precString k given (by omega), bytes, zeros, Except.ok.injEq,
      Prod.mk.injEq]
    constructor
    · rintro ⟨same, -⟩
      have lengths := congrArg List.length same
      rw [emit_length, emit_length] at lengths
      have full : strnlen (fun i => mem (obj + i)) n 0 = n := by omega
      rw [full] at same
      exact ⟨(stored_eq_iff (whole.mp full)).mp ((emit_eq_iff _ _ n).mp same), whole.mp full⟩
    · rintro ⟨short, text⟩
      rw [whole.mpr text]
      exact ⟨(emit_eq_iff _ _ n).mpr ((stored_eq_iff text).mpr short), rfl⟩
  · exact iff_of_false (fun sends => serves (sends_serves user readable page cache sends))
      fun right => serves right.1

/-- The general caches have been made, with page frame 1 for their descriptors, and frame 2 is
free. -/
def sample : Kernel where
  heap := (Run.exec Slab.step Slab.boot (Slab.kmallocInit fun _ => some 1)).getD Slab.boot
  page := some 2
  user := fun a => if a = 2 then some 0 else some 97
  buf := fun _ => 0
  bufAddr := pageOffset
  placed := by decide
  stack := fun _ => 0

theorem sample_readable (a n : Nat) : Readable sample a n := by
  intro i _
  simp only [sample]
  split <;> rfl

/-- A zero among the bytes ends the output. -/
theorem write_stops_at_zero : uaddrOk 0 4 = true ∧ Readable sample 0 4 ∧
    sysWrite sample 1 0 4 = .ok ([(.serio, 97), (.vga, 97), (.serio, 97), (.vga, 97)], 4) ∧
    ¬ Sends sample 0 4 := by
  have run : sysWrite sample 1 0 4 = .ok ([(.serio, 97), (.vga, 97), (.serio, 97), (.vga, 97)], 4) :=
    by decide +kernel
  refine ⟨by decide, sample_readable 0 4, run, fun sends => ?_⟩
  have lengths := congrArg List.length (Prod.mk.inj (Except.ok.inj (run.symm.trans sends))).1
  rw [emit_length] at lengths
  exact absurd lengths (by decide)

theorem sample_running : Slab.Running sample.heap := by
  have made : (Run.exec Slab.step Slab.boot (Slab.kmallocInit fun _ => some 1)).isSome := by
    decide +kernel
  obtain ⟨s, ran⟩ := Option.isSome_iff_exists.mp made
  have heap : sample.heap = s := congrArg (·.getD Slab.boot) ran
  exact ⟨_, _, fun _ => some 1, [], Slab.pages_of_checked (by decide), heap ▸ ran⟩

theorem write_sends_iff_two : Sends sample 0 2 ∧ (∃ i < Slab.nrCache, Spares sample i) ∧
    ¬ Sends sample 0 4 ∧ ¬ Sends sample 3 512 := by
  have sends_iff := write_sends_iff sample
  obtain ⟨i, low, served, two, spares⟩ := sends_iff 0 2 (by decide) (sample_readable 0 2) (by decide)
  obtain ⟨j, -, -, four, -⟩ := sends_iff 0 4 (by decide) (sample_readable 0 4) (by decide)
  obtain ⟨l, -, -, many, -⟩ := sends_iff 3 512 (by decide) (sample_readable 3 512) (by decide)
  have run : Sends sample 0 2 := by
    unfold Sends
    decide +kernel
  have serves := sends_serves (by decide) (sample_readable 0 2) (by decide) served run
  have fit : Slab.Framed sample.page := fun p is => Option.some.inj is ▸ by decide
  refine ⟨two.mpr ⟨serves, by decide, by decide⟩, ⟨i, low, (spares sample_running fit).mp serves⟩,
    fun sends => ?_, fun sends => ?_⟩
  · exact (four.mp sends).2.2 2 (by decide) rfl
  · exact absurd (many.mp sends).2.1 (by decide)

/-- `printkv_unlocked` reads the 512 bytes of its buffer only, and sends the characters that
`vsnprintf` stored before the null, which it put in the place after the last character or in
the last place of the buffer; nothing was stored elsewhere. -/
def Emits (k : Kernel) (mem : Nat → UInt8) (fmt : List UInt8) (va : Nat → Nat) : Prop :=
  let stored := vsnprintf mem k.buf k.bufAddr 512 fmt va
  ¬ Strays k.bufAddr 512 stored.1.out.str ∧ stored.1.out.buf (min stored.1.out.str 511) = 0 ∧
    (∀ i : Nat, (i : Int) < stored.2 → i < 512) ∧
    printk k mem fmt va = emit stored.1.out.buf (min stored.1.out.str 511 : Nat)

theorem printk_eq (k : Kernel) (mem : Nat → UInt8) (fmt : List UInt8) (va : Nat → Nat) :
    printk k mem fmt va = emit (vsnprintf mem k.buf k.bufAddr 512 fmt va).1.out.buf
      (vsnprintf mem k.buf k.bufAddr 512 fmt va).2 := by
  unfold printk
  generalize vsnprintf mem k.buf k.bufAddr 512 fmt va = stored
  rfl

theorem room_bufAddr (k : Kernel) : room k.bufAddr 512 = 512 := by
  obtain ⟨low, high⟩ := k.placed
  rw [room_eq (by decide) high (by decide), if_neg (by omega)]

theorem emit_toNat (buf : Nat → UInt8) (len : Int) : emit buf len = emit buf (len.toNat : Nat) := by
  unfold emit
  rw [Int.toNat_natCast]

/-- It does so exactly if the text has fewer than 512 characters. -/
theorem printk_emits_iff (k : Kernel) (mem : Nat → UInt8) (fmt : List UInt8) (va : Nat → Nat) :
    Emits k mem fmt va ↔ (text mem fmt va).length < 512 := by
  obtain ⟨low, high⟩ := k.placed
  have whole := room_bufAddr k
  have strays : ∀ len, Strays k.bufAddr 512 len ↔ 2 ^ 32 ≤ k.bufAddr + len := by
    intro len
    rw [strays_iff (by decide) high (by decide)]
    omega
  obtain ⟨run, start⟩ := format_shows 512 mem k.buf fmt va
  have below := putPieces_below_iff va (pieces va fmt.length 0 fmt) start
  rw [← run] at below
  have count : (vsnprintf mem k.buf k.bufAddr 512 fmt va).1.out.str =
      (format 512 va fmt.length ⟨mem, ⟨k.buf, 0⟩, 0⟩ fmt).out.str := by
    rw [vsnprintf_str, whole]
  have nul : (vsnprintf mem k.buf k.bufAddr 512 fmt va).1.out.buf
      (min (vsnprintf mem k.buf k.bufAddr 512 fmt va).1.out.str 511) = 0 := by
    rw [vsnprintf_eq, whole]
    exact terminate_nul (by decide) _
  rw [← count] at below
  have value := vsnprintf_len mem k.buf k.bufAddr 512 fmt va
  unfold text
  rw [← below]
  unfold Emits
  rw [printk_eq]
  generalize vsnprintf mem k.buf k.bufAddr 512 fmt va = stored at *
  obtain ⟨st, len⟩ := stored
  simp only at value nul ⊢
  subst value
  rw [strays]
  constructor
  · rintro ⟨inside, -, -, sent⟩
    by_contra long
    have lengths := congrArg List.length sent
    rw [emit_toNat, emit_length, emit_length] at lengths
    have signed : toInt st.out.str = st.out.str ∨ toInt st.out.str < 0 := by
      by_cases small : st.out.str < 2 ^ 31
      · exact .inl (toInt_small small)
      · refine .inr ?_
        unfold toInt words
        rw [if_neg (by omega)]
        omega
    omega
  · intro short
    have signed : toInt st.out.str = st.out.str := toInt_small (by omega)
    rw [signed, Nat.min_eq_left (by omega)] at *
    exact ⟨by omega, nul, fun i bound => by omega, rfl⟩

def wideNumber : List UInt8 := [ch '%', ch '5', ch '1', ch '2', ch 'u']

/-- Of 512 characters the last is not stored, and the null in its place is sent. -/
theorem printk_sends_null : (text sample.heap.mem wideNumber sample.stack).length = 512 ∧
    (printk sample sample.heap.mem wideNumber sample.stack).length = 2 * 512 ∧
    ¬ Emits sample sample.heap.mem wideNumber sample.stack := by
  have value : (vsnprintf sample.heap.mem sample.buf sample.bufAddr 512 wideNumber
      sample.stack).2 = 512 := by
    decide +kernel
  have count : (vsnprintf sample.heap.mem sample.buf sample.bufAddr 512 wideNumber
      sample.stack).1.out.str = 512 := by
    decide +kernel
  have sent : (printk sample sample.heap.mem wideNumber sample.stack).length = 2 * 512 := by
    rw [printk_eq, value]
    exact emit_length _ 512
  refine ⟨by decide +kernel, sent, fun emits => ?_⟩
  obtain ⟨-, -, -, same⟩ := emits
  rw [same, count, emit_length] at sent
  exact absurd sent (by decide)

theorem printk_emits_iff_letters : Emits sample sample.heap.mem [ch 'a', ch 'b'] sample.stack :=
  (printk_emits_iff sample sample.heap.mem [ch 'a', ch 'b'] sample.stack).mpr (by decide +kernel)

end ScaraOS.Console
