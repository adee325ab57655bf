import ScaraOS.Lib.Demand
import ScaraOS.Mm.Model
import ScaraOS.Paging.Invariant

/-! User accesses and the faults they take. The kernel fills a page with the
permission of the access that faulted, and a later fault on a page that is there
ends the task, so the accesses of a context run as the machine of `Demand` does. -/
namespace ScaraOS.Mm

open Function RbTree Paging

def Permits (v : Vma) (va : Nat) (write : Bool) : Prop :=
  v.vmaBegin ≤ va ∧ va < v.vmaEnd ∧ v.vmaEnd ≤ pageOffset ∧ v.vmaProt &&& protOf write ≠ 0

instance (v : Vma) (va : Nat) (write : Bool) : Decidable (Permits v va write) :=
  inferInstanceAs (Decidable (_ ∧ _))

def granted (fuel : Nat) (ctx : MemCtx) (va : Nat) (write : Bool) : Bool :=
  match lookupVma ctx.vma va fuel ctx.root with
  | none => false
  | some n => n ≠ 0 ∧ (ctx.vma n).vmaProt &&& protOf write ≠ 0

/-- Allocation and `readpage` succeed wherever they are called: the page is no directory
or table, and where a table is needed a fresh frame is there. -/
def framesGiven (pgd : Nat) (s : System) (a : Access) : Bool :=
  match a.page with
  | none => false
  | some page => page < nrFrames ∧ page ∉ s.used ∧
      a.table.all (fun f => available s f ∧ f ≠ page) ∧
      (a.table = none → s.word pgd (dir a.va) &&& present ≠ 0)

def served (fuel : Nat) (ctx : MemCtx) : System → List Access → Bool
  | _, [] => true
  | s, a :: rest =>
    ((translate s.word ctx.pgd a.va).isSome || framesGiven ctx.pgd s a) &&
      match access fuel ctx s a with
      | some (t, .returned) => served fuel ctx t rest
      | _ => true

def touchOf (fuel : Nat) (ctx : MemCtx) (a : Access) : Demand.Touch Nat :=
  ⟨a.va / 4096, a.write, granted fuel ctx a.va a.write⟩

def pages (s : System) (pgd : Nat) (k : Nat) : Option Bool :=
  (translate s.word pgd (k * 4096)).map Mapping.rw

theorem pgVal_eq (x : Nat) : pgVal x = x / 2 ^ 12 % 2 ^ 20 * 2 ^ 12 := by
  have masked : pgVal x = (x >>> 12 % 2 ^ 20) <<< 12 := Bits.and_mask x 12 20
  rw [masked, Nat.shiftRight_eq_div_pow, Nat.shiftLeft_eq]

theorem samePage_iff {a b : Nat} (lowA : a < pageOffset) (lowB : b < pageOffset) :
    SamePage a b ↔ a / 4096 = b / 4096 :=
  samePage_words (Nat.lt_trans lowA (by decide)) (Nat.lt_trans lowB (by decide))

theorem pgVal_low {va : Nat} (low : va < pageOffset) : pgVal va < pageOffset := by
  unfold pageOffset at low ⊢
  rw [pgVal_eq]
  omega

theorem pgVal_page {va : Nat} (low : va < pageOffset) : pgVal va / 4096 = va / 4096 := by
  unfold pageOffset at low
  rw [pgVal_eq]
  omega

theorem dir_pgVal {va : Nat} (low : va < pageOffset) : dir (pgVal va) = dir va :=
  ((samePage_iff (pgVal_low low) low).mpr (pgVal_page low)).1

variable {fuel n page : Nat} {s : System} {a : Access} {v : Nat → Option Bool} {ctx : MemCtx}
  {vma : Nat → Vma} {shape : Shape}

def covering (vma : Nat → Vma) (va : Nat) : Shape → Option Nat
  | .leaf => none
  | .node a l r =>
    if va < (vma a).vmaBegin then covering vma va l
    else if (vma a).vmaEnd < va then covering vma va r
    else some a

theorem covering_reaches {va : Nat}
    (found : covering vma va shape = some n) :
    n ∈ shape.inorder ∧ (vma n).vmaBegin ≤ va ∧ va ≤ (vma n).vmaEnd := by
  induction shape with
  | leaf => cases found
  | node a l r left right =>
    unfold covering at found
    split at found
    · exact ⟨by simp [Shape.inorder, left found], (left found).2⟩
    · split at found
      · exact ⟨by simp [Shape.inorder, right found], (right found).2⟩
      · cases found
        exact ⟨by simp [Shape.inorder], by omega⟩

theorem lookupVma_covering {root parent : Nat} (va : Nat)
    (rep : Rep (fun n => (vma n).rbt) root parent shape) (enough : shape.height < fuel) :
    lookupVma vma va fuel root = some ((covering vma va shape).getD 0) ∧
      covering vma va shape ≠ some 0 := by
  induction shape generalizing root parent fuel with
  | leaf =>
    cases fuel with
    | zero => omega
    | succ fuel =>
      have zero : root = 0 := rep
      simp [lookupVma, zero, covering]
  | node a l r left right =>
    obtain ⟨rfl, nonzero, -, repL, repR⟩ := rep
    unfold Shape.height at enough
    cases fuel with
    | zero => omega
    | succ fuel =>
      simp only [lookupVma, if_neg nonzero, covering]
      split
      · exact left repL (by omega)
      · split
        · exact right repR (by omega)
        · exact ⟨rfl, fun eq => nonzero (Option.some.inj eq)⟩

theorem lookupVma_total {root parent : Nat} (va : Nat)
    (rep : Rep (fun n => (vma n).rbt) root parent shape) (enough : shape.height < fuel) :
    ∃ n, lookupVma vma va fuel root = some n :=
  ⟨_, (lookupVma_covering va rep enough).1⟩

theorem protOf_write (write : Bool) : decide (protOf write &&& protWrite ≠ 0) = write := by
  cases write <;> decide

theorem mapPage_returns (prot : Nat) {pgd addr : Nat} {table : Option Nat}
    (here : pgd ∈ s.ctxs) (frame : page < nrFrames) (tables : ∀ f ∈ table, available s f = true)
    (low : addr < pageOffset) :
    ∃ m t, mapPageToCtx s.word pgd page addr prot table =
        some (m, if table = none ∧ s.word pgd (dir addr) &&& present = 0 then -1 else 0) ∧
      mapCall s pgd ⟨page, addr, prot, table⟩ = some t := by
  have guard : pgd ∈ s.ctxs ∧ table.all (available s) = true ∧ page < nrFrames := by
    refine ⟨here, ?_, frame⟩
    cases table with
    | none => rfl
    | some f => exact tables f rfl
  unfold mapCall
  rw [if_pos guard]
  unfold mapPageToCtx
  rw [if_neg (Nat.not_le_of_lt low)]
  split
  · rename_i absent
    cases table with
    | none | some f => simp [absent]
  · rename_i there
    simp [there]

structure Sees (ctx : MemCtx) (s : System) (v : Nat → Option Bool) : Prop where
  wf : ∃ slot, Wf s slot
  here : ctx.pgd ∈ s.ctxs
  view : ∀ va < pageOffset, (translate s.word ctx.pgd va).map Mapping.rw = v (va / 4096)

theorem sees_pages (wf : ∃ slot, Wf s slot) (here : ctx.pgd ∈ s.ctxs) :
    Sees ctx s (pages s ctx.pgd) := by
  refine ⟨wf, here, ?_⟩
  intro va low
  have base : va / 4096 * 4096 < pageOffset := by omega
  have page : va / 4096 * 4096 / 4096 = va / 4096 := by omega
  unfold pages
  rw [translate_same_page ((samePage_iff base low).mpr page)]

theorem sees_fill {t : System} (sees : Sees ctx s v)
    (low : a.va < pageOffset)
    (ran : mapCall s ctx.pgd ⟨page, pgVal a.va, protOf a.write, a.table⟩ = some t)
    (given : a.table = none → s.word ctx.pgd (dir a.va) &&& present ≠ 0) :
    Sees ctx t (update v (a.va / 4096) (some a.write)) := by
  obtain ⟨slot, wf⟩ := sees.wf
  refine ⟨wf_mapCall wf ran, (mapCall_cases ran).2.2.2.1 ▸ sees.here, ?_⟩
  intro va lowVa
  rw [translate_mapCall_own wf ran (by rw [dir_pgVal low]; exact given) lowVa]
  simp only [samePage_iff lowVa (pgVal_low low), pgVal_page low]
  split
  · rename_i same
    rw [same, update_self, protOf_write]
    rfl
  · rename_i other
    rw [update_of_ne other]
    exact sees.view va lowVa

theorem sees_clearFrame (sees : Sees ctx s v) (free : page ∉ s.used) :
    Sees ctx { s with word := clearFrame s.word page } v := by
  obtain ⟨slot, wf⟩ := sees.wf
  have same := clearFrame_used free
  refine ⟨⟨slot, wf_outside wf same⟩, sees.here, ?_⟩
  intro va low
  rw [translate_outside wf same sees.here low]
  exact sees.view va low

theorem sees_mapPage {u : System} (low : a.va < pageOffset)
    (got : a.page = some page) (frames : framesGiven ctx.pgd s a = true) (sees : Sees ctx u v)
    (used : u.used = s.used) (word : u.word ctx.pgd (dir a.va) = s.word ctx.pgd (dir a.va)) :
    ∃ m t, mapPageToCtx u.word ctx.pgd page (pgVal a.va) (protOf a.write) a.table = some (m, 0) ∧
      mapCall u ctx.pgd ⟨page, pgVal a.va, protOf a.write, a.table⟩ = some t ∧
      Sees ctx t (update v (a.va / 4096) (some a.write)) := by
  simp only [framesGiven, got] at frames
  obtain ⟨inside, _, fresh, given⟩ := of_decide_eq_true frames
  have free : ∀ f ∈ a.table, available u f = true := by
    intro f table
    rw [table] at fresh
    have is : available s f = true ∧ f ≠ page := of_decide_eq_true fresh
    unfold available at is ⊢
    rw [used]
    exact is.1
  rw [← word] at given
  obtain ⟨m, t, mapped, called⟩ :=
    mapPage_returns (protOf a.write) sees.here inside free (pgVal_low low)
  rw [dir_pgVal low, if_neg fun absent => given absent.1 absent.2] at mapped
  exact ⟨m, t, mapped, called, sees_fill sees low called given⟩

theorem mmPagefault_granted (sees : Sees ctx s v) (low : a.va < pageOffset)
    (frames : framesGiven ctx.pgd s a = true) (allowed : granted fuel ctx a.va a.write = true) :
    ∃ t, mmPagefault fuel ctx s a (protOf a.write) = some (t, 0) ∧
      Sees ctx t (update v (a.va / 4096) (some a.write)) := by
  unfold granted at allowed
  split at allowed
  · cases allowed
  · rename_i n found
    obtain ⟨area, permits⟩ := of_decide_eq_true allowed
    cases got : a.page with
    | none =>
      simp only [framesGiven, got] at frames
      cases frames
    | some page =>
      unfold mmPagefault
      simp only [found, Option.bind_eq_bind, Option.bind_some, if_neg area, if_neg permits, got]
      cases pageSource (ctx.vma n) a.va with
      | some _ =>
        obtain ⟨m, t, mapped, called, after⟩ := sees_mapPage low got frames sees rfl rfl
        exact ⟨t, by simp [mapped, called], after⟩
      | none =>
        -- The page is cleared before it is mapped, and is no table.
        obtain ⟨slot, wf⟩ := sees.wf
        have free : page ∉ s.used := by
          simp only [framesGiven, got] at frames
          exact (of_decide_eq_true frames).2.1
        have away : ctx.pgd ≠ page := fun is => free (is ▸ wf.dirs _ sees.here)
        obtain ⟨m, t, mapped, called, after⟩ := sees_mapPage low got frames
          (sees_clearFrame sees free) rfl (clearFrame_ne away)
        exact ⟨t, by simp [mapped, called], after⟩

theorem mmPagefault_refused (s : System)
    (found : lookupVma ctx.vma a.va fuel ctx.root = some n)
    (denied : granted fuel ctx a.va a.write = false) :
    mmPagefault fuel ctx s a (protOf a.write) = some (s, -1) := by
  unfold granted at denied
  simp only [found, decide_eq_false_iff_not, not_and, not_not] at denied
  unfold mmPagefault
  simp only [found, Option.bind_eq_bind, Option.bind_some]
  split
  · rfl
  · rename_i area
    rw [if_pos (denied area)]

theorem pageFault_absent (fuel : Nat) (ctx : MemCtx) (s : System) (a : Access) :
    pageFault fuel ctx s a (errorCode false a.write) =
      (mmPagefault fuel ctx s a (protOf a.write)).map fun r =>
        if r.2 = 0 then (r.1, .returned) else (r.1, .killed) := by
  unfold pageFault
  cases a.write <;> rfl

theorem pageFault_protection (fuel : Nat) (ctx : MemCtx) (s : System) (a : Access) :
    pageFault fuel ctx s a (errorCode true a.write) = some (s, .killed) := by
  unfold pageFault
  cases a.write <;> rfl

theorem access_touch (sees : Sees ctx s v) (low : a.va < pageOffset)
    (found : lookupVma ctx.vma a.va fuel ctx.root = some n)
    (frames : ((translate s.word ctx.pgd a.va).isSome || framesGiven ctx.pgd s a) = true) :
    match Demand.touch v (touchOf fuel ctx a) with
    | some w => ∃ t, access fuel ctx s a = some (t, .returned) ∧ Sees ctx t w
    | none => ∃ t, access fuel ctx s a = some (t, .killed) := by
  have view := sees.view a.va low
  unfold access Demand.touch touchOf
  cases there : translate s.word ctx.pgd a.va with
  | some m =>
    rw [there] at view
    simp only [← view, Option.map_some]
    by_cases fits : a.write = true → m.rw = true
    · simp only [if_pos fits]
      exact ⟨s, rfl, sees⟩
    · simp only [if_neg fits]
      exact ⟨s, pageFault_protection fuel ctx s a⟩
  | none =>
    rw [there] at view frames
    simp only [← view, Option.map_none, pageFault_absent]
    cases allowed : granted fuel ctx a.va a.write with
    | true =>
      obtain ⟨t, filled, after⟩ := mmPagefault_granted sees low frames allowed
      simp only [if_true, filled]
      exact ⟨t, rfl, after⟩
    | false =>
      simp only [Bool.false_eq_true, if_false, mmPagefault_refused s found allowed]
      exact ⟨s, rfl⟩

theorem accesses_touches {as : List Access} (sees : Sees ctx s v)
    (low : ∀ a ∈ as, a.va < pageOffset)
    (total : ∀ va, ∃ n, lookupVma ctx.vma va fuel ctx.root = some n)
    (frames : served fuel ctx s as = true) :
    ∃ o, accesses fuel ctx s as = some o ∧
      (o ≠ .killed ↔ (Run.exec Demand.touch v (as.map (touchOf fuel ctx))).isSome = true) := by
  induction as generalizing s v with
  | nil => exact ⟨.returned, rfl, by simp⟩
  | cons a rest ih =>
    unfold served at frames
    obtain ⟨first, later⟩ := Bool.and_eq_true_iff.mp frames
    obtain ⟨n, found⟩ := total a.va
    have one := access_touch sees (low a List.mem_cons_self) found first
    simp only [List.map_cons, Run.exec, accesses]
    cases done : Demand.touch v (touchOf fuel ctx a) with
    | none =>
      simp only [done] at one
      obtain ⟨t, ran⟩ := one
      exact ⟨.killed, by rw [ran]; rfl, by simp⟩
    | some w =>
      simp only [done] at one
      obtain ⟨t, ran, after⟩ := one
      rw [ran] at later ⊢
      exact ih after (fun b member => low b (List.mem_cons_of_mem a member)) later

/-- Any accesses, each inside an area that permits it. They all succeed exactly when, for
each of them, a page that was there at the start may be used that way, and one that was
not is first touched by an access that `lookup_vma` finds a permitting area for, and that
is a write if this one is. -/
theorem accesses_survive_iff (memory : Words) (initPgd : Nat) (ops : List Op) (s : System)
    (reached : Run.exec step (boot memory initPgd) ops = some s) (ctx : MemCtx)
    (here : ctx.pgd ∈ s.ctxs) (shape : Shape)
    (rep : Rep (fun n => (ctx.vma n).rbt) ctx.root 0 shape) (fuel : Nat)
    (enough : shape.height < fuel) (as : List Access)
    (permitted : ∀ a ∈ as, ∃ n ∈ shape.inorder, Permits (ctx.vma n) a.va a.write)
    (frames : served fuel ctx s as = true) :
    ∃ o, accesses fuel ctx s as = some o ∧
      (o ≠ .killed ↔ ∀ pre a post, as = pre ++ a :: post →
        Demand.Allowed (pages s ctx.pgd) (pre.map (touchOf fuel ctx)) (touchOf fuel ctx a)) := by
  have low : ∀ a ∈ as, a.va < pageOffset := by
    intro a member
    obtain ⟨n, _, _, below, top, _⟩ := permitted a member
    exact Nat.lt_of_lt_of_le below top
  obtain ⟨o, ran, iff⟩ := accesses_touches (sees_pages (run_wf reached) here) low
    (fun va => lookupVma_total va rep enough) frames
  refine ⟨o, ran, iff.trans ((Demand.exec_isSome _ _).trans ?_)⟩
  constructor
  · intro all pre a post split
    apply all (pre.map (touchOf fuel ctx)) (touchOf fuel ctx a) (post.map (touchOf fuel ctx))
    rw [split, List.map_append, List.map_cons]
  · intro all pre x post split
    obtain ⟨pre, tail, rfl, rfl, rest⟩ := List.map_eq_append_iff.mp split
    obtain ⟨a, post, rfl, rfl, _⟩ := List.map_eq_cons_iff.mp rest
    exact all pre a post rfl

def plain : MemCtx where
  vma := fun _ => ⟨⟨1, 0, 0⟩, 0x400000, 0x402000, protRead ||| protWrite, 0, 0⟩
  root := 16
  pgd := 2

theorem plain_rep : Rep (fun n => (plain.vma n).rbt) plain.root 0 (.node 16 .leaf .leaf) :=
  ⟨rfl, by decide, rfl, rfl, rfl⟩

theorem accesses_survive_iff_write_first : ∃ s o,
    Run.exec step (boot (fun _ _ => 0) 1) [.clone 1 2] = some s ∧
    accesses 2 plain s [⟨0x400000, true, some 10, some 3⟩, ⟨0x400004, false, none, none⟩] =
      some o ∧ o ≠ .killed := by
  obtain ⟨s, reached, here, frames, absent⟩ :=
    Run.decided (Run.exec step (boot (fun _ _ => 0) 1) [.clone 1 2])
      (fun s => plain.pgd ∈ s.ctxs ∧ served 2 plain s
          [⟨0x400000, true, some 10, some 3⟩, ⟨0x400004, false, none, none⟩] = true ∧
        pages s plain.pgd 0x400 = none) (by decide)
  obtain ⟨o, ran, iff⟩ := accesses_survive_iff _ 1 _ s reached plain here _ plain_rep 2 (by decide)
    _ (by decide) frames
  refine ⟨s, o, reached, ran, iff.mpr ?_⟩
  intro pre a post split
  have page : (touchOf 2 plain a).page = 0x400 := by
    have member : a ∈ pre ++ a :: post := List.mem_append_right pre List.mem_cons_self
    rw [← split] at member
    rcases List.mem_cons.mp member with rfl | second
    · rfl
    · rw [List.mem_singleton.mp second]
      rfl
  unfold Demand.Allowed
  rw [page, absent]
  refine ⟨touchOf 2 plain ⟨0x400000, true, some 10, some 3⟩, ?_, by decide, fun _ => rfl⟩
  cases pre with
  | nil | cons b pre =>
    obtain ⟨rfl, _⟩ := List.cons.inj split
    rfl

/- A read fills the page read-only; the write that follows is a protection fault. -/
theorem read_then_write_kills : ∃ s,
    Run.exec step (boot (fun _ _ => 0) 1) [.clone 1 2] = some s ∧ plain.pgd ∈ s.ctxs ∧
    (∀ a ∈ [(⟨0x400000, false, some 10, some 3⟩ : Access), ⟨0x400000, true, none, none⟩],
      Permits (plain.vma 16) a.va a.write) ∧
    served 2 plain s [⟨0x400000, false, some 10, some 3⟩, ⟨0x400000, true, none, none⟩] = true ∧
    accesses 2 plain s [⟨0x400000, false, some 10, some 3⟩, ⟨0x400000, true, none, none⟩] =
      some .killed :=
  ⟨_, rfl, by decide, by decide, by decide, by decide⟩

/- `lookup_vma` takes `vma_end` for part of the area: with a read-only area right below, the
first byte of a writable one is looked for in the lower. -/
example : lookupVma (fun n => if n = 16 then ⟨⟨1, 0, 64⟩, 0x400000, 0x401000, protRead, 0, 0⟩
    else ⟨⟨16, 0, 0⟩, 0x401000, 0x402000, protWrite, 0, 0⟩) 0x401000 3 16 = some 16 := by decide

end ScaraOS.Mm
