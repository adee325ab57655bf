import Mathlib.Data.Fintype.Defs
import Mathlib.Logic.Function.Iterate
import ScaraOS.Inode.Model

/-! What keeps the slack list right: an inode that is on its way to the list, with its
count at zero, must not be found by `iget` before it is there. -/

namespace ScaraOS.Inode

open Function (update update_eq_self update_of_ne update_self)

variable {T : Type} [DecidableEq T]

/-- The inode an `inode_free` that has not reached the list yet is for. -/
def Pc.pending : Pc → Option Nat
  | .freeTest i => some i
  | .freeP i => some i
  | .freeAdd i => some i
  | _ => none

def Pc.kills : Pc → Option Nat
  | .killP i _ => some i
  | .killErase i _ => some i
  | .killV i _ => some i
  | .killFree i _ => some i
  | _ => none

def Pending (s : State T) (i : Nat) : Prop := ∃ t, (s.pc t).pending = some i

def OnSlack (s : State T) (i : Nat) : Prop := ∃ n, s.links.next^[n] none = some i

structure Safe (s : State T) : Prop where
  offList : ∀ i, 0 < s.count i → ¬ Pending s i → ¬ OnSlack s i
  addedOnce : ∀ t i, s.pc t = .freeAdd i → ¬ OnSlack s i
  killedIdle : ∀ t i, (s.pc t).kills = some i → s.count i = 0

variable {s : State T} {slack : List Nat} {pc : Pc} {sSem : Nat → Option T} {sb ino : Nat}
  {tmp new : Option Nat}

omit [DecidableEq T] in
theorem onSlack_mem {i : Nat} (ring : Links.Ring s.links none (slack.map some)) (on : OnSlack s i) :
    i ∈ slack := by
  obtain ⟨n, walk⟩ := on
  have inside : ∀ n, s.links.next^[n] none ∈ none :: slack.map some := by
    intro n
    induction n with
    | zero => exact List.mem_cons_self
    | succ n ih =>
      rw [Function.iterate_succ_apply']
      rcases List.mem_cons.mp ih with head | member
      · rw [head]
        exact Links.ring_next_mem ring
      · exact (Links.ring_neighbours ring member).2
  have member := inside n
  rw [walk] at member
  simpa using member

structure Hidden (s : State T) (slack : List Nat) (i : Nat) : Prop where
  live : s.live i = true
  zero : s.count i = 0
  off : i ∉ slack
  quiet : ∀ t, (s.pc t).pending ≠ some i
  uncached : ∀ k, s.cache k ≠ some i

structure Waiting (s : State T) (slack : List Nat) (t : T) (i : Nat) : Prop where
  live : s.live i = true
  zero : s.count i = 0
  off : i ∉ slack
  alone : ∀ u, (s.pc u).pending = some i → u = t

def At (s : State T) (slack : List Nat) (t : T) : Pc → Prop
  | .idle => True
  | .igetP _ _ => True
  | .igetP2 _ _ => s.slacksem = some t
  | .igetLook _ _ => s.slacksem = some t
  | .igetRead sb ino i => s.slacksem = some t ∧ Hidden s slack i ∧ s.key i = (sb, ino)
  | .igetV _ => s.slacksem = some t
  | .igetV2 _ => True
  | .freeTest i => Waiting s slack t i
  | .freeP i => Waiting s slack t i
  | .freeAdd i => s.slacksem = some t ∧ Waiting s slack t i
  | .freeV => s.slacksem = some t
  | .squeezeP => True
  | .squeezeLoop pos tmp =>
    s.slacksem = some t ∧ pos = s.links.next none ∧ tmp = s.links.next pos
  | .killP i tmp =>
    s.slacksem = some t ∧ some i = s.links.next none ∧ tmp = s.links.next (some i)
  | .killErase i tmp =>
    s.slacksem = some t ∧ some i = s.links.next none ∧ tmp = s.links.next (some i)
  | .killV i tmp => s.slacksem = some t ∧ Hidden s slack i ∧ tmp = s.links.next none
  | .killFree i tmp => s.slacksem = some t ∧ Hidden s slack i ∧ tmp = s.links.next none
  | .squeezeV => s.slacksem = some t

structure Inv (s : State T) (slack : List Nat) : Prop where
  ring : Links.Ring s.links none (slack.map some)
  unlinked : ∀ i, s.live i = true → i ∉ slack →
    s.links.next (some i) = some i ∧ s.links.prev (some i) = some i
  slackIdle : ∀ i ∈ slack, s.live i = true ∧ s.count i = 0
  counted : ∀ i, s.count i = s.refs i
  referenced : ∀ i, s.live i = false → s.refs i = 0
  cached : ∀ k i, s.cache k = some i → s.live i = true ∧ s.key i = k
  tasks : ∀ t, At s slack t (s.pc t)

omit [DecidableEq T] in
theorem init_inv : Inv (init : State T) [] := by
  constructor
  case ring => simp [Links.Ring, Links.Seg, init]
  case unlinked => simp [init]
  case slackIdle => simp
  case counted => simp [init]
  case referenced => simp [init]
  case cached => simp [init]
  case tasks => simp [init, At]

omit [DecidableEq T] in
theorem Inv.safe (inv : Inv s slack) : Safe s := by
  constructor
  case offList =>
    intro i positive _ on
    have zero := (inv.slackIdle i (onSlack_mem inv.ring on)).2
    exact absurd zero (Nat.pos_iff_ne_zero.mp positive)
  case addedOnce =>
    intro t i here on
    have at_ := inv.tasks t
    rw [here] at at_
    exact at_.2.off (onSlack_mem inv.ring on)
  case killedIdle =>
    intro t i kills
    have at_ := inv.tasks t
    have first : some i = s.links.next none → s.count i = 0 := by
      intro first
      have member := Links.ring_next_mem inv.ring
      rw [← first] at member
      exact (inv.slackIdle i (by simpa using member)).2
    cases here : s.pc t <;> simp only [here, Pc.kills, Option.some.injEq, reduceCtorEq] at kills
    all_goals
      subst kills
      rw [here] at at_
    · exact first at_.2.1
    · exact first at_.2.1
    · exact at_.2.1.zero
    · exact at_.2.1.zero

section Steps

variable {s s' : State T} {slack slack' : List Nat} {t u : T} {i : Nat}

omit [DecidableEq T] in
theorem At.other (at_ : At s slack u pc)
    (lock : s.slacksem = some u → s'.slacksem = some u ∧ s'.links = s.links ∧ s'.key = s.key)
    (hidden : ∀ i, s.slacksem = some u → Hidden s slack i → Hidden s' slack' i)
    (waiting : ∀ i, pc.pending = some i → Waiting s slack u i → Waiting s' slack' u i) :
    At s' slack' u pc := by
  cases pc with
  | idle | igetP sb ino => trivial
  | igetP2 sb ino | igetLook sb ino => exact (lock at_).1
  | igetRead sb ino i =>
    obtain ⟨locked, -, keys⟩ := lock at_.1
    exact ⟨locked, hidden i at_.1 at_.2.1, by rw [keys]; exact at_.2.2⟩
  | igetV sb => exact (lock at_).1
  | igetV2 sb => trivial
  | freeTest i | freeP i => exact waiting i rfl at_
  | freeAdd i => exact ⟨(lock at_.1).1, waiting i rfl at_.2⟩
  | freeV => exact (lock at_).1
  | squeezeP => trivial
  | squeezeLoop pos tmp | killP i tmp | killErase i tmp =>
    obtain ⟨locked, same, -⟩ := lock at_.1
    exact ⟨locked, by rw [same]; exact at_.2⟩
  | killV i tmp | killFree i tmp =>
    obtain ⟨locked, same, -⟩ := lock at_.1
    exact ⟨locked, hidden i at_.1 at_.2.1, by rw [same]; exact at_.2.2⟩
  | squeezeV => exact (lock at_).1

omit [DecidableEq T] in
theorem Inv.waiting (inv : Inv s slack) (pends : (s.pc t).pending = some i) :
    Waiting s slack t i := by
  have at_ := inv.tasks t
  cases here : s.pc t <;> simp only [here, Pc.pending, Option.some.injEq, reduceCtorEq] at pends
  all_goals
    subst pends
    rw [here] at at_
  · exact at_
  · exact at_
  · exact at_.2

def moved (s : State T) (t : T) (pc : Pc) (sem : Option T) (sSem : Nat → Option T) : State T :=
  { s.goto t pc with slacksem := sem, sSem := sSem }

theorem Inv.move (inv : Inv s slack) {sem : Option T}
    (lock : ∀ u, u ≠ t → s.slacksem = some u → sem = some u)
    (queue : pc.pending = none ∨ pc.pending = (s.pc t).pending)
    (here : (∀ i, Waiting s slack t i → Waiting (moved s t pc sem sSem) slack t i) →
      (∀ i, Hidden s slack i → Hidden (moved s t pc sem sSem) slack i) →
      At (moved s t pc sem sSem) slack t pc) : Inv (moved s t pc sem sSem) slack := by
  have pends : ∀ u i, (update s.pc t pc u).pending = some i →
      (s.pc u).pending = some i := by
    intro u i pending
    by_cases same : u = t
    · subst same
      rw [update_self] at pending
      rcases queue with none | kept
      · simp [none] at pending
      · rw [← kept]
        exact pending
    · rwa [update_of_ne same] at pending
  have waits : ∀ u i, Waiting s slack u i → Waiting (moved s t pc sem sSem) slack u i :=
    fun u i w => ⟨w.live, w.zero, w.off, fun v pending => w.alone v (pends v i pending)⟩
  have hides : ∀ i, Hidden s slack i → Hidden (moved s t pc sem sSem) slack i := fun i h =>
    ⟨h.live, h.zero, h.off, fun v pending => h.quiet v (pends v i pending), h.uncached⟩
  refine ⟨inv.ring, inv.unlinked, inv.slackIdle, inv.counted, inv.referenced, inv.cached, ?_⟩
  intro u
  by_cases same : u = t
  · subst same
    simp only [moved, State.goto, update_self]
    exact here (waits u) hides
  · simp only [moved, State.goto, update_of_ne same]
    exact (inv.tasks u).other (fun held => ⟨lock u same held, rfl, rfl⟩)
      (fun i _ => hides i) (fun i _ => waits u i)

theorem Inv.locked_tasks (inv : Inv s slack) (held : s.slacksem = some t)
    (pcs : s'.pc = update s.pc t pc) (here : At s' slack' t pc)
    (waiting : ∀ u i, u ≠ t → (s.pc u).pending = some i → Waiting s slack u i →
      Waiting s' slack' u i) : ∀ u, At s' slack' u (s'.pc u) := by
  intro u
  by_cases same : u = t
  · rw [pcs, same, update_self]
    exact here
  · rw [pcs, update_of_ne same]
    have other : s.slacksem ≠ some u := fun eq => same (Option.some.inj (eq.symm.trans held))
    exact (inv.tasks u).other (fun eq => absurd eq other) (fun _ eq => absurd eq other)
      (fun i pends => waiting u i same pends)

theorem waiting_frame {j : Nat} (w : Waiting s slack u j) (pcs : s'.pc = update s.pc t pc)
    (queue : pc.pending ≠ some j) (live : s'.live j = s.live j) (count : s'.count j = s.count j)
    (off : j ∉ slack') : Waiting s' slack' u j := by
  refine ⟨live.trans w.live, count.trans w.zero, off, ?_⟩
  intro v pending
  rw [pcs] at pending
  by_cases same : v = t
  · rw [same, update_self] at pending
    exact absurd pending queue
  · rw [update_of_ne same] at pending
    exact w.alone v pending

omit [DecidableEq T] in
theorem addRef_inv (inv : Inv s slack) (positive : 0 < s.refs i) (room : s.count i < 2 ^ 32 - 1) :
    Inv (addRef s i) slack := by
  have count := inv.counted i
  have more : (s.count i + 1) % 2 ^ 32 = s.count i + 1 := Nat.mod_eq_of_lt (by omega)
  have apart : ∀ j, s.count j = 0 → j ≠ i := by
    rintro j zero rfl
    omega
  have same : ∀ j, s.count j = 0 → (addRef s i).count j = 0 := fun j zero => by
    simpa [addRef, apart j zero] using zero
  refine ⟨inv.ring, inv.unlinked, ?_, ?_, ?_, inv.cached, ?_⟩
  · intro j member
    obtain ⟨live, zero⟩ := inv.slackIdle j member
    exact ⟨live, same j zero⟩
  · intro j
    by_cases eq : j = i
    · subst eq
      simp only [addRef, update_self]
      rw [more, count]
    · simpa [addRef, eq] using inv.counted j
  · intro j dead
    have none := inv.referenced j dead
    simpa [addRef, apart j ((inv.counted j).trans none)] using none
  · intro u
    exact (inv.tasks u).other (fun held => ⟨held, rfl, rfl⟩)
      (fun j _ h => ⟨h.live, same j h.zero, h.off, h.quiet, h.uncached⟩)
      (fun j _ w => ⟨w.live, same j w.zero, w.off, w.alone⟩)

theorem iput_inv (inv : Inv s slack) (idle : s.pc t = .idle) (positive : 0 < s.refs i)
    (stepped : iput s t i = some s') : Inv s' slack := by
  have count := inv.counted i
  have nonzero : s.count i ≠ 0 := by omega
  have apart : ∀ j, s.count j = 0 → j ≠ i := by
    rintro j zero rfl
    exact nonzero zero
  -- all that matters of the new state, whether or not this was the last reference
  obtain ⟨pc, pcs, here, queue, links, live, cache, key, slacksem, counts, refs⟩ : ∃ pc,
      s'.pc = update s.pc t pc ∧
      (pc = .idle ∨ pc = .freeTest i ∧ s.count i - 1 = 0) ∧
      (∀ j, pc.pending = some j → j = i) ∧ s'.links = s.links ∧ s'.live = s.live ∧
      s'.cache = s.cache ∧ s'.key = s.key ∧ s'.slacksem = s.slacksem ∧
      s'.count = update s.count i (s.count i - 1) ∧
      s'.refs = update s.refs i (s.refs i - 1) := by
    simp only [iput, if_neg nonzero, update_self, Option.some.injEq] at stepped
    by_cases last : s.count i - 1 = 0
    · rw [if_pos last] at stepped
      subst stepped
      exact ⟨.freeTest i, rfl, .inr ⟨rfl, last⟩, by simp [Pc.pending, eq_comm], rfl, rfl, rfl, rfl,
        rfl, rfl, rfl⟩
    · rw [if_neg last] at stepped
      subst stepped
      refine ⟨.idle, ?_, .inl rfl, by simp [Pc.pending], rfl, rfl, rfl, rfl, rfl, rfl, rfl⟩
      rw [← idle, update_eq_self]
  have same : ∀ j, s.count j = 0 → s'.count j = s.count j := fun j zero => by
    rw [counts, update_of_ne (apart j zero)]
  refine ⟨by rw [links]; exact inv.ring, by rw [links, live]; exact inv.unlinked, ?_, ?_, ?_,
    by rw [cache, live, key]; exact inv.cached, ?_⟩
  · intro j member
    obtain ⟨alive, zero⟩ := inv.slackIdle j member
    exact ⟨by rw [live]; exact alive, (same j zero).trans zero⟩
  · intro j
    rw [counts, refs]
    by_cases eq : j = i
    · rw [eq, update_self, update_self, count]
    · rw [update_of_ne eq, update_of_ne eq]
      exact inv.counted j
  · intro j dead
    rw [live] at dead
    have none := inv.referenced j dead
    rw [refs, update_of_ne (apart j ((inv.counted j).trans none))]
    exact none
  · intro u
    by_cases mine : u = t
    · subst mine
      rw [pcs, update_self]
      rcases here with rfl | ⟨rfl, last⟩
      · trivial
      · refine ⟨?_, ?_, ?_, ?_⟩
        · rw [live, ← Bool.not_eq_false]
          intro dead
          exact absurd (inv.referenced i dead) (Nat.pos_iff_ne_zero.mp positive)
        · rw [counts, update_self]
          exact last
        · exact fun member => nonzero (inv.slackIdle i member).2
        · intro v pending
          by_contra other
          rw [pcs, update_of_ne other] at pending
          exact nonzero (inv.waiting pending).zero
    · rw [pcs, update_of_ne mine]
      apply (inv.tasks u).other
      · exact fun held => ⟨by rw [slacksem]; exact held, links, key⟩
      · intro j _ h
        refine ⟨by rw [live]; exact h.live, (same j h.zero).trans h.zero, h.off, ?_, ?_⟩
        · intro v pending
          by_cases acting : v = t
          · rw [pcs, acting, update_self] at pending
            exact apart j h.zero (queue j pending)
          · rw [pcs, update_of_ne acting] at pending
            exact h.quiet v pending
        · rw [cache]
          exact h.uncached
      · intro j _ w
        exact waiting_frame w pcs (fun pending => apart j w.zero (queue j pending)) (by rw [live])
          (same j w.zero) w.off

section

variable (inv : Inv s slack) (held : s.slacksem = some t)
include inv held

theorem hit_inv (found : ∃ k, s.cache k = some i) (unraced : ¬ Pending s i)
    (room : s.count i < 2 ^ 32 - 1) :
    Inv { (addRef s i).goto t (.igetV sb) with links := s.links.listDel (some i) }
      (slack.erase i) := by
  obtain ⟨k, found⟩ := found
  have live := (inv.cached k i found).1
  have nodup : slack.Nodup := (List.nodup_cons.mp inv.ring.2).2.of_map _
  have count := inv.counted i
  have more : (s.count i + 1) % 2 ^ 32 = s.count i + 1 := Nat.mod_eq_of_lt (by omega)
  have onList : Links.Ring (s.links.listDel (some i)) none ((slack.erase i).map some) ∧
      (∀ j, j ≠ i → j ∉ slack → (s.links.listDel (some i)).next (some j) = s.links.next (some j) ∧
        (s.links.listDel (some i)).prev (some j) = s.links.prev (some j)) := by
    by_cases member : i ∈ slack
    · have member' : some i ∈ slack.map some := by simpa using member
      refine ⟨?_, fun j apart out => Links.listDel_frame inv.ring member' (by simpa using out)⟩
      obtain ⟨l, r, eq⟩ := List.mem_iff_append.mp member
      have ring := inv.ring
      have absent : i ∉ l := by
        rw [eq] at nodup
        exact fun inL => (List.nodup_append'.mp nodup).2.2 inL List.mem_cons_self
      rw [eq, List.map_append, List.map_cons] at ring
      rw [eq, List.erase_append_right _ absent, List.erase_cons_head, List.map_append]
      exact Links.ring_listDel ring
    · obtain ⟨next, prev⟩ := inv.unlinked i live member
      rw [Links.listDel_self next prev, List.erase_of_not_mem member]
      exact ⟨inv.ring, fun _ _ _ => ⟨rfl, rfl⟩⟩
  have erased : ∀ j, j ∈ slack.erase i ↔ j ≠ i ∧ j ∈ slack := fun j => nodup.mem_erase_iff
  refine ⟨onList.1, ?_, ?_, ?_, ?_, inv.cached, ?_⟩
  · intro j alive out
    by_cases eq : j = i
    · rw [eq]
      exact Links.listDel_unlinked s.links (some i)
    · have off : j ∉ slack := fun member => out ((erased j).mpr ⟨eq, member⟩)
      obtain ⟨next, prev⟩ := onList.2 j eq off
      obtain ⟨selfNext, selfPrev⟩ := inv.unlinked j alive off
      exact ⟨next.trans selfNext, prev.trans selfPrev⟩
  · intro j member
    obtain ⟨apart, old⟩ := (erased j).mp member
    obtain ⟨alive, zero⟩ := inv.slackIdle j old
    exact ⟨alive, by simpa [addRef, State.goto, apart] using zero⟩
  · intro j
    by_cases eq : j = i
    · subst eq
      simp only [addRef, State.goto, update_self]
      rw [more, count]
    · simpa [addRef, State.goto, eq] using inv.counted j
  · intro j dead
    have apart : j ≠ i := by
      rintro rfl
      exact Bool.false_ne_true (dead.symm.trans live)
    simpa [addRef, State.goto, apart] using inv.referenced j dead
  · apply inv.locked_tasks held rfl
    · exact held
    · intro u j _ pends w
      have apart : j ≠ i := by
        rintro rfl
        exact unraced ⟨u, pends⟩
      exact waiting_frame w rfl (by simp [Pc.pending]) rfl
        (by simp [addRef, State.goto, apart]) (fun member => w.off ((erased j).mp member).2)

theorem miss_inv (fresh : s.live i = false) :
    Inv { s.goto t (.igetRead sb ino i) with
      live := update s.live i true
      count := update s.count i 0
      key := update s.key i (sb, ino)
      links := s.links.initListHead (some i) } slack := by
  have apart : ∀ j, s.live j = true → j ≠ i := by
    rintro j alive rfl
    exact Bool.false_ne_true (fresh.symm.trans alive)
  have off : i ∉ slack := fun member => apart i (inv.slackIdle i member).1 rfl
  have outside : ∀ a ∈ none :: slack.map some, a ≠ some i := by
    rintro a member rfl
    exact off (by simpa using member)
  have none := inv.referenced i fresh
  refine ⟨?_, ?_, ?_, ?_, ?_, ?_, ?_⟩
  · apply Links.ring_congr _ _ inv.ring
    · exact fun a member => Links.initListHead_next _ _ a (outside a member)
    · exact fun a member => Links.initListHead_prev _ _ a (outside a member)
  · intro j alive out
    by_cases eq : j = i
    · rw [eq]
      exact (Links.initListHead_ring s.links (some i)).1
    · have alive' : s.live j = true := by simpa [eq] using alive
      have apart' : some j ≠ some i := fun same => eq (Option.some.inj same)
      obtain ⟨next, prev⟩ := inv.unlinked j alive' out
      exact ⟨(Links.initListHead_next _ _ _ apart').trans next,
        (Links.initListHead_prev _ _ _ apart').trans prev⟩
  · intro j member
    obtain ⟨alive, zero⟩ := inv.slackIdle j member
    have other := apart j alive
    exact ⟨by simpa [other] using alive, by simpa [other] using zero⟩
  · intro j
    by_cases eq : j = i
    · simp [eq, State.goto, none]
    · simpa [eq, State.goto] using inv.counted j
  · intro j dead
    by_cases eq : j = i
    · simp [eq] at dead
    · exact inv.referenced j (by simpa [eq] using dead)
  · intro k j found
    obtain ⟨alive, key⟩ := inv.cached k j found
    have other := apart j alive
    exact ⟨by simpa [other] using alive, by simpa [other] using key⟩
  · apply inv.locked_tasks held rfl
    · refine ⟨held, ⟨by simp, by simp, off, ?_, ?_⟩, by simp⟩
      · intro u pends
        by_cases same : u = t
        · simp [same, State.goto, Pc.pending] at pends
        · simp only [State.goto, update_of_ne same] at pends
          exact apart i (inv.waiting pends).live rfl
      · exact fun k found => apart i (inv.cached k i found).1 rfl
    · intro u j _ _ w
      have other := apart j w.live
      exact waiting_frame w rfl (by simp [Pc.pending]) (by simp [other]) (by simp [other]) w.off

theorem freed_inv (hidden : Hidden s slack i) (queue : pc.pending = none)
    (here : At { s.goto t pc with live := update s.live i false } slack t pc) :
    Inv { s.goto t pc with live := update s.live i false } slack := by
  refine ⟨inv.ring, ?_, ?_, inv.counted, ?_, ?_, ?_⟩
  · intro j alive out
    by_cases eq : j = i
    · simp [eq] at alive
    · exact inv.unlinked j (by simpa [eq] using alive) out
  · intro j member
    have apart : j ≠ i := by
      rintro rfl
      exact hidden.off member
    simpa [apart, State.goto] using inv.slackIdle j member
  · intro j dead
    by_cases eq : j = i
    · rw [eq]
      exact (inv.counted i).symm.trans hidden.zero
    · exact inv.referenced j (by simpa [eq] using dead)
  · intro k j found
    have apart : j ≠ i := by
      rintro rfl
      exact hidden.uncached k found
    simpa [apart, State.goto] using inv.cached k j found
  · apply inv.locked_tasks held rfl here
    intro u j _ pends w
    have apart : j ≠ i := by
      rintro rfl
      exact hidden.quiet u pends
    exact waiting_frame w rfl (by simp [queue]) (by simp [apart]) rfl w.off

theorem fill_inv (hidden : Hidden s slack i) (key : s.key i = (sb, ino)) (ok : Bool) :
    Inv (fill s t sb ino i ok) slack := by
  have quiet : ∀ u j, (s.pc u).pending = some j → j ≠ i := by
    rintro u j pends rfl
    exact hidden.quiet u pends
  have offSlack : ∀ j ∈ slack, j ≠ i := by
    rintro j member rfl
    exact hidden.off member
  cases ok with
  | true =>
    simp only [fill, if_true]
    refine ⟨inv.ring, inv.unlinked, ?_, ?_, ?_, ?_, ?_⟩
    · intro j member
      simpa [offSlack j member, State.goto] using inv.slackIdle j member
    · intro j
      by_cases eq : j = i
      · simp [eq]
      · simpa [eq, State.goto] using inv.counted j
    · intro j dead
      have apart : j ≠ i := by
        rintro rfl
        exact Bool.false_ne_true (dead.symm.trans hidden.live)
      simpa [apart, State.goto] using inv.referenced j dead
    · intro k j found
      by_cases same : k = (sb, ino)
      · have eq : i = j := by simpa [same] using found
        exact eq ▸ ⟨hidden.live, key.trans same.symm⟩
      · exact inv.cached k j (by simpa [same] using found)
    · apply inv.locked_tasks held rfl
      · exact held
      · intro u j _ pends w
        exact waiting_frame w rfl (by simp [Pc.pending]) rfl (by simp [quiet u j pends])
          w.off
  | false =>
    simp only [fill, Bool.false_eq_true, if_false]
    exact freed_inv inv held hidden rfl held

theorem freeAdd_inv (pends : (s.pc t).pending = some i) (waiting : Waiting s slack t i) :
    Inv { s.goto t .freeV with links := s.links.listAddTail (some i) none } (slack ++ [i]) := by
  have fresh : some i ∉ none :: slack.map some := by simpa using waiting.off
  refine ⟨?_, ?_, ?_, inv.counted, inv.referenced, inv.cached, ?_⟩
  · rw [List.map_append]
    exact Links.ring_listAddTail inv.ring fresh
  · intro j alive out
    simp only [List.mem_append, List.mem_singleton, not_or] at out
    have frame := Links.listAddTail_frame inv.ring (x := some i) (y := some j)
      (fun same => out.2 (Option.some.inj same)) (by simpa using out.1)
    obtain ⟨next, prev⟩ := inv.unlinked j alive out.1
    exact ⟨frame.1.trans next, frame.2.trans prev⟩
  · intro j member
    rcases List.mem_append.mp member with old | new
    · exact inv.slackIdle j old
    · rw [List.mem_singleton.mp new]
      exact ⟨waiting.live, waiting.zero⟩
  · apply inv.locked_tasks held rfl
    · exact held
    · intro u j other pendsU w
      have apart : j ≠ i := by
        rintro rfl
        exact other (waiting.alone u pendsU)
      exact waiting_frame w rfl (by simp [Pc.pending]) rfl rfl (by simpa [apart] using w.off)

theorem killErase_inv (first : some i = s.links.next none) (next : tmp = s.links.next (some i)) :
    Inv { s.goto t (.killV i tmp) with
      cache := update s.cache (s.key i) none
      links := s.links.listDel (some i) } slack.tail := by
  have member := Links.ring_next_mem inv.ring
  rw [← first] at member
  obtain ⟨rest, rfl⟩ : ∃ rest, slack = i :: rest := by
    cases slack with
    | nil => simp at member
    | cons j rest =>
      have head : s.links.next none = some j := inv.ring.1.1.1
      exact ⟨rest, by rw [Option.some.inj (first.trans head)]⟩
  have ring : Links.Ring (s.links.listDel (some i)) none (rest.map some) :=
    Links.ring_listDel (l := []) inv.ring
  have nodup : (i :: rest).Nodup := (List.nodup_cons.mp inv.ring.2).2.of_map _
  obtain ⟨live, zero⟩ := inv.slackIdle i List.mem_cons_self
  refine ⟨ring, ?_, ?_, inv.counted, inv.referenced, ?_, ?_⟩
  · intro j alive out
    by_cases eq : j = i
    · rw [eq]
      exact Links.listDel_unlinked s.links (some i)
    · have off : j ∉ i :: rest := by simpa [eq] using out
      have frame := Links.listDel_frame inv.ring (x := some i) (y := some j) (by simp)
        (by simpa using off)
      obtain ⟨selfNext, selfPrev⟩ := inv.unlinked j alive off
      exact ⟨frame.1.trans selfNext, frame.2.trans selfPrev⟩
  · exact fun j old => inv.slackIdle j (List.mem_cons_of_mem i old)
  · intro k j found
    by_cases same : k = s.key i
    · simp [same] at found
    · exact inv.cached k j (by simpa [same] using found)
  · apply inv.locked_tasks held rfl
    · refine ⟨held, ⟨live, zero, (List.nodup_cons.mp nodup).1, ?_, ?_⟩, ?_⟩
      · intro u pends
        by_cases same : u = t
        · simp [same, State.goto, Pc.pending] at pends
        · simp only [State.goto, update_of_ne same] at pends
          exact (inv.waiting pends).off List.mem_cons_self
      · intro k found
        by_cases same : k = s.key i
        · simp [same] at found
        · exact same (inv.cached k i (by simpa [same] using found)).2.symm
      · rw [next]
        have before := Links.seg_next s.links inv.ring.1.2
        have after := Links.seg_next _ ring.1
        exact before.trans after.symm
    · intro u j _ _ w
      exact waiting_frame w rfl (by simp [Pc.pending]) rfl rfl
        (fun old => w.off (List.mem_cons_of_mem i old))

end

theorem takeSlack_cases (stepped : takeSlack s t pc = some s') :
    s.slacksem = none ∧ s' = moved s t pc (some t) s.sSem := by
  cases free : s.slacksem with
  | none =>
    simp only [takeSlack, free, Option.some.injEq] at stepped
    exact ⟨rfl, stepped.symm⟩
  | some u => simp [takeSlack, free] at stepped

theorem takeSuper_cases (stepped : takeSuper s t sb pc = some s') :
    ∃ sSem, s' = moved s t pc s.slacksem sSem := by
  cases free : s.sSem sb with
  | none =>
    simp only [takeSuper, free, Option.some.injEq] at stepped
    exact ⟨_, stepped.symm⟩
  | some u => simp [takeSuper, free] at stepped

theorem Inv.stay (inv : Inv s slack) (queue : pc.pending = none)
    (here : (∀ i, Hidden s slack i → Hidden (moved s t pc s.slacksem sSem) slack i) →
      At (moved s t pc s.slacksem sSem) slack t pc) : Inv (moved s t pc s.slacksem sSem) slack :=
  inv.move (fun _ _ held => held) (.inl queue) (fun _ => here)

theorem Inv.take (inv : Inv s slack) (free : s.slacksem = none)
    (queue : pc.pending = none ∨ pc.pending = (s.pc t).pending)
    (here : (∀ i, Waiting s slack t i → Waiting (moved s t pc (some t) s.sSem) slack t i) →
      At (moved s t pc (some t) s.sSem) slack t pc) : Inv (moved s t pc (some t) s.sSem) slack :=
  inv.move (fun u _ held => absurd (held.symm.trans free) (Option.some_ne_none u)) queue
    (fun waits _ => here waits)

theorem Inv.give (inv : Inv s slack) (held : s.slacksem = some t) (queue : pc.pending = none)
    (here : At (moved s t pc none s.sSem) slack t pc) : Inv (moved s t pc none s.sSem) slack :=
  inv.move (fun _ other owner => absurd (Option.some.inj (owner.symm.trans held)) other)
    (.inl queue) (fun _ _ => here)

def hit (s : State T) (t : T) : Option Nat :=
  match s.pc t with
  | .igetLook sb ino => s.cache (sb, ino)
  | _ => none

theorem look_inv (inv : Inv s slack) (here : s.pc t = .igetLook sb ino)
    (unraced : ∀ i, hit s t = some i → ¬ Pending s i ∧ s.count i < 2 ^ 32 - 1)
    (stepped : look s t sb ino new = some s') : ∃ slack, Inv s' slack := by
  have held : s.slacksem = some t := by
    have at_ := inv.tasks t
    rwa [here] at at_
  cases found : s.cache (sb, ino) with
  | some i =>
    obtain ⟨quiet, room⟩ := unraced i (by simpa [hit, here] using found)
    simp only [look, found, Option.some.injEq] at stepped
    subst stepped
    exact ⟨slack.erase i, hit_inv inv held ⟨_, found⟩ quiet room⟩
  | none =>
    cases new with
    | none =>
      simp only [look, found, Option.some.injEq] at stepped
      subst stepped
      exact ⟨slack, inv.stay rfl (fun _ => held)⟩
    | some i =>
      simp only [look, found] at stepped
      cases fresh : s.live i with
      | true => simp [fresh] at stepped
      | false =>
        simp only [fresh, Bool.false_eq_true, if_false, Option.some.injEq] at stepped
        subst stepped
        exact ⟨slack, miss_inv inv held fresh⟩

theorem advance_inv (inv : Inv s slack) {ok : Bool}
    (unraced : ∀ i, hit s t = some i → ¬ Pending s i ∧ s.count i < 2 ^ 32 - 1)
    (stepped : advance s t new ok = some s') : ∃ slack, Inv s' slack := by
  have at_ := inv.tasks t
  unfold advance at stepped
  generalize here : s.pc t = pc at stepped at_
  cases pc with
  | idle => cases stepped
  | igetP sb ino =>
    obtain ⟨free, rfl⟩ := takeSlack_cases stepped
    exact ⟨slack, inv.take free (.inl rfl) (fun _ => rfl)⟩
  | igetP2 sb ino =>
    obtain ⟨sSem, rfl⟩ := takeSuper_cases stepped
    exact ⟨slack, inv.stay rfl (fun _ => at_)⟩
  | igetLook sb ino => exact look_inv inv here unraced stepped
  | igetRead sb ino i =>
    cases stepped
    exact ⟨slack, fill_inv inv at_.1 at_.2.1 at_.2.2 ok⟩
  | igetV sb =>
    cases stepped
    exact ⟨slack, inv.give at_ rfl trivial⟩
  | igetV2 sb =>
    cases stepped
    exact ⟨slack, inv.stay rfl (fun _ => trivial)⟩
  | freeTest i =>
    have zero : s.count i = 0 := at_.zero
    simp only [zero, if_true] at stepped
    cases stepped
    have next : Inv (moved s t (.freeP i) s.slacksem s.sSem) slack :=
      inv.move (fun _ _ held => held) (.inr (by rw [here]; rfl)) (fun waits _ => waits i at_)
    exact ⟨slack, next⟩
  | freeP i =>
    obtain ⟨free, rfl⟩ := takeSlack_cases stepped
    exact ⟨slack, inv.take free (.inr (by rw [here]; rfl)) (fun waits => ⟨rfl, waits i at_⟩)⟩
  | freeAdd i =>
    cases stepped
    exact ⟨slack ++ [i], freeAdd_inv inv at_.1 (by rw [here]; rfl) at_.2⟩
  | freeV =>
    cases stepped
    exact ⟨slack, inv.give at_ rfl trivial⟩
  | squeezeP =>
    obtain ⟨free, rfl⟩ := takeSlack_cases stepped
    exact ⟨slack, inv.take free (.inl rfl) (fun _ => ⟨rfl, rfl, rfl⟩)⟩
  | squeezeLoop pos tmp =>
    cases pos with
    | none =>
      cases stepped
      exact ⟨slack, inv.stay rfl (fun _ => at_.1)⟩
    | some i =>
      cases stepped
      exact ⟨slack, inv.stay rfl (fun _ => at_)⟩
  | killP i tmp =>
    obtain ⟨sSem, rfl⟩ := takeSuper_cases stepped
    exact ⟨slack, inv.stay rfl (fun _ => at_)⟩
  | killErase i tmp =>
    cases stepped
    exact ⟨slack.tail, killErase_inv inv at_.1 at_.2.1 at_.2.2⟩
  | killV i tmp =>
    cases stepped
    exact ⟨slack, inv.stay rfl (fun hides => ⟨at_.1, hides i at_.2.1, at_.2.2⟩)⟩
  | killFree i tmp =>
    cases stepped
    exact ⟨slack, freed_inv inv at_.1 at_.2.1 rfl ⟨at_.1, at_.2.2, rfl⟩⟩
  | squeezeV =>
    cases stepped
    exact ⟨slack, inv.give at_ rfl trivial⟩

/-- An `iget` finds no inode that an `inode_free` is pending for, and no count runs
over. -/
def Unraced (s : State T) : Label T → Prop
  | .iref _ i => s.count i < 2 ^ 32 - 1
  | .advance t _ _ => ∀ i ∈ hit s t, ¬ Pending s i ∧ s.count i < 2 ^ 32 - 1
  | _ => True

theorem step_inv {l : Label T} (ok : Unraced s l) (inv : Inv s slack)
    (stepped : step s l = some s') : ∃ slack, Inv s' slack := by
  cases l with
  | iget t sb ino =>
    obtain ⟨idle, eq⟩ := Option.ite_none_right_eq_some.mp stepped
    cases eq
    exact ⟨slack, inv.stay rfl (fun _ => trivial)⟩
  | iref t i =>
    obtain ⟨guard, eq⟩ := Option.ite_none_right_eq_some.mp stepped
    cases eq
    exact ⟨slack, addRef_inv inv guard.2 ok⟩
  | iput t i =>
    obtain ⟨guard, eq⟩ := Option.ite_none_right_eq_some.mp stepped
    exact ⟨slack, iput_inv inv guard.1 guard.2 eq⟩
  | squeeze t =>
    obtain ⟨idle, eq⟩ := Option.ite_none_right_eq_some.mp stepped
    cases eq
    exact ⟨slack, inv.stay rfl (fun _ => trivial)⟩
  | advance t new alright => exact advance_inv inv ok stepped

end Steps

instance decidablePending [Fintype T] (s : State T) (i : Nat) : Decidable (Pending s i) :=
  inferInstanceAs (Decidable (∃ t, (s.pc t).pending = some i))

instance decidableUnraced [Fintype T] (s : State T) : (l : Label T) → Decidable (Unraced s l)
  | .iget _ _ _ => isTrue trivial
  | .iref _ i => inferInstanceAs (Decidable (s.count i < 2 ^ 32 - 1))
  | .iput _ _ => isTrue trivial
  | .squeeze _ => isTrue trivial
  | .advance t _ _ =>
    inferInstanceAs (Decidable (∀ i ∈ hit s t, ¬ Pending s i ∧ s.count i < 2 ^ 32 - 1))

/-- In every run in which no `iget` finds an inode on its way to the slack list and no
count runs over, every state has the slack list right. -/
theorem slack_inodes_unreferenced {s : State T} {ls : List (Label T)}
    (ok : Run.Along step Unraced init ls) (ran : Run.exec step init ls = some s) : Safe s := by
  obtain ⟨slack, inv⟩ := Run.along_invariant (fun s => ∃ slack, Inv s slack)
    (fun s l s' ok inv stepped => by
      obtain ⟨slack, inv⟩ := inv
      exact step_inv ok inv stepped)
    ok ⟨[], init_inv⟩ ran
  exact inv.safe

def getInode (t : Bool) : List (Label Bool) :=
  [.iget t 0 2, .advance t none true, .advance t none true, .advance t (some 7) true]

/-- Two tasks with one inode: it is read, shared, put on the slack list, found there
again, put back and squeezed. -/
def sampleRun : List (Label Bool) :=
  getInode false ++ List.replicate 3 (.advance false none true) ++ [.iref true 7, .iput false 7] ++
    [.iput true 7] ++ List.replicate 4 (.advance true none true) ++ getInode false ++
    List.replicate 2 (.advance false none true) ++ [.iput false 7] ++
    List.replicate 4 (.advance false none true) ++ [.squeeze true] ++
    List.replicate 7 (.advance true none true)

theorem slack_inodes_unreferenced_sample : ∃ s, Run.Along step Unraced init sampleRun ∧
    Run.exec step init sampleRun = some s ∧ s.live 7 = false ∧ Safe s := by
  have ok : Run.Along step Unraced (init : State Bool) sampleRun := by decide +kernel
  have ends : ((Run.exec step (init : State Bool) sampleRun).map fun s => s.live 7) = some false := by
    decide +kernel
  obtain ⟨s, ran, freed⟩ := Option.map_eq_some_iff.mp ends
  exact ⟨s, ok, ran, freed, slack_inodes_unreferenced ok ran⟩

/-- One task drops the last reference and has passed the `BUG_ON` of `inode_free`. The
other finds the inode in the cache, and the first puts it on the list. -/
def revived : List (Label Bool) :=
  getInode false ++ List.replicate 3 (.advance false none true) ++
    [.iput false 7, .advance false none true] ++ getInode true ++
    List.replicate 2 (.advance true none true) ++ List.replicate 3 (.advance false none true)

/-- The inode is in use and on the list; then a squeeze is at it; or it is put on the
list a second time. -/
theorem revived_inode_slack :
    (∃ s, Run.exec step init revived = some s ∧ s.count 7 = 1 ∧ ¬ Pending s 7 ∧ OnSlack s 7) ∧
    (∃ s, Run.exec step init (revived ++ [.squeeze false, .advance false none true,
        .advance false none true]) = some s ∧ (s.pc false).kills = some 7 ∧ s.count 7 = 1) ∧
    ∃ s, Run.exec step init (revived ++ [.iput true 7, .advance true none true,
        .advance true none true]) = some s ∧ s.pc true = .freeAdd 7 ∧ OnSlack s 7 := by
  refine ⟨?_, ?_, ?_⟩
  · obtain ⟨s, ran, count, quiet, first⟩ := Run.decided (Run.exec step init revived)
      (fun s => s.count 7 = 1 ∧ ¬ Pending s 7 ∧ s.links.next none = some 7) (by decide +kernel)
    exact ⟨s, ran, count, quiet, 1, first⟩
  · exact Run.decided _ (fun s : State Bool => (s.pc false).kills = some 7 ∧ s.count 7 = 1)
      (by decide +kernel)
  · obtain ⟨s, ran, here, first⟩ := Run.decided (Run.exec step init (revived ++ [.iput true 7,
      .advance true none true, .advance true none true]))
      (fun s => s.pc true = .freeAdd 7 ∧ s.links.next none = some 7) (by decide +kernel)
    exact ⟨s, ran, here, 1, first⟩

end ScaraOS.Inode
