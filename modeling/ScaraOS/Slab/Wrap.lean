import ScaraOS.Slab.Free

/-! Slabs in the last page of the address space. When the slots fill the page, `o_ptr_end` is 0
and `do_alloc` sees no room in the slab but for its last slot. With more than two slots the slab
has one object, and the next allocation takes another slab without putting this one on a list. -/
namespace ScaraOS.Slab

variable {low : Prop} {s t : State} {fl : Nat → List Nat} {k : Nat} {o : ObjCache} {c obj a p : Nat}
  {page : Option Nat}

def TopAt (o : ObjCache) (c : Nat) : Prop := Wraps o c →
  (o.oCur = some c → o.oPtr = slot o c 1) ∧ (2 < o.oNum → o.oCur = some c ∧ c ∉ o.oPartials)

def Top (s : State) : Prop :=
  ∀ (k : Nat) (o : ObjCache), s.caches[k]? = some o → ∀ c, Held o c → TopAt o c

structure Sane (low : Prop) (s : State) (fl : Nat → List Nat) : Prop where
  inv : Inv low s fl
  top : Top s

theorem top_elsewhere (top : Top s) (same : Elsewhere s t p)
    (here : ∀ (n : Nat) (x : ObjCache), t.caches[n]? = some x → Held x p → TopAt x p) : Top t := by
  intro n x found q held wraps
  by_cases away : q = p
  · exact here n x found (away ▸ held) (away ▸ wraps) |> (away ▸ ·)
  · obtain ⟨y, before, lists⟩ := same.before n x found
    obtain ⟨ptr, many⟩ := top n y before q ((relisted_held lists away).mp held)
      ((wraps_congr lists q).mp wraps)
    rw [lists.cur q away, lists.num, lists.partials q away, slot_congr lists.size]
    exact ⟨fun cur => (lists.ptr q away cur).trans (ptr cur), many⟩

def dropped (o : ObjCache) : ObjCache := { o with oPtr := 0, oPtrEnd := 0, oCur := none }

theorem sane_drop (sane : Sane low s fl) (member : s.caches[k]? = some o)
    (none : usablePartial s o = none) (cur : o.oCur = some c) (wraps : Wraps o c)
    (many : 2 < o.oNum) : ∃ fl', Sane low (setCache s k (dropped o)) fl' := by
  have inv := sane.inv
  have ok := inv.caches k o member
  have held : Held o c := .inl cur
  have slab := inv.slabs k o member c held
  rw [cur_empty inv member none cur] at slab
  obtain ⟨ptr, stuck⟩ := sane.top k o member c held wraps
  have gone : ¬ Held (dropped o) c := by
    rintro (is | listed | full)
    · cases is
    · exact (stuck many).2 listed
    · exact ok.curOff c cur full
  have lists : Relisted o (dropped o) c := relisted_cur o 0 0 (.inr cur) (.inl rfl)
  have now : (setCache s k (dropped o)).caches[k]? = some (dropped o) :=
    List.getElem?_set_self (List.getElem?_eq_some_iff.mp member).1
  refine ⟨_, inv_touched inv member ⟨rfl, lists, fun _ _ => rfl, fun _ _ => rfl, fun _ _ => Iff.rfl⟩
    (fun n x found heldToo => held_cache inv found member heldToo held)
    (cacheOk_noCur ok (by decide)) (fun still => absurd still gone) (l := fl c) ?_, ?_⟩
  · -- what is live in the slab is its first slot
    intro a alive here
    obtain ⟨i, inside, rfl⟩ := slab_live inv member held alive here
    have used := (cur_inuse ok.sized slab cur (ptr cur) (by omega)).2
    have zero : i = 0 := Nat.lt_one_iff.mp ((used i inside).mp alive)
    have deep : ¬ low := fun is => by
      have below := slab.below is
      unfold Wraps at wraps
      omega
    refine .inr ⟨deep, here.symm ▸ slab.frame, ?_, here.symm ▸ slab.type, here.symm ▸ slab.count,
      dropped o, ?_, here.symm ▸ gone, here.symm ▸ wraps, many⟩
    · rw [here, zero]
      simp [slot]
    · rw [here, show ((setCache s k (dropped o)).page c).cache = k from slab.cache]
      exact now
  · refine top_elsewhere sane.top (elsewhere_set member rfl lists fun _ _ => rfl)
      fun n x found still => ?_
    by_cases here : n = k
    · subst here
      exact absurd (Option.some.inj (now.symm.trans found) ▸ still) gone
    · have there : s.caches[n]? = some x := (List.getElem?_set_ne (Ne.symm here)).symm.trans found
      exact absurd (held_cache inv there member still held) here

structure Served (low : Prop) (s t : State) (k obj : Nat) : Prop extends Handed low s t k obj where
  top : Top (handOut t obj)

theorem served_of_taken (sane : Sane low s fl) (taken : Taken low s t k obj)
    (here : ∀ x, t.caches[k]? = some x → TopAt x (virtToPage obj)) : Served low s t k obj := by
  have shape : handOut t obj = { t with live := insert obj t.live } := if_neg taken.nonzero
  obtain ⟨fl', newInv⟩ := taken.inv
  refine ⟨taken.toHanded, ?_⟩
  rw [shape] at newInv ⊢
  refine top_elsewhere sane.top (elsewhere_live taken.elsewhere) fun n x found held => ?_
  have owner : (t.page (virtToPage obj)).cache = n := (newInv.slabs n x found _ held).cache
  cases owner.symm.trans taken.owner
  exact here x found

theorem topAt_few (none : o.oCur = none) (few : o.oNum ≤ 2) : TopAt o c :=
  fun _ => ⟨fun cur => absurd (none.symm.trans cur) (by simp), fun many => by omega⟩

section

variable (sane : Sane low s fl) (member : s.caches[k]? = some o)
include sane member

theorem served_partial (listed : c ∈ o.oPartials) (list : (s.page c).freeList ≠ 0)
    (ran : allocFromPartial s k o c = (t, obj)) : Served low s t k obj := by
  obtain ⟨now, here, taken⟩ := allocFromPartial_spec sane.inv member listed list ran
  refine served_of_taken sane taken fun x found wraps => ?_
  have kept : x.oSz = o.oSz ∧ x.oNum = o.oNum ∧ x.oCur = o.oCur ∧ x.oPtr = o.oPtr := by
    cases now.symm.trans found
    unfold shortened
    split <;> exact ⟨rfl, rfl, rfl, rfl⟩
  obtain ⟨size, num, cur, ptr⟩ := kept
  rw [here] at wraps ⊢
  have whole : Wraps o c := by
    unfold Wraps at wraps ⊢
    rw [← size, ← num]
    exact wraps
  obtain ⟨first, many⟩ := sane.top k o member c (.inr (.inl listed)) whole
  rw [cur, ptr, num, slot_congr size]
  exact ⟨first, fun is => absurd listed (many is).2⟩

theorem served_cur (none : usablePartial s o = none) (cur : o.oCur = some c)
    (room : (o.oPtr + o.oSz) % wordSize ≤ o.oPtrEnd) (ran : allocFast s k o = .ok (t, obj)) :
    Served low s t k obj := by
  have ok := sane.inv.caches k o member
  obtain ⟨j, inside, ptr, now, here, taken⟩ :=
    allocFast_spec sane.inv member cur (cur_empty sane.inv member none cur) ran
  refine served_of_taken sane taken fun x found wraps => ?_
  cases now.symm.trans found
  rw [here] at wraps ⊢
  -- one object was handed out, and the room is for the last one
  have whole : Wraps o c := (wraps_congr (relisted_advanced cur j) c).mp wraps
  have one : j = 1 := slot_inj ok.sized
    (ptr.symm.trans ((sane.top k o member c (.inl cur) whole).1 cur))
  have last : j + 1 = o.oNum := by
    refine ((cur_room ok cur inside ptr).mp room).resolve_left fun below => ?_
    unfold Wraps at whole
    omega
  have shape : (advanced o c j).oCur = Option.none ∧ (advanced o c j).oNum = o.oNum := by
    unfold advanced
    rw [if_pos last]
    exact ⟨rfl, rfl⟩
  exact topAt_few shape.1 (by omega) wraps

theorem served_grown (none : o.oCur = none) (given : Given low page) (gave : page = some c)
    (free : (s.page c).count = 0) (mapped : pageAddress c ≠ 0)
    (ran : allocFast (grown s k o c) k (newCur o c) = .ok (t, obj)) : Served low s t k obj := by
  obtain ⟨now, here, taken⟩ := grown_spec sane.inv member none (given.1 c gave)
    (fun is => (given.2 is c gave).2) mapped free ran
  refine served_of_taken sane taken fun x found => ?_
  cases now.symm.trans found
  rw [here]
  have unlisted : c ∉ o.oPartials := fun listed =>
    free_not_held sane.inv free member (.inr (.inl listed))
  unfold advanced
  split
  · rename_i one
    exact topAt_few rfl (show (newCur o c).oNum ≤ 2 by omega)
  · exact fun _ => ⟨fun _ => rfl, fun _ => ⟨rfl, unlisted⟩⟩

/-- Every object that is handed out is sound, also where a slab gets lost. -/
theorem served_alloc (given : Given low page) (ran : doAlloc s k page = .ok (t, obj)) :
    Served low s t k obj := by
  cases doAlloc_found member given.1 ran with
  | onPartial c listed list ran => exact served_partial sane member listed list ran
  | inCur c none cur room ran => exact served_cur sane member none cur room ran
  | inNew c none room gave free mapped ran =>
    cases cur : o.oCur with
    | none => exact served_grown sane member cur given gave free mapped ran
    | some q =>
      have ok := sane.inv.caches k o member
      obtain ⟨j, inside, ptr, -⟩ := ok.cur q cur
      have stuck := mt (cur_room ok cur inside ptr).mpr room
      have wraps : Wraps o q := by
        have fit := slots_fit ok.sized
        have top := page_end q
        unfold Wraps
        omega
      have one : j = 1 := slot_inj ok.sized
        (ptr.symm.trans ((sane.top k o member q (.inl cur) wraps).1 cur))
      obtain ⟨fl', later⟩ := sane_drop sane member none cur wraps (by omega)
      have now : (setCache s k (dropped o)).caches[k]? = some (dropped o) :=
        List.getElem?_set_self (List.getElem?_eq_some_iff.mp member).1
      have same : grown (setCache s k (dropped o)) k (dropped o) c = grown s k o c := by
        simp only [grown, setCache, setPage, List.set_set]
        rfl
      rw [← same] at ran
      have served := served_grown later now rfl given gave free mapped ran
      exact ⟨{ served.toHanded with }, served.top⟩

end

/-- The checks ask that the object does not start at `o_ptr_end` and that its slab was not lost. -/
def Freeable (s : State) (obj : Nat) : Prop :=
  ∀ o, s.caches[(s.page (virtToPage obj)).cache]? = some o → obj ≠ o.oPtrEnd ∧
    (pageAddress (virtToPage obj) + o.oSz * o.oNum < wordSize ∨ o.oNum ≤ 2 ∨
      o.oCur = some (virtToPage obj))

theorem lost_checkedFree (lost : Lost s a) :
    checkedFree s (virtToPage a) a = .error .bug ∧ ¬ Freeable s a := by
  obtain ⟨o, found, unheld, wraps, many⟩ := lost.cache
  constructor
  · simp only [checkedFree, found]
    refine bugOn_trip ⟨?_, ?_, ?_⟩ _
    · exact fun cur => unheld (.inl cur.symm)
    · simpa [slabIsOn] using fun listed => unheld (.inr (.inl listed))
    · simpa [slabIsOn] using fun full => unheld (.inr (.inr full))
  · intro freeable
    obtain ⟨-, below | few | cur⟩ := freeable o found
    · unfold Wraps at wraps
      rw [Nat.mul_comm] at below
      omega
    · omega
    · exact unheld (.inl cur)

theorem freeable_iff (sane : Sane low s fl) (onSlab : OnSlab s obj) :
    Freeable s obj ↔ ¬ AtPtrEnd s obj := by
  obtain ⟨o, found, held, -⟩ := onSlab
  have ok := sane.inv.caches _ o found
  constructor
  · rintro freeable ⟨x, same, stop⟩
    exact (freeable x same).1 stop
  · intro other x same
    cases found.symm.trans same
    refine ⟨fun stop => other ⟨o, found, stop⟩, ?_⟩
    by_cases wraps : Wraps o (virtToPage obj)
    · by_cases many : 2 < o.oNum
      · exact .inr (.inr ((sane.top _ o found _ held wraps).2 many).1)
      · exact .inr (.inl (by omega))
    · have fit := slots_fit ok.sized
      have top := page_end (virtToPage obj)
      unfold Wraps at wraps
      rw [Nat.mul_comm]
      exact .inl (by omega)

theorem sane_checkedFree (sane : Sane low s fl) (alive : obj ∈ s.live) :
    ((∃ t, checkedFree s (virtToPage obj) obj = .ok t) ↔ Freeable s obj) ∧
      (¬ Freeable s obj → checkedFree s (virtToPage obj) obj = .error .bug) := by
  rcases sane.inv.live obj alive with onSlab | ⟨-, lost⟩
  · obtain ⟨trips, passes⟩ := checkedFree_spec sane.inv alive onSlab
    rw [freeable_iff sane onSlab]
    by_cases stop : AtPtrEnd s obj
    · rw [trips stop]
      exact ⟨⟨fun ⟨_, returns⟩ => (by cases returns), fun off => absurd stop off⟩, fun _ => rfl⟩
    · obtain ⟨t, -, returns, -⟩ := passes stop
      exact ⟨⟨fun _ => stop, fun _ => ⟨t, returns⟩⟩, fun not => absurd stop not⟩
  · obtain ⟨trips, never⟩ := lost_checkedFree lost
    rw [trips]
    exact ⟨⟨fun ⟨_, ended⟩ => (by cases ended), fun is => absurd is never⟩, fun _ => rfl⟩

theorem topAt_relisted (sane : Sane low s fl) (found : s.caches[k]? = some o) (held : Held o c)
    (more : (s.page c).inuse - 1 ≠ 0) : TopAt (relisted s o c) c := by
  have kept : (relisted s o c).oCur = o.oCur ∧ (relisted s o c).oPtr = o.oPtr := by
    unfold relisted
    split
    · exact ⟨rfl, rfl⟩
    · exact ⟨rfl, rfl⟩
  have lists := relisted_lists s o c
  intro wraps
  obtain ⟨ptr, stuck⟩ := sane.top k o found c held ((wraps_congr lists c).mp wraps)
  rw [kept.1, kept.2, lists.num, slot_congr lists.size]
  refine ⟨ptr, fun many => ?_⟩
  -- a slab that is stuck has one object
  obtain ⟨cur, unlisted⟩ := stuck many
  have slab := sane.inv.slabs k o found c held
  have empty : fl c = [] := by_contra fun some => unlisted (slab.listed some)
  rw [empty] at slab
  have one := (cur_inuse (sane.inv.caches k o found).sized slab cur (ptr cur) (by omega)).1
  have inuse : (s.page c).inuse = 1 := one
  omega

theorem sane_free (sane : Sane low s fl) (alive : obj ∈ s.live)
    (ran : checkedFree s (virtToPage obj) obj = .ok t) :
    ∃ fl', Sane low { t with live := t.live.erase obj } fl' := by
  have inv := sane.inv
  rcases inv.live obj alive with onSlab | ⟨-, lost⟩
  case inr =>
    rw [(lost_checkedFree lost).1] at ran
    cases ran
  obtain ⟨trips, passes⟩ := checkedFree_spec inv alive onSlab
  obtain ⟨u, fl', returns, newInv⟩ := passes fun stop => by cases ran.symm.trans (trips stop)
  cases ran.symm.trans returns
  obtain ⟨same, outcome⟩ := checkedFree_elsewhere inv alive onSlab ran
  obtain ⟨o, found, held, -⟩ := onSlab
  refine ⟨fl', newInv, top_elsewhere sane.top (elsewhere_live same) fun n x now still => ?_⟩
  rcases outcome with ⟨-, gone, -⟩ | ⟨more, -, -, -, y, before, caches⟩
  · exact absurd ⟨n, x, now, still⟩ gone
  · cases before.symm.trans found
    have there : t.caches[n]? = some x := now
    by_cases mine : n = (s.page (virtToPage obj)).cache
    · subst mine
      rw [caches, List.getElem?_set_self (List.getElem?_eq_some_iff.mp found).1] at there
      cases there
      exact topAt_relisted sane found held more
    · rw [caches, List.getElem?_set_ne (Ne.symm mine)] at there
      exact absurd (held_cache inv there found still held) mine

end ScaraOS.Slab
