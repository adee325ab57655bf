import Mathlib.Data.Finset.Card
import Mathlib.Order.Interval.Finset.Nat
import ScaraOS.Fdt.Walk

/-! The finite map a table stands for, a handle to its file and `0` where it is not
open, and what each call does to it. -/
namespace ScaraOS.Fdt

open Function

def LeastFree (m : Nat → Nat) (h : Nat) : Prop := m h = 0 ∧ ∀ k < h, m k ≠ 0

/-- The handles of some entries, in their order. -/
def handles (t : Table) (es : List Nat) : List Nat := es.map fun a => t.handle (.entry a)

structure Represents (t : Table) (es : List Nat) (m : Nat → Nat) : Prop where
  ring : Links.Ring t.links .fds (es.map .entry)
  kernel : ∀ a ∈ es, pageOffset ≤ a ∧ a < wordSize
  fdAlloc : pageOffset ≤ t.handle .fds
  distinct : (handles t es).Nodup
  opened : ∀ a ∈ es, m (t.handle (.entry a)) = t.file (.entry a) ∧ t.file (.entry a) ≠ 0 ∧
    t.refcount (.entry a) = 1
  closed : ∀ h, m h ≠ 0 → ∃ a ∈ es, t.handle (.entry a) = h

def second (t : Table) : Cell := t.links.next (t.links.next .fds)

/-- Some handle below that of the second entry is free. -/
def AddOk (t : Table) (m : Nat → Nat) : Prop :=
  second t ≠ .fds → ∃ k < t.handle (second t), m k = 0

/-- Neither the second entry nor the head, read as an entry, has this handle. -/
def Visible (t : Table) (h : Nat) : Prop :=
  second t ≠ .fds → h ≠ t.handle (second t) ∧ h ≠ t.handle .fds

def Fresh (t : Table) (a : Nat) : Prop :=
  pageOffset ≤ a ∧ a < wordSize ∧ ∀ l, Links.Ring t.links .fds l → Cell.entry a ∉ l

variable {a n h r : Nat}

section Table

variable {t : Table} {es : List Nat} {m : Nat → Nat}

theorem second_few (ring : Links.Ring t.links .fds (es.map .entry)) (few : es.length < 2) :
    second t = .fds := by
  cases es with
  | nil =>
    have back : t.links.next .fds = .fds := ring.1.1
    simp only [second, back]
  | cons e rest =>
    cases rest with
    | nil =>
      have first : t.links.next .fds = .entry e := ring.1.1.1
      have back : t.links.next (.entry e) = .fds := ring.1.2.1
      simp only [second, first, back]
    | cons x rest =>
      simp only [List.length_cons] at few
      omega

theorem second_many {e x : Nat} {rest : List Nat}
    (ring : Links.Ring t.links .fds ((e :: x :: rest).map .entry)) : second t = .entry x := by
  have first : t.links.next .fds = .entry e := ring.1.1.1
  have next : t.links.next (.entry e) = .entry x := ring.1.2.1.1
  simp only [second, first, next]

theorem entries_few (rep : Represents t es m) : es.length ≤ 2 ^ 30 := by
  have nodup : es.Nodup := List.Nodup.of_map _ (List.nodup_cons.mp rep.ring.2).2
  have within : es.toFinset ⊆ Finset.Ico pageOffset wordSize := by
    intro a member
    exact Finset.mem_Ico.mpr (rep.kernel a (List.mem_toFinset.mp member))
  have bound := Finset.card_le_card within
  rw [List.toFinset_card_of_nodup nodup, Nat.card_Ico] at bound
  exact bound

theorem open_iff (rep : Represents t es m) (h : Nat) :
    m h ≠ 0 ↔ ∃ a ∈ es, t.handle (.entry a) = h := by
  constructor
  · exact rep.closed h
  · rintro ⟨a, member, rfl⟩
    obtain ⟨same, some, _⟩ := rep.opened a member
    rw [same]
    exact some

theorem open_iff_mem (rep : Represents t es m) (h : Nat) : m h ≠ 0 ↔ h ∈ handles t es :=
  (open_iff rep h).trans List.mem_map.symm

theorem mem_examined {c : Cell} (met : c ∈ examined (es.map .entry)) :
    (c = .fds ∧ 2 ≤ es.length) ∨ ∃ a ∈ es, c = .entry a := by
  cases es with
  | nil => cases met
  | cons e rest =>
    cases rest with
    | nil => exact .inr ⟨e, by simp, by simpa [examined] using met⟩
    | cons x rest =>
      simp only [List.map_cons, examined_many, List.mem_append, List.mem_map, List.mem_cons,
        List.not_mem_nil, or_false] at met
      rcases met with ⟨a, member, same⟩ | head | first
      · exact .inr ⟨a, by simp [member], same.symm⟩
      · exact .inl ⟨head, by simp⟩
      · exact .inr ⟨e, by simp, first⟩

theorem examined_entry (ring : Links.Ring t.links .fds (es.map .entry)) (member : a ∈ es)
    (other : second t ≠ .entry a) : Cell.entry a ∈ examined (es.map .entry) := by
  cases es with
  | nil => cases member
  | cons e rest =>
    cases rest with
    | nil => simpa [examined] using member
    | cons x rest =>
      rw [second_many ring] at other
      simp only [List.map_cons, examined_many, List.mem_append, List.mem_map, List.mem_cons]
      rcases List.mem_cons.mp member with rfl | member
      · exact .inr (.inr (.inl rfl))
      · rcases List.mem_cons.mp member with rfl | later
        · exact absurd rfl other
        · exact .inl ⟨a, later, rfl⟩

theorem examined_length : (examined (es.map .entry)).length = es.length := by
  cases es with
  | nil => rfl
  | cons e rest => simp [examined]

theorem foldUntil_find (t : Table) (h : Nat) (cells : List Cell) :
    foldUntil (fun fdt found => if t.handle fdt = h then (some fdt, true) else (found, false))
      cells none = cells.find? fun c => t.handle c = h := by
  induction cells with
  | nil => rfl
  | cons c cells ih =>
    by_cases hit : t.handle c = h
    · simp [foldUntil, hit]
    · simp [foldUntil, hit, ih]

theorem findHandle_ring {l : List Cell} (ring : Links.Ring t.links .fds l) (enough : l.length < n)
    (h : Nat) : findHandle n t h = some ((examined l).find? fun c => t.handle c = h) := by
  unfold findHandle
  split
  · rename_i empty
    have none := (Links.ring_empty_iff ring).mp empty
    rw [none]
    rfl
  · rw [overFds_spec _ ring none enough, foldUntil_find]

section

variable (rep : Represents t es m)
include rep

theorem findHandle_spec (enough : es.length < n) (h : Nat) :
    findHandle n t h = some ((examined (es.map .entry)).find? fun c => t.handle c = h) :=
  findHandle_ring rep.ring (by simpa using enough) h

theorem find_visible (visible : Visible t h) :
    (∃ a ∈ es, t.handle (.entry a) = h ∧
      (examined (es.map .entry)).find? (fun c => t.handle c = h) = some (.entry a)) ∨
    ((∀ a ∈ es, t.handle (.entry a) ≠ h) ∧
      (examined (es.map .entry)).find? (fun c => t.handle c = h) = none) := by
  cases found : (examined (es.map .entry)).find? (fun c => t.handle c = h) with
  | some c =>
    have hit : t.handle c = h := by simpa using List.find?_some found
    rcases mem_examined (List.mem_of_find?_eq_some found) with ⟨rfl, many⟩ | ⟨a, member, rfl⟩
    · have two : second t ≠ .fds := by
        intro few
        match es, many with
        | e :: x :: rest, _ =>
          rw [second_many rep.ring] at few
          cases few
      exact absurd hit.symm (visible two).2
    · exact .inl ⟨a, member, hit, rfl⟩
  | none =>
    refine .inr ⟨?_, rfl⟩
    intro a member hit
    have missed := List.find?_eq_none.mp found
    by_cases here : second t = .entry a
    · have unseen := (visible (by rw [here]; simp)).1
      rw [here] at unseen
      exact unseen hit.symm
    · exact missed _ (examined_entry rep.ring member here) (by simpa using hit)

theorem fdtEntryRetr_spec (visible : Visible t h) (enough : es.length < n) :
    fdtEntryRetr n t h = some (m h) := by
  unfold fdtEntryRetr
  rw [findHandle_spec rep enough]
  rcases find_visible rep visible with ⟨a, member, hit, found⟩ | ⟨absent, found⟩
  · have same := (rep.opened a member).1
    rw [hit] at same
    rw [found, same]
    rfl
  · have shut : m h = 0 := by
      by_contra some
      obtain ⟨a, member, hit⟩ := rep.closed h some
      exact absent a member hit
    rw [found, shut]
    rfl

theorem represents_del (member : a ∈ es) :
    ∃ es', Represents { t with links := t.links.listDel (.entry a) } es'
      (update m (t.handle (.entry a)) 0) ∧
      handles t es' = (handles t es).erase (t.handle (.entry a)) := by
  obtain ⟨l, r, rfl⟩ := List.mem_iff_append.mp member
  have ring := rep.ring
  have moved : (handles t (l ++ a :: r)).Perm (handles t (a :: (l ++ r))) := List.perm_middle.map _
  obtain ⟨gone, distinct⟩ := List.nodup_cons.mp (moved.nodup rep.distinct)
  have kept : ∀ x ∈ l ++ r, x ∈ l ++ a :: r := by
    intro x here
    simp only [List.mem_append, List.mem_cons] at here ⊢
    tauto
  have other : ∀ x ∈ l ++ r, t.handle (.entry x) ≠ t.handle (.entry a) :=
    fun x here same => gone (List.mem_map.mpr ⟨x, here, same⟩)
  rw [List.map_append, List.map_cons] at ring
  refine ⟨l ++ r, ⟨?_, ?_, rep.fdAlloc, distinct, ?_, ?_⟩, ?_⟩
  · rw [List.map_append]
    exact Links.ring_listDel ring
  · exact fun x here => rep.kernel x (kept x here)
  · intro x here
    rw [update_of_ne (other x here)]
    exact rep.opened x (kept x here)
  · intro h some
    have away : h ≠ t.handle (.entry a) := by
      intro same
      rw [same, update_self] at some
      exact some rfl
    rw [update_of_ne away] at some
    obtain ⟨x, here, hit⟩ := rep.closed h some
    refine ⟨x, ?_, hit⟩
    simp only [List.mem_append, List.mem_cons] at here ⊢
    rcases here with left | rfl | right
    · exact .inl left
    · exact absurd hit.symm away
    · exact .inr right
  · have before : t.handle (.entry a) ∉ handles t l := fun member =>
      gone (by simp only [List.map_append]; exact List.mem_append_left _ member)
    simp only [handles, List.map_append, List.map_cons] at before ⊢
    rw [List.erase_append_right _ before, List.erase_cons_head]

theorem fdtEntryDel_spec (visible : Visible t h) :
    ∃ t' out, (∀ n, es.length < n → fdtEntryDel n t h = some (t', out)) ∧
      ∃ es', Represents t' es' (update m h 0) ∧ handles t' es' = (handles t es).erase h := by
  rcases find_visible rep visible with ⟨a, member, hit, found⟩ | ⟨absent, found⟩
  · have single := (rep.opened a member).2.2
    obtain ⟨es', smaller, fewer⟩ := represents_del rep member
    refine ⟨_, some (t.file (.entry a)), ?_, es', hit ▸ smaller, hit ▸ fewer⟩
    intro n enough
    unfold fdtEntryDel
    rw [findHandle_spec rep enough, found]
    simp only [Option.map_some, if_pos single]
  · have shut : m h = 0 := by
      by_contra some
      obtain ⟨a, member, hit⟩ := rep.closed h some
      exact absent a member hit
    have same : update m h 0 = m := by
      rw [← shut]
      exact update_eq_self h m
    have gone : h ∉ handles t es := fun member => (open_iff_mem rep h).mpr member shut
    refine ⟨t, none, ?_, es, same.symm ▸ rep, (List.erase_of_not_mem gone).symm⟩
    intro n enough
    unfold fdtEntryDel
    rw [findHandle_spec rep enough, found]
    rfl

theorem least_met_iff (least : LeastMissing ((examined (es.map .entry)).map t.handle) r) :
    LeastFree m r ↔ AddOk t m := by
  have bound := below_length least.2
  have few := entries_few rep
  rw [List.length_map, examined_length] at bound
  have head := rep.fdAlloc
  have low : ∀ k, k < r → m k ≠ 0 := by
    intro k below
    obtain ⟨c, met, hit⟩ := List.mem_map.mp (least.2 k below)
    rcases mem_examined met with ⟨rfl, _⟩ | ⟨a, member, rfl⟩
    · unfold pageOffset at head
      omega
    · exact (open_iff rep k).mpr ⟨a, member, hit⟩
  have unmet : ∀ a ∈ es, second t ≠ .entry a → t.handle (.entry a) ≠ r := by
    intro a member other hit
    exact least.1 (List.mem_map.mpr ⟨_, examined_entry rep.ring member other, hit⟩)
  constructor
  · intro free two
    match es, rep with
    | [], rep => exact absurd (second_few rep.ring (by simp)) two
    | [e], rep => exact absurd (second_few rep.ring (by simp)) two
    | e :: x :: rest, rep =>
      have second := second_many rep.ring
      have taken : m (t.handle (.entry x)) ≠ 0 := (open_iff rep _).mpr ⟨x, by simp, rfl⟩
      rw [second]
      refine ⟨r, ?_, free.1⟩
      by_contra above
      have other : t.handle (.entry x) ≠ r := fun same => taken (same ▸ free.1)
      obtain ⟨c, met, hit⟩ := List.mem_map.mp (least.2 (t.handle (.entry x)) (by omega))
      rw [List.map_cons, List.map_cons, examined_many] at met
      have distinct := rep.distinct
      simp only [List.mem_append, List.mem_map, List.mem_cons, List.not_mem_nil, or_false] at met
      simp only [handles, List.map_cons, List.nodup_cons, List.mem_cons, List.mem_map, not_or] at distinct
      rcases met with ⟨a, member, rfl⟩ | rfl | rfl
      · exact distinct.2.1 ⟨a, member, hit⟩
      · unfold pageOffset at head
        omega
      · exact distinct.1.1 hit
  · intro allowed
    refine ⟨?_, low⟩
    by_contra taken
    obtain ⟨a, member, hit⟩ := rep.closed r taken
    by_cases here : second t = .entry a
    · obtain ⟨k, below, free⟩ := allowed (by rw [here]; simp)
      rw [here, hit] at below
      exact low k below free
    · exact unmet a member here hit

theorem add_handle : ∃ r, r ≤ 2 ^ 30 ∧ (LeastFree m r ↔ AddOk t m) ∧
    ∀ n, es.length + 1 < n →
      (if t.links.listEmpty .fds then some 0 else handleSearch t n n 0) = some r := by
  have few := entries_few rep
  have length : ((examined (es.map .entry)).map t.handle).length = es.length := by
    rw [List.length_map, examined_length]
  by_cases empty : t.links.listEmpty .fds = true
  · have none : es = [] := by simpa using (Links.ring_empty_iff rep.ring).mp empty
    subst none
    have least : LeastMissing ((examined ([].map Cell.entry)).map t.handle) 0 :=
      ⟨by simp [examined], by simp⟩
    exact ⟨0, by omega, least_met_iff rep least, fun n _ => if_pos empty⟩
  · have search : ∀ n, es.length + 1 < n → ∃ r, handleSearch t n n 0 = some r ∧
        LeastMissing ((examined (es.map .entry)).map t.handle) r := by
      intro n enough
      apply handleSearch_spec rep.ring rfl
      · rw [length]
        unfold wordSize
        omega
      · rw [List.length_map]
        omega
      · simp
      · omega
    obtain ⟨r, _, least⟩ := search (es.length + 2) (by omega)
    have bound := below_length least.2
    refine ⟨r, by omega, least_met_iff rep least, ?_⟩
    intro n enough
    obtain ⟨g, ended, again⟩ := search n enough
    rw [if_neg empty, ended, least_unique again least]

end

def added (t : Table) (a handle file : Nat) : Table where
  links := t.links.listAdd (.entry a) .fds
  handle := update t.handle (.entry a) handle
  file := update t.file (.entry a) file
  refcount := update t.refcount (.entry a) 1

theorem handles_added (fresh : a ∉ es) (r file : Nat) :
    handles (added t a r file) (a :: es) = r :: handles t es := by
  have others : ∀ x ∈ es, (added t a r file).handle (.entry x) = t.handle (.entry x) := fun x here =>
    update_of_ne (by rintro ⟨⟩; exact fresh here) _ _
  simp only [handles, List.map_cons, List.map_congr_left others]
  simp [added]

theorem Fresh.not_mem (fresh : Fresh t a) (rep : Represents t es m) : a ∉ es := fun here =>
  fresh.2.2 _ rep.ring (List.mem_map_of_mem here)

theorem represents_add (rep : Represents t es m) {file : Nat} (some : file ≠ 0) (fresh : Fresh t a)
    (free : m r = 0) : Represents (added t a r file) (a :: es) (update m r file) := by
  have new := fresh.not_mem rep
  obtain ⟨low, high, off⟩ := fresh
  have absent : Cell.entry a ∉ es.map .entry := off _ rep.ring
  have other : ∀ x ∈ es, Cell.entry x ≠ Cell.entry a :=
    fun x here same => new (Cell.entry.inj same ▸ here)
  have away : ∀ x ∈ es, t.handle (.entry x) ≠ r :=
    fun x here same => (open_iff rep r).mpr ⟨x, here, same⟩ free
  refine ⟨?_, ?_, ?_, ?_, ?_, ?_⟩
  · exact Links.ring_listAdd rep.ring (by simpa using absent)
  · intro x member
    rcases List.mem_cons.mp member with rfl | here
    · exact ⟨low, high⟩
    · exact rep.kernel x here
  · simpa [added] using rep.fdAlloc
  · rw [handles_added new, List.nodup_cons]
    exact ⟨fun member => (open_iff_mem rep r).mpr member free, rep.distinct⟩
  · intro x member
    rcases List.mem_cons.mp member with rfl | here
    · simpa [added] using some
    · have apart := other x here
      simp only [added, update_of_ne apart, update_of_ne (away x here)]
      exact rep.opened x here
  · intro h open'
    by_cases hit : h = r
    · exact ⟨a, List.mem_cons_self, by simp [added, hit]⟩
    · rw [update_of_ne hit] at open'
      obtain ⟨x, here, is⟩ := rep.closed h open'
      refine ⟨x, List.mem_cons_of_mem a here, ?_⟩
      simp only [added, update_of_ne (other x here)]
      exact is

theorem fdtEntryAdd_spec (rep : Represents t es m) {file : Nat} (some' : file ≠ 0)
    (fresh : Fresh t a) : ∃ r, (LeastFree m r ↔ AddOk t m) ∧
      (∀ n, es.length + 1 < n → fdtEntryAdd n t file (some a) = some (added t a r file, (r : Int))) ∧
      (LeastFree m r → Represents (added t a r file) (a :: es) (update m r file)) := by
  obtain ⟨r, small, free, found⟩ := add_handle rep
  refine ⟨r, free, ?_, fun least => represents_add rep some' fresh least.1⟩
  intro n enough
  have result : toInt r = (r : Int) := if_pos (by omega)
  unfold fdtEntryAdd
  rw [if_neg some']
  simp only [found n enough, Option.map_some, result]
  rfl

end Table

end ScaraOS.Fdt
