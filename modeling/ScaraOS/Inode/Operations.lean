import ScaraOS.Inode.Cache

/-! The operations on the inode cache, one by one, and whole runs of them. A count that is
not incremented at its greatest value is zero exactly for the inodes no one holds. -/
namespace ScaraOS.InodeCache

open RbTree
open Function (update update_of_ne update_self)

variable {i sb ino : Nat} {s' : State} {op : Op}

section Operations

variable {s : State} {shape : Nat → Shape} {slack : List Nat}

theorem Inv.on_list (inv : Inv s shape slack) :
    some i ∈ none :: slack.map some ↔ i ∈ s.live ∧ s.count i = 0 := by
  simp [inv.slack]

theorem Inv.listDel (inv : Inv s shape slack) (live : i ∈ s.live) :
    (s.links.listDel (some i)).Ring none ((slack.erase i).map some) ∧
      ∀ j ∈ s.live, s.count j ≠ 0 → (s.links.listDel (some i)).next (some j) = some j ∧
        (s.links.listDel (some i)).prev (some j) = some j := by
  by_cases zero : s.count i = 0
  · have member : i ∈ slack := (inv.slack i).mpr ⟨live, zero⟩
    constructor
    · obtain ⟨l, r, split⟩ := List.mem_iff_append.mp member
      have ring := inv.ring
      have distinct : (l ++ i :: r).Nodup :=
        split ▸ List.Nodup.of_map _ (List.nodup_cons.mp inv.ring.2).2
      have out : i ∉ l := fun inside => (List.nodup_append'.mp distinct).2.2 inside List.mem_cons_self
      rw [split, List.map_append, List.map_cons] at ring
      rw [split, List.erase_append_right _ out, List.erase_cons_head, List.map_append]
      exact Links.ring_listDel ring
    · intro j liveJ used
      have off : some j ∉ none :: slack.map some := fun on => used (inv.on_list.mp on).2
      obtain ⟨next, prev⟩ := Links.listDel_frame inv.ring (List.mem_map_of_mem member) off
      obtain ⟨nextJ, prevJ⟩ := inv.alone j liveJ used
      exact ⟨next.trans nextJ, prev.trans prevJ⟩
  · have absent : i ∉ slack := fun member => zero ((inv.slack i).mp member).2
    obtain ⟨next, prev⟩ := inv.alone i live zero
    rw [Links.listDel_self next prev, List.erase_of_not_mem absent]
    exact ⟨inv.ring, inv.alone⟩

theorem Inv.slack_nodup (inv : Inv s shape slack) : slack.Nodup :=
  List.Nodup.of_map _ (List.nodup_cons.mp inv.ring.2).2

theorem count_more {c : Nat} (room : c < 2 ^ 32 - 1) : (c + 1) % 2 ^ 32 = c + 1 :=
  Nat.mod_eq_of_lt (by omega)

theorem Inv.hit (inv : Inv s shape slack) (live : i ∈ s.live) (room : s.count i < 2 ^ 32 - 1) :
    Inv { addRef s i with links := s.links.listDel (some i) } shape (slack.erase i) := by
  obtain ⟨ring, alone⟩ := inv.listDel live
  have more := count_more room
  constructor
  case forest => exact inv.forest
  case sorted => exact inv.sorted
  case members => exact inv.members
  case ring => exact ring
  case slack =>
    intro j
    rw [inv.slack_nodup.mem_erase_iff, inv.slack]
    by_cases same : j = i
    · subst same
      simp only [addRef, update_self, more]
      simp
    · simp [same, addRef]
  case alone =>
    intro j liveJ used
    by_cases same : j = i
    · subst same
      exact Links.listDel_unlinked s.links (some j)
    · exact alone j liveJ (by simpa [addRef, same] using used)
  case counted =>
    intro j
    by_cases same : j = i
    · subst same
      have before := inv.counted j
      rw [if_pos live] at before
      simp only [addRef, update_self, more, before, if_pos live]
    · simpa [addRef, same] using inv.counted j
  case small =>
    intro j liveJ
    by_cases same : j = i
    · subst same
      simp only [addRef, update_self, more]
      omega
    · simpa [addRef, same] using inv.small j liveJ

theorem Inv.held (inv : Inv s shape slack) (held : 0 < s.refs i) :
    i ∈ s.live ∧ s.refs i = s.count i := by
  have counted := inv.counted i
  split at counted
  · exact ⟨‹_›, counted⟩
  · omega

theorem iref_inv (inv : Inv s shape slack) (held : 0 < s.refs i) (room : s.count i < 2 ^ 32 - 1) :
    Inv (iref s i) shape slack := by
  obtain ⟨live, same⟩ := inv.held held
  have used : s.count i ≠ 0 := by omega
  obtain ⟨next, prev⟩ := inv.alone i live used
  have kept := inv.hit live room
  rw [Links.listDel_self next prev, List.erase_of_not_mem fun member => used ((inv.slack i).mp member).2]
    at kept
  exact kept

@[simp] theorem dropRef_links (s : State) (i : Nat) : (dropRef s i).links = s.links := rfl

@[simp] theorem dropRef_live (s : State) (i : Nat) : (dropRef s i).live = s.live := rfl

section

variable (inv : Inv s shape slack)
include inv

theorem Inv.dropRef_counted (live : i ∈ s.live) (same : s.refs i = s.count i) (j : Nat) :
    (dropRef s i).refs j = if j ∈ s.live then (dropRef s i).count j else 0 := by
  by_cases here : j = i
  · subst here
    simp [dropRef, live, same]
  · simpa [dropRef, here] using inv.counted j

theorem Inv.dropRef_small (i : Nat) : ∀ j ∈ s.live, (dropRef s i).count j < 2 ^ 32 := by
  intro j liveJ
  have bound := inv.small j liveJ
  by_cases here : j = i
  · subst here
    simp only [dropRef, update_self]
    omega
  · simpa [dropRef, here] using bound

theorem iput_inv (held : 0 < s.refs i) (ran : iput s i = some s') :
    ∃ slack', Inv s' shape slack' := by
  obtain ⟨live, same⟩ := inv.held held
  have used : s.count i ≠ 0 := by omega
  have off : some i ∉ none :: slack.map some := fun on => used (inv.on_list.mp on).2
  have others : ∀ j, j ≠ i → (dropRef s i).count j = s.count j := fun j apart =>
    update_of_ne apart _ _
  simp only [iput, if_neg used] at ran
  split at ran
  · rename_i zero
    simp only [inodeFree, zero, ne_eq, not_true_eq_false, if_false] at ran
    cases ran
    refine ⟨slack ++ [i], inv.forest, inv.sorted, inv.members, ?_, ?_, ?_,
      inv.dropRef_counted live same, inv.dropRef_small i⟩
    · simpa using Links.ring_listAddTail inv.ring off
    · intro j
      rw [List.mem_append, inv.slack]
      by_cases here : j = i
      · subst here
        simpa [zero] using live
      · simp [here, others j here]
    · intro j liveJ usedJ
      have here : j ≠ i := by
        rintro rfl
        exact usedJ zero
      have before : s.count j ≠ 0 := others j here ▸ usedJ
      have offJ : some j ∉ none :: slack.map some := fun on => before (inv.on_list.mp on).2
      have apart : some j ≠ some i := fun eq => here (Option.some.inj eq)
      obtain ⟨next, prev⟩ := Links.listAddTail_frame inv.ring apart offJ
      obtain ⟨nextJ, prevJ⟩ := inv.alone j liveJ before
      exact ⟨next.trans nextJ, prev.trans prevJ⟩
  · rename_i more
    cases ran
    refine ⟨slack, inv.forest, inv.sorted, inv.members, inv.ring, ?_, ?_,
      inv.dropRef_counted live same, inv.dropRef_small i⟩
    · intro j
      rw [inv.slack]
      by_cases here : j = i
      · subst here
        simp [used, more]
      · simp [others j here]
    · intro j liveJ usedJ
      by_cases here : j = i
      · exact here ▸ inv.alone i live used
      · exact inv.alone j liveJ (others j here ▸ usedJ)

theorem Inv.fresh (new : i ∉ s.live) :
    (∀ sb, i ∉ (shape sb).inorder) ∧ some i ∉ none :: slack.map some :=
  ⟨fun sb member => new ((inv.members sb i).mp member).1, fun on => new (inv.on_list.mp on).1⟩

theorem Inv.newInode (new : i ∉ s.live) (sb ino : Nat) :
    Inv (objcacheFree2 (newInode s i sb ino) i) shape slack := by
  obtain ⟨out, off⟩ := inv.fresh new
  have same : (insert i s.live).erase i = s.live := Finset.erase_insert new
  have other : ∀ j ∈ s.live, j ≠ i := by
    rintro j live rfl
    exact new live
  have others : ∀ k, ∀ j ∈ (shape k).inorder, j ≠ i := by
    rintro k j member rfl
    exact out k member
  constructor
  case forest =>
    exact inv.forest.congr fun k j member => update_of_ne (others k j member) _ _
  case sorted =>
    intro k
    exact sorted_congr (fun j member => update_of_ne (others k j member) _ _) (inv.sorted k)
  case members =>
    intro k j
    rw [inv.members]
    simp only [objcacheFree2, InodeCache.newInode, same]
    constructor
    · rintro ⟨live, mine⟩
      exact ⟨live, (update_of_ne (other j live) _ _).trans mine⟩
    · rintro ⟨live, mine⟩
      exact ⟨live, (update_of_ne (other j live) _ _).symm.trans mine⟩
  case ring =>
    apply Links.ring_congr _ _ inv.ring
    · exact fun y member => Links.initListHead_next _ _ _ fun eq => off (eq ▸ member)
    · exact fun y member => Links.initListHead_prev _ _ _ fun eq => off (eq ▸ member)
  case slack =>
    intro j
    rw [inv.slack]
    simp only [objcacheFree2, InodeCache.newInode, same]
    constructor
    · rintro ⟨live, zero⟩
      exact ⟨live, (update_of_ne (other j live) _ _).trans zero⟩
    · rintro ⟨live, zero⟩
      exact ⟨live, (update_of_ne (other j live) _ _).symm.trans zero⟩
  case alone =>
    simp only [objcacheFree2, InodeCache.newInode, same]
    intro j live used
    rw [update_of_ne (other j live)] at used
    have apart : some j ≠ some i := fun eq => other j live (Option.some.inj eq)
    obtain ⟨next, prev⟩ := inv.alone j live used
    exact ⟨(Links.initListHead_next _ _ _ apart).trans next,
      (Links.initListHead_prev _ _ _ apart).trans prev⟩
  case counted =>
    intro j
    simp only [objcacheFree2, InodeCache.newInode, same]
    rw [inv.counted]
    split
    · rename_i live
      exact (update_of_ne (other j live) _ _).symm
    · rfl
  case small =>
    simp only [objcacheFree2, InodeCache.newInode, same]
    intro j live
    rw [update_of_ne (other j live)]
    exact inv.small j live

theorem insert_inv {p : Path} (new : i ∉ s.live) (nonzero : i ≠ 0) (aligned : i % 4 = 0)
    (place : Path.plug .leaf p = shape sb) (between : p.Between s.ino ino) :
    ∃ t shape', Tree.insertColor (walk (addRef (newInode s i sb ino) i))
        (Tree.linkNode (tree (addRef (newInode s i sb ino) i) sb) i p.slot) i = some t ∧
      Inv (withTree (addRef (newInode s i sb ino) i) sb t) shape' slack := by
  obtain ⟨out, off⟩ := inv.fresh new
  have kept := inv.newInode new sb ino
  have apart : ∀ j ∈ s.live, j ≠ i := by
    rintro j live rfl
    exact new live
  have more : walk (addRef (newInode s i sb ino) i) = walk s + 1 :=
    congrArg (· + 1) (Finset.card_insert_of_notMem new)
  have enough : (shape sb).inorder.length < walk (addRef (newInode s i sb ino) i) := by
    rw [more]
    exact Nat.lt_succ_of_lt (inv.few sb)
  obtain ⟨t, shape', ran, order, -, forest⟩ :=
    kept.forest.insert (k := sb) place nonzero aligned out enough
  have others : ∀ k, ∀ j ∈ (shape k).inorder, update s.ino i ino j = s.ino j := by
    intro k j member
    apply update_of_ne
    rintro rfl
    exact out k member
  have grown : ∀ j, j ∈ (withTree (addRef (newInode s i sb ino) i) sb t).live ↔ j = i ∨ j ∈ s.live :=
    fun _ => Finset.mem_insert
  refine ⟨t, update shape sb shape', ran, ?_⟩
  constructor
  case forest => exact forest
  case sorted =>
    intro k
    by_cases same : k = sb
    · subst same
      rw [update_self, order]
      refine Path.between_sorted (n := i) place (kept.sorted k) ?_
      have mine : (withTree (addRef (newInode s i k ino) i) k t).ino i = ino := update_self ..
      rw [mine]
      apply Path.between_congr _ between
      rw [← Path.inorder_hole place]
      exact others k
    · rw [update_of_ne same]
      exact kept.sorted k
  case members =>
    intro k j
    have known : j ∈ (shape sb).inorder ↔ j ∈ p.before ++ p.after := by
      rw [Path.inorder_hole place]
    by_cases here : j = i
    · subst here
      have mine : (withTree (addRef (newInode s j sb ino) j) sb t).sb j = sb := update_self ..
      rw [grown, mine]
      by_cases same : k = sb
      · subst same
        simp [order]
      · have differ : sb ≠ k := fun eq => same eq.symm
        simp [update_of_ne same, out k, differ]
    · have theirs : (withTree (addRef (newInode s i sb ino) i) sb t).sb j = s.sb j :=
        update_of_ne here _ _
      rw [grown, theirs]
      by_cases same : k = sb
      · subst same
        rw [update_self, order]
        have old := inv.members k j
        rw [known] at old
        simpa [here] using old
      · rw [update_of_ne same, inv.members]
        simp [here]
  case ring => exact kept.ring
  case slack =>
    intro j
    rw [inv.slack]
    rw [grown]
    by_cases here : j = i
    · subst here
      simp [new, withTree, addRef, InodeCache.newInode]
    · simp [here, withTree, addRef, InodeCache.newInode]
  case alone =>
    intro j liveJ used
    rcases Finset.mem_insert.mp liveJ with rfl | old
    · simp [withTree, addRef, InodeCache.newInode, Links.initListHead, Links.setNext, Links.setPrev]
    · have here := apart j old
      have before : s.count j ≠ 0 := by
        simpa [withTree, addRef, InodeCache.newInode, here] using used
      have other : some j ≠ some i := fun eq => here (Option.some.inj eq)
      obtain ⟨next, prev⟩ := inv.alone j old before
      exact ⟨(Links.initListHead_next _ _ _ other).trans next,
        (Links.initListHead_prev _ _ _ other).trans prev⟩
  case counted =>
    intro j
    by_cases here : j = i
    · subst here
      have none := inv.counted j
      rw [if_neg new] at none
      rw [if_pos ((grown j).mpr (.inl rfl))]
      simp [withTree, addRef, InodeCache.newInode, none]
    · have old := inv.counted j
      have same : (j = i ∨ j ∈ s.live) ↔ j ∈ s.live := or_iff_right here
      simp only [grown, same]
      simpa [withTree, addRef, InodeCache.newInode, here] using old
  case small =>
    intro j liveJ
    rcases Finset.mem_insert.mp liveJ with rfl | old
    · simp [withTree, addRef, InodeCache.newInode]
    · simpa [withTree, addRef, InodeCache.newInode, apart j old] using inv.small j old

theorem kill_spec (live : i ∈ s.live) (zero : s.count i = 0) :
    ∃ s' shape', kill s i = some s' ∧ Inv s' shape' (slack.erase i) ∧
      s'.live = s.live.erase i ∧ s'.count = s.count ∧ s'.sb = s.sb := by
  have member := (inv.members (s.sb i) i).mpr ⟨live, rfl⟩
  obtain ⟨t, shape', ran, order, -, forest⟩ := inv.forest.erase member (inv.few (s.sb i))
  obtain ⟨ring, alone⟩ := inv.listDel live
  have gone : ∀ j, j ∈ s.live.erase i ↔ j ≠ i ∧ j ∈ s.live := fun j => Finset.mem_erase
  have killed : kill s i = some (objcacheFree2
      { withTree s (s.sb i) t with links := s.links.listDel (some i) } i) := by
    simp only [kill, tree, ran]
    rfl
  refine ⟨_, update shape (s.sb i) shape', killed, ?_, rfl, rfl, rfl⟩
  constructor
  case forest => exact forest
  case sorted =>
    intro k
    by_cases same : k = s.sb i
    · subst same
      rw [update_self, order]
      exact List.Pairwise.sublist List.erase_sublist (inv.sorted (s.sb i))
    · rw [update_of_ne same]
      exact inv.sorted k
  case members =>
    intro k j
    simp only [objcacheFree2, withTree, gone]
    by_cases same : k = s.sb i
    · subst same
      rw [update_self, order, (inv.forest.distinct _).mem_erase_iff, inv.members]
      simp [and_assoc]
    · rw [update_of_ne same, inv.members]
      constructor
      · rintro ⟨liveJ, mine⟩
        refine ⟨⟨?_, liveJ⟩, mine⟩
        rintro rfl
        exact same mine.symm
      · rintro ⟨⟨-, liveJ⟩, mine⟩
        exact ⟨liveJ, mine⟩
  case ring => exact ring
  case slack =>
    intro j
    simp only [objcacheFree2, withTree, gone]
    rw [inv.slack_nodup.mem_erase_iff, inv.slack]
    simp [and_assoc]
  case alone =>
    simp only [objcacheFree2, withTree, gone]
    exact fun j both used => alone j both.2 used
  case counted =>
    intro j
    simp only [objcacheFree2, withTree, gone]
    rw [inv.counted]
    by_cases here : j = i
    · subst here
      simp [live, zero]
    · simp [here]
  case small =>
    simp only [objcacheFree2, withTree, gone]
    exact fun j both => inv.small j both.2

/-- The induction is on what is left of the list; `tmp` is the entry behind its first one,
read before that is killed. -/
theorem killLoop_spec {n : Nat} {tmp : Option Nat} (enough : slack.length < n)
    (saved : slack ≠ [] → tmp = slack.tail.head?) :
    ∃ s' shape', killLoop n s slack.head? tmp = some s' ∧ Inv s' shape' [] ∧
      (∀ i, i ∈ s'.live ↔ i ∈ s.live ∧ s.count i ≠ 0) ∧ s'.sb = s.sb := by
  induction slack generalizing n s shape tmp with
  | nil =>
    obtain ⟨n, rfl⟩ := Nat.exists_eq_add_of_lt enough
    refine ⟨s, shape, by simp [killLoop], inv, fun i => ?_, rfl⟩
    have none := inv.slack i
    simp only [List.not_mem_nil, false_iff, not_and] at none
    exact ⟨fun live => ⟨live, none live⟩, And.left⟩
  | cons i rest ih =>
    obtain ⟨n, rfl⟩ : ∃ k, n = k + 1 := ⟨n - 1, by simp at enough; omega⟩
    obtain ⟨live, zero⟩ := (inv.slack i).mp List.mem_cons_self
    obtain ⟨s₁, shape₁, killed, inv₁, live₁, count₁, sb₁⟩ := kill_spec inv live zero
    rw [List.erase_cons_head] at inv₁
    have first : tmp = rest.head? := saved (List.cons_ne_nil i rest)
    have next : rest ≠ [] → s₁.links.next tmp = rest.tail.head? := by
      intro some
      obtain ⟨j, later, rfl⟩ := List.exists_cons_of_ne_nil some
      have seg := inv₁.ring.1.2
      have reads := Links.seg_next s₁.links seg
      rw [first]
      cases later with
      | nil | cons k more => simpa using reads
    obtain ⟨s', shape', ran, inv', live', sb'⟩ := ih inv₁ (by simp at enough; omega) next
    refine ⟨s', shape', ?_, inv', ?_, sb'.trans sb₁⟩
    · simp only [killLoop, List.head?_cons, killed, Option.bind_some]
      rw [first]
      rw [first] at ran
      exact ran
    · intro j
      rw [live' j, live₁, count₁, Finset.mem_erase]
      constructor
      · rintro ⟨⟨-, liveJ⟩, used⟩
        exact ⟨liveJ, used⟩
      · rintro ⟨liveJ, used⟩
        refine ⟨⟨?_, liveJ⟩, used⟩
        rintro rfl
        exact used zero

theorem Inv.next_head : s.links.next none = slack.head? := by
  have reads := Links.seg_next s.links inv.ring.1
  cases slack with
  | nil | cons i rest => simpa using reads

theorem squeeze_spec :
    ∃ s' shape', squeezeInodeCache s = some s' ∧ Inv s' shape' [] ∧
      (∀ i, i ∈ s'.live ↔ i ∈ s.live ∧ s.count i ≠ 0) ∧ s'.sb = s.sb := by
  unfold squeezeInodeCache
  simp only [inv.next_head]
  apply killLoop_spec inv inv.slack_few
  intro some
  obtain ⟨i, rest, rfl⟩ := List.exists_cons_of_ne_nil some
  have reads := Links.seg_next s.links inv.ring.1.2
  cases rest with
  | nil | cons j later => simpa using reads

theorem iget_cases {alloc : Option Nat} {ok : Bool} {got : Got}
    (ran : iget s sb ino alloc ok = some (s', got)) :
    (∃ i, Cached s sb i ∧ s.ino i = ino ∧ search s sb ino = some (.node i) ∧ got = ⟨some i, false⟩ ∧
      s' = { addRef s i with links := s.links.listDel (some i) }) ∨
    (∃ slot, search s sb ino = some (.slot slot)) ∧
      (got = ⟨none, false⟩ ∧ s' = s ∨
      ∃ i, i ∉ s.live ∧
        (ok = true ∧ got = ⟨some i, true⟩ ∧ (∃ shape', Inv s' shape' slack) ∨
        ok = false ∧ got = ⟨none, true⟩ ∧ s' = objcacheFree2 (newInode s i sb ino) i)) := by
  rcases inv.search_cases sb ino with ⟨i, cached, key, found⟩ | ⟨p, place, between, found⟩
  · simp only [iget, found, Option.bind_eq_bind, Option.bind_some] at ran
    cases ran
    exact .inl ⟨i, cached, key, found, rfl, rfl⟩
  · simp only [iget, found, Option.bind_eq_bind, Option.bind_some] at ran
    refine .inr ⟨⟨_, found⟩, ?_⟩
    cases alloc with
    | none =>
      cases ran
      exact .inl ⟨rfl, rfl⟩
    | some i =>
      simp only at ran
      split at ran
      · cases ran
      · rename_i given
        simp only [not_or, not_not] at given
        obtain ⟨nonzero, aligned, new⟩ := given
        refine .inr ⟨i, new, ?_⟩
        split at ran
        · rename_i read
          obtain ⟨t, shape', inserted, inv'⟩ := insert_inv inv new nonzero aligned place between
          rw [inserted, Option.bind_some] at ran
          cases ran
          exact .inl ⟨read, rfl, shape', inv'⟩
        · rename_i failed
          cases ran
          exact .inr ⟨by simpa using failed, rfl, rfl⟩

end

end Operations

def Room (s : State) : Op → Prop
  | .iget sb ino _ _ => ∀ i, search s sb ino = some (.node i) → s.count i < 2 ^ 32 - 1
  | .iref i => s.count i < 2 ^ 32 - 1
  | _ => True

instance (s : State) (op : Op) : Decidable (Room s op) :=
  match op with
  | .iget sb ino _ _ =>
    match found : search s sb ino with
    | some (.node i) => decidable_of_iff (s.count i < 2 ^ 32 - 1) (by simp [Room, found])
    | some (.slot _) => isTrue (by simp [Room, found])
    | none => isTrue (by simp [Room, found])
  | .iref i => inferInstanceAs (Decidable (s.count i < 2 ^ 32 - 1))
  | .iput _ => isTrue trivial
  | .squeeze => isTrue trivial

section Steps

variable {s : State} {shape : Nat → Shape} {slack : List Nat}

section

variable (inv : Inv s shape slack)
include inv

theorem step_inv (room : Room s op) (ran : step s op = some s') :
    ∃ shape' slack', Inv s' shape' slack' := by
  cases op with
  | iget sb ino alloc ok =>
    obtain ⟨⟨s₁, got⟩, called, rfl⟩ := Option.map_eq_some_iff.mp ran
    rcases iget_cases inv called with ⟨i, cached, -, found, -, rfl⟩ | ⟨-, miss⟩
    · exact ⟨shape, _, inv.hit (inv.cached_iff.mp cached).1 (room i found)⟩
    · rcases miss with ⟨-, rfl⟩ | ⟨i, new, ⟨-, -, shape', inv'⟩ | ⟨-, -, rfl⟩⟩
      · exact ⟨shape, slack, inv⟩
      · exact ⟨shape', slack, inv'⟩
      · exact ⟨shape, slack, inv.newInode new sb ino⟩
  | iref i =>
    simp only [step] at ran
    split at ran
    · rename_i held
      cases ran
      exact ⟨shape, slack, iref_inv inv held room⟩
    · cases ran
  | iput i =>
    simp only [step] at ran
    split at ran
    · rename_i held
      obtain ⟨slack', inv'⟩ := iput_inv inv held ran
      exact ⟨shape, slack', inv'⟩
    · cases ran
  | squeeze =>
    obtain ⟨s₁, shape₁, squeezed, inv₁, -⟩ := squeeze_spec inv
    cases squeezed.symm.trans ran
    exact ⟨shape₁, [], inv₁⟩

theorem newInode_unchanged (new : i ∉ s.live) :
    Unchanged s (objcacheFree2 (newInode s i sb ino) i) where
  trees := by
    refine fun k => ⟨rfl, fun j cached => ?_⟩
    have apart : j ≠ i := by
      rintro rfl
      exact new (inv.cached_iff.mp cached).1
    exact ⟨update_of_ne apart _ _, update_of_ne apart _ _,
      update_of_ne apart _ _⟩
  slack := by
    intro l
    rw [inv.slack_iff, (inv.newInode new sb ino).slack_iff]
  live := Finset.erase_insert new

theorem right_of_room (room : Room s op) : Right s op where
  orderly := by
    intro s' ran
    obtain ⟨shape', slack', inv'⟩ := step_inv inv room ran
    exact inv'.orderly
  hit := by
    rintro sb ino alloc ok i rfl cached rfl
    have found := inv.search_hit cached
    refine ⟨{ addRef s i with links := s.links.listDel (some i) }, by simp [iget, found], ?_⟩
    exact (update_self ..).trans (count_more (room i found))
  failed := by
    rintro sb ino alloc s' rfl ran
    rcases iget_cases inv ran with ⟨i, -, -, -, got, -⟩ | ⟨-, ⟨got, -⟩ | ⟨i, new, ⟨ok, -⟩ | ⟨-, -, rfl⟩⟩⟩
    · cases got
    · cases got
    · cases ok
    · exact newInode_unchanged inv new
  squeezed := by
    rintro rfl
    obtain ⟨s', shape', ran, inv', live, sb⟩ := squeeze_spec inv
    refine ⟨s', ran, fun k i => ?_, fun i => ?_⟩
    · rw [inv'.cached_iff, inv.cached_iff, live, sb]
      tauto
    · rw [inv.cached_live, live]
      tauto

theorem room_of_right (ran : step s op = some s') (right : Right s op) : Room s op := by
  cases op with
  | iget sb ino alloc ok =>
    intro i found
    obtain ⟨⟨s₁, got⟩, called, rfl⟩ := Option.map_eq_some_iff.mp ran
    rcases iget_cases inv called with ⟨j, cached, key, found', -, -⟩ | ⟨⟨slot, found'⟩, -⟩
    · cases Found.node.inj (Option.some.inj (found.symm.trans found'))
      obtain ⟨s₂, called₂, count⟩ := right.hit sb ino alloc ok i rfl cached key
      have evaluated : iget s sb ino alloc ok =
          some ({ addRef s i with links := s.links.listDel (some i) }, ⟨some i, false⟩) := by
        simp [iget, found]
      cases evaluated.symm.trans called₂
      have wrapped : (s.count i + 1) % 2 ^ 32 = s.count i + 1 := by
        simpa only [addRef, update_self] using count
      have below : (s.count i + 1) % 2 ^ 32 < 2 ^ 32 := Nat.mod_lt _ (by decide)
      omega
    · cases found.symm.trans found'
  | iref i =>
    simp only [step] at ran
    split at ran
    · rename_i held
      cases ran
      obtain ⟨live, same⟩ := inv.held held
      by_contra full
      have small := inv.small i live
      have top : s.count i = 2 ^ 32 - 1 := by
        simp only [Room] at full
        omega
      have zero : (iref s i).count i = 0 := by simp [iref, addRef, top]
      -- it is still in the tree, and not on the list
      obtain ⟨l, ring, members⟩ := (right.orderly (iref s i) (by simp [step, held])).slack
      rw [show l = slack from inv.slack_iff.mp ring] at members
      have member := (members i).mpr ⟨inv.cached_live.mpr live, zero⟩
      have wasZero := ((inv.slack i).mp member).2
      omega
    · cases ran
  | iput i | squeeze => trivial

end

end Steps

/-- Every run: each of its steps is right if and only if none of them increments a count that
is at its greatest value. -/
theorem inode_cache_right_iff (ops : List Op) (s : State) (ran : Run.exec step init ops = some s) :
    Run.Along step Right init ops ↔ Run.Along step Room init ops := by
  refine Run.along_iff_of_invariant (fun s => ∃ shape slack, Inv s shape slack) ?_ ?_
    ⟨_, [], init_inv⟩ ran
  · rintro s op t ⟨shape, slack, inv⟩ stepped
    exact ⟨room_of_right inv stepped, right_of_room inv⟩
  · rintro s op t room ⟨shape, slack, inv⟩ stepped
    exact step_inv inv room stepped

/-- Two super blocks with an inode of one number, one of them read again after it was put,
the other killed. -/
def sampleRun : List Op :=
  [.iget 1 2 (some 64) true, .iget 5 2 (some 128) true, .iget 1 9 (some 192) false,
    .iget 1 7 (some 192) true, .iput 64, .iput 128, .iget 1 2 none true, .iref 64, .squeeze]

theorem inode_cache_right_sample : ∃ s, Run.exec step init sampleRun = some s ∧
    Run.Along step Right init sampleRun := by
  have room : Run.Along step Room init sampleRun := by decide +kernel
  obtain ⟨s, ran⟩ : ∃ s, Run.exec step init sampleRun = some s :=
    Option.isSome_iff_exists.mp (by decide +kernel)
  exact ⟨s, ran, (inode_cache_right_iff sampleRun s ran).mpr room⟩

/-- `n` more references to an inode. -/
def addRefs (s : State) (i n : Nat) : State :=
  { s with
    count := update s.count i ((n + s.count i) % 2 ^ 32)
    refs := update s.refs i (n + s.refs i) }

theorem step_addRefs {s : State} (held : 0 < s.refs i) (n : Nat) :
    step (addRefs s i n) (.iref i) = some (addRefs s i (n + 1)) := by
  have here : 0 < n + s.refs i := Nat.add_pos_right n held
  simp [step, iref, addRef, addRefs, here, Nat.add_right_comm n]

theorem iref_wraps (n : Nat) (full : (n + 1) % 2 ^ 32 = 0) : ∃ s,
    Run.exec step init (.iget 1 2 (some 64) true :: List.replicate n (.iref 64)) = some s ∧
    0 < s.refs 64 ∧ ¬ Orderly s := by
  obtain ⟨s₁, first, refs, count, empty, root, node⟩ :=
    Run.decided (step init (.iget 1 2 (some 64) true))
      (fun s => s.refs 64 = 1 ∧ s.count 64 = 1 ∧ s.links.next none = none ∧ s.root 1 = 64 ∧
        s.rb 64 = ⟨1, 0, 0⟩) (by decide +kernel)
  have ran := Run.exec_replicate (addRefs s₁ 64) (step_addRefs (by omega)) n
  have start : addRefs s₁ 64 0 = s₁ := by
    rw [addRefs, Nat.zero_add, Nat.mod_eq_of_lt (by rw [count]; decide),
      Function.update_eq_self, Nat.zero_add, Function.update_eq_self]
  rw [start] at ran
  refine ⟨_, (Run.exec_cons ..).mpr ⟨s₁, first, ran⟩, by simp [addRefs, refs], ?_⟩
  intro orderly
  obtain ⟨l, ring, members⟩ := orderly.slack
  have zero : (addRefs s₁ 64 n).count 64 = 0 := by
    simp only [addRefs, update_self, count, full]
  have cached : Cached (addRefs s₁ 64 n) 1 64 := by
    refine ⟨.node 64 .leaf .leaf, ?_, List.mem_singleton_self 64⟩
    change Rep s₁.rb (s₁.root 1) 0 _
    rw [root]
    exact ⟨rfl, by decide, by rw [node]; rfl, by rw [node]; rfl, by rw [node]; rfl⟩
  have listed : 64 ∈ l := (members 64).mpr ⟨⟨1, cached⟩, zero⟩
  have none : s₁.links.listEmpty none = true := by simpa [Links.listEmpty] using empty
  have nil := (Links.ring_empty_iff ring).mp none
  rw [List.map_eq_nil_iff] at nil
  rw [nil] at listed
  cases listed

theorem inode_count_wraps : ∃ s, Run.exec step init
      (.iget 1 2 (some 64) true :: List.replicate (2 ^ 32 - 1) (.iref 64)) = some s ∧
    0 < s.refs 64 ∧ ¬ Orderly s :=
  iref_wraps (2 ^ 32 - 1) (by decide)

end ScaraOS.InodeCache
