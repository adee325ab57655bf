import ScaraOS.Pages.Ownership

/-! Who uses a page frame. The words of `u` belong to the free list, to one slab or to
one page-cache tree, and the count of a frame tells a free frame from the others, as
long as no page of a page cache is freed and no count runs over. -/
namespace ScaraOS.Pages

open Function RbTree

inductive Reaches (rb : Nat → RbNode) : Nat → Nat → Prop where
  | here {a : Nat} (nonzero : a ≠ 0) : Reaches rb a a
  | down {a b : Nat} (s : Side) (nonzero : a ≠ 0) (below : Reaches rb ((rb a).child s) b) :
      Reaches rb a b

def OnFreeList (m : Machine) (s : State) (f : Nat) : Prop :=
  ∃ free, Links.Ring (links s.u) m.freeList free ∧ f ∈ free

def InTree (s : State) (ino f : Nat) : Prop := Reaches (nodes s.u) (s.root ino) f

structure Ownership (m : Machine) (s : State) : Prop where
  freeList : ∃ free, Links.Ring (links s.u) m.freeList free ∧ s.nrFreepages = free.length ∧
    ∀ f, f ∈ free ↔ f ∈ m.frames ∧ m.reserved f = false ∧ s.count f = 0
  alloc : ∀ s' f, allocPage m s = some (s', some f) →
    s.owner f = .free ∧ ∀ ino, ¬ InTree s ino f
  freeOnly : ∀ f, OnFreeList m s f → s.owner f ≠ .slab ∧ ∀ ino, ¬ InTree s ino f
  slabOnly : ∀ f, s.owner f = .slab → ∀ ino, ¬ InTree s ino f
  oneTree : ∀ f ino ino', InTree s ino f → InTree s ino' f → ino = ino'

variable {f ino : Nat} {m : Machine} {s : State} {done : List Nat}

theorem reaches_mem {rb : Nat → RbNode} {root parent : Nat} {shape : Shape}
    (reaches : Reaches rb root f) (rep : Rep rb root parent shape) : f ∈ shape.inorder := by
  induction reaches generalizing parent shape with
  | here nonzero => exact (rep_root_mem rep).resolve_left nonzero
  | @down a b s nonzero _ ih =>
    cases shape with
    | leaf => exact absurd rep nonzero
    | node c l r =>
      obtain ⟨rfl, -, -, repL, repR⟩ := rep
      cases s with
      | left => exact List.mem_append_left _ (ih repL)
      | right => exact List.mem_append_right _ (List.mem_cons_of_mem _ (ih repR))

def managed (m : Machine) (f : Nat) : Prop := f ∈ m.frames ∧ m.reserved f = false

structure Booting (m : Machine) (done : List Nat) (s : State) : Prop where
  inv : ∃ free, Inv m (fun f => f ∈ done ∧ m.reserved f = false) s free fun _ => .leaf
  untouched : ∀ f, f ∉ done ∨ m.reserved f = true → s.count f = if m.reserved f then 1 else 0
  quiet : ∀ ino, s.reading ino = none

theorem unpopulated_booting (m : Machine) : Booting m [] (unpopulated m) := by
  refine ⟨⟨[], ?_⟩, fun f _ => rfl, fun _ => rfl⟩
  constructor
  case ring => exact Links.initListHead_ring _ m.freeList
  case onList => simp [unpopulated]
  case owned => simp [unpopulated]
  case inMemory => simp
  case number => rfl
  case freeCount => simp [unpopulated]
  case oneCount => simp [unpopulated, Owner.isPrivate]
  case someCount => simp [unpopulated]
  case rep => exact fun _ => rfl
  case redBlack => exact fun _ => ⟨rfl, rfl⟩
  case distinct => simp [Shape.inorder]
  case inTree => simp [unpopulated, Shape.inorder]
  case pending => simp [unpopulated]

theorem freePage_fields {s' : State} (freed : freePage m s f = some s') :
    s'.count = update s.count f 0 ∧ s'.reading = s.reading := by
  simp only [freePage] at freed
  split at freed
  · cases freed
  split at freed
  · cases freed
  · rename_i one
    cases freed
    exact ⟨by rw [not_not.mp one], rfl⟩

theorem populate_booting (booting : Booting m done s) (inFrames : f ∈ m.frames) (new : f ∉ done) :
    ∃ s', populate m s f = some s' ∧ Booting m (done ++ [f]) s' := by
  obtain ⟨free, inv⟩ := booting.inv
  have count := booting.untouched f (.inl new)
  cases reserved : m.reserved f with
  | true =>
    rw [reserved, if_pos rfl] at count
    have same : (fun g => g ∈ done ++ [f] ∧ m.reserved g = false) =
        fun g => g ∈ done ∧ m.reserved g = false := by
      funext g
      simp only [List.mem_append, List.mem_singleton, eq_iff_iff]
      constructor
      · rintro ⟨old | rfl, free⟩
        · exact ⟨old, free⟩
        · simp [reserved] at free
      · rintro ⟨old, free⟩
        exact ⟨.inl old, free⟩
    refine ⟨s, by simp [populate, count], ⟨free, by rw [same]; exact inv⟩, ?_, booting.quiet⟩
    intro g out
    apply booting.untouched g
    simp only [List.mem_append, not_or] at out
    exact out.imp_left And.left
  | false =>
    rw [reserved, if_neg Bool.false_ne_true] at count
    have notYet : s.owner f = .reserved := by
      by_contra owned
      exact new ((inv.owned f).mp owned).1
    have others : ∀ g, s.owner g ≠ .reserved → update s.count f 1 g = s.count g :=
      fun g owned => update_of_ne (fun eq : g = f => owned (eq ▸ notYet)) _ _
    have inv₁ : Inv m (fun g => g ∈ done ∧ m.reserved g = false)
        { s with count := update s.count f 1 } free fun _ => .leaf := by
      refine { inv with freeCount := ?_, oneCount := ?_, someCount := ?_ }
      · intro g owner
        exact (others g (fun eq => by simp [eq] at owner)).trans (inv.freeCount g owner)
      · intro g owner
        exact (others g (fun eq => by simp [eq, Owner.isPrivate] at owner)).trans
          (inv.oneCount g owner)
      · intro g ino owner
        dsimp only
        rw [others g (fun eq => by simp [eq] at owner)]
        exact inv.someCount g ino owner
    obtain ⟨freed, inv'⟩ := freePage_inv inv₁ inFrames (update_self ..)
      (by simp [notYet]) (by simp [notYet]) (fun ino r waiting => by simp [booting.quiet] at waiting)
    obtain ⟨counts, reading⟩ := freePage_fields freed
    have more : (fun g => g = f ∨ g ∈ done ∧ m.reserved g = false) =
        fun g => g ∈ done ++ [f] ∧ m.reserved g = false := by
      funext g
      simp only [List.mem_append, List.mem_singleton, eq_iff_iff]
      constructor
      · rintro (rfl | ⟨old, free⟩)
        · exact ⟨.inr rfl, reserved⟩
        · exact ⟨.inl old, free⟩
      · rintro ⟨old | rfl, free⟩
        · exact .inr ⟨old, free⟩
        · exact .inl rfl
    rw [more] at inv'
    refine ⟨_, by simp only [populate, count]; exact freed, ⟨_, inv'⟩, ?_, ?_⟩
    · intro g out
      have apart : g ≠ f := by
        rintro rfl
        rcases out with out | out
        · simp at out
        · simp [reserved] at out
      simp only [counts, update_of_ne apart]
      apply booting.untouched g
      simp only [List.mem_append, not_or] at out
      exact out.imp_left And.left
    · intro ino
      rw [reading]
      exact booting.quiet ino

theorem populate_all (todo : List Nat) (booting : Booting m done s)
    (distinct : (done ++ todo).Nodup) (inside : ∀ f ∈ todo, f ∈ m.frames) :
    ∃ s', todo.foldlM (populate m) s = some s' ∧ Booting m (done ++ todo) s' := by
  induction todo generalizing done s with
  | nil => exact ⟨s, rfl, by rwa [List.append_nil]⟩
  | cons f todo ih =>
    have new : f ∉ done := fun member =>
      (List.nodup_append'.mp distinct).2.2 member List.mem_cons_self
    obtain ⟨s₁, first, booting₁⟩ := populate_booting booting (inside f List.mem_cons_self) new
    have later : ∀ g ∈ todo, g ∈ m.frames := fun g member => inside g (List.mem_cons_of_mem f member)
    rw [List.append_cons] at distinct ⊢
    obtain ⟨s', rest, booting'⟩ := ih booting₁ distinct later
    refine ⟨s', ?_, booting'⟩
    rw [List.foldlM_cons, first]
    exact rest

theorem boot_inv (m : Machine) :
    ∃ s free, boot m = some s ∧ (∀ ino, s.reading ino = none) ∧
      Inv m (managed m) s free fun _ => .leaf := by
  obtain ⟨s, booted, booting⟩ :=
    populate_all m.frames (unpopulated_booting m) m.distinct fun _ member => member
  obtain ⟨free, inv⟩ := booting.inv
  exact ⟨s, free, booted, booting.quiet, inv⟩

theorem ownership_of_inv {free : List Nat} {tree : Nat → Shape}
    (inv : Inv m (managed m) s free tree) : Ownership m s := by
  have inTree : ∀ ino f, InTree s ino f → s.owner f = .cached ino := fun ino f reaches =>
    (inv.inTree ino f).mp (reaches_mem reaches (inv.rep ino))
  constructor
  case freeList =>
    refine ⟨free, inv.ring, inv.number, ?_⟩
    intro f
    constructor
    · intro member
      have owner := (inv.onList f).mp member
      obtain ⟨inFrames, free⟩ := (inv.owned f).mp (by simp [owner])
      exact ⟨inFrames, free, inv.freeCount f owner⟩
    · rintro ⟨inFrames, unreserved, zero⟩
      have owned := (inv.owned f).mpr ⟨inFrames, unreserved⟩
      rw [inv.onList f]
      cases owner : s.owner f with
      | free => rfl
      | reserved => exact absurd owner owned
      | caller | slab | reading ino => simp [inv.oneCount f (by rw [owner]; rfl)] at zero
      | cached ino => exact absurd zero (Nat.pos_iff_ne_zero.mp (inv.someCount f ino owner).1)
  case alloc =>
    intro s' f taken
    rcases allocPage_inv inv with ⟨-, none⟩ | ⟨g, rest, eq, some, -⟩
    · simp [none] at taken
    · rw [some] at taken
      cases taken
      have owner := (inv.onList f).mp (by simp [eq])
      exact ⟨owner, fun ino reaches => by simpa [owner] using inTree ino f reaches⟩
  case freeOnly =>
    rintro f ⟨free', ring, member⟩
    rw [Links.ring_unique ring inv.ring] at member
    have owner := (inv.onList f).mp member
    exact ⟨by simp [owner], fun ino reaches => by simpa [owner] using inTree ino f reaches⟩
  case slabOnly =>
    intro f owner ino reaches
    simpa [owner] using inTree ino f reaches
  case oneTree =>
    intro f ino ino' one two
    have owner := inTree ino f one
    rw [inTree ino' f two] at owner
    exact (Owner.cached.inj owner).symm

/-- In every run from boot that frees no page of a page cache and lets no count of one
run over, every state has each frame in one use. -/
theorem frames_owned {m : Machine} {s₀ s : State} {ls : List Label} (booted : boot m = some s₀)
    (ok : Run.Along (step m) (fun s l => careful m s l = true) s₀ ls)
    (ran : Run.exec (step m) s₀ ls = some s) :
    Ownership m s := by
  obtain ⟨s₁, free, up, -, inv⟩ := boot_inv m
  rw [booted] at up
  cases up
  obtain ⟨free', tree', inv'⟩ := Run.along_invariant
    (fun s => ∃ free tree, Inv m (managed m) s free tree)
    (fun s l s' ok inv stepped => by
      obtain ⟨free, tree, inv⟩ := inv
      exact step_inv ok inv stepped)
    ok ⟨free, _, inv⟩ ran
  exact ownership_of_inv inv'

def sample : Machine where
  frames := [28, 56, 84, 112, 140]
  reserved := fun f => f == 28
  freeList := 4
  pageAddress := fun f => 3221225472 + f / 28 * 4096
  distinct := by decide
  nonzero := by decide
  aligned := by decide
  apart := by decide
  few := by decide

/-- A slab grows, two pages of a file are read, one of them again, and what can be
given back is. -/
def sampleRun : List Label :=
  [.allocPage, .memchunkGet, .slabStore 84 ⟨1, 2, 3, 4, 5⟩, .readpage 9 4096, .readDone 9 4096,
    .readpage 9 0, .readDone 9 0, .readpage 9 0, .readDone 9 100, .readpage 9 4096, .memchunkPut 84,
    .freePage 56]

def booted : State := (boot sample).get (by decide +kernel)

theorem boot_sample : boot sample = some booted := (Option.some_get _).symm

theorem frames_owned_sample : ∃ s₀ s, boot sample = some s₀ ∧
    Run.Along (step sample) (fun s l => careful sample s l = true) s₀ sampleRun ∧
    Run.exec (step sample) s₀ sampleRun = some s ∧ Ownership sample s := by
  have ok : Run.Along (step sample) (fun s l => careful sample s l = true) booted sampleRun := by
    decide +kernel
  obtain ⟨s, ran⟩ : ∃ s, Run.exec (step sample) booted sampleRun = some s :=
    Option.isSome_iff_exists.mp (by decide +kernel)
  exact ⟨booted, s, boot_sample, ok, ran, frames_owned boot_sample ok ran⟩

theorem not_owned (inFrames : f ∈ m.frames) (unreserved : m.reserved f = false)
    (zero : s.count f = 0) (root : s.root ino = f) : ¬ Ownership m s := by
  intro owned
  obtain ⟨free, ring, -, members⟩ := owned.freeList
  have listed : OnFreeList m s f := ⟨free, ring, (members f).mpr ⟨inFrames, unreserved, zero⟩⟩
  apply (owned.freeOnly f listed).2 ino
  rw [InTree, root]
  exact Reaches.here (m.nonzero f inFrames)

/-- A page of a cache that was asked for `n` more times. -/
def asked (s : State) (a n : Nat) : State :=
  { s with count := update s.count a ((n + s.count a) % 2 ^ 32) }

theorem asked_zero {a : Nat} (small : s.count a < 2 ^ 32) : asked s a 0 = s := by
  rw [asked, Nat.zero_add, Nat.mod_eq_of_lt small, update_eq_self]

theorem step_asked {off a : Nat} (aligned : off % 4096 = 0) (unlocked : s.reading ino = none)
    (type : s.type a = .pagecache) (found : search m s ino off = some (.node a)) (n : Nat) :
    step m (asked s a n) (.readpage ino off) = some (asked s a (n + 1)) := by
  have again : ∀ count, search m { s with count := count } ino off = some (.node a) :=
    fun _ => found
  simp [step, readpage, again, asked, aligned, unlocked, type, Nat.add_right_comm n]

def firstRead : List Label := [.readpage 9 0, .readDone 9 4096]

theorem firstRead_again (n : Nat) : ∃ s,
    Run.exec (step sample) booted (firstRead ++ List.replicate n (.readpage 9 0)) = some s ∧
    s.count 56 = (n + 1) % 2 ^ 32 ∧ s.root 9 = 56 := by
  obtain ⟨s, ran, count, root, unlocked, type, found⟩ :=
    Run.decided (Run.exec (step sample) booted firstRead)
      (fun s => s.count 56 = 1 ∧ s.root 9 = 56 ∧ s.reading 9 = none ∧ s.type 56 = .pagecache ∧
        search sample s 9 0 = some (.node 56)) (by decide +kernel)
  have again := Run.exec_replicate (asked s 56) (step_asked (by decide) unlocked type found) n
  rw [asked_zero (by rw [count]; decide)] at again
  refine ⟨asked s 56 n, ?_, by simp [asked, count], root⟩
  rw [Run.exec_append, ran]
  exact again

/-- The one holder of a page of a cache frees it; or a page of a cache is asked for
until its count is back at zero. -/
theorem cached_frame_free :
    (∃ s₀ s, boot sample = some s₀ ∧
      Run.exec (step sample) s₀ (firstRead ++ [.freePage 56]) = some s ∧ ¬ Ownership sample s) ∧
    ∃ s₀ s, boot sample = some s₀ ∧ Run.exec (step sample) s₀
      (firstRead ++ List.replicate (2 ^ 32 - 1) (.readpage 9 0)) = some s ∧
      ¬ Ownership sample s := by
  constructor
  · obtain ⟨s, ran, count, root⟩ :=
      Run.decided (Run.exec (step sample) booted (firstRead ++ [.freePage 56]))
        (fun s => s.count 56 = 0 ∧ s.root 9 = 56) (by decide +kernel)
    exact ⟨booted, s, boot_sample, ran, not_owned (by decide) (by decide) count root⟩
  · obtain ⟨s, ran, count, root⟩ := firstRead_again (2 ^ 32 - 1)
    have wrapped : s.count 56 = 0 := count.trans (by decide)
    exact ⟨booted, s, boot_sample, ran, not_owned (by decide) (by decide) wrapped root⟩

end ScaraOS.Pages
