import ScaraOS.Exec.Model
import ScaraOS.Mm.Setup

/-! What loading a program does to the address spaces: a new context grows its areas one
by one, in the order of the program headers, and nothing that was there before is
touched. -/
namespace ScaraOS.Exec

open Function RbTree Paging Mm

structure Objects (live : Finset Nat) (supply : List (Option Nat)) : Prop
    extends Fresh live supply where
  aligned : ∀ a ∈ supply.reduceOption, a % 4 = 0

variable {live : Finset Nat} {alloc : Option Nat} {w₀ w w' : World} {rs done : List Request}
  {r : Request} {shape oldShape : Shape} {k : Kernel} {c f old ino ctx : Nat} {image : Image}
  {ps : List Phdr} {supply : Supply}

theorem objects_head {supply : List (Option Nat)} (objects : Objects live (alloc :: supply)) :
    Given live alloc := by
  rintro a rfl
  have first : a ∈ (some a :: supply).reduceOption := by simp
  exact ⟨(objects.unused a first).1, (objects.unused a first).2, objects.aligned a first⟩

theorem objects_tail {a : Nat} {supply : List (Option Nat)}
    (objects : Objects live (some a :: supply)) : Objects (insert a live) supply where
  toFresh := fresh_tail objects.toFresh
  aligned b member := objects.aligned b (by simp [member])

structure Built (w₀ w : World) (ctx : Nat) (rs : List Request) (shape : Shape) : Prop where
  tree : AreaTree w ctx shape
  areas : ∀ n ∈ shape.inorder, ∃ r ∈ rs, (w.vma n).area = r.area
  offsets : ∀ r ∈ rs, r.area.vmaOff % 4096 = 0
  placed : ∀ r ∈ rs, ∃ n ∈ shape.inorder, (w.vma n).area = r.area
  older : ∀ n ∈ w₀.vmas, w.vma n = w₀.vma n
  newer : ∀ n ∈ shape.inorder, n ∉ w₀.vmas
  vmas : w.vmas = w₀.vmas ∪ shape.inorder.toFinset
  ctxs : ∀ c, c ≠ ctx → w.ctx c = w₀.ctx c
  pgd : (w.ctx ctx).pgd = (w₀.ctx ctx).pgd
  count : (w.ctx ctx).count = (w₀.ctx ctx).count
  memctx : w.memctx = w₀.memctx
  frames : w.frames = w₀.frames
  word : w.word = w₀.word

theorem built_start (w : World) (ctx : Nat) (here : ctx ∈ w.memctx)
    (empty : (w.ctx ctx).rbNode = 0) : Built w w ctx [] .leaf := by
  constructor
  case tree => exact ⟨⟨here, empty, by simp [Shape.inorder], by simp [Shape.inorder]⟩,
    by simp [Shape.inorder], ⟨rfl, rfl⟩⟩
  case areas => simp [Shape.inorder]
  case offsets => simp
  case placed => simp
  case newer => simp [Shape.inorder]
  case vmas => simp [Shape.inorder]
  all_goals intros; rfl

theorem Built.grow {n : Nat} {shape' : Shape} (built : Built w₀ w ctx rs shape)
    (unused : n ∉ w.vmas) (off : r.area.vmaOff % 4096 = 0)
    (grew : Grew (made w r n) w' ctx shape shape' n) : Built w₀ w' ctx (rs ++ [r]) shape' := by
  have newer : ∀ m ∈ shape'.inorder, m ∉ w₀.vmas := by
    intro m member old
    rcases (grew.members m).mp member with rfl | before
    · exact unused (by rw [built.vmas]; exact Finset.mem_union_left _ old)
    · exact built.newer m before old
  have other : ∀ m, m ≠ n → (made w r n).vma m = w.vma m :=
    fun m apart => update_of_ne apart _ _
  have inTree : ∀ m ∈ shape.inorder, m ≠ n := by
    rintro m member rfl
    exact unused (built.tree.live m member)
  have areaOld : ∀ m ∈ shape.inorder, (w'.vma m).area = (w.vma m).area := by
    intro m member
    rw [grew.areas m, other m (inTree m member)]
  have areaNew : (w'.vma n).area = r.area := by
    rw [grew.areas n]
    simp [made, Vma.area, Request.area]
  constructor
  case tree => exact grew.tree
  case areas =>
    intro m member
    rcases (grew.members m).mp member with rfl | before
    · exact ⟨r, by simp, areaNew⟩
    · obtain ⟨q, asked, same⟩ := built.areas m before
      exact ⟨q, List.mem_append_left _ asked, (areaOld m before).trans same⟩
  case offsets =>
    intro q asked
    rcases List.mem_append.mp asked with before | last
    · exact built.offsets q before
    · rw [List.mem_singleton.mp last]
      exact off
  case placed =>
    intro q asked
    rcases List.mem_append.mp asked with before | last
    · obtain ⟨m, member, same⟩ := built.placed q before
      exact ⟨m, (grew.members m).mpr (.inr member), (areaOld m member).trans same⟩
    · rw [List.mem_singleton.mp last]
      exact ⟨n, (grew.members n).mpr (.inl rfl), areaNew⟩
  case older =>
    intro m old
    have apart : m ≠ n := by
      rintro rfl
      exact unused (by rw [built.vmas]; exact Finset.mem_union_left _ old)
    have out : m ∉ shape'.inorder := fun member => newer m member old
    rw [grew.outside m out, other m apart]
    exact built.older m old
  case newer => exact newer
  case vmas =>
    rw [grew.vmas]
    ext m
    simp only [made, Finset.mem_insert, built.vmas, Finset.mem_union, List.mem_toFinset,
      grew.members]
    tauto
  case ctxs => exact fun c apart => (grew.ctxs c apart).trans (built.ctxs c apart)
  case pgd => exact grew.pgd.trans built.pgd
  case count => exact grew.count.trans built.count
  case memctx => exact grew.memctx.trans built.memctx
  case frames => exact grew.frames.trans built.frames
  case word => exact grew.word.trans built.word

structure Fits (done rs : List Request) : Prop where
  offsets : ∀ r ∈ rs, r.area.vmaOff % 4096 = 0
  clear : ∀ r ∈ rs, ∀ d ∈ done, side r.area d.area ≠ none
  apart : rs.Pairwise fun d r => side r.area d.area ≠ none

theorem fits_cons (fits : Fits done (r :: rs)) :
    r.area.vmaOff % 4096 = 0 ∧ (∀ d ∈ done, side r.area d.area ≠ none) ∧
      Fits (done ++ [r]) rs := by
  obtain ⟨first, rest⟩ := List.pairwise_cons.mp fits.apart
  refine ⟨fits.offsets r List.mem_cons_self, fits.clear r List.mem_cons_self, ?_, ?_, rest⟩
  · exact fun q member => fits.offsets q (List.mem_cons_of_mem r member)
  · intro q member d before
    rcases List.mem_append.mp before with old | last
    · exact fits.clear q (List.mem_cons_of_mem r member) d old
    · rw [List.mem_singleton.mp last]
      exact first q member

theorem setupAll_cases (rs : List Request) {supply : List (Option Nat)}
    (built : Built w₀ w ctx done shape) (objects : Objects w.vmas supply)
    (long : rs.length ≤ supply.length) :
    ((setupAll w ctx rs supply = .error (.bug .setupVma) ∨
        setupAll w ctx rs supply = .error (.bug .vmaInsert)) ∧ ¬ Fits done rs) ∨
    (∃ w' done' shape', setupAll w ctx rs supply = .ok (w', false) ∧
      Built w₀ w' ctx done' shape' ∧ none ∈ supply) ∨
    ∃ w' shape', setupAll w ctx rs supply = .ok (w', true) ∧
      Built w₀ w' ctx (done ++ rs) shape' := by
  induction rs generalizing w done shape supply with
  | nil => exact .inr (.inr ⟨w, shape, rfl, by rw [List.append_nil]; exact built⟩)
  | cons r rs ih =>
    cases supply with
    | nil => simp at long
    | cons alloc supply =>
      rcases setupVma_cases r built.tree (objects_head objects) with
        ⟨rfl, ran⟩ | ⟨n, rfl, ⟨off, ran⟩ | ⟨⟨a, member, overlap⟩, ran⟩ | ⟨off, w', shape', ran, grew, -⟩⟩
      · refine .inr (.inl ⟨w, done, shape, ?_, built, List.mem_cons_self⟩)
        simp [setupAll, ran]
      · refine .inl ⟨.inl (by simp [setupAll, ran]), ?_⟩
        exact fun fits => off (fits_cons fits).1
      · refine .inl ⟨.inr (by simp [setupAll, ran]), ?_⟩
        intro fits
        obtain ⟨d, before, same⟩ := built.areas a member
        apply (fits_cons fits).2.1 d before
        rw [← same]
        exact overlap
      · have unused := (objects_head objects n rfl).2.1
        have next : setupAll w ctx (r :: rs) (some n :: supply) = setupAll w' ctx rs supply := by
          simp [setupAll, ran]
        have vmas : w'.vmas = insert n w.vmas := grew.vmas
        rw [next]
        rcases ih (built.grow unused off grew) (by rw [vmas]; exact objects_tail objects)
          (by simpa using long) with ⟨bug, misfit⟩ | ⟨w'', done', shape'', rest⟩ | ⟨w'', shape'', rest⟩
        · exact .inl ⟨bug, fun fits => misfit (fits_cons fits).2.2⟩
        · obtain ⟨failed, built', lost⟩ := rest
          exact .inr (.inl ⟨w'', done', shape'', failed, built', List.mem_cons_of_mem _ lost⟩)
        · obtain ⟨all, built'⟩ := rest
          rw [List.append_assoc] at built'
          exact .inr (.inr ⟨w'', shape'', all, built'⟩)

structure Ready (w : World) (old : Nat) (shape : Shape) : Prop extends Areas w old shape where
  counted : 0 < (w.ctx old).count
  pgd : (w.ctx old).pgd ∈ w.frames

structure Provided (w : World) (supply : Supply) (n : Nat) : Prop where
  ctx : ∀ a, supply.ctx = some a → a ≠ 0 ∧ a ∉ w.memctx
  pgd : ∀ f, supply.pgd = some f → f ∉ w.frames
  vmas : Objects w.vmas supply.vmas
  long : n ≤ supply.vmas.length

def Supply.Fails (supply : Supply) : Prop :=
  supply.phbuf = false ∨ supply.ctx = none ∨ supply.pgd = none ∨ none ∈ supply.vmas

structure Restored (w w' : World) : Prop where
  vma : ∀ n ∈ w.vmas, w'.vma n = w.vma n
  vmas : w'.vmas = w.vmas
  ctx : ∀ c ∈ w.memctx, w'.ctx c = w.ctx c
  memctx : w'.memctx = w.memctx
  frames : w'.frames = w.frames
  word : ∀ g ∈ w.frames, w'.word g = w.word g

theorem restored_refl (w : World) : Restored w w :=
  ⟨fun _ _ => rfl, rfl, fun _ _ => rfl, rfl, rfl, fun _ _ => rfl⟩

theorem put_unfinished (unusedCtx : c ∉ w.memctx) (unused : f ∉ w.frames)
    (built : Built (started k.initPgd w c f) w' c done shape) :
    ∃ w'', memCtxPut w' c = .ok w'' ∧ Restored w w'' := by
  have pgd : (w'.ctx c).pgd = f := built.pgd.trans (by simp [started])
  have count : (w'.ctx c).count = 1 := built.count.trans (by simp [started])
  have inside : (w'.ctx c).pgd ∈ w'.frames := by
    rw [pgd, built.frames]
    exact Finset.mem_insert_self f w.frames
  refine ⟨freed w' c shape, memCtxPut_last built.tree.toAreas count inside, ?_⟩
  constructor
  case vma => exact built.older
  case vmas =>
    have apart : ∀ n, n ∈ w.vmas → n ∉ shape.inorder := fun n old member => built.newer n member old
    ext n
    simp only [freed, built.vmas, started, Finset.mem_sdiff, Finset.mem_union, List.mem_toFinset]
    have := apart n
    tauto
  case ctx =>
    intro d member
    have other : d ≠ c := by
      rintro rfl
      exact unusedCtx member
    simp only [freed, update_of_ne other, built.ctxs d other, started]
  case memctx => simp [freed, built.memctx, started, unusedCtx]
  case frames => simp [freed, built.frames, pgd, started, unused]
  case word =>
    intro g member
    have other : g ≠ f := by
      rintro rfl
      exact unused member
    simp only [freed, built.word, started]
    exact funext fun j => if_neg other

theorem put_old (ready : Ready w old oldShape) (unusedCtx : c ∉ w.memctx)
    (built : Built (started k.initPgd w c f) w' c rs shape) :
    ∃ w'', memCtxPut w' old = .ok w'' ∧
      (1 < (w.ctx old).count ∧ w'' = { w' with
        ctx := update w'.ctx old { w'.ctx old with count := (w'.ctx old).count - 1 } } ∨
      (w.ctx old).count = 1 ∧ w'' = freed w' old oldShape) := by
  have other : old ≠ c := by
    rintro rfl
    exact unusedCtx ready.here
  have same : w'.ctx old = w.ctx old := by
    rw [built.ctxs old other]
    exact update_of_ne other _ _
  by_cases more : 1 < (w.ctx old).count
  · exact ⟨_, memCtxPut_more (by rw [same]; exact more), .inl ⟨more, rfl⟩⟩
  · have last : (w.ctx old).count = 1 := Nat.le_antisymm (Nat.le_of_not_lt more) ready.counted
    have areas : Areas w' old oldShape := by
      refine ⟨?_, ?_, ?_, ready.nodup⟩
      · rw [built.memctx]
        exact Finset.mem_insert_of_mem ready.here
      · rw [same]
        exact rep_congr (fun n member => by rw [built.older n (ready.live n member)]; rfl) ready.rep
      · intro n member
        rw [built.vmas]
        exact Finset.mem_union_left _ (ready.live n member)
    refine ⟨_, memCtxPut_last areas (by rw [same]; exact last) ?_, .inr ⟨last, rfl⟩⟩
    rw [same, built.frames]
    exact Finset.mem_insert_of_mem ready.pgd

def loadImage (k : Kernel) (w : World) (ino old : Nat) (ps : List Phdr) (supply : Supply) :
    Except Stop (World × Option Nat) :=
  match memCtxNew k.initPgd w supply.ctx supply.pgd with
  | .error e => .error e
  | .ok (w, ctx) =>
    if ctx = 0 then .ok (w, none)
    else
      match setupAll w ctx (requests ino ps) supply.vmas with
      | .error e => .error e
      | .ok (w, false) => (memCtxPut w ctx).map fun w => (w, none)
      | .ok (w, true) => (memCtxPut w old).map fun w => (w, some ctx)

theorem execImage_loads {hdr : Ehdr} (header : readHeader k image = some hdr)
    (buf : supply.phbuf ≠ false) (table : readPhdrs image hdr = some ps) :
    execImage k w ino old image supply = loadImage k w ino old ps supply := by
  simp only [execImage, header, if_neg buf, table]
  rfl

theorem loadImage_cases (old : Nat)
    (given : Provided w supply (requests ino ps).length) :
    (∃ w', loadImage k w ino old ps supply = .ok (w', none) ∧ Restored w w' ∧
      (supply.ctx = none ∨ supply.pgd = none ∨ none ∈ supply.vmas)) ∨
    ((loadImage k w ino old ps supply = .error (.bug .setupVma) ∨
        loadImage k w ino old ps supply = .error (.bug .vmaInsert)) ∧
      ¬ Fits [] (requests ino ps)) ∨
    ∃ c f w₁ shape, supply.ctx = some c ∧ supply.pgd = some f ∧
      Built (started k.initPgd w c f) w₁ c (requests ino ps) shape ∧
      loadImage k w ino old ps supply = (memCtxPut w₁ old).map fun w => (w, some c) := by
  rcases memCtxNew_cases k.initPgd given.ctx given.pgd with ⟨ran, failed⟩ | ⟨c, f, obj, pgd, ran⟩
  · refine .inl ⟨w, by simp [loadImage, ran], restored_refl w, failed.imp id .inl⟩
  · obtain ⟨nonzero, unusedCtx⟩ := given.ctx c obj
    have unused := given.pgd f pgd
    have start := built_start (started k.initPgd w c f) c
      (Finset.mem_insert_self c w.memctx) (by simp [started])
    rcases setupAll_cases (requests ino ps) start given.vmas given.long with
      ⟨bug, misfit⟩ | ⟨w₁, done, shape, loop, built, lost⟩ | ⟨w₁, shape, loop, built⟩
    · refine .inr (.inl ⟨?_, misfit⟩)
      rcases bug with bug | bug
      · exact .inl (by simp [loadImage, ran, nonzero, bug])
      · exact .inr (by simp [loadImage, ran, nonzero, bug])
    · obtain ⟨w₂, put, restored⟩ := put_unfinished unusedCtx unused built
      have ended : loadImage k w ino old ps supply = .ok (w₂, none) := by
        simp only [loadImage, ran, if_neg nonzero, loop, put]
        rfl
      exact .inl ⟨w₂, ended, restored, .inr (.inr lost)⟩
    · rw [List.nil_append] at built
      refine .inr (.inr ⟨c, f, w₁, shape, obj, pgd, built, ?_⟩)
      simp only [loadImage, ran, if_neg nonzero, loop]

theorem execImage_cases (ready : Ready w old oldShape)
    (provided : ∀ ps, programHeaders k image = some ps →
      Provided w supply (requests ino ps).length) :
    (∃ w', execImage k w ino old image supply = .ok (w', none) ∧ Restored w w' ∧
      (programHeaders k image = none ∨ supply.Fails)) ∨
    ∃ ps, programHeaders k image = some ps ∧
      (((execImage k w ino old image supply = .error (.bug .setupVma) ∨
          execImage k w ino old image supply = .error (.bug .vmaInsert)) ∧
        ¬ Fits [] (requests ino ps)) ∨
      ∃ c f w₁ shape w', supply.ctx = some c ∧ supply.pgd = some f ∧
        Built (started k.initPgd w c f) w₁ c (requests ino ps) shape ∧
        memCtxPut w₁ old = .ok w' ∧ execImage k w ino old image supply = .ok (w', some c)) := by
  cases header : readHeader k image with
  | none =>
    exact .inl ⟨w, by simp [execImage, header], restored_refl w,
      .inl (by simp [programHeaders, header])⟩
  | some hdr =>
    by_cases buf : supply.phbuf = false
    · exact .inl ⟨w, by simp [execImage, header, buf], restored_refl w, .inr (.inl buf)⟩
    cases table : readPhdrs image hdr with
    | none =>
      exact .inl ⟨w, by simp [execImage, header, buf, table], restored_refl w,
        .inl (by simp [programHeaders, header, table])⟩
    | some ps =>
      have accepted : programHeaders k image = some ps := by simp [programHeaders, header, table]
      have given := provided ps accepted
      rw [execImage_loads header buf table]
      rcases loadImage_cases old given with
        ⟨w', ran, restored, failed⟩ | bug | ⟨c, f, w₁, shape, obj, pgd, built, ran⟩
      · exact .inl ⟨w', ran, restored, .inr (.inr failed)⟩
      · exact .inr ⟨ps, accepted, .inl bug⟩
      · obtain ⟨w', put, -⟩ := put_old ready (given.ctx c obj).2 built
        rw [put] at ran
        exact .inr ⟨ps, accepted, .inr ⟨c, f, w₁, shape, w', obj, pgd, built, put, ran⟩⟩

theorem setupVma_words {ret : Int} (words : ∀ i, w.iCount i < 2 ^ 32)
    (ran : setupVma w ctx r alloc = .ok (w', ret)) (i : Nat) : w'.iCount i < 2 ^ 32 := by
  have made_words (n : Nat) : (made w r n).iCount i < 2 ^ 32 := by
    simp only [made]
    split
    · exact iref_lt words r.ino i
    · exact words i
  unfold setupVma at ran
  split at ran
  · cases ran
  · rename_i n _
    split at ran
    · cases ran
      exact words i
    · split at ran
      · cases ran
      · unfold vmaInsert at ran
        dsimp only at ran
        split at ran
        · cases ran
        · cases ran
        · split at ran
          · cases ran
          · cases ran
            exact made_words n

theorem setupAll_words (rs : List Request) {supply : List (Option Nat)} {done : Bool}
    (words : ∀ i, w.iCount i < 2 ^ 32) (ran : setupAll w ctx rs supply = .ok (w', done)) (i : Nat) :
    w'.iCount i < 2 ^ 32 := by
  induction rs generalizing w supply with
  | nil =>
    cases ran
    exact words i
  | cons r rs ih =>
    cases supply with
    | nil => cases ran
    | cons alloc supply =>
      rw [setupAll] at ran
      cases made : setupVma w ctx r alloc with
      | error e =>
        rw [made] at ran
        cases ran
      | ok u =>
        have after := setupVma_words words made
        rw [made] at ran
        dsimp only at ran
        split at ran
        · cases ran
          exact after i
        · exact ih after ran

theorem doFreeVma_iCount (fuel : Nat) {vma : Nat} (ran : doFreeVma fuel w vma = some w') :
    w'.iCount = w.iCount := by
  induction fuel generalizing w w' vma with
  | zero => cases ran
  | succ fuel ih =>
    rw [doFreeVma] at ran
    split at ran
    · rw [← Option.some.inj ran]
    · obtain ⟨u, left, ran⟩ := Option.bind_eq_some_iff.mp ran
      obtain ⟨v, right, ran⟩ := Option.bind_eq_some_iff.mp ran
      obtain ⟨vmas, -, rfl⟩ := Option.map_eq_some_iff.mp ran
      exact (ih right).trans (ih left)

theorem memCtxPut_iCount (ran : memCtxPut w ctx = .ok w') : w'.iCount = w.iCount := by
  unfold memCtxPut at ran
  split at ran
  · cases ran
  · dsimp only at ran
    split at ran
    · unfold memCtxFree at ran
      split at ran
      · cases ran
      · rename_i freeing
        have same := doFreeVma_iCount _ freeing
        split at ran
        · cases ran
        · split at ran
          · cases ran
          · rw [← Except.ok.inj ran]
            exact same
    · rw [← Except.ok.inj ran]

theorem memCtxNew_iCount {initPgd new : Nat} {obj pgd : Option Nat}
    (ran : memCtxNew initPgd w obj pgd = .ok (w', new)) : w'.iCount = w.iCount := by
  unfold memCtxNew at ran
  split at ran
  · cases ran
  · split at ran
    · rw [← (Prod.mk.inj (Except.ok.inj ran)).1]
    · split at ran
      · rw [← (Prod.mk.inj (Except.ok.inj ran)).1]
      · split at ran
        · cases ran
        · rw [← (Prod.mk.inj (Except.ok.inj ran)).1]

theorem loadImage_words {ctx : Option Nat} (words : ∀ i, w.iCount i < 2 ^ 32)
    (ran : loadImage k w ino old ps supply = .ok (w', ctx)) (i : Nat) : w'.iCount i < 2 ^ 32 := by
  have putting {u : World} {c : Nat} {r : Option Nat} (after : ∀ i, u.iCount i < 2 ^ 32)
      (put : (memCtxPut u c).map (fun w => (w, r)) = .ok (w', ctx)) : w'.iCount i < 2 ^ 32 := by
    cases ended : memCtxPut u c with
    | error e =>
      rw [ended] at put
      cases put
    | ok v =>
      rw [ended] at put
      cases put
      rw [memCtxPut_iCount ended]
      exact after i
  unfold loadImage at ran
  split at ran
  · cases ran
  · rename_i u c created
    have same := memCtxNew_iCount created
    split at ran
    · cases ran
      rw [same]
      exact words i
    · have before : ∀ i, u.iCount i < 2 ^ 32 := by
        rw [same]
        exact words
      split at ran
      · cases ran
      · rename_i loop
        exact putting (setupAll_words _ before loop) ran
      · rename_i loop
        exact putting (setupAll_words _ before loop) ran

theorem execImage_words {ctx : Option Nat} (words : ∀ i, w.iCount i < 2 ^ 32)
    (ran : execImage k w ino old image supply = .ok (w', ctx)) (i : Nat) :
    w'.iCount i < 2 ^ 32 := by
  cases header : readHeader k image with
  | none =>
    simp only [execImage, header] at ran
    cases ran
    exact words i
  | some hdr =>
    by_cases buf : supply.phbuf = false
    · simp only [execImage, header, if_pos buf] at ran
      cases ran
      exact words i
    · cases table : readPhdrs image hdr with
      | none =>
        simp only [execImage, header, if_neg buf, table] at ran
        cases ran
        exact words i
      | some ps =>
        rw [execImage_loads header buf table] at ran
        exact loadImage_words words ran i

end ScaraOS.Exec
