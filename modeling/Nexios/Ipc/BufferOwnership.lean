import Mathlib.Data.Fintype.Card
import Nexios.Ipc.BufferPages
import Nexios.Lib.Run

/-!
# Ownership of shared buffers

The entries that belong to a task are its list, and `unmap_all` frees just these. `unmap` breaks
this: it takes the entry from the list and leaves it with its owner, and a second removal of the
same entry empties the list. `unmap_all` also fails for a task that owns all entries, because its
counter must stay below their number, and tasks whose ids agree in the low 32 bits pass for one
another.
-/

open Function List

namespace Nexios.Ipc

open BufferEntry

variable {n m : ℕ}

namespace BufferPool

variable {s s' : BufferPool n m} {t u : Fin n} {i j : Fin m} {p handle va tables : ℕ}
  {env : AllocEnv} {L : Fin n → List (Fin m)} {F l : List (Fin m)} {o : Option (Fin m)}
  {a : BufferAction n} {as : List (BufferAction n)} {L' : Fin n → List (Fin m)}

def OwnerLists (s : BufferPool n m) : Prop :=
  ∃ L : Fin n → List (Fin m), (∀ t, s.links.Seg none (s.head t) (L t) none) ∧
    ∀ t i, s.owns t i → (L t).count i = 1

/-- The entries of the task are freed, their pages are returned once each, and the other entries
stay as they are. -/
structure Teardown (s : BufferPool n m) (t : Fin n) (s' : BufferPool n m) : Prop where
  freed : ∀ i, s.owns t i → s'.live i = false
  pages : ∃ ps, s'.returned = ps ++ s.returned ∧ ps.Nodup ∧
    ∀ p, p ∈ ps ↔ ∃ i, s.owns t i = true ∧ (s.entry i).physAddr = p
  others : ∀ i, s.live i → s.owns t i = false →
    s'.entry i = s.entry i ∧ s'.links.next i = s.links.next i ∧ s'.links.prev i = s.links.prev i
  heads : ∀ u, u ≠ t → s'.head u = s.head u

/-- The condition on a step: the ids differ in their low 32 bits, `unmap` does not succeed, and a
task that dies does not own all entries. -/
def Regular (s : BufferPool n m) (a : BufferAction n) : Prop :=
  s.Distinct ∧
    match a with
    | .unmap t handle => (s.unmap t handle).2 = false
    | .unmapAll t => ∃ i, s.owns t i = false
    | _ => True

instance (s : BufferPool n m) (a : BufferAction n) : Decidable (s.Regular a) := by
  unfold Regular
  exact match a with
  | .alloc .. | .free .. | .map .. | .unmap .. | .transfer .. | .unmapAll _ => inferInstance

/-! ## The invariant -/

/-- The lists: `L` are those of the tasks and `F` is the free list. -/
structure Shape (s : BufferPool n m) (L : Fin n → List (Fin m)) (F : List (Fin m)) : Prop where
  lists : s.links.Lists s.head L
  free : Fifo.Path s.links.next s.freeHead F
  nodup : F.Nodup

structure Content (s : BufferPool n m) (L : Fin n → List (Fin m)) (F : List (Fin m)) : Prop where
  mem_free : ∀ i, i ∈ F ↔ s.live i = false
  mem : ∀ t i, i ∈ L t ↔ s.owns t i = true
  pages : s.Pages

theorem Content.not_mem_free (hc : s.Content L F) (hi : i ∈ L t) : i ∉ F := by
  intro hF
  have hlive := live_of_owns ((hc.mem t i).mp hi)
  rw [(hc.mem_free i).mp hF] at hlive
  cases hlive

theorem Content.not_mem (hc : s.Content L F) (hi : i ∈ F) (t : Fin n) : i ∉ L t := fun hL =>
  hc.not_mem_free hL hi

namespace Shape

section

variable (hs : s.Shape L F) (hi : ∀ t, i ∉ L t) (hF : i ∉ F)
include hs hi hF

theorem freeEntry : (s.freeEntry i).Shape L (i :: F) where
  lists := by
    refine hs.lists.congr (fun t y hy => ?_) (fun t y hy => ?_)
    all_goals exact update_of_ne (ne_of_mem_of_not_mem hy (hi t)) ..
  free := path_freeEntry hs.free hF
  nodup := nodup_cons.mpr ⟨hF, hs.nodup⟩

theorem release : (s.release i).Shape L (i :: F) :=
  freeEntry (s := s.freePage (s.entry i).physAddr) { hs with } hi hF

theorem listInsert (t : Fin n) : (s.listInsert t i).Shape (update L t (i :: L t)) F where
  lists := by
    have hnil : L t = [] ++ L t := rfl
    have hinsert := hs.lists.insert hnil hi
    rw [← hs.lists.head_eq t] at hinsert
    exact hinsert
  free := by
    refine hs.free.congr fun y hy => ?_
    change (s.links.insert none i (s.head t)).next y = s.links.next y
    rw [Links.insert_next, if_neg nofun, if_neg (ne_of_mem_of_not_mem hy hF)]
  nodup := hs.nodup

end

theorem takeEntry (hs : s.Shape L (i :: F)) (hi : ∀ t, i ∉ L t) : (s.takeEntry i).Shape L F := by
  obtain ⟨hF, hnodup⟩ := nodup_cons.mp hs.nodup
  refine ⟨?_, ?_, hnodup⟩
  · refine hs.lists.congr (fun t y hy => ?_) (fun _ _ _ => rfl)
    exact update_of_ne (ne_of_mem_of_not_mem hy (hi t)) ..
  · exact hs.free.2.congr fun y hy => update_of_ne (ne_of_mem_of_not_mem hy hF) ..

theorem listRemove (hs : s.Shape L F) {l₁ l₂ : List (Fin m)} (hi : L t = l₁ ++ i :: l₂)
    (hdis : ∀ j ∈ L t, j ∉ F) : (s.listRemove t i).Shape (update L t (l₁ ++ l₂)) F := by
  obtain ⟨hprev, hnext⟩ := hs.lists.links_eq hi
  refine ⟨?_, ?_, hs.nodup⟩
  · have hunlink := hs.lists.unlink hi
    have hhead : (s.listRemove t i).head =
        update s.head t (if l₁ = [] then l₂.head? else s.head t) := by
      unfold BufferPool.listRemove
      rw [hprev, hnext]
      by_cases hnil : l₁ = []
      · rw [if_pos hnil, if_pos (hnil ▸ rfl)]
      · rw [if_neg hnil, if_neg (mt List.getLast?_eq_none_iff.mp hnil), update_eq_self]
    rw [hhead]
    exact hunlink
  · refine hs.free.congr fun y hy => ?_
    have hyi : y ≠ i := by
      rintro rfl
      exact hdis y (hi ▸ mem_append_right _ mem_cons_self) hy
    have hyp : s.links.prev i ≠ some y := by
      rw [hprev]
      intro hlast
      exact hdis y (hi ▸ mem_append_left _ (mem_of_getLast? hlast)) hy
    exact (Links.unlink_next ..).trans ((if_neg hyi).trans (if_neg hyp))

end Shape

/-! ## Single writes -/

theorem Shape.clearMapping (hs : s.Shape L F) (t : Fin n) (i : Fin m) :
    (s.clearMapping t i).Shape L F := by
  unfold BufferPool.clearMapping
  split_ifs
  · exact hs
  · exact { hs with }

section

variable (hc : s.Content L F)
include hc

theorem Content.congr (hid : s'.id = s.id) (hpool : s'.pool.Sublist s.pool)
    (hphys : ∀ i, (s'.entry i).physAddr = (s.entry i).physAddr)
    (howner : ∀ i, s.live i → (s'.entry i).ownerTask = (s.entry i).ownerTask) :
    s'.Content L F where
  mem_free i := by
    rw [live_congr (hphys i)]
    exact hc.mem_free i
  mem t i := by
    rw [owns_congr hid (hphys i) (howner i)]
    exact hc.mem t i
  pages := hc.pages.congr hpool hphys

theorem Content.clearMapping (t : Fin n) (i : Fin m) : (s.clearMapping t i).Content L F := by
  obtain ⟨-, -, -, hid, hpool, -⟩ := s.clearMapping_frame t i
  exact hc.congr hid (hpool ▸ List.Sublist.refl _) (s.clearMapping_physAddr t i)
    fun j _ => s.clearMapping_ownerTask t i j

theorem Content.release (hi : s.live i) (hL : ∀ t j, j ∈ L' t ↔ j ∈ L t ∧ j ≠ i) :
    (s.release i).Content L' (i :: F) := by
  refine ⟨fun j => ?_, fun t j => ?_, hc.pages.release hi⟩
  · rw [mem_cons, hc.mem_free, ← Bool.not_eq_true, ← Bool.not_eq_true, live_release, not_and_or,
      not_not, or_comm]
  · rw [hL, hc.mem, owns_release]

theorem Content.release_owned (hi : s.owns t i) (hL : ∀ u j, j ∈ L' u ↔ j ∈ L u ∧ j ≠ i) :
    ((s.clearMapping t i).release i).Content L' (i :: F) := by
  have hlive : (s.clearMapping t i).live i = true :=
    (live_congr (s.clearMapping_physAddr t i i)).trans (live_of_owns hi)
  exact (hc.clearMapping t i).release hlive hL

end

/-! ## Calls -/

structure Inv (s : BufferPool n m) (L : Fin n → List (Fin m)) (F : List (Fin m)) : Prop where
  shape : s.Shape L F
  content : s.Content L F

namespace Inv

theorem content_insert (hc : s.Content L F) {F' : List (Fin m)} (hdistinct : s.Distinct)
    (hid : s'.id = s.id) (hother : ∀ j, j ≠ i → s'.entry j = s.entry j)
    (howner : (s'.entry i).ownerTask = s.ownerId t) (hlive : (s'.entry i).physAddr ≠ 0)
    (hF : ∀ j, j ∈ F' ↔ j ∈ F ∧ j ≠ i) (hL : ∀ u j, j ∈ L' u ↔ (j ∈ L u ∧ j ≠ i) ∨ (u = t ∧ j = i))
    (hpages : s'.Pages) : s'.Content L' F' := by
  have hself : s'.live i = true := live_iff.mpr hlive
  have hkeep : ∀ j, j ≠ i → s'.live j = s.live j := fun j hj =>
    live_congr (congrArg physAddr (hother j hj))
  refine ⟨fun j => ?_, fun u j => ?_, hpages⟩
  · rw [hF]
    by_cases hj : j = i
    · subst hj
      rw [hself]
      exact iff_of_false (fun h => h.2 rfl) nofun
    · rw [and_iff_left hj, hkeep j hj]
      exact hc.mem_free j
  · rw [hL, owns_insert hdistinct hid hother howner hlive, hc.mem]

theorem alloc_fail (h : s.Inv L (i :: F)) {pool : List ℕ} (hsub : pool.Sublist s.pool) :
    ({ s.takeEntry i with pool := pool }.freeEntry i).Inv L (i :: F) := by
  have hout := h.content.not_mem mem_cons_self
  obtain ⟨hF, -⟩ := nodup_cons.mp h.shape.nodup
  have hdead : (s.entry i).physAddr = 0 := by
    have hlive := (h.content.mem_free i).mp mem_cons_self
    exact not_not.mp (of_decide_eq_false hlive)
  have htaken := h.shape.takeEntry hout
  have hshape : Shape { s.takeEntry i with pool := pool } L F := { htaken with }
  refine ⟨hshape.freeEntry hout hF, h.content.congr rfl hsub (alloc_fail_physAddr hdead pool)
    fun j hj => ?_⟩
  have hji : j ≠ i := by
    rintro rfl
    exact live_iff.mp hj hdead
  exact congrArg ownerTask (update_of_ne hji ..)

theorem install (h : s.Inv L (i :: F)) (hdistinct : s.Distinct) {pool : List ℕ}
    (hsub : pool.Sublist s.pool) (hpage : (∀ j, (s.entry j).physAddr ≠ p) ∧ p ∉ pool) (hne : p ≠ 0) :
    ({ s.takeEntry i with pool := pool }.install t i p va tables).Inv
      (update L t (i :: L t)) F := by
  have hout := h.content.not_mem (i := i) mem_cons_self
  obtain ⟨hF, -⟩ := nodup_cons.mp h.shape.nodup
  set s₁ := BufferPool.install { s.takeEntry i with pool := pool } t i p va tables
  have hentry : s₁.entry i = ⟨p, s.nextCookie, s.ownerId t, va⟩ := update_self ..
  have hphys : (s₁.entry i).physAddr = p := congrArg physAddr hentry
  have hother : ∀ j, j ≠ i → s₁.entry j = s.entry j := fun j hj => update_of_ne hj ..
  constructor
  · refine .listInsert ?_ hout hF t
    have htaken := h.shape.takeEntry hout
    exact { htaken with }
  refine content_insert (i := i) (t := t) h.content hdistinct rfl ?_ ?_ ?_ (fun j => ?_)
    (fun u j => ?_) (h.content.pages.insert hother hphys hpage.1 hsub hpage.2)
  · exact hother
  · exact congrArg ownerTask hentry
  · rw [hphys]
    exact hne
  · rw [mem_cons]
    constructor
    · exact fun hj => ⟨.inr hj, ne_of_mem_of_not_mem hj hF⟩
    · exact fun hj => hj.1.resolve_left hj.2
  · have hkeep : j ∈ L u ∧ j ≠ i ↔ j ∈ L u :=
      and_iff_left_of_imp fun hj => ne_of_mem_of_not_mem hj (hout u)
    have hnil : L t = [] ++ L t := rfl
    rw [hkeep]
    exact Links.Lists.mem_update_insert hnil u j

variable (h : s.Inv L F)
include h

theorem ownerLists : s.OwnerLists := by
  refine ⟨L, h.shape.lists.seg, fun t i hi => ?_⟩
  exact count_eq_one_of_mem (h.shape.lists.nodup t) ((h.content.mem t i).mpr hi)

theorem listRemove (hi : s.owns t i) :
    ∃ L' : Fin n → List (Fin m), (∀ u j, j ∈ L' u ↔ j ∈ L u ∧ j ≠ i) ∧
      ((s.clearMapping t i).listRemove t i).Shape L' F := by
  obtain ⟨l₁, l₂, hl⟩ := append_of_mem ((h.content.mem t i).mpr hi)
  refine ⟨update L t (l₁ ++ l₂), h.shape.lists.mem_update_unlink hl, ?_⟩
  exact (h.shape.clearMapping t i).listRemove hl fun j hj => h.content.not_mem_free hj

theorem free (t : Fin n) (handle : ℕ) : ∃ L' F', (s.free t handle).1.Inv L' F' := by
  unfold BufferPool.free
  cases hv : s.validateOwned t handle with
  | none => exact ⟨L, F, h⟩
  | some i =>
    have hi := validateOwned_owns hv
    obtain ⟨L', hL, hshape⟩ := h.listRemove hi
    have hF : i ∉ F := h.content.not_mem_free ((h.content.mem t i).mpr hi)
    have hout : ∀ u, i ∉ L' u := fun u hu => ((hL u i).mp hu).2 rfl
    have hcontent := h.content.release_owned hi hL
    exact ⟨L', i :: F, hshape.release hout hF, { hcontent with pages := { hcontent.pages with } }⟩

theorem map (t : Fin n) (handle va tables : ℕ) : (s.map t handle va tables).1.Inv L F := by
  unfold BufferPool.map
  cases hv : s.validateOwned t handle with
  | none => exact h
  | some i =>
    split_ifs
    · exact h
    have howner := (owns_iff.mp (validateOwned_owns hv)).2
    exact ⟨{ h.shape with }, h.content.congr rfl (.refl _)
      (update_field physAddr rfl) fun j _ => update_field ownerTask howner.symm j⟩

theorem transfer (hdistinct : s.Distinct) (handle : ℕ) (src dst : Fin n) :
    ∃ L' F', (s.transfer handle src dst).1.Inv L' F' := by
  unfold BufferPool.transfer
  cases hv : s.validateOwned src handle with
  | none => exact ⟨L, F, h⟩
  | some i =>
    have hi := validateOwned_owns hv
    obtain ⟨L', hL, hshape⟩ := h.listRemove hi
    have hF : i ∉ F := h.content.not_mem_free ((h.content.mem src i).mpr hi)
    have hout : ∀ u, i ∉ L' u := fun u hu => ((hL u i).mp hu).2 rfl
    set s₁ := (s.clearMapping src i).listRemove src i
    set s₂ := s₁.setEntry i { s₁.entry i with ownerTask := s₁.ownerId dst }
    have hshape₂ : s₂.Shape L' F := { hshape with }
    have hc := h.content.clearMapping src i
    obtain ⟨-, -, -, hid, hpool, -⟩ := s.clearMapping_frame src i
    have hentry : s₂.entry i = { s₁.entry i with ownerTask := s₁.ownerId dst } := update_self ..
    refine ⟨update L' dst (i :: L' dst), F, hshape₂.listInsert hout hF dst, ?_⟩
    have hphys : ((s₂.listInsert dst i).entry i).physAddr = ((s.clearMapping src i).entry i).physAddr :=
      (congrArg physAddr hentry).trans rfl
    have hlive : ((s.clearMapping src i).entry i).physAddr ≠ 0 := by
      rw [clearMapping_physAddr]
      exact live_iff.mp (live_of_owns hi)
    refine content_insert (s := s.clearMapping src i) (t := dst) (i := i) hc ?_ rfl ?_ ?_ ?_
      (fun j => ?_) (fun u j => ?_) (hc.pages.congr (.refl _) fun j => ?_)
    · intro t u htu
      unfold ownerId at htu
      rw [hid] at htu
      exact hdistinct t u htu
    · exact fun j hj => update_of_ne hj ..
    · exact congrArg ownerTask hentry
    · rw [hphys]
      exact hlive
    · exact (and_iff_left_of_imp fun hj => ne_of_mem_of_not_mem hj hF).symm
    · have hnil : L' dst = [] ++ L' dst := rfl
      rw [← hL]
      exact Links.Lists.mem_update_insert hnil u j
    · by_cases hj : j = i
      · rw [hj, hphys]
      · exact congrArg physAddr (update_of_ne hj ..)

theorem alloc (hdistinct : s.Distinct) (hfresh : env.fresh ≠ 0 → ¬ s.Held env.fresh) {r : ℕ}
    (hs : s.alloc t va env = some (s', r)) : ∃ L' F', s'.Inv L' F' := by
  unfold BufferPool.alloc at hs
  split_ifs at hs with hva
  · cases hs
    exact ⟨L, F, h⟩
  cases hfree : s.freeHead with
  | none =>
    rw [hfree] at hs
    cases hs
    exact ⟨L, F, h⟩
  | some i =>
    obtain ⟨F', rfl⟩ : ∃ F', F = i :: F' := by
      have hpath := h.shape.free
      rw [hfree] at hpath
      cases F with
      | nil => cases hpath
      | cons j F' => exact ⟨F', by rw [Option.some.inj hpath.1]⟩
    rw [hfree] at hs
    dsimp only at hs
    obtain ⟨pool, hframe, hsub, hpage⟩ := (s.takeEntry i).allocPage_frame env
    split_ifs at hs with hdead hzero <;> cases hs
    all_goals rw [hframe]
    · exact ⟨L, i :: F', h.alloc_fail hsub⟩
    · refine ⟨update L t (i :: L t), F', ?_⟩
      have hpages := h.content.pages
      exact h.install hdistinct hsub (hpages.allocPage_page hfresh hsub (hpage hpages.pool) hzero) hzero

end Inv

/-! ## The death of a task -/

/-- The entries `l` have been given back, the first of them first. -/
structure Released (s : BufferPool n m) (l : List (Fin m)) (s' : BufferPool n m) : Prop where
  dead : ∀ i ∈ l, (s'.entry i).physAddr = 0
  entry : ∀ i, i ∉ l → s'.entry i = s.entry i
  next : ∀ i, i ∉ l → s'.links.next i = s.links.next i
  prev : ∀ i, i ∉ l → s'.links.prev i = s.links.prev i
  head : s'.head = s.head
  id : s'.id = s.id
  returned : s'.returned = (l.map fun i => (s.entry i).physAddr).reverse ++ s.returned
  pool : ∃ ps, s'.pool = ps ++ s.pool ∧
    ps.Sublist (l.map fun i => (s.entry i).physAddr).reverse
  free : ∀ F, Fifo.Path s.links.next s.freeHead F → (∀ i ∈ l, i ∉ F) →
    Fifo.Path s'.links.next s'.freeHead (l.reverse ++ F)

theorem released_nil (s : BufferPool n m) : s.Released [] s :=
  ⟨nofun, fun _ _ => rfl, fun _ _ => rfl, fun _ _ => rfl, rfl, rfl, rfl,
    ⟨[], rfl, .refl _⟩, fun _ hF _ => hF⟩

theorem Released.cons (hi : i ∉ l)
    (h : ((s.clearMapping t i).release i).Released l s') : s.Released (i :: l) s' := by
  obtain ⟨hlinks, hhead, hfree, hid, hpool, hreturned, -⟩ := s.clearMapping_frame t i
  have hentry : ∀ j, j ≠ i → ((s.clearMapping t i).release i).entry j = s.entry j := by
    intro j hj
    rw [release_entry_ne _ hj, clearMapping_entry, if_neg hj]
  have hmap : l.map (fun j => (((s.clearMapping t i).release i).entry j).physAddr) =
      l.map fun j => (s.entry j).physAddr :=
    map_congr_left fun j hj => by rw [hentry j (ne_of_mem_of_not_mem hj hi)]
  have hout : ∀ j, j ∉ i :: l → j ≠ i ∧ j ∉ l := fun j hj => not_or.mp (mt mem_cons.mpr hj)
  refine ⟨fun j hj => ?_, fun j hj => ?_, fun j hj => ?_, fun j hj => ?_, ?_, ?_, ?_, ?_,
    fun F hF hdis => ?_⟩
  · rcases mem_cons.mp hj with rfl | hj
    · rw [h.entry j hi]
      exact release_entry_self ..
    · exact h.dead j hj
  · obtain ⟨hji, hjl⟩ := hout j hj
    rw [h.entry j hjl, hentry j hji]
  · obtain ⟨hji, hjl⟩ := hout j hj
    rw [h.next j hjl, ← hlinks]
    exact update_of_ne hji ..
  · obtain ⟨hji, hjl⟩ := hout j hj
    rw [h.prev j hjl, ← hlinks]
    exact update_of_ne hji ..
  · exact h.head.trans hhead
  · exact h.id.trans hid
  · rw [h.returned, hmap, map_cons, reverse_cons, append_assoc, ← hreturned,
      ← s.clearMapping_physAddr t i i]
    rfl
  · obtain ⟨ps, hps, hsub⟩ := h.pool
    rw [hmap] at hsub
    rw [map_cons, reverse_cons]
    rcases (s.clearMapping t i).release_pool i with hcache | hcache
    · refine ⟨ps ++ [(s.entry i).physAddr], ?_, hsub.append (.refl _)⟩
      rw [hps, hcache, clearMapping_physAddr, hpool, append_assoc]
      rfl
    · refine ⟨ps, ?_, hsub.trans (sublist_append_left ..)⟩
      rw [hps, hcache, hpool]
  · rw [reverse_cons, append_assoc]
    refine h.free (i :: F) ?_ fun j hj => ?_
    · refine path_freeEntry ?_ (hdis i mem_cons_self)
      change Fifo.Path (s.clearMapping t i).links.next (s.clearMapping t i).freeHead F
      rw [hlinks, hfree]
      exact hF
    · rw [mem_cons, not_or]
      exact ⟨ne_of_mem_of_not_mem hj hi, hdis j (mem_cons_of_mem _ hj)⟩

theorem round (hpath : Fifo.Path s.links.next o (i :: l)) (hnodup : (i :: l).Nodup)
    (howns : ∀ j ∈ i :: l, (s.entry j).ownerTask = s.ownerId t) (k : ℕ) :
    unmapFrom t (k + 1) o s = unmapFrom t k (s.links.next i) ((s.clearMapping t i).release i) ∧
      Fifo.Path ((s.clearMapping t i).release i).links.next (s.links.next i) l ∧
      ∀ j ∈ l, (((s.clearMapping t i).release i).entry j).ownerTask =
        ((s.clearMapping t i).release i).ownerId t := by
  obtain ⟨rfl, hrest⟩ := hpath
  obtain ⟨hi, -⟩ := nodup_cons.mp hnodup
  obtain ⟨hlinks, -, -, hid, -⟩ := s.clearMapping_frame t i
  refine ⟨?_, hrest.congr fun j hj => ?_, fun j hj => ?_⟩
  · rw [unmapFrom, if_neg (not_not.mpr (howns i mem_cons_self))]
  · rw [← hlinks]
    exact update_of_ne (ne_of_mem_of_not_mem hj hi) ..
  · have howner : ((s.clearMapping t i).release i).ownerId t = s.ownerId t :=
      congrArg (fun f => f t % 2 ^ 32) hid
    rw [release_entry_ne _ (ne_of_mem_of_not_mem hj hi), clearMapping_ownerTask, howner]
    exact howns j (mem_cons_of_mem _ hj)

theorem Content.round (hc : s.Content L F) (hl : L t = i :: l) (hi : i ∉ l)
    (hout : ∀ u, u ≠ t → i ∉ L u) :
    ((s.clearMapping t i).release i).Content (update L t l) (i :: F) := by
  refine hc.release_owned ((hc.mem t i).mp (hl ▸ mem_cons_self)) fun u j => ?_
  by_cases hu : u = t
  · subst hu
    rw [update_self, hl, mem_cons, or_and_right, and_not_self_iff, false_or]
    exact (and_iff_left_of_imp fun hj => ne_of_mem_of_not_mem hj hi).symm
  · rw [update_of_ne hu]
    exact (and_iff_left_of_imp fun hj => ne_of_mem_of_not_mem hj (hout u hu)).symm

section

variable (hpath : Fifo.Path s.links.next o l) (hnodup : l.Nodup)
  (howns : ∀ i ∈ l, (s.entry i).ownerTask = s.ownerId t)
include hpath hnodup howns

theorem unmapFrom_spec {k : ℕ} (hlen : l.length ≤ k) (hc : s.Content L F) (hl : L t = l)
    (hout : ∀ i ∈ l, ∀ u, u ≠ t → i ∉ L u) : ∃ s', unmapFrom t k o s = some s' ∧ s.Released l s' ∧
      s'.Content (update L t []) (l.reverse ++ F) := by
  induction l generalizing s o k L F with
  | nil =>
    obtain rfl : o = none := hpath
    have hsame : update L t [] = L := hl ▸ update_eq_self ..
    refine ⟨s, ?_, released_nil s, hsame.symm ▸ hc⟩
    cases k with
    | zero => rfl
    | succ k => rfl
  | cons i l ih =>
    obtain ⟨hi, hnd⟩ := nodup_cons.mp hnodup
    cases k with
    | zero => exact absurd hlen (Nat.not_succ_le_zero _)
    | succ k =>
      obtain ⟨hloop, hpath', howns'⟩ := round hpath hnodup howns k
      have hstep := hc.round hl hi (hout i mem_cons_self)
      obtain ⟨s', hs', hreleased, hcontent⟩ := ih hpath' hnd howns' (Nat.le_of_succ_le_succ hlen) hstep
        (update_self ..) fun j hj u hu => by
          rw [update_of_ne hu]
          exact hout j (mem_cons_of_mem _ hj) u hu
      rw [update_idem] at hcontent
      rw [reverse_cons, append_assoc]
      exact ⟨s', hloop.trans hs', hreleased.cons hi, hcontent⟩

theorem unmapFrom_long {k : ℕ} (hlen : k < l.length) : unmapFrom t k o s = none := by
  induction l generalizing s o k with
  | nil => exact absurd hlen (Nat.not_lt_zero _)
  | cons i l ih =>
    cases k with
    | zero =>
      obtain ⟨rfl, -⟩ := hpath
      rfl
    | succ k =>
      obtain ⟨hloop, hpath', howns'⟩ := round hpath hnodup howns k
      rw [hloop]
      exact ih hpath' (nodup_cons.mp hnodup).2 howns' (Nat.lt_of_succ_lt_succ hlen)

end

theorem path_of_seg {k : Links (Fin m)} {q : Option (Fin m)} (h : k.Seg q o l none) :
    Fifo.Path k.next o l := by
  induction l generalizing q o with
  | nil => exact h
  | cons i l ih =>
    obtain ⟨rfl, -, hrest⟩ := h
    exact ⟨rfl, ih hrest⟩

theorem Inv.exists_unmapAll (h : s.Inv L F) (hsome : ∃ i, s.owns t i = false) :
    ∃ s₁, s.unmapAll t = some { s₁ with head := update s₁.head t none } ∧
      s.Released (L t) s₁ ∧ s₁.Content (update L t []) ((L t).reverse ++ F) := by
  have hlen : (L t).length ≤ m - 1 := by
    obtain ⟨i, hi⟩ := hsome
    have hnot : i ∉ L t := fun hmem => by
      rw [(h.content.mem t i).mp hmem] at hi
      cases hi
    have hcard := List.Nodup.length_le_card (nodup_cons.mpr ⟨hnot, h.shape.lists.nodup t⟩)
    rw [Fintype.card_fin] at hcard
    exact Nat.le_sub_one_of_lt hcard
  obtain ⟨s₁, hs₁, hreleased⟩ := unmapFrom_spec (path_of_seg (h.shape.lists.seg t))
    (h.shape.lists.nodup t) (fun i hi => (owns_iff.mp ((h.content.mem t i).mp hi)).2) hlen h.content rfl
    fun i hi u hu hiu => hu (h.shape.lists.apart u t i hiu hi)
  exact ⟨s₁, congrArg (Option.map _) hs₁, hreleased⟩

theorem Inv.unmapAll_full (h : s.Inv L F) (hall : ∀ i, s.owns t i = true) (hm : 0 < m) :
    s.unmapAll t = none := by
  have hlen : m ≤ (L t).length := by
    have hsub := (nodup_finRange m).subperm fun i _ => (h.content.mem t i).mpr (hall i)
    simpa using hsub.length_le
  have hloop := unmapFrom_long (path_of_seg (h.shape.lists.seg t))
    (h.shape.lists.nodup t) (fun i hi => (owns_iff.mp ((h.content.mem t i).mp hi)).2)
    ((Nat.sub_lt hm Nat.one_pos).trans_le hlen)
  exact congrArg (Option.map _) hloop

def pagesOf (s : BufferPool n m) (l : List (Fin m)) : List ℕ := l.map fun i => (s.entry i).physAddr

theorem Inv.nodup_pagesOf (h : s.Inv L F) (t : Fin n) : (s.pagesOf (L t)).Nodup := by
  refine .map_on (fun i hi j _ he => ?_) (h.shape.lists.nodup t)
  exact h.content.pages.inj i j (live_of_owns ((h.content.mem t i).mp hi)) he

namespace Inv

theorem shape_unmapAll (h : s.Inv L F) (hr : s.Released (L t) s') :
    Shape { s' with head := update s'.head t none } (update L t [])
      ((L t).reverse ++ F) := by
  have hdis : ∀ i ∈ L t, i ∉ F := fun i hi => h.content.not_mem_free hi
  refine ⟨⟨fun u => ?_, (forall_update_iff L fun _ l => l.Nodup).mpr
    ⟨nodup_nil, fun u _ => h.shape.lists.nodup u⟩, fun u v i hu hv => ?_⟩,
    hr.free F h.shape.free hdis, ?_⟩
  · change s'.links.Seg none (update s'.head t none u) (update L t [] u) none
    by_cases hu : u = t
    · subst hu
      rw [update_self, update_self]
      rfl
    · have hout : ∀ i ∈ L u, i ∉ L t := fun i hi hit => hu (h.shape.lists.apart u t i hi hit)
      rw [update_of_ne hu, update_of_ne hu, hr.head]
      exact (h.shape.lists.seg u).congr (fun i hi => hr.next i (hout i hi))
        fun i hi => hr.prev i (hout i hi)
  · have hmem : ∀ w, i ∈ update L t [] w → i ∈ L w :=
      (forall_update_iff L fun w l => i ∈ l → i ∈ L w).mpr
        ⟨nofun, fun _ _ hw => hw⟩
    exact h.shape.lists.apart u v i (hmem u hu) (hmem v hv)
  · refine nodup_append'.mpr ⟨nodup_reverse.mpr (h.shape.lists.nodup t), h.shape.nodup, ?_⟩
    exact fun i hi => hdis i (mem_reverse.mp hi)

theorem unmapAll (h : s.Inv L F) (hsome : ∃ i, s.owns t i = false) :
    ∃ s', s.unmapAll t = some s' ∧ s.Teardown t s' ∧ ∃ L' F', s'.Inv L' F' := by
  obtain ⟨s₁, hs₁, hr, hc⟩ := h.exists_unmapAll hsome
  refine ⟨_, hs₁, ⟨fun i hi => ?_, ?_, fun i hlive hi => ?_, fun u hu => ?_⟩, _, _,
    h.shape_unmapAll hr, { hc with pages := { hc.pages with } }⟩
  · exact decide_eq_false (not_not.mpr (hr.dead i ((h.content.mem t i).mpr hi)))
  · refine ⟨(s.pagesOf (L t)).reverse, hr.returned, nodup_reverse.mpr (h.nodup_pagesOf t),
      fun p => ?_⟩
    rw [mem_reverse, pagesOf, mem_map]
    exact exists_congr fun i => and_congr_left fun _ => h.content.mem t i
  · have hit : i ∉ L t := fun hmem => by
      rw [(h.content.mem t i).mp hmem] at hi
      cases hi
    exact ⟨hr.entry i hit, hr.next i hit, hr.prev i hit⟩
  · exact (update_of_ne hu ..).trans (congrFun hr.head u)

theorem unmap_of_fail (h : (s.unmap t handle).2 = false) : (s.unmap t handle).1 = s := by
  unfold BufferPool.unmap at h ⊢
  cases hv : s.validateOwned t handle with
  | none => rfl
  | some i =>
    rw [hv] at h
    dsimp only at h ⊢
    split_ifs at h ⊢ with hva
    · rfl

/-! ## Runs -/

theorem step (h : s.Inv L F) (hok : s.Regular a) (hs : s.step a = some s') :
    ∃ L' F', s'.Inv L' F' := by
  obtain ⟨hdistinct, hok⟩ := hok
  cases a with try cases hs
  | alloc t va env =>
    obtain ⟨hfresh, hs⟩ := Option.ite_none_left_eq_some.mp hs
    obtain ⟨⟨s₁, r⟩, halloc, rfl⟩ := Option.map_eq_some_iff.mp hs
    exact h.alloc hdistinct (fun hne hheld => hfresh ⟨hne, .inl hheld⟩) halloc
  | free t handle => exact h.free t handle
  | map t handle va tables => exact ⟨L, F, h.map t handle va tables⟩
  | unmap t handle =>
    rw [unmap_of_fail hok]
    exact ⟨L, F, h⟩
  | transfer handle src dst => exact h.transfer hdistinct handle src dst
  | unmapAll t =>
    obtain ⟨s₁, hs₁, -, hinv⟩ := h.unmapAll hok
    cases hs₁.symm.trans hs
    exact hinv

end Inv

theorem Start.inv (h : s.Start) : ∃ F, s.Inv (fun _ => []) F := by
  obtain ⟨F, hpath, hnodup, hall⟩ := h.free
  have hdead : ∀ i, s.live i = false := fun i => decide_eq_false (not_not.mpr (h.entry i))
  refine ⟨F, ⟨⟨h.head, fun _ => nodup_nil, nofun⟩, hpath, hnodup⟩, fun i => ?_,
    fun t i => ?_, h.pages⟩
  · exact iff_of_true (hall i) (hdead i)
  · refine iff_of_false not_mem_nil fun howns => ?_
    exact nomatch (hdead i).symm.trans (live_of_owns howns)

theorem Start.inv_of_run (h : s.Start) (hr : Run step Regular s as s') : ∃ L F, s'.Inv L F := by
  refine hr.invariant (I := fun s => ∃ L F, s.Inv L F) ?_ ⟨_, h.inv⟩
  rintro _ _ _ ⟨_, _, hinv⟩ hok hs
  exact hinv.step hok hs

/-- In every run without a successful `unmap` and with tasks that differ in their ids, each live
entry is in the list of its owner once, and the death of a task that does not own all entries frees
its entries and nothing else. -/
theorem buffer_ownership (h : s.Start) (hr : Run step Regular s as s') :
    s'.OwnerLists ∧ ∀ t, s'.Regular (.unmapAll t) →
      ∃ s'', s'.step (.unmapAll t) = some s'' ∧ s'.Teardown t s'' := by
  obtain ⟨L, F, hinv⟩ := h.inv_of_run hr
  refine ⟨hinv.ownerLists, fun t hok => ?_⟩
  obtain ⟨s'', hs'', hteardown, -⟩ := hinv.unmapAll hok.2
  exact ⟨s'', hs'', hteardown⟩

/-- A buffer is transferred and mapped by its new owner, and another one is freed. -/
def handedOn : List (BufferAction 2) :=
  [.alloc 0 4096 ⟨true, 0, 3⟩, .alloc 0 8192 ⟨true, 0, 3⟩, .transfer (nthHandle 1 1023) 0 1,
    .map 1 (nthHandle 1 1023) 4096 3, .free 0 (nthHandle 2 1022)]

/-- The new owner dies. -/
theorem buffer_ownership_two : ∃ s', Run step Regular twoTasks handedOn s' ∧
    s'.owns 1 1023 = true ∧ s'.OwnerLists ∧
    ∃ s'', s'.step (.unmapAll 1) = some s'' ∧ s'.Teardown 1 s'' := by
  refine Run.exists_imp_of_exec (fun s' => s'.owns 1 1023 = true ∧ s'.Regular (.unmapAll 1))
    (by decide +kernel) ?_
  rintro s' hr ⟨howns, hok⟩
  obtain ⟨hlists, hdeath⟩ := buffer_ownership twoTasks_start hr
  exact ⟨howns, hlists, hdeath 1 hok⟩

/-- In every such run `unmap_all` fails exactly for a task that owns all entries. -/
theorem unmapAll_eq_none_iff (h : s.Start) (hr : Run step Regular s as s') (hm : 0 < m) (t : Fin n) :
    s'.unmapAll t = none ↔ ∀ i, s'.owns t i = true := by
  obtain ⟨L, F, hinv⟩ := h.inv_of_run hr
  refine ⟨fun hnone i => ?_, fun hall => hinv.unmapAll_full hall hm⟩
  by_contra hi
  obtain ⟨s'', hs'', -⟩ := hinv.unmapAll ⟨i, Bool.eq_false_of_not_eq_true hi⟩
  cases hnone.symm.trans hs''

theorem unmapAll_eq_none_iff_two : ∃ s', Run step Regular twoTasks handedOn s' ∧
    s'.owns 1 1023 = true ∧ s'.unmapAll 1 ≠ none := by
  refine Run.exists_imp_of_exec (fun s' => s'.owns 1 1023 = true ∧ s'.owns 1 0 = false)
    (by decide +kernel) ?_
  rintro s' hr ⟨howns, hother⟩
  refine ⟨howns, fun hnone => ?_⟩
  have hall := (unmapAll_eq_none_iff twoTasks_start hr (by decide) 1).mp hnone 0
  cases hother.symm.trans hall

theorem not_ownerLists (hhead : s.head t = none) (howns : s.owns t i) : ¬ s.OwnerLists := by
  rintro ⟨L, hseg, hcount⟩
  have hnil : L t = [] := by
    have hs := hseg t
    rw [hhead] at hs
    cases hL : L t with
    | nil => rfl
    | cons j l =>
      rw [hL] at hs
      exact absurd hs.1 nofun
  have hone := hcount t i howns
  rw [hnil] at hone
  exact absurd hone nofun

/-- A buffer that its owner has unmapped stays behind when the owner dies, and no page is returned.
One that is unmapped and then freed empties the list of its owner, whose death leaves the other
buffer behind. -/
theorem buffer_left_behind :
    (∃ s', Run step anyStep twoTasks
      [.alloc 0 4096 ⟨true, 0, 3⟩, .unmap 0 (nthHandle 1 1023), .unmapAll 0] s' ∧
      s'.owns 0 1023 = true ∧ s'.returned = [] ∧ ¬ s'.OwnerLists) ∧
    ∃ s', Run step anyStep twoTasks
      [.alloc 0 4096 ⟨true, 0, 3⟩, .alloc 0 8192 ⟨true, 0, 3⟩, .unmap 0 (nthHandle 2 1022),
        .free 0 (nthHandle 2 1022), .unmapAll 0] s' ∧
      s'.owns 0 1023 = true ∧ s'.returned = [8192] ∧ ¬ s'.OwnerLists := by
  constructor
  · refine Run.exists_imp_of_exec
      (fun s' => s'.owns 0 1023 = true ∧ s'.returned = [] ∧ s'.head 0 = none) (by decide +kernel) ?_
    rintro s' - ⟨howns, hreturned, hhead⟩
    exact ⟨howns, hreturned, not_ownerLists hhead howns⟩
  · refine Run.exists_imp_of_exec
      (fun s' => s'.owns 0 1023 = true ∧ s'.returned = [8192] ∧ s'.head 0 = none)
      (by decide +kernel) ?_
    rintro s' - ⟨howns, hreturned, hhead⟩
    exact ⟨howns, hreturned, not_ownerLists hhead howns⟩

end BufferPool

end Nexios.Ipc
