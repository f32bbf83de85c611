import Nexios.Cap.MapSteps

/-!
# No mapping outlives its frame capability

In every run that keeps to `Apart`, each leaf entry of an idle registry belongs to exactly one
occupied slot, each slot holds one pin, and no entry is left of a capability that has been revoked
or disposed. Without the discipline a revoke that runs between the reservation of a slot and the
mapping of its pages leaves an entry behind, even beyond the return of the frames to the PMM.
-/

open Function Option List

namespace Nexios.Cap

open MapState

variable {n : ℕ}

namespace MapInv

variable {s u : MapState n} {t : Fin n} {fc : ObjId} {rest : List Todo} {pml4 va : ℕ} {e : Pte}
  {i : ℕ}

section

variable (h : MapInv s)
include h

section

variable (hw : s.work t = none) {task : MapTask}
include hw

theorem enter_scan {after : AfterScan} (ht : s.todo t = .scan fc i after :: rest)
    (hapart : (Todo.scan fc i after).Apart s) :
    MapInv ((s.setTodo t rest).enter t (.scan fc i after)) := by
  have hok := h.todoOk t _ (by rw [ht]; exact mem_cons_self)
  simp only [enter, push_setTodo]
  split_ifs with hi hhit
  · refine h.detach hw hi ht hhit.1 (hapart.1 hhit.1 hhit.2) rfl rfl ?_
    cases after with
    | mark =>
      intro j hj hjm
      by_cases hji : j = i
      · simp [hji, MapSlot.pinned]
      · simp only [update_of_ne hji]
        exact hok j (by omega) hjm
    | free => exact hok
  · refine h.follow [.scan fc (i + 1) after] s.ret ht (fun _ => rfl) ?_
    intro y hy
    rw [mem_singleton.mp hy]
    cases after with
    | mark =>
      intro j hj hjm hp
      by_cases hji : j = i
      · subst hji
        exact hhit (pinned_eq_some hp)
      · exact hok j (by omega) hjm hp
    | free => exact hok
  · cases after with
    | mark => exact h.mark ht (not_lt.mp hi) (hapart.2 (not_lt.mp hi) rfl)
    | free => exact h.free ht

theorem enter_drain (ht : s.todo t = .drain task i :: rest) (hapart : (Todo.drain task i).Apart s) :
    MapInv ((s.setTodo t rest).enter t (.drain task i)) := by
  simp only [enter, push_setTodo]
  split_ifs with hi hhit
  · exact h.detach hw hi ht hhit.1 (hapart hhit.1 hhit.2) rfl rfl trivial
  · refine h.follow [.drain task (i + 1)] s.ret ht (fun _ => rfl) ?_
    intro y hy
    rw [mem_singleton.mp hy]
    trivial
  · exact h.follow [] s.ret ht (fun _ => rfl) nofun

theorem enter_unmapFind {va : ℕ} (ht : s.todo t = .unmapFind task va :: rest)
    (hapart : (Todo.unmapFind task va).Apart s) :
    MapInv ((s.setTodo t rest).enter t (.unmapFind task va)) := by
  have hrest := fun r => h.follow [] r ht (fun _ => rfl) nofun
  simp only [enter]
  split
  · exact hrest _
  rename_i i hfind
  have hi : i < kMaxMaps := mem_range.mp (mem_of_find?_eq_some hfind)
  have hva : (s.slots i).va = va := by
    have hp := List.find?_some hfind
    simp only [Bool.and_eq_true, beq_iff_eq] at hp
    exact hp.1.1.2
  have hcov := h.covered.find (t := t) task hw hi (hapart i hfind)
  rw [hva] at hcov
  exact (hrest s.ret).rework { hcov with } (by rw [hw]; rfl)

theorem enter {x : Todo}
    (ht : s.todo t = x :: rest) (hapart : x.Apart s) : MapInv ((s.setTodo t rest).enter t x) := by
  cases x with
  | mapCheck task fc =>
    have hlt := h.todoOk t _ (by rw [ht]; exact mem_cons_self)
    simp only [MapState.enter, push_setTodo]
    split_ifs with hok
    · refine h.follow [.mapClaim task fc] s.ret ht (fun _ => rfl) ?_
      intro y hy
      rw [mem_singleton.mp hy]
      exact ⟨hlt, hok.2.2.2.2.1⟩
    · refine h.follow [.release fc] _ ht (fun _ => rfl) ?_
      intro y hy
      rw [mem_singleton.mp hy]
      trivial
  | mapClaim task fc =>
    have hfail := fun r => h.follow [.release fc] r ht (fun _ => rfl)
      (fun y hy => by rw [mem_singleton.mp hy]; trivial)
    simp only [MapState.enter, push_setTodo, MapState.claim]
    split
    · exact hfail _
    · next i hfree =>
      split_ifs with hrev
      · exact hfail _
      · exact h.claim hw ht hfree (by simpa using hrev) hapart
  | unmapFind task va => exact h.enter_unmapFind hw ht hapart
  | scan fc i after => exact h.enter_scan hw ht hapart
  | drain task i => exact h.enter_drain hw ht hapart
  | release fc => exact h.release ht

end

theorem create (phys count : ℕ) (isUser : Bool) :
    MapInv { s with
      next := s.next + 1
      frame := update s.frame s.next ⟨phys, count, isUser⟩
      refCount := update s.refCount s.next 1
      ext := update s.ext s.next 1 } := by
  have hzero := h.fresh s.next (le_refl _)
  have hcount := h.count s.next
  constructor
  case covered =>
    refine { h.covered.create ⟨phys, count, isUser⟩ ?_ with }
    intro i hi hocc hfc
    have hpos := h.refCount_pos_of_slot s.next hi (by
      rw [MapSlot.pinned, hocc, if_pos rfl, hfc])
    omega
  case count =>
    intro fc
    by_cases hfc : fc = s.next
    · subst hfc
      simp only [update_self]
      change 1 = 1 + s.slotPins s.next + s.owed s.next
      omega
    · simp only [update_of_ne hfc]
      exact h.count fc
  case below =>
    intro fc
    simp only [update_apply]
    split_ifs
    · decide
    · exact h.below fc
  case fresh =>
    intro fc hfc
    have hlt : s.next < fc := hfc
    simp only [update_of_ne (ne_of_gt hlt)]
    exact h.fresh fc hlt.le
  case freed =>
    intro fc hf
    obtain ⟨hz, hlt⟩ := h.freed fc hf
    simp only [update_of_ne (ne_of_lt hlt)]
    exact ⟨hz, Nat.lt_succ_of_lt hlt⟩
  case revoked => exact h.revoked
  case todoOk =>
    intro t x hx
    have hold := h.todoOk t x hx
    cases x with
    | mapCheck task fc => exact Nat.lt_succ_of_lt hold
    | mapClaim task fc =>
      refine ⟨Nat.lt_succ_of_lt hold.1, ?_⟩
      simp only [update_of_ne (ne_of_lt hold.1)]
      exact hold.2
    | scan fc i after =>
      cases after with
      | mark => exact hold
      | free =>
        refine ⟨?_, Nat.lt_succ_of_lt hold.2⟩
        simp only [update_of_ne (ne_of_lt hold.2)]
        exact hold.1
    | _ => trivial

theorem refCount_pos_of_ext (he : 0 < s.ext fc) : 0 < s.refCount fc := by
  have hc := h.count fc
  omega

theorem hand_over {ys : List Todo} (hidle : s.idle t)
    (he : 0 < s.ext fc) (hpin : ∀ fc', owedBy none ys fc' = refTo (some fc) fc')
    (hok : ∀ x ∈ ys, x.Ok s) : MapInv ((s.setExt fc (s.ext fc - 1)).setTodo t ys) := by
  have hrefs : update s.refCount fc (s.refCount fc) = s.refCount := update_eq_self fc s.refCount
  have hr := h.recount (t := t) fc (k := s.refCount fc)
    (e := update s.ext fc (s.ext fc - 1)) (l := ys)
    (fun fc' hfc => update_of_ne hfc _ _) ?_ ?_ (h.below fc) (fun hz => hz) ?_
  · rwa [hrefs] at hr
  · rw [hidle.1, hidle.2, hpin, update_self, refTo_self, owedBy_nil, bind_none, refTo_none]
    omega
  · intro fc' hfc
    rw [hidle.1, hidle.2, hpin, refTo_ne hfc, owedBy_nil, bind_none, refTo_none]
  · rw [hrefs]
    exact fun x hx => .inr (hok x hx)

theorem start {x : Todo} (hidle : s.idle t) (hpin : x.pinned = none) (hok : x.Ok s) :
    MapInv (s.setTodo t [x]) := by
  refine h.retodo (r := s.ret) ?_ ?_
  · intro fc
    rw [hidle.2, owedBy_cons, hpin, refTo_none, Nat.zero_add]
  · intro y hy
    rw [mem_singleton.mp hy]
    exact .inr hok

theorem step {a : MapAction n} (hapart : Apart s a) (hs : s.step a = some u) : MapInv u := by
  cases a with try obtain ⟨hguard, rfl⟩ := ite_some_none_eq_some.mp hs
  | create phys count isUser =>
    cases hs
    exact h.create phys count isUser
  | share t fc =>
    have hpos := h.refCount_pos_of_ext hguard.2.1
    have hmod : (s.refCount fc + 1) % refLimit = s.refCount fc + 1 := Nat.mod_eq_of_lt hapart
    have hr := h.recount fc (t := t) (k := (s.refCount fc + 1) % refLimit)
      (e := update s.ext fc (s.ext fc + 1)) (l := s.todo t)
      (fun fc' hfc => update_of_ne hfc _ _) ?_ (fun _ _ => rfl) ?_ ?_ (fun x hx => .inl hx)
    · rwa [update_eq_self] at hr
    · simp only [update_self]
      omega
    · rw [hmod]
      exact hapart
    · omega
  | drop t fc =>
    refine h.hand_over hguard.1 hguard.2 (fun _ => by simp [Todo.pinned]) ?_
    intro x hx
    rw [mem_singleton.mp hx]
    trivial
  | map t task fc =>
    have hpos := h.refCount_pos_of_ext hguard.2.1
    have hmod : (s.refCount fc + 1) % refLimit = s.refCount fc + 1 := Nat.mod_eq_of_lt hapart
    have hnew : ∀ fc', owedBy none [.mapCheck task fc] fc' = refTo (some fc) fc' := by
      simp [Todo.pinned]
    obtain ⟨⟨hw, ht⟩, -⟩ := hguard
    refine h.recount _ (t := t) (e := s.ext) (fun _ _ => rfl) ?_ ?_ ?_ ?_ ?_
    · rw [hw, ht, hnew, refTo_self, owedBy_nil, bind_none, refTo_none]
      omega
    · intro fc' hfc
      rw [hw, ht, hnew, refTo_ne hfc, owedBy_nil, bind_none, refTo_none]
    · rw [hmod]
      exact hapart
    · omega
    · intro x hx
      rw [mem_singleton.mp hx]
      exact .inr (h.lt_next hpos)
  | unmap t task va | drainTask t task => exact h.start hguard rfl trivial
  | revoke t fc =>
    refine h.hand_over hguard.1 hguard.2 (fun _ => by simp [Todo.pinned]) ?_
    intro x hx
    rcases mem_cons.mp hx with rfl | hx
    · exact fun j hj => absurd hj (Nat.not_lt_zero j)
    · rw [mem_singleton.mp hx]
      trivial
  | resume t noTable =>
    simp only [MapState.step] at hs
    split at hs
    · next w hw =>
      cases hs
      exact h.proceed hw noTable
    · cases hs
    · next x rest hw ht =>
      cases hs
      refine h.enter hw ht (hapart hw x ?_)
      rw [ht]
      rfl

end

theorem of_run {as : List (MapAction n)} (hrun : Run MapState.step Apart MapState.init as s) :
    MapInv s :=
  hrun.invariant (I := MapInv) (fun _ _ _ h hok hs => h.step hok hs) init

section

variable (h : MapInv s)
include h

theorem pinned_of_pte (he : s.pte pml4 va = some e) :
    (∃ i < kMaxMaps, (s.slots i).pinned = some e.cap) ∨ s.cleaning e.cap := by
  rcases h.covered.cover pml4 va e he with ⟨i, hi, hocc, -, k, -, -, rfl⟩ | hl
  · left
    refine ⟨i, hi, ?_⟩
    rw [MapSlot.pinned, hocc, if_pos rfl]
  · exact .inr hl.cleaning

theorem cap_ne_of_revoked (hr : s.revoked fc) (he : s.pte pml4 va = some e) :
    e.cap ≠ fc := by
  rintro rfl
  obtain ⟨hnone, hnc⟩ := h.revoked _ hr
  rcases h.pinned_of_pte he with ⟨i, hi, hp⟩ | hc
  · exact hnone i hi hp
  · exact hnc hc

theorem cap_ne_of_freed (hf : s.freed fc) (he : s.pte pml4 va = some e) : e.cap ≠ fc := by
  rintro rfl
  have hz := (h.freed _ hf).1
  rcases h.pinned_of_pte he with ⟨i, hi, hp⟩ | hc
  · have hpos := h.refCount_pos_of_slot _ hi hp
    omega
  · have hpos := h.refCount_pos_of_cleaning hc
    omega

theorem keeps_unique {pml4 va i' : ℕ} (hk : s.Keeps i pml4 va e) (hk' : s.Keeps i' pml4 va e) :
    i' = i := by
  obtain ⟨hi, hocc, -, k, hlt, hva, -⟩ := hk
  obtain ⟨hi', hocc', -, k', hlt', hva', -⟩ := hk'
  rw [hva', (h.covered.region i hi hocc).1, (h.covered.region i' hi' hocc').1] at hva
  exact (slotVa_inj (h.covered.page_lt hi' hocc' hlt') (h.covered.page_lt hi hocc hlt) hva).1

theorem keeper_of_idle (hidle : ∀ t, s.idle t)
    (he : s.pte pml4 va = some e) : ∃! i, s.Keeps i pml4 va e := by
  rcases h.covered.cover pml4 va e he with ⟨i, hk⟩ | ⟨t, _, _, _, _, hw, -⟩
  · exact ⟨i, hk, fun i' hk' => h.keeps_unique hk hk'⟩
  · rw [(hidle t).1] at hw
    cases hw

end

theorem owed_of_idle (hidle : ∀ t, s.idle t) (fc : ObjId) : s.owed fc = 0 := by
  apply Finset.sum_eq_zero
  intro t _
  rw [(hidle t).1, (hidle t).2]
  rfl

end MapInv

theorem no_mapping_outlives_frame {as : List (MapAction n)} {s : MapState n}
    (hrun : Run MapState.step Apart MapState.init as s) :
    ((∀ t, s.idle t) →
      (∀ pml4 va e, s.pte pml4 va = some e → ∃! i, s.Keeps i pml4 va e) ∧
        ∀ fc, s.refCount fc = s.ext fc + s.slotPins fc) ∧
      (∀ fc, s.revoked fc → ∀ pml4 va e, s.pte pml4 va = some e → e.cap ≠ fc) ∧
      ∀ fc, s.freed fc → ∀ pml4 va e, s.pte pml4 va = some e → e.cap ≠ fc := by
  have h := MapInv.of_run hrun
  refine ⟨?_, ?_, ?_⟩
  · intro hidle
    refine ⟨fun _ _ _ he => h.keeper_of_idle hidle he, ?_⟩
    intro fc
    rw [h.count fc, MapInv.owed_of_idle hidle, Nat.add_zero]
  · exact fun fc hr _ _ _ he => h.cap_ne_of_revoked hr he
  · exact fun fc hf _ _ _ he => h.cap_ne_of_freed hf he

/-- One task maps a page of a capability while nobody else is at work. -/
theorem no_mapping_outlives_frame_mapOnce :
    ∃ s : MapState 1, Run step Apart init
      ([.create 8192 1 true, .map 0 ⟨1, 0, 4096⟩ 0] ++ List.replicate 6 (.resume 0 false)) s ∧
      ∃! i, s.Keeps i 4096 userShmVaBase ⟨8192, 0⟩ := by
  refine Run.exists_imp_of_exec
    (fun s => (∀ t, s.idle t) ∧ s.pte 4096 userShmVaBase = some ⟨8192, 0⟩) (by decide +kernel) ?_
  rintro s hrun ⟨hidle, he⟩
  exact ((no_mapping_outlives_frame hrun).1 hidle).1 _ _ _ he

/-- Thread `0` reserves a slot; thread `1` revokes the capability, finds nothing to unmap yet, and
returns; thread `0` then maps the page and drops the last reference. -/
def revokeBetween : List (MapAction 2) :=
  [.create 8192 1 true, .map 0 ⟨1, 0, 4096⟩ 0, .resume 0 false, .resume 0 false, .revoke 1 0] ++
    List.replicate 4 (.resume 1 false) ++ [.resume 0 false] ++ List.replicate 9 (.resume 1 false) ++
    List.replicate 12 (.resume 0 false)

theorem mapping_outlives_frame :
    ∃ s : MapState 2, Run step anyStep init revokeBetween s ∧
      (∀ t, s.idle t) ∧ s.revoked 0 = true ∧ s.freed 0 = true ∧
      s.pte 4096 userShmVaBase = some ⟨8192, 0⟩ ∧
      ∀ i < kMaxMaps, (s.slots i).occupied = false :=
  Run.exists_of_exec (by decide +kernel)

end Nexios.Cap
