import Nexios.Cap.MapPins

/-!
# Steps of the mapping registry under the exclusion discipline

`Apart` is the condition under which the registry keeps its promises: a map does not reserve a slot
that an unmap still works on, nor for a capability that is being revoked; an unmap does not find,
and `invalidate_cap` and `drain_task` do not clear, a slot that is still being mapped; a revoke
takes effect when no other call is still removing pages of the capability; and no reference is taken
at the largest count. The code enforces none of these.
-/

open Function Option List Nat

namespace Nexios.Cap

open MapState Work

variable {n : ℕ}

def Todo.Apart (s : MapState n) : Todo → Prop
  | .mapClaim _ fc =>
    (∀ i ∈ s.freeSlot, ¬ s.busy .unmap i) ∧ ¬ s.revoking fc ∧ s.refCount fc + 1 < refLimit
  | .unmapFind task va => ∀ i ∈ s.findSlot task va, ¬ s.busy .map i
  | .scan fc i after =>
    ((s.slots i).occupied → (s.slots i).fc = fc → ¬ s.busy .map i) ∧
      (kMaxMaps ≤ i → after = .mark → ¬ s.cleaning fc)
  | .drain task i =>
    (s.slots i).occupied → (s.slots i).ownerTaskId = task.id → ¬ s.busy .map i
  | _ => True

def Apart (s : MapState n) : MapAction n → Prop
  | .share _ fc => s.refCount fc + 1 < refLimit
  | .map _ _ fc => s.refCount fc + 1 < refLimit
  | .resume t _ => s.work t = none → ∀ x ∈ (s.todo t).head?, x.Apart s
  | _ => True

instance (s : MapState n) (x : Todo) : Decidable (x.Apart s) := by
  unfold Todo.Apart
  split <;> infer_instance

instance (s : MapState n) (a : MapAction n) : Decidable (Apart s a) := by
  unfold Apart
  split <;> infer_instance

namespace MapInv

variable {s : MapState n} {t : Fin n} {i : ℕ} {rest : List Todo} {fc : ObjId}

variable (h : MapInv s) {r : Fin n → Option ℕ} {w : Option Work} {p : ℕ → ℕ → Option Pte}
  {l ys : List Todo}
include h

theorem local_step (hcov : Covered { s with pte := p, work := update s.work t w })
    (howed : ∀ fc, owedBy w l fc = owedBy (s.work t) (s.todo t) fc)
    (hclean : ∀ fc, w.bind pinned = some fc → (s.work t).bind pinned = some fc)
    (hok : ∀ y ∈ l, y ∈ s.todo t ∨ y.Ok s) : MapInv { s with
      pte := p, work := update s.work t w, todo := update s.todo t l, ret := r } := by
  have hslots : update s.slots 0 (s.slots 0) = s.slots := update_eq_self 0 s.slots
  have hu := h.thread_step (i := 0) (x := s.slots 0) (r := s.refCount) (e := s.ext) (p := p)
    (w := w) (l := l) (q := r) (by decide) (by rwa [hslots]) (fun fc => by rw [howed]) h.below
    (fun _ hz => hz) (fun _ hp => .inl hp) (fun fc hp => .inl (hclean fc hp)) (by rwa [hslots])
  rwa [hslots] at hu

theorem rework (hcov : Covered { s with pte := p, work := update s.work t w })
    (hpin : w.bind pinned = (s.work t).bind pinned) :
    MapInv { s with pte := p, work := update s.work t w, ret := r } := by
  have hu := h.local_step (l := s.todo t) (r := r) hcov (fun fc => by rw [owedBy, hpin, owedBy])
    (fun fc hp => by rwa [hpin] at hp) fun _ hy => .inl hy
  rwa [update_eq_self] at hu

theorem retodo (howed : ∀ fc, owedBy (s.work t) ys fc = owedBy (s.work t) (s.todo t) fc)
    (hok : ∀ x ∈ ys, x ∈ s.todo t ∨ x.Ok s) :
    MapInv { s with todo := update s.todo t ys, ret := r } := by
  have hwork : update s.work t (s.work t) = s.work := update_eq_self t s.work
  have hu := h.local_step (p := s.pte) (r := r) (by rw [hwork]; exact h.covered) howed
    (fun _ hp => hp) hok
  rwa [hwork] at hu

theorem unpin (ys : List Todo)
    (hi : i < kMaxMaps) (hocc : (s.slots i).occupied) (hcov : Covered { s with
      slots := update s.slots i { s.slots i with occupied := false }
      work := update s.work t w })
    (howed : ∀ fc, owedBy w ys fc = refTo (some (s.slots i).fc) fc +
      owedBy (s.work t) (s.todo t) fc)
    (hclean : ∀ fc, w.bind pinned = some fc → fc = (s.slots i).fc)
    (hok : ∀ x ∈ ys, x ∈ s.todo t ∨ x.Ok { s with
      slots := update s.slots i { s.slots i with occupied := false } }) :
    MapInv { s with
      slots := update s.slots i { s.slots i with occupied := false }
      work := update s.work t w
      todo := update s.todo t ys
      ret := r } := by
  have hpin : (s.slots i).pinned = some (s.slots i).fc := by rw [MapSlot.pinned, hocc, if_pos rfl]
  have hnone : MapSlot.pinned { s.slots i with occupied := false } = none := rfl
  apply h.thread_step hi hcov
  case hbal =>
    intro fc
    rw [hnone, hpin, howed, refTo_none]
    omega
  case hbelow => exact h.below
  case hzero => exact fun _ hz => hz
  case hpin =>
    intro fc hp
    cases hp
  case hclean =>
    intro fc hp
    right
    rw [hpin, hclean fc hp]
  case hok => exact hok

omit h in
theorem unpinned {w : Work} (hkind : w.kind ≠ .clean) : w.pinned = none := by
  cases w with
  | clearPages => exact absurd rfl hkind
  | _ => rfl

theorem vacate {w : Work} (r : Option ℕ) (hw : s.work t = some w)
    (hkind : w.kind ≠ .clean) (hocc : (s.slots w.job.idx).occupied)
    (hstale : ∀ k < (s.frame w.job.fc).count, w.Stale k) :
    MapInv ((((s.setWork t none).setRet t r).clearSlot w.job.idx).push t (.release w.job.fc)) := by
  have hcov := h.covered.vacate hw hkind hstale
  have hfc := (h.covered.records t w hw hkind hocc).1
  refine h.unpin (.release w.job.fc :: s.todo t) (i := w.job.idx) (w := none)
    (r := update s.ret t r) (h.covered.bound t w hw hkind) hocc hcov ?_ ?_ ?_
  · intro fc
    rw [owedBy_cons, hw, hfc, owedBy, owedBy, bind_some, unpinned hkind]
    rfl
  · intro fc hp
    cases hp
  · intro x hx
    rcases mem_cons.mp hx with rfl | hx
    · exact .inr trivial
    · exact .inl hx

theorem cleaned {job : MapJob} {pages j : ℕ} (hw : s.work t = some (.clearPages job pages j))
    (hcov : Covered (s.setWork t none)) : MapInv ((s.setWork t none).push t (.release job.fc)) := by
  apply h.local_step hcov
  case howed =>
    intro fc
    rw [hw, owedBy, owedBy, bind_none, refTo_none, zero_add]
    rfl
  case hclean =>
    intro fc hp
    cases hp
  case hok =>
    intro x hx
    rcases mem_cons.mp hx with rfl | hx
    · exact .inr trivial
    · exact .inl hx

theorem proceed {w : Work} (hw : s.work t = some w) (noTable : Bool) :
    MapInv (s.proceed t noTable w) := by
  have hpinned : (s.work t).bind pinned = w.pinned := by rw [hw, bind_some]
  have hc := h.covered
  cases w with simp only [MapState.proceed]
  | mapOpen job =>
    split_ifs
    · have hcov := hc.advance (.mapClear job) hw (by simp [kind]) rfl rfl rfl
        (fun _ hk => .inl hk)
      exact h.rework hcov hpinned.symm
    · have hcov := hc.advance (.mapPages job 0) hw (by simp [kind]) rfl rfl rfl
        (fun _ _ => .inl trivial)
      exact h.rework hcov hpinned.symm
  | mapPages job j =>
    split_ifs with hj hfail
    · have hcov := hc.advance (.mapUndo job 0 j) hw (by simp [kind]) rfl rfl rfl
        (fun k hk => .inl (hk.resolve_left (not_lt_zero k)))
      exact h.rework hcov hpinned.symm
    · have hcov := hc.advance (.mapPages job (j + 1)) hw (by simp [kind]) rfl rfl rfl
        (fun k hk => .inl (le_of_succ_le hk))
      have hwr := hcov.write (t := t) (w := .mapPages job (j + 1)) (k := j)
        (update_self ..) rfl hj (not_succ_le_self j)
      exact h.rework hwr hpinned.symm
    · have hcov := hc.finish (Covered.not_clean hw (by simp [kind]))
      exact h.rework hcov hpinned.symm
  | mapUndo job j k =>
    split_ifs with hj
    · have hcov := (hc.erase job.pml4 (job.va + j * pageSize)).advance
        (.mapUndo job (j + 1) k) hw (by simp [kind]) rfl rfl rfl ?_
      · exact h.rework hcov hpinned.symm
      rintro l (hl | hl)
      · rcases Nat.lt_succ_iff_lt_or_eq.mp hl with hl | rfl
        · exact .inl (.inl hl)
        · simp [Work.job]
      · exact .inl (.inr hl)
    · have hcov := hc.advance (.mapClear job) hw (by simp [kind]) rfl rfl rfl ?_
      · exact h.rework hcov hpinned.symm
      · intro l _
        left
        change l < j ∨ k ≤ l
        omega
  | mapClear job =>
    split_ifs with hhit
    · exact h.vacate none hw (by simp [kind]) hhit.1 (fun _ _ => trivial)
    · have hcov := hc.finish (Covered.not_clean hw (by simp [kind]))
      exact h.rework hcov hpinned.symm
  | unmapPages job task pages j =>
    split_ifs with hj
    · have hcov := (hc.erase job.pml4 (job.va + j * pageSize)).advance
        (.unmapPages job task pages (j + 1)) hw (by simp [kind]) rfl rfl rfl ?_
      · exact h.rework hcov hpinned.symm
      · intro l hl
        rcases Nat.lt_succ_iff_lt_or_eq.mp hl with hl | rfl
        · exact .inl hl
        · simp [Work.job]
    · have hcov := hc.advance (.unmapClear job task pages) hw (by simp [kind]) rfl rfl
        rfl ?_
      · exact h.rework hcov hpinned.symm
      · intro l hl
        left
        exact lt_of_lt_of_le hl (not_lt.mp hj)
  | unmapClear job task pages =>
    split_ifs with hhit
    · refine h.vacate (some job.va) hw (by simp [kind]) hhit.1 ?_
      intro k hk
      rw [← hc.pages t _ pages hw hhit.1 rfl] at hk
      exact hk
    · have hcov := hc.finish (Covered.not_clean hw (by simp [kind]))
      exact h.rework hcov hpinned.symm
  | clearPages job pages j =>
    split_ifs with hj
    · have hcov := (hc.erase job.pml4 (job.va + j * pageSize)).reclean hw (by simp)
      exact h.rework hcov hpinned.symm
    have hcov := hc.finish (t := t) ?_
    · exact h.cleaned hw hcov
    · intro job' pages' j' hw'
      rw [hw] at hw'
      cases hw'
      exact not_lt.mp hj

omit h in
theorem push_setTodo (s : MapState n) (t : Fin n) (y : Todo) (rest : List Todo) :
    (s.setTodo t rest).push t y = s.setTodo t (y :: rest) := by
  simp [push, setTodo]

/-- `invalidate_cap` or `drain_task` clears a slot and goes on with `y`. -/
theorem detach {x y : Todo} (hw : s.work t = none)
    (hi : i < kMaxMaps) (ht : s.todo t = x :: rest) (hocc : (s.slots i).occupied)
    (hbusy : ¬ s.busy .map i) (hx : x.pinned = none) (hy : y.pinned = none) (hok : y.Ok { s with
      slots := update s.slots i { s.slots i with occupied := false } }) :
    MapInv ((s.setTodo t (y :: rest)).detach t i) := by
  have hcov := h.covered.detach hw hocc hbusy
  refine h.unpin (y :: rest) (r := s.ret) hi hocc
    (w := some (.clearPages ⟨i, (s.slots i).fc, (s.slots i).va, (s.slots i).pml4⟩
      (s.frame (s.slots i).fc).count 0)) hcov ?_ ?_ ?_
  · intro fc
    rw [ht, hw, owedBy_cons, owedBy_cons, hx, hy, refTo_none, zero_add, zero_add, owedBy,
      owedBy, bind_none, refTo_none, zero_add]
    rfl
  · intro fc hp
    exact (some.inj hp).symm
  · intro z hz
    rcases mem_cons.mp hz with rfl | hz
    · exact .inr hok
    · rw [ht]
      exact .inl (mem_cons_of_mem x hz)

theorem follow {x : Todo} (ys : List Todo) (r : Fin n → Option ℕ) (ht : s.todo t = x :: rest)
    (hpin : ∀ fc, (ys.map fun y => refTo y.pinned fc).sum = refTo x.pinned fc)
    (hok : ∀ y ∈ ys, y.Ok s) :
    MapInv { s with todo := update s.todo t (ys ++ rest), ret := r } := by
  apply h.retodo
  · intro fc
    have hp := hpin fc
    rw [ht, owedBy_cons, owedBy, owedBy, map_append, List.sum_append]
    omega
  · intro y hy
    rw [ht]
    rcases mem_append.mp hy with hy | hy
    · exact .inr (hok y hy)
    · exact .inl (mem_cons_of_mem x hy)

theorem refCount_pos {x : Todo} (ht : s.todo t = x :: rest) (hx : x.pinned = some fc) :
    0 < s.refCount fc := by
  have hle := owedBy_le s t fc
  have hc := h.count fc
  rw [ht, owedBy_cons, hx, refTo_self] at hle
  omega

theorem claim {task : MapTask} (hw : s.work t = none) (ht : s.todo t = .mapClaim task fc :: rest)
    (hfree : s.freeSlot = some i) (hrev : s.revoked fc = false)
    (hapart : (Todo.mapClaim task fc).Apart s) :
    MapInv ((((s.setTodo t (.release fc :: rest)).pin fc).setSlot i
      ⟨task.id, task.generation, fc, slotVa i, task.pageTable, true⟩).setWork t
        (some (.mapOpen ⟨i, fc, slotVa i, task.pageTable⟩))) := by
  obtain ⟨hunmap, hno, hlimit⟩ := hapart
  have hi : i < kMaxMaps := mem_range.mp (mem_of_find?_eq_some hfree)
  have hslot : (s.slots i).occupied = false := by simpa using List.find?_some hfree
  obtain ⟨hlt, hsize⟩ := h.todoOk t _ (by rw [ht]; exact mem_cons_self)
  have hcov := h.covered.claim (x := ⟨task.id, task.generation, fc, slotVa i,
    task.pageTable, true⟩) hw hi hslot (hunmap i hfree) rfl rfl hsize
  have hmod : (s.refCount fc + 1) % refLimit = s.refCount fc + 1 := mod_eq_of_lt hlimit
  have hpos := h.refCount_pos ht rfl
  apply h.thread_step (r := update s.refCount fc ((s.refCount fc + 1) % refLimit)) (e := s.ext) hi
    hcov
  case hbal =>
    intro fc'
    have hold : owedBy (s.work t) (s.todo t) fc' = refTo (some fc) fc' + owedBy none rest fc' := by
      rw [ht, hw, owedBy_cons]
      rfl
    have hnew : ∀ job, owedBy (some (.mapOpen job)) (.release fc :: rest) fc' =
        refTo (some fc) fc' + owedBy none rest fc' := by
      intro job
      rw [owedBy_cons]
      rfl
    simp only [hold, hnew, hslot, Bool.false_eq_true, if_false, refTo_none, MapSlot.pinned, if_true,
      refTo_some, update_apply]
    by_cases hfc : fc' = fc
    · rw [if_pos hfc, if_pos hfc.symm, hfc]
      omega
    · rw [if_neg hfc, if_neg (Ne.symm hfc)]
  case hbelow =>
    intro fc'
    simp only [update_apply, hmod]
    split_ifs
    · exact hlimit
    · exact h.below fc'
  case hzero =>
    intro fc' hz
    simp only [update_apply]
    split_ifs with hfc
    · rw [hfc] at hz
      omega
    · exact hz
  case hpin =>
    intro fc' hp
    right
    cases hp
    exact ⟨hrev, hno⟩
  case hclean =>
    intro fc' hp
    cases hp
  case hok =>
    intro x hx
    rcases mem_cons.mp hx with rfl | hx
    · exact .inr trivial
    · rw [ht]
      exact .inl (mem_cons_of_mem _ hx)

theorem recount (fc : ObjId) {k : ℕ} {e : ObjId → ℕ} (he : ∀ fc', fc' ≠ fc → e fc' = s.ext fc')
    (hbal : k + (s.ext fc + owedBy (s.work t) (s.todo t) fc) =
      s.refCount fc + (e fc + owedBy (s.work t) l fc))
    (hsame : ∀ fc', fc' ≠ fc → owedBy (s.work t) l fc' = owedBy (s.work t) (s.todo t) fc')
    (hk : k < refLimit) (hzero : s.refCount fc = 0 → k = 0) (hok : ∀ x ∈ l, x ∈ s.todo t ∨
      x.Ok { s with refCount := update s.refCount fc k }) : MapInv { s with
      refCount := update s.refCount fc k, ext := e, todo := update s.todo t l } := by
  have hslots : update s.slots 0 (s.slots 0) = s.slots := update_eq_self 0 s.slots
  have hwork : update s.work t (s.work t) = s.work := update_eq_self t s.work
  have hu := h.thread_step (i := 0) (x := s.slots 0) (r := update s.refCount fc k) (e := e)
    (p := s.pte) (w := s.work t) (l := l) (q := s.ret) (by decide)
    (by rw [hslots, hwork]; exact h.covered) ?_ ?_ ?_ (fun _ hp => .inl hp) (fun _ hp => .inl hp)
    (by rwa [hslots])
  · rwa [hslots, hwork] at hu
  · intro fc'
    by_cases hfc : fc' = fc
    · subst hfc
      simp only [update_self]
      omega
    · simp only [update_of_ne hfc, he fc' hfc, hsame fc' hfc]
  · intro fc'
    simp only [update_apply]
    split_ifs
    · exact hk
    · exact h.below fc'
  · intro fc' hz
    simp only [update_apply]
    split_ifs with hfc
    · exact hzero (hfc ▸ hz)
    · exact hz

theorem released {rest : List Todo} (ht : s.todo t = .release fc :: rest)
    (hys : ys = rest ∨ s.refCount fc = 1 ∧ ys = .scan fc 0 .free :: rest) : MapInv { s with
      refCount := update s.refCount fc (s.refCount fc - 1)
      todo := update s.todo t ys } := by
  have howed : ∀ fc', owedBy (s.work t) (s.todo t) fc' =
      refTo (some fc) fc' + owedBy (s.work t) rest fc' := by
    intro fc'
    rw [ht, owedBy_cons]
    rfl
  have hnew : ∀ fc', owedBy (s.work t) ys fc' = owedBy (s.work t) rest fc' := by
    intro fc'
    rcases hys with rfl | ⟨-, rfl⟩
    · rfl
    · rw [owedBy_cons]
      exact zero_add _
  have hpos := h.refCount_pos ht rfl
  apply h.recount fc
  case he => exact fun _ _ => rfl
  case hbal =>
    rw [hnew, howed, refTo_self]
    omega
  case hsame =>
    intro fc' hne
    rw [hnew, howed, refTo_ne hne, zero_add]
  case hk => exact lt_of_le_of_lt (sub_le _ _) (h.below fc)
  case hzero => omega
  case hok =>
    rw [ht]
    intro x hx
    rcases hys with rfl | ⟨hone, rfl⟩
    · exact .inl (mem_cons_of_mem _ hx)
    · rcases mem_cons.mp hx with rfl | hx
      · right
        refine ⟨?_, h.lt_next hpos⟩
        simp only [update_self, hone]
      · exact .inl (mem_cons_of_mem _ hx)

theorem release
    (ht : s.todo t = .release fc :: rest) : MapInv ((s.setTodo t rest).release t fc) := by
  have hpos := h.refCount_pos ht rfl
  have hmod : (s.refCount fc + (refLimit - 1)) % refLimit = s.refCount fc - 1 := by
    have hb := h.below fc
    simp only [refLimit] at *
    omega
  unfold MapState.release
  simp only [MapState.setTodo_refCount, hmod]
  split_ifs with hlast
  · change MapInv (((s.setRefs fc _).setTodo t rest).push t _)
    rw [push_setTodo]
    exact h.released ht (.inr ⟨hlast, rfl⟩)
  · exact h.released ht (.inl rfl)

theorem mark
    (ht : s.todo t = .scan fc i .mark :: rest) (hi : kMaxMaps ≤ i) (hclean : ¬ s.cleaning fc) :
    MapInv { s.setTodo t rest with revoked := update s.revoked fc true } := by
  have hscan := h.todoOk t _ (by rw [ht]; exact mem_cons_self)
  have hrest := h.follow [] s.ret ht (fun _ => rfl) nofun
  refine { hrest with covered := { hrest.covered with }, revoked := ?_ }
  intro fc' hr
  by_cases hfc : fc' = fc
  · subst hfc
    exact ⟨fun j hj => hscan j (lt_of_lt_of_le hj hi) hj, hclean⟩
  · simp only [update_of_ne hfc] at hr
    exact hrest.revoked fc' hr

theorem free (ht : s.todo t = .scan fc i .free :: rest) :
    MapInv { s.setTodo t rest with freed := update s.freed fc true } := by
  have hscan := h.todoOk t _ (by rw [ht]; exact mem_cons_self)
  have hrest := h.follow [] s.ret ht (fun _ => rfl) nofun
  refine { hrest with covered := { hrest.covered with }, freed := ?_ }
  intro fc' hf
  by_cases hfc : fc' = fc
  · subst hfc
    exact hscan
  · simp only [update_of_ne hfc] at hf
    exact hrest.freed fc' hf

end MapInv

end Nexios.Cap
