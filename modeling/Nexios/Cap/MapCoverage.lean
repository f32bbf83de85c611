import Nexios.Cap.FrameMap

/-!
# Every leaf entry has a keeper

A leaf entry of the registry is kept by the occupied slot of its region, or it is about to be
removed by a thread that has cleared its slot. This is an invariant as long as map and unmap do not
work on one slot at the same time and nobody clears a slot that is still being mapped. A call in
progress records which pages of its slot are certainly not mapped any more or not mapped yet.
-/

open Function

namespace Nexios.Cap

open MapState

inductive WorkKind
  | map
  | unmap
  | clean
  deriving DecidableEq, Repr

namespace Work

def kind : Work → WorkKind
  | .mapOpen _ | .mapPages _ _ | .mapUndo _ _ _ | .mapClear _ => .map
  | .unmapPages _ _ _ _ | .unmapClear _ _ _ => .unmap
  | .clearPages _ _ _ => .clean

def job : Work → MapJob
  | .mapOpen job | .mapPages job _ | .mapUndo job _ _ | .mapClear job => job
  | .unmapPages job _ _ _ | .unmapClear job _ _ => job
  | .clearPages job _ _ => job

def pages : Work → Option ℕ
  | .unmapPages _ _ pages _ | .unmapClear _ _ pages => some pages
  | _ => none

/-- Page `k` is not mapped on behalf of the slot. -/
def Stale : Work → ℕ → Prop
  | .mapOpen _, _ | .mapClear _, _ => True
  | .mapPages _ j, k => j ≤ k
  | .mapUndo _ j l, k => k < j ∨ l ≤ k
  | .unmapPages _ _ _ j, k => k < j
  | .unmapClear _ _ pages, k => k < pages
  | .clearPages _ _ _, _ => False

theorem Stale.not_clean {w : Work} {k : ℕ} (h : w.Stale k) : w.kind ≠ .clean := by
  intro hc
  cases w with
  | clearPages => exact h
  | _ => cases hc

theorem not_clean_of_map {w : Work} (h : w.kind = .map) : w.kind ≠ .clean := by
  rw [h]
  decide

theorem not_clean_of_pages {w : Work} {p : ℕ} (h : w.pages = some p) : w.kind ≠ .clean := by
  intro hc
  cases w with
  | clearPages => cases h
  | _ => cases hc

end Work

namespace MapState

variable {n : ℕ}

def busy (s : MapState n) (kind : WorkKind) (i : ℕ) : Prop :=
  ∃ t, ∃ w ∈ s.work t, w.kind = kind ∧ w.job.idx = i
  deriving Decidable

def cleaning (s : MapState n) (fc : ObjId) : Prop :=
  ∃ t, ∃ w ∈ s.work t, w.kind = .clean ∧ w.job.fc = fc
  deriving Decidable

def Keeps (s : MapState n) (i pml4 va : ℕ) (e : Pte) : Prop :=
  i < kMaxMaps ∧ (s.slots i).occupied = true ∧ (s.slots i).pml4 = pml4 ∧
    ∃ k < (s.frame (s.slots i).fc).count, va = (s.slots i).va + k * pageSize ∧
      e = ⟨(s.frame (s.slots i).fc).phys + k * pageSize, (s.slots i).fc⟩

/-- A thread that has cleared a slot of `cap` is about to remove the entry at `va`. -/
def Leaving (s : MapState n) (pml4 va : ℕ) (cap : ObjId) : Prop :=
  ∃ t job pages j k, s.work t = some (.clearPages job pages j) ∧ job.fc = cap ∧ job.pml4 = pml4 ∧
    j ≤ k ∧ k < pages ∧ va = job.va + k * pageSize

abbrev Done (s : MapState n) (t : Fin n) : Prop :=
  ∀ job pages j, s.work t = some (.clearPages job pages j) → pages ≤ j

theorem Leaving.cleaning {s : MapState n} {pml4 va : ℕ} {cap : ObjId}
    (h : s.Leaving pml4 va cap) : s.cleaning cap := by
  obtain ⟨t, job, pages, j, k, hw, hfc, -⟩ := h
  exact ⟨t, _, hw, rfl, hfc⟩

theorem slotVa_inj {i i' j j' : ℕ} (hj : j * pageSize < userShmRegionSize)
    (hj' : j' * pageSize < userShmRegionSize)
    (h : slotVa i + j * pageSize = slotVa i' + j' * pageSize) : i = i' ∧ j = j' := by
  simp only [slotVa, userShmRegionSize, pageSize] at *
  omega

end MapState

def MapSlot.Records (x : MapSlot) (job : MapJob) : Prop :=
  x.fc = job.fc ∧ x.va = job.va ∧ x.pml4 = job.pml4

variable {n : ℕ}

structure Covered (s : MapState n) : Prop where
  region : ∀ i < kMaxMaps, (s.slots i).occupied → (s.slots i).va = slotVa i ∧
    (s.frame (s.slots i).fc).count * pageSize ≤ userShmRegionSize
  cover : ∀ pml4 va e, s.pte pml4 va = some e →
    (∃ i, s.Keeps i pml4 va e) ∨ s.Leaving pml4 va e.cap
  bound : ∀ t w, s.work t = some w → w.kind ≠ .clean → w.job.idx < kMaxMaps
  mapper : ∀ t w, s.work t = some w → w.kind = .map → (s.slots w.job.idx).occupied
  records : ∀ t w, s.work t = some w → w.kind ≠ .clean → (s.slots w.job.idx).occupied →
    (s.slots w.job.idx).Records w.job
  pages : ∀ t w p, s.work t = some w → (s.slots w.job.idx).occupied → w.pages = some p →
    p = (s.frame w.job.fc).count
  stale : ∀ t w k e, s.work t = some w → (s.slots w.job.idx).occupied → w.Stale k →
    k < (s.frame w.job.fc).count → s.pte w.job.pml4 (w.job.va + k * pageSize) = some e →
    s.Leaving w.job.pml4 (w.job.va + k * pageSize) e.cap
  exclusive : ∀ t t' w w', t ≠ t' → s.work t = some w → s.work t' = some w' → w.kind = .map →
    w'.kind ≠ .clean → w.job.idx ≠ w'.job.idx

namespace Covered

variable {s u : MapState n} {t : Fin n} {w : Work} {i : ℕ} {t' : Fin n}

theorem init : Covered (init : MapState n) where
  region _ _ h := by cases h
  cover _ _ _ h := by cases h
  bound _ _ h := by cases h
  mapper _ _ h := by cases h
  records _ _ h := by cases h
  pages _ _ _ h := by cases h
  stale _ _ _ _ h := by cases h
  exclusive _ _ _ _ _ h := by cases h

theorem done_of_idle (hw : s.work t = none) : s.Done t := by
  intro job pages j hc
  rw [hw] at hc
  cases hc

theorem leaving_of_other {u : MapState n} (hother : ∀ t', t' ≠ t → u.work t' = s.work t')
    (hdone : s.Done t) {pml4 va : ℕ} {cap : ObjId} (h : s.Leaving pml4 va cap) :
    u.Leaving pml4 va cap := by
  obtain ⟨t', job, pages, j, k, hw, hfc, hp, hjk, hk, hva⟩ := h
  have hne : t' ≠ t := by
    rintro rfl
    have hle := hdone job pages j hw
    omega
  exact ⟨t', job, pages, j, k, (hother t' hne).trans hw, hfc, hp, hjk, hk, hva⟩

theorem setWork_eq_some {w : Option Work} {w' : Work} (h : (s.setWork t w).work t' = some w') :
    t' = t ∧ w = some w' ∨ t' ≠ t ∧ s.work t' = some w' := by
  rw [setWork_work, update_apply] at h
  split_ifs at h with ht
  · exact .inl ⟨ht, h⟩
  · exact .inr ⟨ht, h⟩

theorem setWork_kept {v : Option Work} (hv : ∀ x ∈ v, x.kind = .clean) (hk : w.kind ≠ .clean)
    (h : (s.setWork t v).work t' = some w) : t' ≠ t ∧ s.work t' = some w := by
  rcases setWork_eq_some h with ⟨-, rfl⟩ | hs
  · exact absurd (hv w rfl) hk
  · exact hs

theorem setWork_other {w : Option Work} (h : t' ≠ t) : (s.setWork t w).work t' = s.work t' := by
  rw [setWork_work, update_of_ne h]

theorem not_clean (hw : s.work t = some w) (hkind : w.kind ≠ .clean) : s.Done t := by
  intro job pages j hc
  rw [hw] at hc
  cases hc
  exact absurd rfl hkind

section

variable (h : Covered s)
include h

theorem page_lt {i k : ℕ} (hi : i < kMaxMaps) (hocc : (s.slots i).occupied)
    (hk : k < (s.frame (s.slots i).fc).count) : k * pageSize < userShmRegionSize := by
  have hr := (h.region i hi hocc).2
  simp only [pageSize] at *
  omega

theorem cover_slot {i k : ℕ} {pml4 : ℕ} {e : Pte} (hk : k * pageSize < userShmRegionSize)
    (he : s.pte pml4 (slotVa i + k * pageSize) = some e) :
    s.Keeps i pml4 (slotVa i + k * pageSize) e ∨
      s.Leaving pml4 (slotVa i + k * pageSize) e.cap := by
  rcases h.cover _ _ _ he with ⟨i', hkeep⟩ | hl
  · left
    have hkeep' := hkeep
    obtain ⟨hi', hocc, -, k', hk', hva, -⟩ := hkeep
    rw [(h.region i' hi' hocc).1] at hva
    obtain ⟨rfl, -⟩ := slotVa_inj hk (h.page_lt hi' hocc hk') hva
    exact hkeep'
  · exact .inr hl

theorem shrink {sl : ℕ → MapSlot} {pte : ℕ → ℕ → Option Pte} {work : Fin n → Option Work}
    (hwork : ∀ t w, w.kind ≠ .clean → work t = some w → s.work t = some w)
    (hslot : ∀ i, (sl i).occupied → sl i = s.slots i)
    (hmapper : ∀ t w, work t = some w → s.work t = some w → w.kind = .map →
      (sl w.job.idx).occupied) (hpte : ∀ p v e, pte p v = some e → s.pte p v = some e)
    (hkeep : ∀ i p v e, pte p v = some e → s.Keeps i p v e →
      (∃ i, MapState.Keeps { s with slots := sl } i p v e) ∨
        MapState.Leaving { s with work := work } p v e.cap)
    (hleave : ∀ p v e, pte p v = some e → s.Leaving p v e.cap →
      MapState.Leaving { s with work := work } p v e.cap) :
    Covered { s with slots := sl, pte := pte, work := work } := by
  have hold : ∀ i, (sl i).occupied → (s.slots i).occupied = true :=
    fun i ho => hslot i ho ▸ ho
  constructor
  case region =>
    intro i hi ho
    dsimp only
    rw [hslot i ho]
    exact h.region i hi (hold i ho)
  case cover =>
    intro p v e he
    rcases h.cover p v e (hpte p v e he) with ⟨i, hk⟩ | hl
    · exact hkeep i p v e he hk
    · exact .inr (hleave p v e he hl)
  case bound => exact fun t w hw hk => h.bound t w (hwork t w hk hw) hk
  case mapper => exact fun t w hw hk => hmapper t w hw (hwork t w (Work.not_clean_of_map hk) hw) hk
  case records =>
    intro t w hw hk ho
    dsimp only
    rw [hslot _ ho]
    exact h.records t w (hwork t w hk hw) hk (hold _ ho)
  case pages =>
    intro t w p hw ho hp
    exact h.pages t w p (hwork t w (Work.not_clean_of_pages hp) hw) (hold _ ho) hp
  case stale =>
    intro t w k e hw ho hst hlt he
    exact hleave _ _ e he
      (h.stale t w k e (hwork t w hst.not_clean hw) (hold _ ho) hst hlt (hpte _ _ e he))
  case exclusive =>
    intro t₁ t₂ w₁ w₂ hne h₁ h₂ hk₁ hk₂
    exact h.exclusive t₁ t₂ w₁ w₂ hne (hwork t₁ w₁ (Work.not_clean_of_map hk₁) h₁)
      (hwork t₂ w₂ hk₂ h₂) hk₁ hk₂

theorem finish (hdone : s.Done t) : Covered (s.setWork t none) := by
  apply h.shrink
  case hwork => exact fun _ _ hk hw => (setWork_kept (by rintro _ ⟨⟩) hk hw).2
  case hslot => exact fun _ _ => rfl
  case hmapper => exact fun t' w _ => h.mapper t' w
  case hpte => exact fun _ _ _ he => he
  case hkeep => exact fun i _ _ _ _ hk => .inl ⟨i, hk⟩
  case hleave => exact fun _ _ _ _ hl => leaving_of_other (fun _ => setWork_other) hdone hl

theorem take (hkind : w.kind ≠ .clean) (hdone : s.Done t) (hbound : w.job.idx < kMaxMaps)
    (hocc : (s.slots w.job.idx).occupied = true ∨ w.kind = .unmap)
    (hrec : (s.slots w.job.idx).occupied → (s.slots w.job.idx).Records w.job)
    (hpages : (s.slots w.job.idx).occupied → ∀ p, w.pages = some p →
      p = (s.frame w.job.fc).count)
    (hstale : (s.slots w.job.idx).occupied → ∀ k e, w.Stale k →
      k < (s.frame w.job.fc).count → s.pte w.job.pml4 (w.job.va + k * pageSize) = some e →
      s.Leaving w.job.pml4 (w.job.va + k * pageSize) e.cap)
    (hmap : ∀ t' w', t' ≠ t → s.work t' = some w' → w'.kind ≠ .clean →
      w.kind = .map ∨ w'.kind = .map → w.job.idx ≠ w'.job.idx) :
    Covered (s.setWork t (some w)) := by
  have hl : ∀ {p v : ℕ} {cap : ObjId}, s.Leaving p v cap → (s.setWork t (some w)).Leaving p v cap :=
    leaving_of_other (fun _ => setWork_other) hdone
  have hcases : ∀ t' w', (s.setWork t (some w)).work t' = some w' →
      t' = t ∧ w' = w ∨ t' ≠ t ∧ s.work t' = some w' := by
    intro t' w' hw'
    rcases setWork_eq_some hw' with ⟨ht, he⟩ | hold
    · exact .inl ⟨ht, (Option.some.inj he).symm⟩
    · exact .inr hold
  constructor
  case region => exact h.region
  case cover =>
    intro p v e he
    rcases h.cover p v e he with hk | hleave
    · exact .inl hk
    · exact .inr (hl hleave)
  case bound =>
    intro t' w' hw' hk
    rcases hcases t' w' hw' with ⟨-, rfl⟩ | ⟨-, hold⟩
    · exact hbound
    · exact h.bound t' w' hold hk
  case mapper =>
    intro t' w' hw' hk
    rcases hcases t' w' hw' with ⟨-, rfl⟩ | ⟨-, hold⟩
    · rcases hocc with ho | hu
      · exact ho
      · rw [hu] at hk
        cases hk
    · exact h.mapper t' w' hold hk
  case records =>
    intro t' w' hw' hk ho
    rcases hcases t' w' hw' with ⟨-, rfl⟩ | ⟨-, hold⟩
    · exact hrec ho
    · exact h.records t' w' hold hk ho
  case pages =>
    intro t' w' p hw' ho hp
    rcases hcases t' w' hw' with ⟨-, rfl⟩ | ⟨-, hold⟩
    · exact hpages ho p hp
    · exact h.pages t' w' p hold ho hp
  case stale =>
    intro t' w' k e hw' ho hst hk he
    rcases hcases t' w' hw' with ⟨-, rfl⟩ | ⟨-, hold⟩
    · exact hl (hstale ho k e hst hk he)
    · exact hl (h.stale t' w' k e hold ho hst hk he)
  case exclusive =>
    intro t₁ t₂ w₁ w₂ hne h₁ h₂ hk₁ hk₂
    rcases hcases t₁ w₁ h₁ with ⟨rfl, rfl⟩ | ⟨ht₁, hold₁⟩
    · rcases hcases t₂ w₂ h₂ with ⟨rfl, -⟩ | ⟨ht₂, hold₂⟩
      · exact absurd rfl hne
      · exact hmap t₂ w₂ ht₂ hold₂ hk₂ (.inl hk₁)
    rcases hcases t₂ w₂ h₂ with ⟨rfl, rfl⟩ | ⟨-, hold₂⟩
    · exact (hmap t₁ w₁ ht₁ hold₁ (Work.not_clean_of_map hk₁) (.inr hk₁)).symm
    · exact h.exclusive t₁ t₂ w₁ w₂ hne hold₁ hold₂ hk₁ hk₂

theorem advance (w' : Work) (hw : s.work t = some w) (hkind : w.kind ≠ .clean)
    (hk : w'.kind = w.kind) (hjob : w'.job = w.job) (hpages : w'.pages = w.pages)
    (hstale : ∀ k, w'.Stale k → w.Stale k ∨ s.pte w.job.pml4 (w.job.va + k * pageSize) = none) :
    Covered (s.setWork t (some w')) := by
  apply h.take
  case hkind => rwa [hk]
  case hdone => exact not_clean hw hkind
  case hbound =>
    rw [hjob]
    exact h.bound t w hw hkind
  case hocc =>
    rw [hjob, hk]
    cases hwk : w.kind with
    | map => exact .inl (h.mapper t w hw hwk)
    | unmap => exact .inr rfl
    | clean => exact absurd hwk hkind
  case hrec =>
    rw [hjob]
    exact h.records t w hw hkind
  case hpages =>
    rw [hjob, hpages]
    exact fun ho p hp => h.pages t w p hw ho hp
  case hstale =>
    rw [hjob]
    intro ho k e hst hlt he
    rcases hstale k hst with hold | hnone
    · exact h.stale t w k e hw ho hold hlt he
    · rw [hnone] at he
      cases he
  case hmap =>
    rw [hjob, hk]
    rintro t' w' ht hw' hk' (hm | hm)
    · exact h.exclusive t t' w w' ht.symm hw hw' hm hk'
    · exact (h.exclusive t' t w' w ht hw' hw hm hkind).symm

theorem erase (pml4 va : ℕ) : Covered (s.setPte pml4 va none) := by
  apply h.shrink
  case hwork => exact fun _ _ _ hw => hw
  case hslot => exact fun _ _ => rfl
  case hmapper => exact fun t w _ => h.mapper t w
  case hpte =>
    intro p v e he
    split_ifs at he
    exact he
  case hkeep => exact fun i _ _ _ _ hk => .inl ⟨i, hk⟩
  case hleave => exact fun _ _ _ _ hl => hl

theorem write {k : ℕ} (hw : s.work t = some w) (hkind : w.kind = .map)
    (hk : k < (s.frame w.job.fc).count) (hfresh : ¬ w.Stale k) :
    Covered (s.setPte w.job.pml4 (w.job.va + k * pageSize)
      (some ⟨(s.frame w.job.fc).phys + k * pageSize, w.job.fc⟩)) := by
  have hnc := Work.not_clean_of_map hkind
  have hi := h.bound t w hw hnc
  have hocc := h.mapper t w hw hkind
  obtain ⟨hfc, hva, hpml⟩ := h.records t w hw hnc hocc
  have hreg := (h.region _ hi hocc).1
  have hlt := h.page_lt hi hocc (by rwa [hfc])
  have hold : ∀ p v e, (s.setPte w.job.pml4 (w.job.va + k * pageSize)
      (some ⟨(s.frame w.job.fc).phys + k * pageSize, w.job.fc⟩)).pte p v = some e →
      (p = w.job.pml4 ∧ v = w.job.va + k * pageSize ∧
        e = ⟨(s.frame w.job.fc).phys + k * pageSize, w.job.fc⟩) ∨ s.pte p v = some e := by
    intro p v e he
    rw [setPte_pte] at he
    split_ifs at he with hat
    · exact .inl ⟨hat.1, hat.2, (Option.some.inj he).symm⟩
    · exact .inr he
  refine { h with cover := ?cover, stale := ?stale }
  case cover =>
    intro p v e he
    rcases hold p v e he with ⟨rfl, rfl, rfl⟩ | he
    · refine .inl ⟨w.job.idx, hi, hocc, hpml, k, ?_, ?_, ?_⟩
      · simpa only [setPte_slots, setPte_frame, hfc] using hk
      · simp only [setPte_slots, hva]
      · simp only [setPte_slots, setPte_frame, hfc]
    · exact h.cover p v e he
  case stale =>
    intro t' w' k' e hw' ho hst hk' he
    rcases hold _ _ e he with ⟨hp, hv, -⟩ | he
    · -- the written page is one of another job's pages: the regions are disjoint
      have hk₂ : w'.kind ≠ .clean := hst.not_clean
      obtain ⟨hfc', hva', -⟩ := h.records t' w' hw' hk₂ ho
      have hi' := h.bound t' w' hw' hk₂
      have hlt' := h.page_lt hi' ho (k := k') (by rwa [hfc'])
      rw [← hva, ← hva', hreg, (h.region _ hi' ho).1] at hv
      obtain ⟨hidx, rfl⟩ := slotVa_inj hlt' hlt hv
      by_cases ht : t = t'
      · subst ht
        have hww : w = w' := Option.some.inj (hw.symm.trans hw')
        exact absurd (hww ▸ hst) hfresh
      · exact absurd hidx.symm (h.exclusive t t' w w' ht hw hw' hkind hk₂)
    · exact h.stale t' w' k' e hw' ho hst hk' he

theorem reclean {job : MapJob} {pages j : ℕ} (hw : s.work t = some (.clearPages job pages j))
    (hgone : s.pte job.pml4 (job.va + j * pageSize) = none) :
    Covered (s.setWork t (some (.clearPages job pages (j + 1)))) := by
  apply h.shrink
  case hwork => exact fun _ _ hk hw' => (setWork_kept (by rintro _ ⟨⟩; rfl) hk hw').2
  case hslot => exact fun _ _ => rfl
  case hmapper => exact fun t' w _ => h.mapper t' w
  case hpte => exact fun _ _ _ he => he
  case hkeep => exact fun i _ _ _ _ hk => .inl ⟨i, hk⟩
  case hleave =>
    rintro pml4 va e he ⟨t', job', pages', j', k, hw', hfc, hp, hjk, hk, hva⟩
    by_cases ht : t' = t
    · subst ht
      rw [hw] at hw'
      cases hw'
      have hne : k ≠ j := by
        rintro rfl
        rw [← hp, hva, hgone] at he
        cases he
      exact ⟨t', job, pages, j + 1, k, update_self .., hfc, hp, by omega, hk, hva⟩
    · exact ⟨t', job', pages', j', k, (setWork_other ht).trans hw', hfc, hp, hjk, hk, hva⟩

end

theorem clearSlot_occupied {i j : ℕ} (h : ((s.clearSlot i).slots j).occupied) :
    j ≠ i ∧ (s.clearSlot i).slots j = s.slots j := by
  rw [clearSlot, setSlot_slots, update_apply] at h
  split_ifs at h with hj
  refine ⟨hj, ?_⟩
  rw [clearSlot, setSlot_slots, update_of_ne hj]

theorem clearSlot_ne {i j : ℕ} (h : j ≠ i) : (s.clearSlot i).slots j = s.slots j := by
  rw [clearSlot, setSlot_slots, update_of_ne h]

theorem keeps_clearSlot {i i' p v : ℕ} {e : Pte} (hne : i' ≠ i) (hk : s.Keeps i' p v e) :
    (s.clearSlot i).Keeps i' p v e := by
  have hframe : (s.clearSlot i).frame = s.frame := rfl
  simpa only [MapState.Keeps, clearSlot_ne hne, hframe] using hk

variable (h : Covered s) {x : MapSlot}
include h

theorem vacate (hw : s.work t = some w) (hkind : w.kind ≠ .clean)
    (hstale : ∀ k < (s.frame w.job.fc).count, w.Stale k) :
    Covered ((s.setWork t none).clearSlot w.job.idx) := by
  have hl : ∀ {p v : ℕ} {cap : ObjId}, s.Leaving p v cap →
      ((s.setWork t none).clearSlot w.job.idx).Leaving p v cap :=
    leaving_of_other (fun _ => setWork_other) (not_clean hw hkind)
  apply h.shrink
  case hwork => exact fun _ _ hk hw' => (setWork_kept (by rintro _ ⟨⟩) hk hw').2
  case hslot => exact fun i ho => (clearSlot_occupied ho).2
  case hmapper =>
    intro t' w' hw' hs hk
    have ht := (setWork_kept (by rintro _ ⟨⟩) (Work.not_clean_of_map hk) hw').1
    have hne := h.exclusive t' t w' w ht hs hw hk hkind
    rw [update_of_ne hne]
    exact h.mapper t' w' hs hk
  case hpte => exact fun _ _ _ he => he
  case hkeep =>
    intro i p v e he hk
    by_cases hi : i = w.job.idx
    · right
      subst hi
      obtain ⟨-, hocc, hp, k, hk, hva, -⟩ := hk
      obtain ⟨hfc, hjva, hpml⟩ := h.records t w hw hkind hocc
      rw [hfc] at hk
      rw [hpml] at hp
      rw [hjva] at hva
      subst hp hva
      exact hl (h.stale t w k e hw hocc (hstale k hk) hk he)
    · exact .inl ⟨i, keeps_clearSlot (s := s.setWork t none) hi hk⟩
  case hleave => exact fun _ _ _ _ hleave => hl hleave

/-- `invalidate_cap` or `drain_task` clears a slot that nobody is mapping. -/
theorem detach (hw : s.work t = none) (hocc : (s.slots i).occupied)
    (hfree : ¬ s.busy .map i) : Covered (s.detach t i) := by
  apply h.shrink
  case hwork => exact fun _ _ hk hw' => (setWork_kept (by rintro _ ⟨⟩; rfl) hk hw').2
  case hslot => exact fun j ho => (clearSlot_occupied ho).2
  case hmapper =>
    intro t' w _ hs hk
    have hne : w.job.idx ≠ i := fun hi => hfree ⟨t', w, hs, hk, hi⟩
    rw [clearSlot_ne hne]
    exact h.mapper t' w hs hk
  case hpte => exact fun _ _ _ he => he
  case hkeep =>
    intro i' p v e he hk
    by_cases hi : i' = i
    · right
      subst hi
      obtain ⟨-, -, hp, k, hk, hva, rfl⟩ := hk
      exact ⟨t, ⟨i', (s.slots i').fc, (s.slots i').va, (s.slots i').pml4⟩, _, 0, k, update_self ..,
        rfl, hp, Nat.zero_le k, hk, hva⟩
    · exact .inl ⟨i', keeps_clearSlot hi hk⟩
  case hleave =>
    exact fun _ _ _ _ hleave =>
      leaving_of_other (fun _ ht => setWork_other (s := s.clearSlot i) ht) (done_of_idle hw) hleave

theorem occupy (hfree : (s.slots i).occupied = false)
    (hidle : ∀ t w, s.work t = some w → w.kind ≠ .clean → w.job.idx ≠ i) (hva : x.va = slotVa i)
    (hsize : (s.frame x.fc).count * pageSize ≤ userShmRegionSize) : Covered (s.setSlot i x) := by
  have hslot : ∀ j, j ≠ i → (s.setSlot i x).slots j = s.slots j := by
    intro j hj
    rw [setSlot_slots, update_of_ne hj]
  have hkeep : ∀ {i' p v : ℕ} {e : Pte}, s.Keeps i' p v e → (s.setSlot i x).Keeps i' p v e := by
    intro i' p v e hk
    have hne : i' ≠ i := by
      rintro rfl
      have ho := hk.2.1
      rw [hfree] at ho
      cases ho
    simpa only [MapState.Keeps, hslot i' hne, setSlot_frame] using hk
  refine { h with
    region := ?region, cover := ?cover, mapper := ?mapper, records := ?records, pages := ?pages
    stale := ?stale }
  case region =>
    intro j hj ho
    by_cases hji : j = i
    · subst hji
      simp only [setSlot_slots, update_self]
      exact ⟨hva, hsize⟩
    · rw [hslot j hji] at ho ⊢
      exact h.region j hj ho
  case cover =>
    intro p v e he
    rcases h.cover p v e he with ⟨i', hk⟩ | hl
    · exact .inl ⟨i', hkeep hk⟩
    · exact .inr hl
  case mapper =>
    intro t w hw hk
    rw [hslot _ (hidle t w hw (Work.not_clean_of_map hk))]
    exact h.mapper t w hw hk
  case records =>
    intro t w hw hk ho
    rw [hslot _ (hidle t w hw hk)] at ho ⊢
    exact h.records t w hw hk ho
  case pages =>
    intro t w p hw ho hp
    rw [hslot _ (hidle t w hw (Work.not_clean_of_pages hp))] at ho
    exact h.pages t w p hw ho hp
  case stale =>
    intro t w k e hw ho hst hk he
    rw [hslot _ (hidle t w hw hst.not_clean)] at ho
    exact h.stale t w k e hw ho hst hk he

theorem claim (hw : s.work t = none) (hi : i < kMaxMaps) (hfree : (s.slots i).occupied = false)
    (hbusy : ¬ s.busy .unmap i) (hx : x.occupied) (hva : x.va = slotVa i)
    (hsize : (s.frame x.fc).count * pageSize ≤ userShmRegionSize) :
    Covered ((s.setSlot i x).setWork t (some (.mapOpen ⟨i, x.fc, x.va, x.pml4⟩))) := by
  have hidle : ∀ t' w, s.work t' = some w → w.kind ≠ .clean → w.job.idx ≠ i := by
    intro t' w hw' hk hidx
    cases hwk : w.kind with
    | map =>
      have ho := h.mapper t' w hw' hwk
      rw [hidx, hfree] at ho
      cases ho
    | unmap => exact hbusy ⟨t', w, hw', hwk, hidx⟩
    | clean => exact hk hwk
  have hself : (s.setSlot i x).slots i = x := by
    rw [setSlot_slots, update_self]
  apply (h.occupy hfree hidle hva hsize).take
  case hkind => exact fun hk => by cases hk
  case hdone => exact done_of_idle hw
  case hbound => exact hi
  case hocc =>
    left
    simp only [Work.job, hself]
    exact hx
  case hrec =>
    intro _
    simp only [Work.job, hself]
    exact ⟨rfl, rfl, rfl⟩
  case hpages =>
    intro _ p hp
    cases hp
  case hstale =>
    intro _ k e _ hk he
    simp only [hva] at he ⊢
    have hlt : k * pageSize < userShmRegionSize := by
      simp only [setSlot_frame, Work.job, pageSize] at *
      omega
    rcases h.cover_slot hlt he with ⟨-, ho, -⟩ | hl
    · rw [hfree] at ho
      cases ho
    · exact hl
  case hmap =>
    intro t' w' _ hw' hk _
    exact (hidle t' w' hw' hk).symm

theorem find (task : MapTask) (hw : s.work t = none) (hi : i < kMaxMaps) (hbusy : ¬ s.busy .map i) :
    Covered (s.setWork t (some (.unmapPages ⟨i, (s.slots i).fc, (s.slots i).va, (s.slots i).pml4⟩
      task (s.frame (s.slots i).fc).count 0))) := by
  apply h.take
  case hkind => exact fun hk => by cases hk
  case hdone => exact done_of_idle hw
  case hbound => exact hi
  case hocc => exact .inr rfl
  case hrec => exact fun _ => ⟨rfl, rfl, rfl⟩
  case hpages =>
    intro _ p hp
    cases hp
    rfl
  case hstale =>
    intro _ k e hst
    exact absurd hst (Nat.not_lt_zero k)
  case hmap =>
    rintro t' w' _ hw' - (hk | hk) hidx
    · cases hk
    · exact hbusy ⟨t', w', hw', hk, hidx.symm⟩

theorem create (f : FrameCap)
    (hnew : ∀ i < kMaxMaps, (s.slots i).occupied → (s.slots i).fc ≠ s.next) :
    Covered { s with frame := update s.frame s.next f } := by
  have hframe : ∀ fc, fc ≠ s.next → update s.frame s.next f fc = s.frame fc :=
    fun fc hfc => update_of_ne hfc _ _
  have hrec : ∀ t w, s.work t = some w → w.kind ≠ .clean → (s.slots w.job.idx).occupied →
      update s.frame s.next f w.job.fc = s.frame w.job.fc := by
    intro t w hw hk ho
    rw [← (h.records t w hw hk ho).1, hframe _ (hnew _ (h.bound t w hw hk) ho)]
  refine { h with region := ?region, cover := ?cover, pages := ?pages, stale := ?stale }
  case region =>
    intro i hi ho
    simp only [hframe _ (hnew i hi ho)]
    exact h.region i hi ho
  case cover =>
    intro p v e he
    rcases h.cover p v e he with ⟨i, hi, ho, hk⟩ | hleave
    · refine .inl ⟨i, hi, ?_⟩
      simp only [hframe _ (hnew i hi ho)]
      exact ⟨ho, hk⟩
    · exact .inr hleave
  case pages =>
    intro t w p hw ho hp
    simp only [hrec t w hw (Work.not_clean_of_pages hp) ho]
    exact h.pages t w p hw ho hp
  case stale =>
    intro t w k e hw ho hst hk he
    simp only [hrec t w hw hst.not_clean ho] at hk
    exact h.stale t w k e hw ho hst hk he

end Covered

end Nexios.Cap
