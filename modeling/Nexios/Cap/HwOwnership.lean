import Nexios.Cap.HwClaims
import Nexios.Lib.Run

/-!
# Single ownership of hardware and watchdog claims

Each claimed table entry, vector and pid belongs to exactly one capability that is alive and not
revoked. Create and the first revoke or dispose of a capability preserve this. The
second pass of the release code, when a revoked capability is disposed or revoked again, goes by the
keys that the capability remembers: it is harmless only while nobody else has claimed them.
-/

open Function

namespace Nexios.Cap

open HwState HwCap

namespace HwCap

def entryKey : HwCap → Option (PciBdf × ℕ)
  | .msix c => some (c.bdf, c.entryIndex)
  | .wdog _ => none

def vectorKey : HwCap → Option ℕ
  | .msix c => some c.vector
  | .wdog _ => none

def regKey : HwCap → Option ℕ
  | .msix c => c.regIdx
  | .wdog _ => none

def pidKey : HwCap → Option ℕ
  | .msix _ => none
  | .wdog w => some w.targetPid

end HwCap

namespace HwState

def live (s : HwState) (o : ObjId) : Option HwCap := if s.revoked o then none else s.obj o

def own {K : Type} (s : HwState) (key : HwCap → Option K) (o : ObjId) : Option K := (s.live o).bind key

def EntryClaimed (s : HwState) (k : PciBdf × ℕ) : Prop :=
  ClaimTable.Claimed capMaxMsix s.entryClaims k
  deriving Decidable

def PidClaimed (s : HwState) (pid : ℕ) : Prop := ClaimTable.Claimed capMaxWdog s.wdogClaims pid
  deriving Decidable

def VectorTaken (s : HwState) (v : ℕ) : Prop :=
  s.vectorUsed v = true ∧ vectorReserved v = false ∧ s.driver v = false

theorem own_update {K : Type} {s u : HwState} {o : ObjId} {x : Option HwCap}
    (h : u.live = update s.live o x) (key : HwCap → Option K) :
    u.own key = update (s.own key) o (x.bind key) := by
  funext o'
  rw [own, h, update_apply, update_apply]
  split_ifs <;> rfl

end HwState

structure HwInv (s : HwState) : Prop where
  fresh : ∀ o, s.next ≤ o → s.obj o = none ∧ s.revoked o = false
  entries : Owned s.EntryClaimed (s.own HwCap.entryKey)
  pids : Owned s.PidClaimed (s.own HwCap.pidKey)
  vectors : Owned s.VectorTaken (s.own HwCap.vectorKey)
  slots : ∀ i o, (s.regs i).occupied → (s.regs i).owner = some o →
    i < capMaxIrq ∧ s.own HwCap.regKey o = some i
  entrySingle : ClaimTable.Single capMaxMsix s.entryClaims
  pidSingle : ClaimTable.Single capMaxWdog s.wdogClaims
  used : ∀ v, vectorReserved v = true ∨ s.driver v → s.vectorUsed v
  drivers : ∀ v, s.driver v → vectorReserved v = false
  dropped : ∀ o c, s.obj o = some (.msix c) → s.revoked o → c.regIdx = none

namespace HwInv

open ClaimTable

variable {s u : HwState} {o : ObjId} {v : ℕ}

theorem init : HwInv {} where
  fresh _ _ := ⟨rfl, rfl⟩
  entries := .empty (by rintro k ⟨_, _, h, _⟩; cases h)
  pids := .empty (by rintro k ⟨_, _, h, _⟩; cases h)
  vectors := .empty (by rintro v ⟨h, h', _⟩; exact absurd h (by simpa using h'))
  slots _ _ h := by cases h
  entrySingle _ _ _ _ h := by cases h
  pidSingle _ _ _ _ h := by cases h
  used v h := h.resolve_right (by simp)
  drivers _ h := by cases h
  dropped _ _ h := by cases h

theorem vector_window (h : vectorReserved v = false) : ¬ (v < 48 ∨ v = 0x80) := by
  simp [vectorReserved] at h
  omega

theorem freeVector_vectorUsed (h : vectorReserved v = false) :
    s.freeVector v = s.setVector v false := by
  rw [freeVector, if_neg (vector_window h)]

variable (h : HwInv s) {claims : ClaimTable ℕ}
include h

theorem allocVector_eq_some (hv : s.allocVector = some v) :
    s.vectorUsed v = false ∧ vectorReserved v = false ∧ s.driver v = false := by
  have hp := List.find?_some hv
  simp only [Bool.and_eq_true, Bool.not_eq_true'] at hp
  have hunused := hp.2
  refine ⟨hunused, ?_, ?_⟩
  · by_contra hr
    rw [h.used v (.inl (by simpa using hr))] at hunused
    cases hunused
  · by_contra hd
    rw [h.used v (.inr (by simpa using hd))] at hunused
    cases hunused

theorem own_next {K : Type} (key : HwCap → Option K) : s.own key s.next = none := by
  obtain ⟨hnew, hnewr⟩ := h.fresh s.next (le_refl _)
  rw [own, live, hnewr, hnew]
  rfl

theorem live_grant {x : HwCap} (hobj : u.obj = update s.obj s.next (some x))
    (hrev : u.revoked = s.revoked) : u.live = update s.live s.next (some x) := by
  funext o
  simp only [live, hobj, hrev, update_apply]
  by_cases ho : o = s.next
  · rw [if_pos ho, if_pos ho, ho, (h.fresh s.next (le_refl _)).2]
    rfl
  · rw [if_neg ho, if_neg ho]

theorem fresh_grant (x : Option HwCap) :
    ∀ o, s.next + 1 ≤ o → update s.obj s.next x o = none ∧ s.revoked o = false := by
  intro o ho
  have hlt : s.next < o := ho
  rw [update_of_ne (ne_of_gt hlt)]
  exact h.fresh o hlt.le

section

variable {nx : ObjId} {obj : ObjId → Option HwCap} {rev : ObjId → Bool}
  (hfresh : ∀ o, nx ≤ o → obj o = none ∧ rev o = false)
  (hdropped : ∀ o c, obj o = some (.msix c) → rev o → c.regIdx = none)
include hfresh hdropped

/-- A step that changes nobody's entries, vectors and slots. -/
theorem of_pids (hu : u = { s with next := nx, obj := obj, revoked := rev, wdogClaims := claims })
    (hown : ∀ {K : Type} (key : HwCap → Option K), (∀ w, key (.wdog w) = none) →
      u.own key = s.own key) (hpids : Owned u.PidClaimed (u.own pidKey))
    (hps : Single capMaxWdog claims) : HwInv u := by
  have hentry := hown entryKey fun _ => rfl
  have hvector := hown vectorKey fun _ => rfl
  have hreg := hown regKey fun _ => rfl
  subst hu
  exact { h with
    fresh := hfresh, entries := by rw [hentry]; exact h.entries, pids := hpids, pidSingle := hps
    vectors := by rw [hvector]; exact h.vectors, slots := by rw [hreg]; exact h.slots
    dropped := hdropped }

/-- A second teardown changes nobody's claims. -/
theorem of_live (hu : u = { s with next := nx, obj := obj, revoked := rev })
    (hlive : u.live = s.live) : HwInv u := by
  have hown : ∀ {K : Type} (key : HwCap → Option K), u.own key = s.own key := by
    intro K key
    funext o
    rw [own, hlive, own]
  refine h.of_pids hfresh hdropped hu (fun key _ => hown key) ?_ h.pidSingle
  rw [hown, hu]
  exact h.pids

theorem drop_msix {c : MsixCap} {regs : ℕ → IrqRegistration} (hl : s.live o = some (.msix c))
    (hu : u = { s with
      next := nx, obj := obj, revoked := rev, regs := regs
      entryClaims := release capMaxMsix id s.entryClaims (c.bdf, c.entryIndex)
      vectorUsed := update s.vectorUsed c.vector false })
    (hlive : u.live = update s.live o none)
    (hregs : ∀ i, regs i = s.regs i ∨ (regs i).occupied = false)
    (hslot : ∀ i, (regs i).occupied → (regs i).owner ≠ some o) : HwInv u := by
  have hown : ∀ {K : Type} (key : HwCap → Option K), u.own key = update (s.own key) o none :=
    own_update hlive
  have hownv : s.own vectorKey o = some c.vector := by rw [own, hl]; rfl
  have htaken := (h.vectors.held c.vector).mpr ⟨o, hownv⟩
  subst hu
  refine { h with
    fresh := hfresh, entries := ?entries, pids := ?pids, vectors := ?vectors, slots := ?slots
    entrySingle := h.entrySingle.release id, used := ?used, dropped := hdropped }
  case entries =>
    rw [hown]
    exact h.entries.drop (k := (c.bdf, c.entryIndex)) (by rw [own, hl]; rfl)
      fun _ => claimed_release h.entrySingle id
  case pids =>
    have hnone : s.own pidKey o = none := by rw [own, hl]; rfl
    rw [hown, update_eq_self_iff (f := s.own pidKey) |>.mpr hnone.symm]
    exact h.pids
  case vectors =>
    rw [hown]
    refine h.vectors.drop hownv ?_
    intro v
    simp only [HwState.VectorTaken, update_apply]
    by_cases hv : v = c.vector <;> simp [hv]
  case slots =>
    intro i o' hocc howner
    have hne : o' ≠ o := by
      rintro rfl
      exact hslot i hocc howner
    rw [hown, update_of_ne hne]
    rcases hregs i with heq | hfree
    · exact h.slots i o' (heq ▸ hocc) (heq ▸ howner)
    · exact absurd (hfree.symm.trans hocc) (by decide)
  case used =>
    intro v hv
    simp only [update_apply]
    split_ifs with hvv
    · rw [hvv, htaken.2.1, htaken.2.2] at hv
      simp at hv
    · exact h.used v hv

theorem drop_wdog {w : WdogCap} (hl : s.live o = some (.wdog w)) (hu : u = { s with
      next := nx, obj := obj, revoked := rev
      wdogClaims := release capMaxWdog (fun _ => 0) s.wdogClaims w.targetPid })
    (hlive : u.live = update s.live o none) : HwInv u := by
  refine h.of_pids hfresh hdropped hu (fun key hkey => ?_) ?_ (h.pidSingle.release _)
  · have hnone : s.own key o = none := by rw [own, hl]; exact hkey w
    rw [own_update hlive]
    exact update_eq_self_iff.mpr hnone.symm
  · rw [own_update hlive, hu]
    exact h.pids.drop (k := w.targetPid) (by rw [own, hl]; rfl)
      fun _ => claimed_release h.pidSingle _

end

theorem grant_msix {k : PciBdf × ℕ} {i j : ℕ} {claims : ClaimTable (PciBdf × ℕ)}
    (hclaim : claim capMaxMsix s.entryClaims k = some (claims, j)) (hv : s.allocVector = some v)
    (hi : i < capMaxIrq) (hu : u = { s with
      next := s.next + 1
      obj := update s.obj s.next (some (.msix ⟨k.1, k.2, v, some i⟩))
      entryClaims := claims
      vectorUsed := update s.vectorUsed v true
      regs := update s.regs i ⟨v, true, some s.next⟩ }) : HwInv u := by
  obtain ⟨hunused, hnr, hnd⟩ := h.allocVector_eq_some hv
  have hown : ∀ {K : Type} (key : HwCap → Option K), u.own key =
      update (s.own key) s.next (key (.msix ⟨k.1, k.2, v, some i⟩)) :=
    own_update (h.live_grant (by rw [hu]) (by rw [hu]))
  subst hu
  refine { h with
    fresh := h.fresh_grant _, entries := ?entries, pids := ?pids, vectors := ?vectors
    slots := ?slots, entrySingle := h.entrySingle.claim hclaim, used := ?used
    dropped := ?dropped }
  case entries =>
    rw [hown]
    exact h.entries.grant (h.own_next _) (claim_eq_some hclaim).1 fun _ => claimed_claim hclaim
  case pids =>
    rw [hown, pidKey,
      update_eq_self_iff (f := s.own pidKey) |>.mpr (h.own_next _).symm]
    exact h.pids
  case vectors =>
    rw [hown]
    refine h.vectors.grant (k := v) (h.own_next _) ?_ ?_
    · intro ht
      rw [ht.1] at hunused
      cases hunused
    · intro v'
      simp only [HwState.VectorTaken]
      by_cases hvv : v' = v
      · simp [hvv, hnr, hnd]
      · simp [hvv]
  case slots =>
    intro i' o hocc howner
    rw [hown]
    by_cases hii : i' = i
    · subst hii
      simp only [update_self] at howner
      cases howner
      rw [update_self]
      exact ⟨hi, rfl⟩
    · simp only [update_of_ne hii] at hocc howner
      obtain ⟨hlt, hold⟩ := h.slots i' o hocc howner
      have hne : o ≠ s.next := by
        rintro rfl
        rw [h.own_next] at hold
        cases hold
      rw [update_of_ne hne]
      exact ⟨hlt, hold⟩
  case used =>
    intro v' hv'
    simp only [update_apply]
    split_ifs
    · rfl
    · exact h.used v' hv'
  case dropped =>
    intro o c ho hr
    simp only [update_apply] at ho
    split_ifs at ho with hon
    · rw [hon, (h.fresh s.next (le_refl _)).2] at hr
      cases hr
    · exact h.dropped o c ho hr

theorem grant_wdog {pid gen i : ℕ} (hclaim : claim capMaxWdog s.wdogClaims pid = some (claims, i))
    (hu : u = { s with
      next := s.next + 1
      obj := update s.obj s.next (some (.wdog ⟨pid, gen⟩))
      wdogClaims := claims }) : HwInv u := by
  have hlive := h.live_grant (u := u) (by rw [hu]) (by rw [hu])
  refine h.of_pids (h.fresh_grant _) (fun o c ho hr => ?_) hu (fun key hkey => ?_) ?_
    (h.pidSingle.claim hclaim)
  · rw [update_apply] at ho
    split_ifs at ho
    · cases ho
    · exact h.dropped o c ho hr
  · rw [own_update hlive, Option.bind_some, hkey]
    exact update_eq_self_iff.mpr (h.own_next key).symm
  · rw [own_update hlive, hu]
    exact h.pids.grant (h.own_next _) (claim_eq_some hclaim).1 fun _ => claimed_claim hclaim

end HwInv

end Nexios.Cap
