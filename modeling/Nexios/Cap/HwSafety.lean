import Nexios.Cap.HwOwnership

/-!
# Claims over whole runs

`Unclaimed` is the condition under which the second pass of the release code does no harm: a
capability that is already revoked is disposed, or revoked again, only while its entry, its vector
and its pid are not claimed. In every run that meets it the claims and the capabilities that are not
revoked correspond. Without it the disposal of a revoked capability takes away the claim of a newer
one, disarms the watchdog that the newer one supervises, and lets a third one claim the same key.
-/

open Function Option

namespace Nexios.Cap

open HwCap HwState

def HwState.KeysFree (s : HwState) (x : HwCap) : Prop :=
  (∀ k ∈ x.entryKey, ¬ s.EntryClaimed k) ∧ (∀ v ∈ x.vectorKey, s.vectorUsed v = false) ∧
    ∀ p ∈ x.pidKey, ¬ s.PidClaimed p
  deriving Decidable

def Unclaimed (s : HwState) : HwAction → Prop
  | .revoke o => s.revoked o → ∀ x ∈ s.obj o, s.KeysFree x
  | .dispose o => s.revoked o → ∀ x ∈ s.obj o, s.KeysFree x
  | _ => True

instance (s : HwState) (a : HwAction) : Decidable (Unclaimed s a) := by
  unfold Unclaimed
  split <;> infer_instance

def HwAction.target : HwAction → Option ObjId
  | .revoke o => some o
  | .dispose o => some o
  | _ => none

/-- A claim ends when its holder is revoked or disposed, and at no other time. -/
def ReleasedByHolder {K : Type} (before after : K → Prop) (own : ObjId → Option K) (a : HwAction) :
    Prop :=
  ∀ k, before k → (¬ after k ↔ ∃ o, a.target = some o ∧ own o = some k)

/-- `o` alone has been disposed or revoked. -/
structure Gone (s u : HwState) (o : ObjId) : Prop where
  next : u.next = s.next
  obj : ∀ o', o' ≠ o → u.obj o' = s.obj o'
  revoked : ∀ o', o' ≠ o → u.revoked o' = s.revoked o'
  gone : u.obj o = none ∨ u.revoked o = true ∧ ∀ c, u.obj o = some (.msix c) → c.regIdx = none

/-- Every capability that was alive and not revoked still is. -/
structure Grows (s u : HwState) : Prop where
  inv : HwInv u
  kept : ∀ o x, s.live o = some x → u.live o = some x

theorem live_eq_some {s : HwState} {o : ObjId} {x : HwCap} :
    s.live o = some x ↔ s.revoked o = false ∧ s.obj o = some x := by
  unfold live
  split_ifs with hr <;> simp [hr]

namespace HwInv

open ClaimTable

variable {s u : HwState} {o : ObjId} {x : HwCap} {a : HwAction}

section

variable (h : HwInv s) {v : ℕ} {regs : ℕ → IrqRegistration} {claims : ClaimTable (PciBdf × ℕ)}
include h

theorem refl_grows : Grows s s := ⟨h, fun _ _ hl => hl⟩

theorem regs_freed (hregs : ∀ i, regs i = s.regs i ∨ (regs i).occupied = false) :
    HwInv { s with regs := regs } := by
  refine { h with slots := ?_ }
  intro i o hocc howner
  rcases hregs i with heq | hfree
  · exact h.slots i o (heq ▸ hocc) (heq ▸ howner)
  · exact absurd (hfree.symm.trans hocc) (by decide)

theorem rolled_back {k : PciBdf × ℕ} {j : ℕ} {used : ℕ → Bool}
    (hclaim : claim capMaxMsix s.entryClaims k = some (claims, j)) (hused : used = s.vectorUsed)
    (hregs : ∀ i, regs i = s.regs i ∨ (regs i).occupied = false) : HwInv { s with
      entryClaims := release capMaxMsix id claims k, vectorUsed := used, regs := regs } := by
  subst hused
  exact { h.regs_freed hregs with
    entries := h.entries.congr fun _ => claimed_release_claim h.entrySingle id hclaim
    entrySingle := (h.entrySingle.claim hclaim).release id }

omit h in
theorem claimSlot_eq_some {r : HwState} {i : ℕ} {env : MsixEnv}
    (h : s.claimSlot v env = some (r, i)) : i < capMaxIrq ∧ r = s.setReg i ⟨v, true, none⟩ := by
  unfold claimSlot at h
  split_ifs at h
  split at h
  · cases h
  · obtain ⟨j, hj, he⟩ := map_eq_some_iff.mp h
    cases he
    exact ⟨List.mem_range.mp (List.mem_of_find?_eq_some hj), rfl⟩

omit h in
theorem setVector_back (hv : s.vectorUsed v = false) :
    update (update s.vectorUsed v true) v false = s.vectorUsed := by
  rw [update_idem]
  exact update_eq_self_iff.mpr hv.symm

theorem rollback {bdf : PciBdf} {e i j : ℕ} {table : PciBdf × ℕ → MsixEntry}
    (hclaim : claim capMaxMsix s.entryClaims (bdf, e) = some (claims, j))
    (hv : s.allocVector = some v) (hi : i < capMaxIrq) : Grows s (HwState.rollback { s with
      entryClaims := claims
      vectorUsed := update s.vectorUsed v true
      regs := update s.regs i ⟨v, true, none⟩
      msixTable := table } v i bdf e) := by
  obtain ⟨hunused, hnr, -⟩ := h.allocVector_eq_some hv
  rw [HwState.rollback, freeVector_vectorUsed hnr, HwState.releaseSlotIdx]
  rw [if_neg (by simp [not_le.mpr hi])]
  refine ⟨{ h.rolled_back hclaim (setVector_back hunused) ?_ with }, fun _ _ hl => hl⟩
  intro i'
  by_cases hii : i' = i
  · right
    subst hii
    simp [HwState.entryRelease]
  · left
    simp [HwState.entryRelease, update_of_ne hii]

theorem grows_grant (hu : HwInv u)
    (hobj : u.obj = update s.obj s.next (some x)) (hrev : u.revoked = s.revoked) : Grows s u := by
  refine ⟨hu, ?_⟩
  intro o y hl
  have hne : o ≠ s.next := by
    rintro rfl
    rw [live_eq_some, (h.fresh s.next (le_refl _)).1] at hl
    cases hl.2
  rw [h.live_grant hobj hrev, update_of_ne hne, hl]

theorem createMsix (bdf : PciBdf) (e : ℕ) (env : MsixEnv) : Grows s (s.createMsix bdf e env).1 := by
  unfold HwState.createMsix
  split_ifs
  · exact h.refl_grows
  · exact h.refl_grows
  split
  · exact h.refl_grows
  split_ifs
  · exact h.refl_grows
  split
  · exact h.refl_grows
  rename_i claims j hclaim
  simp only
  split
  · exact ⟨{ h.rolled_back hclaim rfl fun _ => .inl rfl with }, fun _ _ hl => hl⟩
  rename_i v hv
  have hv' : s.allocVector = some v := hv
  obtain ⟨hunused, hnr, -⟩ := h.allocVector_eq_some hv'
  split
  · rw [freeVector_vectorUsed hnr]
    exact ⟨{ h.rolled_back hclaim (setVector_back hunused) fun _ => .inl rfl with },
      fun _ _ hl => hl⟩
  rename_i r i hslot
  obtain ⟨hi, rfl⟩ := claimSlot_eq_some hslot
  unfold HwState.buildMsix
  split_ifs
  · exact h.rollback hclaim hv' hi
  · exact h.rollback hclaim hv' hi
  · exact h.rollback hclaim hv' hi
  · refine h.grows_grant ?_ rfl rfl
    simp only [setReg, setVector, setEntry, setObj, update_self, update_idem]
    exact { h.grant_msix hclaim hv' hi rfl with }

theorem createWdog (pid : ℕ) (noBlock : Bool) : Grows s (s.createWdog pid noBlock).1 := by
  unfold HwState.createWdog
  split
  · exact h.refl_grows
  split
  · exact h.refl_grows
  split
  · exact h.refl_grows
  split
  · exact h.refl_grows
  rename_i claims i hclaim
  split
  · -- the slot is cleared again, with the pid left in it
    obtain ⟨-, hi, hfree, rfl⟩ := claim_eq_some hclaim
    rw [update_idem]
    refine ⟨{ h with pids := h.pids.congr fun p => ?_, pidSingle := ?_ }, fun _ _ hl => hl⟩
    · refine (claimed_update hi _).trans ?_
      rw [HwState.PidClaimed, claimed_iff_other hfree]
      simp
    · apply h.pidSingle.update
      simp
  · exact h.grows_grant { h.grant_wdog hclaim rfl with } rfl rfl

theorem setDriver (b : Bool) (hnr : vectorReserved v = false) (hfree : ¬ s.VectorTaken v) :
    Grows s { s.setVector v b with driver := update s.driver v b } := by
  refine ⟨{ h with
    vectors := h.vectors.congr fun v' => ?vectors
    used := fun v' => ?used
    drivers := fun v' => ?drivers }, fun _ _ hl => hl⟩
  all_goals
    simp only [HwState.VectorTaken, setVector, update_apply]
    split_ifs with hvv
  · rw [hvv]
    exact iff_of_false (by cases b <;> simp) hfree
  · rfl
  · exact fun hv' => hv'.resolve_left (by simp [hvv, hnr])
  · exact h.used v'
  · exact fun _ => hvv ▸ hnr
  · exact h.drivers v'

theorem setTask (pid : ℕ) (t : Option WatchedTask) : Grows s (s.setTask pid t) :=
  ⟨{ h with }, fun _ _ hl => hl⟩

end

theorem releaseSlotIdx_eq (i : ℕ) (owner : Option ObjId) :
    ∃ regs, s.releaseSlotIdx i owner = { s with regs := regs } ∧
      (∀ j, regs j = s.regs j ∨ (regs j).occupied = false) ∧
      (i < capMaxIrq → (regs i).occupied → (regs i).owner ≠ owner) := by
  unfold releaseSlotIdx
  split_ifs with hno
  · refine ⟨s.regs, rfl, fun _ => .inl rfl, ?_⟩
    intro hlt hocc
    rcases hno with hge | hfree | ⟨-, hne⟩
    · omega
    · rw [hfree] at hocc
      cases hocc
    · exact hne
  · refine ⟨_, rfl, ?_, ?_⟩
    · intro j
      by_cases hj : j = i
      · exact .inr (by rw [hj, update_self])
      · exact .inl (update_of_ne hj _ _)
    · intro _ hocc
      rw [update_self] at hocc
      cases hocc

theorem freeVector_eq (v : ℕ) : (if v ≠ 0 then s.freeVector v else s) = { s with
    vectorUsed := if v < 48 ∨ v = 0x80 then s.vectorUsed else
      update s.vectorUsed v false } := by
  unfold freeVector
  by_cases hv : v < 48 ∨ v = 0x80
  · simp only [if_pos hv, ite_self]
  · have hnz : v ≠ 0 := by omega
    simp only [if_neg hv, if_pos hnz]
    rfl

theorem msixTeardown_eq (c : MsixCap) : ∃ regs table, s.msixTeardown o c = { s with
      obj := update s.obj o (some (.msix { c with regIdx := none }))
      entryClaims := release capMaxMsix id s.entryClaims (c.bdf, c.entryIndex)
      vectorUsed := if c.vector < 48 ∨ c.vector = 0x80 then s.vectorUsed else
        update s.vectorUsed c.vector false
      regs := regs
      msixTable := table } ∧
    (∀ j, regs j = s.regs j ∨ (regs j).occupied = false) ∧
    ∀ i, c.regIdx = some i → i < capMaxIrq → (regs i).occupied → (regs i).owner ≠ some o := by
  unfold msixTeardown
  simp only [freeVector_eq]
  cases c.regIdx with
  | none => exact ⟨s.regs, s.msixTable, rfl, fun _ => .inl rfl, fun i hi => by cases hi⟩
  | some i =>
    obtain ⟨regs, heq, hregs, hslot⟩ := releaseSlotIdx_eq (s := s.setEntry (c.bdf, c.entryIndex)
      { s.msixTable (c.bdf, c.entryIndex) with masked := true }) i (some o)
    simp only [heq]
    refine ⟨regs, _, rfl, hregs, ?_⟩
    intro i' hi'
    cases hi'
    exact hslot

theorem disarmTarget_eq (w : WdogCap) : ∃ task, s.disarmTarget w = { s with
      task := task
      wdogClaims := release capMaxWdog (fun _ => 0) s.wdogClaims w.targetPid } ∧
    ∀ p, p ≠ w.targetPid → task p = s.task p := by
  unfold disarmTarget
  split
  · split_ifs
    · exact ⟨_, rfl, fun p hp => update_of_ne hp _ _⟩
    · exact ⟨_, rfl, fun _ _ => rfl⟩
  · exact ⟨_, rfl, fun _ _ => rfl⟩

theorem live_gone (hg : Gone s u o) : u.live = update s.live o none := by
  funext o'
  rw [update_apply]
  split_ifs with ho
  · rw [live, ho]
    rcases hg.gone with hnone | ⟨hr, -⟩
    · rw [hnone, ite_self]
    · rw [if_pos hr]
  · rw [live, live, hg.obj o' ho, hg.revoked o' ho]

theorem teardown_frame (hobj : s.obj o = some x) : (s.teardown o x).revoked = s.revoked ∧
      (∀ o', o' ≠ o → (s.teardown o x).obj o' = s.obj o') ∧
      ∀ c, (s.teardown o x).obj o = some (.msix c) → c.regIdx = none := by
  cases x with
  | msix c =>
    obtain ⟨regs, table, heq, -⟩ := msixTeardown_eq c
    rw [teardown, heq]
    refine ⟨rfl, fun o' ho' => update_of_ne ho' _ _, ?_⟩
    intro c' hc'
    simp only [update_self, Option.some.injEq, msix.injEq] at hc'
    rw [← hc']
  | wdog w =>
    obtain ⟨task, heq, -⟩ := disarmTarget_eq w
    rw [teardown, heq]
    refine ⟨rfl, fun _ _ => rfl, ?_⟩
    intro c hc
    have hwdog : some (wdog w) = some (.msix c) := hobj.symm.trans hc
    cases hwdog

theorem dispose_eq (x : HwCap) : ∃ msix wdogs, s.dispose o x =
    { (s.teardown o x).setObj o none with liveMsix := msix, liveWdogs := wdogs } := by
  cases x with
  | msix c => exact ⟨_, _, rfl⟩
  | wdog w => exact ⟨_, _, rfl⟩

section

variable (h : HwInv s)
include h

theorem vector_of_live {c : MsixCap} (hl : s.live o = some (.msix c)) :
    vectorReserved c.vector = false :=
  ((h.vectors.held c.vector).mpr ⟨o, by rw [own, hl]; rfl⟩).2.1

theorem teardown_revoked (hobj : s.obj o = some x) (hr : s.revoked o) (hfree : s.KeysFree x) :
    ∃ task, s.teardown o x = { s with task := task } ∧ ∀ p, p ∉ x.pidKey → task p = s.task p := by
  obtain ⟨hentry, hvec, hpid⟩ := hfree
  cases x with
  | msix c =>
    refine ⟨s.task, ?_, fun _ _ => rfl⟩
    have hreg := h.dropped o c hobj hr
    have hused : update s.vectorUsed c.vector false = s.vectorUsed :=
      update_eq_self_iff.mpr (hvec c.vector rfl).symm
    have hkept : release capMaxMsix id s.entryClaims (c.bdf, c.entryIndex) = s.entryClaims :=
      release_of_not_claimed id (hentry _ rfl)
    have hsame : update s.obj o (some (.msix { c with regIdx := none })) = s.obj := by
      rw [← hreg]
      exact update_eq_self_iff.mpr hobj.symm
    rw [teardown, msixTeardown, hreg]
    simp only [freeVector_eq, hused, ite_self]
    rw [entryRelease, hkept, setObj, hsame]
  | wdog w =>
    obtain ⟨task, heq, hother⟩ := disarmTarget_eq w
    refine ⟨task, ?_, ?_⟩
    · rw [teardown, heq, release_of_not_claimed _ (hpid _ rfl)]
    · intro p hp
      apply hother
      rintro rfl
      exact hp rfl

theorem fresh_gone (hg : Gone s u o) (hlt : s.obj o ≠ none) :
    ∀ o', u.next ≤ o' → u.obj o' = none ∧ u.revoked o' = false := by
  intro o' ho'
  rw [hg.next] at ho'
  have hne : o' ≠ o := by
    rintro rfl
    exact hlt (h.fresh o' ho').1
  rw [hg.obj o' hne, hg.revoked o' hne]
  exact h.fresh o' ho'

theorem dropped_gone (hg : Gone s u o) :
    ∀ o' c, u.obj o' = some (.msix c) → u.revoked o' → c.regIdx = none := by
  intro o' c hobj hr
  by_cases ho : o' = o
  · rw [ho] at hobj
    rcases hg.gone with hnone | ⟨-, hreg⟩
    · rw [hnone] at hobj
      cases hobj
    · exact hreg c hobj
  · rw [hg.obj o' ho] at hobj
    rw [hg.revoked o' ho] at hr
    exact h.dropped o' c hobj hr

theorem teardown_step {obj : ObjId → Option HwCap} {rev : ObjId → Bool} (hobj : s.obj o = some x)
    (hfree : s.revoked o → s.KeysFree x)
    (hg : Gone s { s with obj := obj, revoked := rev } o) :
    HwInv { s.teardown o x with obj := obj, revoked := rev } ∧
      { s.teardown o x with obj := obj, revoked := rev }.live = update s.live o none := by
  have hfresh := h.fresh_gone hg (by rw [hobj]; exact some_ne_none x)
  have hdropped := h.dropped_gone hg
  have hlive := live_gone hg
  refine ⟨?_, hlive⟩
  cases hr : s.revoked o with
  | true =>
    obtain ⟨task, heq, -⟩ := h.teardown_revoked hobj hr (hfree hr)
    have hnone : s.live o = none := by rw [live, if_pos hr]
    rw [update_eq_self_iff.mpr hnone.symm] at hlive
    rw [heq]
    exact { h.of_live hfresh hdropped rfl hlive with }
  | false =>
    have hl : s.live o = some x := live_eq_some.mpr ⟨hr, hobj⟩
    cases x with
    | msix c =>
      obtain ⟨regs, table, heq, hsame, hslot⟩ := msixTeardown_eq c
      rw [teardown, heq, if_neg (vector_window (h.vector_of_live hl))]
      refine { h.drop_msix hfresh hdropped hl rfl hlive hsame ?_ with }
      intro i hocc howner
      have hold := (hsame i).resolve_right (by rw [hocc]; exact Bool.noConfusion)
      have hslots := h.slots i o (hold ▸ hocc) (hold ▸ howner)
      rw [own, hl] at hslots
      exact hslot i hslots.2 hslots.1 hocc howner
    | wdog w =>
      obtain ⟨task, heq, -⟩ := disarmTarget_eq w
      rw [teardown, heq]
      exact { h.drop_wdog hfresh hdropped hl rfl hlive with }

section

variable (hobj : s.obj o = some x) (hfree : s.revoked o → s.KeysFree x)
include hobj hfree

theorem revoke : HwInv (s.revoke o x) ∧ (s.revoke o x).live = update s.live o none := by
  obtain ⟨-, hother, hreg⟩ := teardown_frame hobj
  exact h.teardown_step hobj hfree
    ⟨rfl, hother, fun o' ho' => update_of_ne ho' _ _, .inr ⟨update_self _ _ _, hreg⟩⟩

theorem dispose : HwInv (s.dispose o x) ∧ (s.dispose o x).live = update s.live o none := by
  obtain ⟨hrev, hother, -⟩ := teardown_frame hobj
  obtain ⟨msix, wdogs, heq⟩ := dispose_eq x
  have hg : Gone s { s with
      obj := update (s.teardown o x).obj o none, revoked := (s.teardown o x).revoked } o :=
    ⟨rfl, fun o' ho' => (update_of_ne ho' _ _).trans (hother o' ho'), fun o' _ => congrFun hrev o',
      .inl (update_self _ _ _)⟩
  obtain ⟨hinv, hlive⟩ := h.teardown_step hobj hfree hg
  rw [heq]
  exact ⟨{ hinv with }, hlive⟩

end

section

variable (hok : Unclaimed s a) (hs : s.step a = some u)
include hok hs

theorem step : a.target = none ∧ Grows s u ∨
      ∃ o, a.target = some o ∧ HwInv u ∧ u.live = update s.live o none := by
  cases a with
  | createMsix bdf e env =>
    cases hs
    exact .inl ⟨rfl, h.createMsix bdf e env⟩
  | createWdog pid noBlock =>
    cases hs
    exact .inl ⟨rfl, h.createWdog pid noBlock⟩
  | revoke o =>
    obtain ⟨x, hobj, rfl⟩ := map_eq_some_iff.mp hs
    have hfree := fun hr => hok hr x hobj
    exact .inr ⟨o, rfl, h.revoke hobj hfree⟩
  | dispose o =>
    obtain ⟨x, hobj, rfl⟩ := map_eq_some_iff.mp hs
    have hfree := fun hr => hok hr x hobj
    exact .inr ⟨o, rfl, h.dispose hobj hfree⟩
  | driverAlloc =>
    refine .inl ⟨rfl, ?_⟩
    simp only [step, Option.some.injEq] at hs
    split at hs
    · rw [← hs]
      exact h.refl_grows
    · next v hv =>
      obtain ⟨hunused, hnr, -⟩ := h.allocVector_eq_some hv
      rw [← hs]
      exact h.setDriver true hnr fun ht => absurd (hunused.symm.trans ht.1) (by decide)
  | driverFree v =>
    obtain ⟨hv, rfl⟩ := ite_some_none_eq_some.mp hs
    rw [freeVector_vectorUsed (h.drivers v hv)]
    exact .inl ⟨rfl, h.setDriver false (h.drivers v hv) fun ht =>
      absurd (hv.symm.trans ht.2.2) (by decide)⟩
  | spawn pid generation =>
    obtain ⟨-, rfl⟩ := ite_some_none_eq_some.mp hs
    exact .inl ⟨rfl, h.setTask pid _⟩
  | exit pid =>
    cases hs
    exact .inl ⟨rfl, h.setTask pid none⟩
  | arm pid expiry =>
    obtain ⟨t, -, rfl⟩ := map_eq_some_iff.mp hs
    exact .inl ⟨rfl, h.setTask pid _⟩
  | drain i =>
    cases hs
    refine .inl ⟨rfl, h.regs_freed ?_, fun _ _ hl => hl⟩
    intro j
    by_cases hj : j = i
    · exact .inr (by simp [hj])
    · exact .inl (update_of_ne hj _ _)

theorem inv_step : HwInv u := by
  rcases h.step hok hs with ⟨-, hgrow⟩ | ⟨-, -, hu, -⟩
  · exact hgrow.inv
  · exact hu

theorem released {K : Type} {key : HwCap → Option K} {before after : K → Prop}
    (hold : Owned before (s.own key)) (hnew : Owned after (u.own key)) :
    ReleasedByHolder before after (s.own key) a := by
  intro k hk
  obtain ⟨o, hown⟩ := (hold.held k).mp hk
  rcases h.step hok hs with ⟨hnone, hgrow⟩ | ⟨o', htarget, -, hlive⟩
  · have hkept : after k := by
      obtain ⟨x, hx, hkey⟩ := bind_eq_some_iff.mp hown
      exact (hnew.held k).mpr ⟨o, bind_eq_some_iff.mpr ⟨x, hgrow.kept o x hx, hkey⟩⟩
    constructor
    · intro hno
      exact absurd hkept hno
    · rintro ⟨o', htarget, -⟩
      rw [hnone] at htarget
      cases htarget
  · have hown' := own_update hlive key
    constructor
    · intro hno
      refine ⟨o', htarget, ?_⟩
      by_contra hne
      have hoo : o ≠ o' := by
        rintro rfl
        exact hne hown
      refine hno ((hnew.held k).mpr ⟨o, ?_⟩)
      rw [hown', update_of_ne hoo, hown]
    · rintro ⟨o₁, htarget₁, hown₁⟩ hafter
      obtain ⟨o₂, hown₂⟩ := (hnew.held k).mp hafter
      rw [htarget] at htarget₁
      cases htarget₁
      rw [hown', update_apply] at hown₂
      split_ifs at hown₂ with hne
      · cases hown₂
      · exact hne (hold.one o₂ o' k hown₂ hown₁)

end

theorem dispose_revoked (hr : s.revoked o) (hok : Unclaimed s (.dispose o))
    (hs : s.step (.dispose o) = some u) :
    u.entryClaims = s.entryClaims ∧ u.vectorUsed = s.vectorUsed ∧ u.wdogClaims = s.wdogClaims ∧
      ∀ o' p, s.own pidKey o' = some p → u.task p = s.task p := by
  obtain ⟨x, hobj, rfl⟩ := map_eq_some_iff.mp hs
  have hfree := hok hr x hobj
  obtain ⟨task, heq, htask⟩ := h.teardown_revoked hobj hr hfree
  obtain ⟨msix, wdogs, hd⟩ := dispose_eq x
  rw [hd, heq]
  refine ⟨rfl, rfl, rfl, ?_⟩
  intro o' p hown
  apply htask
  intro hp
  exact hfree.2.2 p hp ((h.pids.held p).mpr ⟨o', hown⟩)

end

theorem of_run {as : List HwAction} (h : Run HwState.step Unclaimed {} as s) : HwInv s :=
  h.invariant (fun _ _ _ hi hok hs => hi.inv_step hok hs) init

end HwInv

/-- In every run in which revoked capabilities are disposed only while their keys are not claimed,
each claimed entry, vector and pid has exactly one holder that is not revoked, a claim ends with its
holder and not before, and the disposal of a revoked capability changes nobody's claim, vector or
watchdog. -/
theorem claims_single_owner {as : List HwAction} {s : HwState}
    (h : Run HwState.step Unclaimed {} as s) :
    (Owned s.EntryClaimed (s.own entryKey) ∧ Owned s.VectorTaken (s.own vectorKey) ∧
      Owned s.PidClaimed (s.own pidKey)) ∧
    (∀ a u, Unclaimed s a → s.step a = some u →
      ReleasedByHolder s.EntryClaimed u.EntryClaimed (s.own entryKey) a ∧
      ReleasedByHolder s.VectorTaken u.VectorTaken (s.own vectorKey) a ∧
      ReleasedByHolder s.PidClaimed u.PidClaimed (s.own pidKey) a) ∧
    ∀ o u, s.revoked o → Unclaimed s (.dispose o) → s.step (.dispose o) = some u →
      u.entryClaims = s.entryClaims ∧ u.vectorUsed = s.vectorUsed ∧ u.wdogClaims = s.wdogClaims ∧
        ∀ o' p, s.own pidKey o' = some p → u.task p = s.task p := by
  have hinv := HwInv.of_run h
  refine ⟨⟨hinv.entries, hinv.vectors, hinv.pids⟩, ?_, ?_⟩
  · intro a u hok hs
    have hu := hinv.inv_step hok hs
    exact ⟨hinv.released hok hs hinv.entries hu.entries,
      hinv.released hok hs hinv.vectors hu.vectors, hinv.released hok hs hinv.pids hu.pids⟩
  · intro o u hr hok hs
    exact hinv.dispose_revoked hr hok hs

def claimTwice : List HwAction :=
  [.createMsix ⟨0, 3, 0⟩ 0 { tableEntries := some 4 }, .revoke 0, .spawn 7 1, .createWdog 7 false,
    .dispose 0, .createMsix ⟨0, 3, 0⟩ 0 { tableEntries := some 4 }, .revoke 1, .createWdog 7 false]

theorem claims_single_owner_claimTwice : ∃ s, Run step Unclaimed {} claimTwice s ∧
    (s.EntryClaimed (⟨0, 3, 0⟩, 0) ∧ s.PidClaimed 7 ∧ s.revoked 1 = true) ∧
    Owned s.EntryClaimed (s.own entryKey) ∧ Owned s.VectorTaken (s.own vectorKey) ∧
      Owned s.PidClaimed (s.own pidKey) := by
  exact Run.exists_and_of_exec (by decide +kernel) fun _ hrun _ => (claims_single_owner hrun).1

/-- A MsixCap that was revoked long ago is disposed: the vector it once had is freed under its new
holder and goes to a kernel driver, then its entry is released under the new holder and claimed
again. The same happens to a watchdog. -/
def disposeLate : List HwAction :=
  [.createMsix ⟨0, 3, 0⟩ 0 { tableEntries := some 4 }, .revoke 0,
    .createMsix ⟨0, 3, 0⟩ 1 { tableEntries := some 4 }, .dispose 0, .driverAlloc,
    .createMsix ⟨0, 3, 0⟩ 0 { tableEntries := some 4 }, .revoke 2, .driverAlloc,
    .createMsix ⟨0, 3, 0⟩ 0 { tableEntries := some 4 }, .dispose 2,
    .createMsix ⟨0, 3, 0⟩ 0 { tableEntries := some 4 },
    .spawn 7 1, .createWdog 7 false, .revoke 5, .createWdog 7 false, .arm 7 100, .dispose 5,
    .createWdog 7 false]

theorem claims_stolen : ∃ s, Run step anyStep {} disposeLate s ∧
    s.own entryKey 3 = some (⟨0, 3, 0⟩, 0) ∧ s.own entryKey 4 = some (⟨0, 3, 0⟩, 0) ∧
    s.own vectorKey 1 = some 48 ∧ s.driver 48 = true ∧
    s.own pidKey 6 = some 7 ∧ s.own pidKey 7 = some 7 ∧
    (s.task 7).map WatchedTask.wdogArmed = some false :=
  Run.exists_of_exec (by decide +kernel)

end Nexios.Cap
