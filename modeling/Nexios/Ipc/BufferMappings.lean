import Nexios.Ipc.BufferPages
import Nexios.Lib.Run

/-!
# Mappings of shared buffers

An entry has room for one address. `map` does not look at it: a second `map` overwrites the first
address, whose page-table entry nobody clears any more. The address 0 stands for no address, so a
buffer at 0 is never unmapped; `alloc` writes over the page-table entry of another buffer; and both
record an address also when there was no page for a table. Without these, the user half of an
address space has the page of a buffer just where the entry says, and no task has it after `free`,
`unmap` or `transfer`.
-/

open Function Option

namespace Nexios.Ipc

open BufferEntry BufferPool

open Vmm (AddressSpace UserHalf slot)

variable {n m : ℕ}

namespace BufferPool

variable {s s' s'' : BufferPool n m} {t u : Fin n} {i j : Fin m} {p handle va tables : ℕ}
  {env : AllocEnv} {a : Fin n → AddressSpace} {b : BufferAction n} {as : List (BufferAction n)}

def Attached (s : BufferPool n m) (t : Fin n) (i : Fin m) : Prop :=
  s.owns t i = true ∧ (s.entry i).mappedVa ≠ 0
  deriving Decidable

/-- A task has the page of a buffer in its half of the address space just where the entry says. -/
def Recorded (s : BufferPool n m) : Prop :=
  ∀ t i, s.live i → ∀ va, UserHalf va →
    ((s.space t).translate va = some (s.entry i).physAddr ↔
      s.Attached t i ∧ slot va = slot (s.entry i).mappedVa)

/-- The calls by which a task gives up a buffer, with the task and the handle. -/
def revokes : BufferAction n → Option (Fin n × ℕ)
  | .free t handle => some (t, handle)
  | .unmap t handle => some (t, handle)
  | .transfer handle src _ => some (src, handle)
  | _ => none

/-- The condition on a step: the ids differ in their low 32 bits, a buffer gets an address that is
not 0 and a page-table entry for it, `alloc` does not write over the page-table entry of another
buffer, and the buffer that `map` maps has no address. -/
def Tidy (s : BufferPool n m) (b : BufferAction n) : Prop :=
  s.Distinct ∧
    match b with
    | .alloc t va env =>
      va < userSpaceLimit → s.freeHead ≠ none → (s.allocPage env).2 ≠ 0 →
        va ≠ 0 ∧ ((s.space t).mapPage va (s.allocPage env).2 env.tables).2 = true ∧
          ∀ p ∈ (s.space t).translate va, ∀ i, s.owns t i → (s.entry i).physAddr ≠ p
    | .map t handle va tables =>
      (s.map t handle va tables).2 → va ≠ 0 ∧
        ∀ i ∈ s.validateOwned t handle, (s.entry i).mappedVa = 0 ∧
          ((s.space t).mapPage va (s.entry i).physAddr tables).2 = true
    | .unmapAll _ => False
    | _ => True

instance (s : BufferPool n m) (b : BufferAction n) : Decidable (s.Tidy b) := by
  unfold Tidy
  split <;> infer_instance

/-- The tasks have only pages of other modules in their half, and the cache has none of these. -/
structure CleanStart (s : BufferPool n m) : Prop extends s.Start where
  fresh : ∀ p ∈ s.pool, s.taken p = false
  user : ∀ t va p, UserHalf va → (s.space t).translate va = some p → s.taken p

/-! ## The invariant -/

def Backs (s : BufferPool n m) (t : Fin n) (va p : ℕ) : Prop :=
  ∃ i, s.Attached t i ∧ slot va = slot (s.entry i).mappedVa ∧ (s.entry i).physAddr = p

/-- The page tables, where `a` are those of the start. -/
structure Tables (s : BufferPool n m) (a : Fin n → AddressSpace) : Prop where
  entered : ∀ t i, s.Attached t i → UserHalf (s.entry i).mappedVa ∧
    (s.space t).translate (s.entry i).mappedVa = some (s.entry i).physAddr ∧
    (s.space t).InTable (s.entry i).mappedVa
  only : ∀ t va p, (s.space t).translate va = some p →
    s.Backs t va p ∨ ((a t).translate va = some p ∧ (UserHalf va → s.taken p))

/-- The pages here are not those of other modules. -/
def Untaken (s : BufferPool n m) : Prop := ∀ p, s.Held p → s.taken p = false

structure Secure (s : BufferPool n m) (a : Fin n → AddressSpace) : Prop where
  tables : s.Tables a
  pages : s.Pages
  untaken : s.Untaken

theorem not_attached (h : (s.entry i).mappedVa = 0) (t : Fin n) :
    ¬ s.Attached t i := fun ha => ha.2 h

theorem attached_congr (hid : s'.id = s.id) (he : s'.entry i = s.entry i) :
    s'.Attached t i ↔ s.Attached t i := by
  unfold Attached owns live ownerId
  rw [hid, he]

theorem held_of_live (h : s.live i) : s.Held (s.entry i).physAddr := .inr ⟨i, h, rfl⟩

theorem backs_of (hid : s'.id = s.id) (he : s'.entry j = s.entry j) (hj : s.Attached u j)
    (hslot : slot va = slot (s.entry j).mappedVa) (hphys : (s.entry j).physAddr = p) :
    s'.Backs u va p := by
  refine ⟨j, (attached_congr hid he).mpr hj, ?_⟩
  rw [he]
  exact ⟨hslot, hphys⟩

theorem Tables.congr (h : s.Tables a) (hspace : s'.space = s.space) (htaken : s'.taken = s.taken)
    (hid : s'.id = s.id) (hother : ∀ j, j ≠ i → s'.entry j = s.entry j)
    (hold : ∀ u, ¬ s.Attached u i) (hnew : ∀ u, ¬ s'.Attached u i) : s'.Tables a where
  entered u j hj := by
    have he := hother j fun hji => hnew u (hji ▸ hj)
    rw [hspace, he]
    exact h.entered u j ((attached_congr hid he).mp hj)
  only u va p hp := by
    rw [hspace] at hp
    rw [htaken]
    refine (h.only u va p hp).imp_left ?_
    rintro ⟨j, hj, hslot, hphys⟩
    exact backs_of hid (hother j fun hji => hold u (hji ▸ hj)) hj hslot hphys

theorem Untaken.congr (h : s.Untaken) (htaken : s'.taken = s.taken) (hpool : s'.pool ⊆ s.pool)
    (hphys : ∀ i, (s'.entry i).physAddr = (s.entry i).physAddr) : s'.Untaken := by
  rintro p (hp | ⟨i, hi, rfl⟩)
  · rw [htaken]
    exact h p (.inl (hpool hp))
  · rw [live_congr (hphys i)] at hi
    rw [htaken, hphys]
    exact h _ (held_of_live hi)

namespace Secure

theorem relink (h : s.Secure a) (links : Links (Fin m)) (head : Fin n → Option (Fin m)) :
    Secure { s with links := links, head := head } a :=
  ⟨⟨h.tables.entered, h.tables.only⟩, h.pages.congr (.refl _) fun _ => rfl, h.untaken⟩

theorem attached (h : s.Secure a) (hi : s.live i)
    (hp : (s.space t).translate va = some (s.entry i).physAddr) :
    (s.Attached t i ∧ slot va = slot (s.entry i).mappedVa) ∨
      ((a t).translate va = some (s.entry i).physAddr ∧ ¬ UserHalf va) := by
  rcases h.tables.only t va _ hp with ⟨j, hj, hslot, he⟩ | ⟨hstart, hkernel⟩
  · obtain rfl : i = j := h.pages.inj i j hi he.symm
    exact .inl ⟨hj, hslot⟩
  · refine .inr ⟨hstart, fun huser => ?_⟩
    rw [h.untaken _ (held_of_live hi)] at hkernel
    cases hkernel huser

theorem recorded (h : s.Secure a) : s.Recorded := by
  intro t i hi va huser
  constructor
  · exact fun hp => (h.attached hi hp).resolve_right fun hk => hk.2 huser
  · rintro ⟨hatt, hslot⟩
    rw [AddressSpace.translate_congr _ hslot]
    exact (h.tables.entered t i hatt).2.1

end Secure

/-! ## Parts of the calls -/

theorem Tables.clearMapping (h : s.Tables a) (hp : s.Pages) (hdistinct : s.Distinct)
    (hi : s.owns t i) : (s.clearMapping t i).Tables a := by
  by_cases hva : (s.entry i).mappedVa = 0
  · unfold BufferPool.clearMapping
    rw [if_pos hva]
    exact h
  obtain ⟨-, -, htable⟩ := h.entered t i ⟨hi, hva⟩
  obtain ⟨-, -, -, hid, -, -, htaken⟩ := s.clearMapping_frame t i
  have hself : ((s.clearMapping t i).entry i).mappedVa = 0 := by
    rw [clearMapping_entry, if_pos rfl]
  have hother : ∀ j, j ≠ i → (s.clearMapping t i).entry j = s.entry j := fun j hj => by
    rw [clearMapping_entry, if_neg hj]
  have hspace : (s.clearMapping t i).space =
      update s.space t ((s.space t).clearPte (s.entry i).mappedVa) := by
    unfold BufferPool.clearMapping
    rw [if_neg hva]
    rfl
  constructor
  · intro u j hj
    have hji : j ≠ i := by
      rintro rfl
      exact not_attached hself u hj
    have hold := (attached_congr hid (hother j hji)).mp hj
    obtain ⟨huser, htrans, htab⟩ := h.entered u j hold
    rw [hother j hji, hspace]
    by_cases hu : u = t
    · subst hu
      -- the entries of different pages are not in the same place
      have hslot : slot (s.entry j).mappedVa ≠ slot (s.entry i).mappedVa := by
        intro hslot
        have hsame := htrans.symm.trans ((s.space u).translate_congr hslot)
        rw [(h.entered u i ⟨hi, hva⟩).2.1] at hsame
        exact hji (hp.inj j i (live_of_owns hold.1) (some.inj hsame))
      rw [update_self]
      refine ⟨huser, ?_, htab.clearPte htable⟩
      rw [AddressSpace.translate_clearPte htable, if_neg hslot]
      exact htrans
    · rw [update_of_ne hu]
      exact ⟨huser, htrans, htab⟩
  · intro u va p hp'
    rw [hspace] at hp'
    rw [htaken]
    have hkept : (s.space u).translate va = some p ∧
        (u = t → slot va ≠ slot (s.entry i).mappedVa) := by
      by_cases hu : u = t
      · subst hu
        rw [update_self, AddressSpace.translate_clearPte htable, ite_none_left_eq_some] at hp'
        exact ⟨hp'.2, fun _ => hp'.1⟩
      · rw [update_of_ne hu] at hp'
        exact ⟨hp', (absurd · hu)⟩
    refine (h.only u va p hkept.1).imp_left ?_
    rintro ⟨j, hj, hslot, he⟩
    refine backs_of hid (hother j ?_) hj hslot he
    rintro rfl
    have hut := hdistinct u t ((owns_iff.mp hj.1).2.symm.trans (owns_iff.mp hi).2)
    exact hkept.2 hut hslot

theorem Tables.enter (h : s.Tables a) (hdistinct : s.Distinct) (hid : s'.id = s.id)
    (htaken : s'.taken = s.taken)
    (hspace : s'.space = update s.space t ((s.space t).mapPage va p tables).1)
    (hother : ∀ j, j ≠ i → s'.entry j = s.entry j)
    (hphys : (s'.entry i).physAddr = p) (hva : (s'.entry i).mappedVa = va)
    (howner : (s'.entry i).ownerTask = s.ownerId t) (hlive : p ≠ 0) (hzero : va ≠ 0)
    (huser : UserHalf va) (hok : ((s.space t).mapPage va p tables).2)
    (hnew : ∀ u, ¬ s.Attached u i)
    (hfree : ∀ j, s.Attached t j → slot (s.entry j).mappedVa ≠ slot va) : s'.Tables a := by
  have howns : ∀ u j, s'.owns u j = true ↔ (s.owns u j = true ∧ j ≠ i) ∨ (u = t ∧ j = i) :=
    fun u j => owns_insert hdistinct hid hother howner (hphys.trans_ne hlive)
  have hself : s'.Attached t i := ⟨(howns t i).mpr (.inr ⟨rfl, rfl⟩), hva.trans_ne hzero⟩
  have hlift : ∀ u va q, s.Backs u va q → s'.Backs u va q := by
    rintro u va q ⟨j, hj, hslot, he⟩
    exact backs_of hid (hother j fun hji => hnew u (hji ▸ hj)) hj hslot he
  constructor
  · intro u j hj
    by_cases hji : j = i
    · subst hji
      obtain rfl : u = t := by
        rcases (howns u j).mp hj.1 with ⟨-, hne⟩ | ⟨hut, -⟩
        · exact absurd rfl hne
        · exact hut
      rw [hspace, update_self, hva, hphys]
      refine ⟨huser, ?_, AddressSpace.inTable_mapPage hok⟩
      rw [AddressSpace.translate_mapPage hok, if_pos rfl]
    · have hold := (attached_congr hid (hother j hji)).mp hj
      obtain ⟨huser', htrans, htab⟩ := h.entered u j hold
      rw [hother j hji, hspace]
      by_cases hu : u = t
      · subst hu
        rw [update_self]
        refine ⟨huser', ?_, htab.mapPage ..⟩
        rw [AddressSpace.translate_mapPage hok, if_neg (hfree j hold)]
        exact htrans
      · rw [update_of_ne hu]
        exact ⟨huser', htrans, htab⟩
  · intro u va' q hq
    rw [hspace] at hq
    rw [htaken]
    by_cases hu : u = t
    · subst hu
      rw [update_self, AddressSpace.translate_mapPage hok] at hq
      split_ifs at hq with hslot
      · refine .inl ⟨i, hself, ?_, hphys.trans (some.inj hq)⟩
        rw [hva]
        exact hslot
      · exact (h.only u va' q hq).imp_left (hlift u va' q)
    · rw [update_of_ne hu] at hq
      exact (h.only u va' q hq).imp_left (hlift u va' q)

namespace Secure

theorem clearMapping (h : s.Secure a) (hdistinct : s.Distinct) (hi : s.owns t i) :
    (s.clearMapping t i).Secure a := by
  obtain ⟨-, -, -, -, hpool, -, htaken⟩ := s.clearMapping_frame t i
  refine ⟨h.tables.clearMapping h.pages hdistinct hi, h.pages.clearMapping t i, ?_⟩
  exact h.untaken.congr htaken (hpool ▸ .refl _) (s.clearMapping_physAddr t i)

theorem release (h : s.Secure a) (hi : s.live i) (hva : (s.entry i).mappedVa = 0) :
    (s.release i).Secure a := by
  refine ⟨?_, h.pages.release hi, ?_⟩
  · exact h.tables.congr rfl rfl rfl (fun j hj => s.release_entry_ne hj) (not_attached hva)
      fun u hu => (owns_release.mp hu.1).2 rfl
  rintro p (hp | ⟨j, hj, rfl⟩)
  · rcases s.release_pool i with hpool | hpool
    · rcases List.mem_cons.mp (hpool ▸ hp) with rfl | hp
      · exact h.untaken _ (held_of_live hi)
      · exact h.untaken p (.inl hp)
    · exact h.untaken p (.inl (hpool ▸ hp))
  · obtain ⟨hj, hji⟩ := live_release.mp hj
    rw [s.release_entry_ne hji]
    exact h.untaken _ (held_of_live hj)

end Secure

/-! ## Calls -/

/-- The entry has no address any more, and the other entries are as they were. -/
structure Revoked (s : BufferPool n m) (a : Fin n → AddressSpace) (i : Fin m)
    (s' : BufferPool n m) : Prop where
  secure : s'.Secure a
  attached : ∀ u, ¬ s'.Attached u i
  entry : ∀ j, j ≠ i → s'.entry j = s.entry j
  taken : s'.taken = s.taken

theorem Revoked.gone (h : s.Secure a) (hr : s.Revoked a i s') (hi : s.live i)
    (hp : (s'.space t).translate va = some (s.entry i).physAddr) :
    ¬ UserHalf va ∧ (a t).translate va = some (s.entry i).physAddr := by
  rcases hr.secure.tables.only t va _ hp with ⟨j, hj, -, he⟩ | ⟨hstart, hkernel⟩
  · have hji : j ≠ i := by
      rintro rfl
      exact hr.attached t hj
    rw [hr.entry j hji] at he
    exact absurd (h.pages.inj i j hi he.symm).symm hji
  · refine ⟨fun huser => ?_, hstart⟩
    rw [hr.taken, h.untaken _ (held_of_live hi)] at hkernel
    cases hkernel huser

theorem mappedVa_detach (s : BufferPool n m) (t : Fin n) (i : Fin m) :
    (((s.clearMapping t i).listRemove t i).entry i).mappedVa = 0 := by
  change ((s.clearMapping t i).entry i).mappedVa = 0
  rw [clearMapping_entry, if_pos rfl]

theorem Secure.detach (h : s.Secure a) (hdistinct : s.Distinct) (hi : s.owns t i) :
    s.Revoked a i ((s.clearMapping t i).listRemove t i) where
  secure := (h.clearMapping hdistinct hi).relink ..
  attached := not_attached (mappedVa_detach s t i)
  entry j hj := by
    change (s.clearMapping t i).entry j = s.entry j
    rw [clearMapping_entry, if_neg hj]
  taken := (s.clearMapping_frame t i).2.2.2.2.2.2

theorem Revoked.release (h : s.Revoked a i s') (hi : s'.live i)
    (hva : (s'.entry i).mappedVa = 0) : s.Revoked a i (s'.release i) where
  secure := h.secure.release hi hva
  attached _ hatt := (owns_release.mp hatt.1).2 rfl
  entry j hj := (s'.release_entry_ne hj).trans (h.entry j hj)
  taken := h.taken

theorem Revoked.give (h : s.Revoked a i s') (hva : (s'.entry i).mappedVa = 0) (o : ℕ) (u : Fin n) :
    s.Revoked a i ((s'.setEntry i { s'.entry i with ownerTask := o }).listInsert u i) := by
  set s₁ := s'.setEntry i { s'.entry i with ownerTask := o }
  have hself : s₁.entry i = { s'.entry i with ownerTask := o } := update_self ..
  have hother : ∀ j, j ≠ i → s₁.entry j = s'.entry j := fun j hj => update_of_ne hj ..
  have hnone : (s₁.entry i).mappedVa = 0 := (congrArg mappedVa hself).trans hva
  have hphys : ∀ j, (s₁.entry j).physAddr = (s'.entry j).physAddr :=
    update_field physAddr (by rfl)
  have hsecure : s₁.Secure a :=
    ⟨h.secure.tables.congr rfl rfl rfl hother h.attached (not_attached hnone),
      h.secure.pages.congr (.refl _) hphys,
      h.secure.untaken.congr rfl (.refl _) hphys⟩
  exact ⟨hsecure.relink .., not_attached hnone, fun j hj => (hother j hj).trans (h.entry j hj),
    h.taken⟩

namespace Secure

theorem refused (hb : revokes b = some (t, handle)) (hv : s.validateOwned t handle = none)
    (hs : s.step b = some s') : s' = s := by
  cases b <;> cases hb <;> cases hs
  all_goals simp only [free, unmap, transfer, hv]

theorem allocPage_takeEntry (s : BufferPool n m) (i : Fin m) (env : AllocEnv) :
    ((s.takeEntry i).allocPage env).2 = (s.allocPage env).2 := by
  unfold allocPage takeEntry
  cases s.pool with
  | nil => rfl
  | cons p rest => rfl

section

variable (h : s.Secure a) {pool : List ℕ}
include h

theorem revoke (hdistinct : s.Distinct) (hb : revokes b = some (t, handle))
    (hv : s.validateOwned t handle = some i) (hs : s.step b = some s') : s.Revoked a i s' := by
  have hi := validateOwned_owns hv
  have hdetach := h.detach hdistinct hi
  have hva := mappedVa_detach s t i
  cases b with
  | free u k =>
    cases hb
    cases hs
    unfold free
    rw [hv]
    refine hdetach.release ?_ hva
    exact (live_congr (s.clearMapping_physAddr t i i)).trans (live_of_owns hi)
  | unmap u k =>
    cases hb
    cases hs
    unfold unmap
    rw [hv]
    dsimp only
    split_ifs with hzero
    · exact ⟨h, not_attached hzero, fun _ _ => rfl, rfl⟩
    · exact hdetach
  | transfer k src dst =>
    cases hb
    cases hs
    unfold transfer
    rw [hv]
    exact hdetach.give hva _ dst
  | _ => cases hb

theorem step_revokes (hdistinct : s.Distinct) (hb : revokes b = some (t, handle))
    (hs : s.step b = some s') : s'.Secure a := by
  cases hv : s.validateOwned t handle with
  | none =>
    rw [refused hb hv hs]
    exact h
  | some i => exact (h.revoke hdistinct hb hv hs).secure

theorem map (hok : s.Tidy (.map t handle va tables)) : (s.map t handle va tables).1.Secure a := by
  obtain ⟨hdistinct, hok⟩ := hok
  dsimp only at hok
  unfold BufferPool.map at hok ⊢
  cases hv : s.validateOwned t handle with
  | none => exact h
  | some i =>
    rw [hv] at hok
    split_ifs at hok ⊢ with hbad
    · exact h
    obtain ⟨hzero, hmap⟩ := hok rfl
    obtain ⟨hnone, hmap⟩ := hmap i rfl
    obtain ⟨-, hlimit, hvirt⟩ := not_or.mp hbad |>.imp_right not_or.mp
    have hi := validateOwned_owns hv
    have hlive := live_iff.mp (live_of_owns hi)
    set s₁ := (s.setSpace t ((s.space t).mapPage va (s.entry i).physAddr tables).1).setEntry i
      { s.entry i with ownerTask := s.ownerId t, mappedVa := va }
    have hentry : s₁.entry i = { s.entry i with ownerTask := s.ownerId t, mappedVa := va } :=
      update_self ..
    have hother : ∀ j, j ≠ i → s₁.entry j = s.entry j := fun j hj => update_of_ne hj ..
    have hphys : ∀ j, (s₁.entry j).physAddr = (s.entry j).physAddr :=
      update_field physAddr (by rfl)
    refine ⟨?_, h.pages.congr (.refl _) hphys,
      h.untaken.congr rfl (.refl _) hphys⟩
    refine h.tables.enter hdistinct rfl rfl rfl hother (hphys i)
      (congrArg mappedVa hentry) (congrArg ownerTask hentry) hlive hzero
      (Vmm.userHalf_of_lt (not_le.mp hlimit)) hmap (not_attached hnone) fun j hj hslot => ?_
    have htrans := (h.tables.entered t j hj).2.1
    rw [AddressSpace.translate_congr _ hslot] at htrans
    unfold AddressSpace.virtToPhys at hvirt
    rw [htrans] at hvirt
    have hpage : (s.entry j).physAddr = 0 := (Nat.add_eq_zero_iff.mp (not_not.mp hvirt)).1
    exact live_iff.mp (live_of_owns hj.1) hpage

theorem alloc_fail (hdead : (s.entry i).physAddr = 0) (hsub : pool.Sublist s.pool) :
    ({ s.takeEntry i with pool := pool }.freeEntry i).Secure a := by
  set s₁ := freeEntry { s.takeEntry i with pool := pool } i
  have hother : ∀ j, j ≠ i → s₁.entry j = s.entry j := fun j hj => update_of_ne hj ..
  have hphys := alloc_fail_physAddr hdead pool
  refine ⟨h.tables.congr rfl rfl rfl hother (fun u hu => ?_) (fun u hu => ?_),
    h.pages.congr hsub hphys, h.untaken.congr rfl hsub.subset hphys⟩
  · exact live_iff.mp (live_of_owns hu.1) hdead
  · exact live_iff.mp (live_of_owns hu.1) ((hphys i).trans hdead)

theorem install (hdistinct : s.Distinct) (hdead : (s.entry i).physAddr = 0)
    (hsub : pool.Sublist s.pool) (hpage : (∀ j, (s.entry j).physAddr ≠ p) ∧ p ∉ pool) (hne : p ≠ 0)
    (htaken : s.taken p = false) (hlimit : va < userSpaceLimit) (hzero : va ≠ 0)
    (hmap : ((s.space t).mapPage va p tables).2)
    (hfree : ∀ q ∈ (s.space t).translate va, ∀ j, s.owns t j → (s.entry j).physAddr ≠ q) :
    ({ s.takeEntry i with pool := pool }.install t i p va tables).Secure a := by
  set s₁ := BufferPool.install { s.takeEntry i with pool := pool } t i p va tables
  have hentry : s₁.entry i = ⟨p, s.nextCookie, s.ownerId t, va⟩ := update_self ..
  have hphys : (s₁.entry i).physAddr = p := congrArg physAddr hentry
  have hother : ∀ j, j ≠ i → s₁.entry j = s.entry j := fun j hj => update_of_ne hj ..
  refine ⟨?_, h.pages.insert hother hphys hpage.1 hsub hpage.2, ?_⟩
  · refine h.tables.enter hdistinct rfl rfl rfl hother hphys (congrArg mappedVa hentry)
      (congrArg ownerTask hentry) hne hzero (Vmm.userHalf_of_lt hlimit) hmap
      (fun u hu => live_iff.mp (live_of_owns hu.1) hdead) fun j hj hslot => ?_
    have htrans := (h.tables.entered t j hj).2.1
    rw [AddressSpace.translate_congr _ hslot] at htrans
    exact hfree _ htrans j hj.1 rfl
  · rintro q (hq | ⟨j, hj, rfl⟩)
    · exact h.untaken q (.inl (hsub.subset hq))
    by_cases hji : j = i
    · rw [hji, hphys]
      exact htaken
    · rw [live_congr (congrArg physAddr (hother j hji))] at hj
      rw [hother j hji]
      exact h.untaken _ (held_of_live hj)

theorem alloc (hok : s.Tidy (.alloc t va env))
    (hfresh : ¬ (env.fresh ≠ 0 ∧ (s.Held env.fresh ∨ s.taken env.fresh = true))) {r : ℕ}
    (hs : s.alloc t va env = some (s', r)) : s'.Secure a := by
  obtain ⟨hdistinct, hok⟩ := hok
  unfold BufferPool.alloc at hs
  split_ifs at hs with hva
  · cases hs
    exact h
  split at hs
  · cases hs
    exact h
  rename_i i hfree
  dsimp only at hs
  obtain ⟨pool, hframe, hsub, hpage⟩ := (s.takeEntry i).allocPage_frame env
  rw [allocPage_takeEntry] at hs hpage
  split_ifs at hs with hdead hzero <;> cases hs
  all_goals rw [hframe]
  · exact h.alloc_fail (not_not.mp hdead) hsub
  obtain ⟨hne, hmap, hother⟩ := hok (not_le.mp hva) (by rw [hfree]; nofun) hzero
  have hsource := hpage h.pages.pool
  refine h.install hdistinct (not_not.mp hdead) hsub ?_ hzero ?_ (not_le.mp hva) hne hmap hother
  · exact h.pages.allocPage_page (fun hne hheld => hfresh ⟨hne, .inl hheld⟩) hsub hsource hzero
  · rcases hsource with ⟨hmem, -⟩ | hnew
    · exact h.untaken _ (.inl hmem)
    · rw [hnew] at hzero ⊢
      exact Bool.eq_false_iff.mpr fun htaken => hfresh ⟨hzero, .inr htaken⟩

end

/-! ## Runs -/

theorem step (h : s.Secure a) (hok : s.Tidy b) (hs : s.step b = some s') : s'.Secure a := by
  cases b with
  | alloc t va env =>
    obtain ⟨hfresh, hs⟩ := ite_none_left_eq_some.mp hs
    obtain ⟨⟨s₁, r⟩, halloc, rfl⟩ := map_eq_some_iff.mp hs
    exact h.alloc hok hfresh halloc
  | map t handle va tables =>
    cases hs
    exact h.map hok
  | unmapAll t => exact hok.2.elim
  | free t handle | unmap t handle | transfer handle src dst => exact h.step_revokes hok.1 rfl hs

end Secure

theorem CleanStart.secure (h : s.CleanStart) : s.Secure s.space where
  tables := by
    refine ⟨fun t i hi => ?_, fun t va p hp => .inr ⟨hp, fun huser => h.user t va p huser hp⟩⟩
    exact absurd (h.entry i) (live_iff.mp (live_of_owns hi.1))
  pages := h.pages
  untaken := by
    rintro p (hp | ⟨i, hi, -⟩)
    · exact h.fresh p hp
    · exact absurd (h.entry i) (live_iff.mp hi)

/-- In every history in which no mapping is lost, an entry has an address just if the page-table
entry is there, and after `free`, `unmap` or `transfer` no task has the page of the buffer in its
half of the address space; the other half is that of the start. -/
theorem buffer_revoked (h : s.CleanStart) (hr : Run step Tidy s as s') :
    s'.Recorded ∧ ∀ b t handle i s'', revokes b = some (t, handle) →
      s'.validateOwned t handle = some i → s'.Tidy b → s'.step b = some s'' →
      ∀ u va, (s''.space u).translate va = some (s'.entry i).physAddr →
        ¬ UserHalf va ∧ (s.space u).translate va = some (s'.entry i).physAddr := by
  have hsecure : s'.Secure s.space := by
    refine hr.invariant (I := fun s' => s'.Secure s.space) ?_ h.secure
    exact fun s₁ b s₂ hinv hok hs => hinv.step hok hs
  refine ⟨hsecure.recorded, fun b t handle i s'' hb hv hok hs u va hp => ?_⟩
  have hrevoked := hsecure.revoke hok.1 hb hv hs
  exact hrevoked.gone hsecure (live_of_owns (validateOwned_owns hv)) hp

theorem twoTasks_cleanStart : twoTasks.CleanStart := by
  obtain ⟨hspace, htaken⟩ := bootTasks.init_frame [4096, 8192, 12288]
  refine ⟨twoTasks_start, fun p _ => congrFun htaken p, fun t va p _ hp => ?_⟩
  have hempty : (bootTasks.space t).translate va = some p := congrFun hspace t ▸ hp
  cases hempty

/-- A buffer is unmapped and mapped at another address; then it is transferred. -/
theorem buffer_revoked_transfer : ∃ s' s'', Run step Tidy twoTasks
    [.alloc 0 4096 ⟨true, 0, 3⟩, .unmap 0 (nthHandle 1 1023),
      .map 0 (nthHandle 1 1023) 8192 3] s' ∧
    s'.Recorded ∧ (s'.space 0).translate 8192 = some 12288 ∧
    s'.step (.transfer (nthHandle 1 1023) 0 1) = some s'' ∧
    ∀ u va, (s''.space u).translate va = some (s'.entry 1023).physAddr →
      ¬ UserHalf va ∧ (twoTasks.space u).translate va = some (s'.entry 1023).physAddr := by
  simp only [exists_and_left]
  refine Run.exists_imp_of_exec (fun s' => (s'.space 0).translate 8192 = some 12288 ∧
    s'.validateOwned 0 (nthHandle 1 1023) = some 1023 ∧
    s'.Tidy (.transfer (nthHandle 1 1023) 0 1)) (by decide +kernel) ?_
  rintro s' hr ⟨hva, hv, hok⟩
  obtain ⟨hrecorded, hrevoked⟩ := buffer_revoked twoTasks_cleanStart hr
  exact ⟨hrecorded, hva, _, rfl, hrevoked _ 0 _ 1023 _ rfl hv hok rfl⟩

/-- The old owner has the page after a transfer if the buffer was mapped twice or at 0; two buffers
at one address have one page-table entry, and without a page for a table there is none. -/
theorem buffer_access_kept :
    (∃ s', Run step anyStep twoTasks
      [.alloc 0 4096 ⟨true, 0, 3⟩, .map 0 (nthHandle 1 1023) 8192 3,
        .transfer (nthHandle 1 1023) 0 1] s' ∧
      s'.owns 1 1023 = true ∧ (s'.space 0).translate 4096 = some (s'.entry 1023).physAddr) ∧
    (∃ s', Run step anyStep twoTasks
      [.alloc 0 0 ⟨true, 0, 3⟩, .transfer (nthHandle 1 1023) 0 1] s' ∧
      s'.owns 1 1023 = true ∧ (s'.space 0).translate 0 = some (s'.entry 1023).physAddr) ∧
    (∃ s', Run step anyStep twoTasks
      [.alloc 0 4096 ⟨true, 0, 3⟩, .alloc 0 4096 ⟨true, 0, 3⟩] s' ∧
      s'.Attached 0 1023 ∧ (s'.entry 1023).mappedVa = 4096 ∧
      (s'.space 0).translate 4096 ≠ some (s'.entry 1023).physAddr) ∧
    ∃ s', Run step anyStep twoTasks [.alloc 0 4096 ⟨true, 0, 0⟩] s' ∧
      s'.Attached 0 1023 ∧ (s'.entry 1023).mappedVa = 4096 ∧
      (s'.space 0).translate 4096 = none := by
  refine ⟨?_, ?_, ?_, ?_⟩
  all_goals exact Run.exists_of_exec (by decide +kernel)

end BufferPool

end Nexios.Ipc
