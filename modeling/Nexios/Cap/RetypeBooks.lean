import Nexios.Cap.PageBooks
import Nexios.Cap.Retype

/-!
# The calls keep the books balanced

Each call of the memory model is followed from primitive to primitive: which reference it has in
hand, which pages it is moving. On every path, the failing ones included, both lists are empty again
at the end.
-/

open Function Option List Nat

namespace Nexios.Cap

open MemState CNode CSlot

variable {m : ℕ}

namespace Books

variable {s u : MemState m} {hand hand' : List ObjId} {limbo : List (ℕ × ℕ)}
  {c : Fin m} {o : ObjId} {rights : CapRights} {isUser noBlock : Bool} {ut : UntypedMem}
  {phys size : ℕ} {fc : ObjId} {target : CapType} {child : Option ObjId} {x : Exhaustion}

theorem setSlot (h : Books s hand limbo) {i : ℕ} {x : CSlot} (hi : i < cslotCount)
    (hmove : ∀ o, refTo x.target o + hand'.count o =
      refTo ((s.node c).slots i).target o + hand.count o)
    (htyped : ∀ o, x.target = some o → x.type = .untyped → (s.payload o).isUntyped) :
    Books (s.setNode c ((s.node c).setSlot i x)) hand' limbo := by
  have hslot : ∀ c' j, (((s.setNode c ((s.node c).setSlot i x)).node c').slots j) =
      if c' = c ∧ j = i then x else (s.node c').slots j := by
    intro c' j
    by_cases hc : c' = c
    · by_cases hj : j = i
      · simp [hc, hj]
      · simp [hc, hj, setSlot_ne]
    · simp [hc]
  refine h.rehold (fun o => ?_) ?_
  · have hmem : (c, i) ∈ Finset.univ ×ˢ Finset.range cslotCount :=
      Finset.mem_product.mpr ⟨Finset.mem_univ c, Finset.mem_range.mpr hi⟩
    have ht := total_of_eq_off (f := fun q : Fin m × ℕ => refTo ((s.node q.1).slots q.2).target o)
      (g := fun q : Fin m × ℕ =>
        refTo (((s.setNode c ((s.node c).setSlot i x)).node q.1).slots q.2).target o) hmem ?_
    · have hx : (((s.setNode c ((s.node c).setSlot i x)).node c).slots i) = x := by
        rw [hslot, if_pos ⟨rfl, rfl⟩]
      rw [hx] at ht
      change (s.setNode c ((s.node c).setSlot i x)).slotRefs o +
        refTo ((s.node c).slots i).target o = s.slotRefs o + refTo x.target o at ht
      have hm := hmove o
      change (if s.creator o then 1 else 0) + (s.setNode c ((s.node c).setSlot i x)).slotRefs o + _ =
        (if s.creator o then 1 else 0) + s.slotRefs o + _
      omega
    · rintro ⟨c', j⟩ _ hne
      rw [hslot, if_neg]
      rintro ⟨rfl, rfl⟩
      exact hne rfl
  · intro c' j o hj ht hty
    erw [hslot] at ht hty
    split_ifs at ht hty with hat
    · exact htyped o ht hty
    · exact h.typed c' j o hj ht hty

theorem count_pair {o o' : ObjId} (hand : List ObjId) :
    (o :: hand).count o' = refTo (some o) o' + hand.count o' := by
  by_cases h : o' = o
  · rw [h, count_cons_self, refTo_self, add_comm]
  · rw [count_cons_of_ne (.symm h), refTo_ne h, zero_add]

theorem acquire_frame (hu : s.acquire o = some u) :
    u.payload = s.payload ∧ u.node = s.node ∧ u.alive = s.alive := by
  obtain ⟨k, -, rfl⟩ := map_eq_some_iff.mp hu
  exact ⟨rfl, rfl, rfl⟩

section

variable (h : Books s hand limbo)
include h

theorem install (hm : m ≤ 2 ^ 25) {type : CapType} {full : Bool} {r : Option ℕ}
    (halive : s.alive o)
    (hhand : hand.length ≤ 3) (htype : type = .untyped → (s.payload o).isUntyped)
    (hu : s.install c o type rights full = (u, r)) :
    Books u hand limbo ∧ u.carved = s.carved ∧ (r ≠ none → u.payload = s.payload) := by
  unfold MemState.install at hu
  by_cases ht : type = .null
  · rw [if_pos ht] at hu
    cases hu
    exact ⟨h, rfl, fun _ => rfl⟩
  rw [if_neg ht] at hu
  cases hacq : s.acquire o with
  | none =>
    rw [hacq] at hu
    cases hu
    exact ⟨h, rfl, fun _ => rfl⟩
  | some s₁ =>
    have h₁ := h.acquire hm halive hhand hacq
    obtain ⟨hpay, -, -⟩ := acquire_frame hacq
    obtain ⟨-, hcar⟩ := acquire_same hacq
    simp only [hacq] at hu
    split at hu
    · next n i gen hn =>
      cases hu
      split_ifs at hn
      obtain ⟨hi, hfree, -, rfl⟩ := install_eq_some hn
      refine ⟨h₁.setSlot hi ?_ ?_, hcar, fun _ => hpay⟩
      · intro o'
        rw [target_of_free hfree, target_of_occupied rfl, refTo_none, zero_add,
          count_pair]
      · intro o' ho' hty
        cases ho'
        rw [hpay]
        exact htype hty
    · cases hu
      exact ⟨h₁.release, by simpa using hcar, absurd rfl⟩

theorem vacate {i : ℕ} (hi : i < cslotCount) (hocc : ((s.node c).slots i).occupied) :
    Books (s.setNode c ((s.node c).setSlot i (freed ((s.node c).slots i))))
      (((s.node c).slots i).obj.toList ++ hand) limbo := by
  refine h.setSlot hi ?_ ?_
  · intro o
    rw [target_of_free rfl, target_of_occupied hocc, refTo_none, zero_add]
    cases ((s.node c).slots i).obj with
    | none => rw [refTo_none, zero_add, toList_none, nil_append]
    | some o' => exact count_pair hand
  · intro o ho
    cases ho

theorem remove (c : Fin m) (idx : ℕ) :
    Books (s.remove c idx) hand limbo ∧ (s.remove c idx).carved = s.carved := by
  unfold MemState.remove
  split
  · exact ⟨h, rfl⟩
  rename_i n target hr
  obtain ⟨hi, hocc, rfl, rfl⟩ := remove_eq_some hr
  have hv := h.vacate hi hocc
  split
  · next o ho =>
    rw [ho] at hv
    exact ⟨hv.release, release_carved ..⟩
  · next ho =>
    rw [ho] at hv
    exact ⟨hv, rfl⟩

theorem revoke (c : Fin m) (handle : BitVec 64) :
    Books (s.revoke c handle) hand limbo ∧ (s.revoke c handle).carved = s.carved := by
  unfold MemState.revoke
  split
  · exact ⟨h, rfl⟩
  rename_i n target hr
  obtain ⟨hi, hocc, -, rfl, rfl⟩ := revokeSlot_eq_some hr
  have hv := h.vacate hi hocc
  split
  · next o ho =>
    rw [ho] at hv
    have halive := hv.alive_of_hand (o := o) (by simp)
    refine ⟨.release (hv.recount halive ?_ ?_ fun _ _ => rfl), release_carved ..⟩
    · exact hv.count o halive
    · exact hv.pos o halive
  · next ho =>
    rw [ho] at hv
    exact ⟨hv, rfl⟩

theorem lookup_untyped {handle : BitVec 64} {need : CapRights}
    (hl : (s.node c).lookup handle .untyped need = some o) :
    s.alive o = true ∧ s.payload o = .untyped (s.untyped o) := by
  obtain ⟨hi, hocc, -, -, hobj⟩ := lookup_eq_some hl
  have ht : ((s.node c).slots (handleSlot handle).toNat).target = some o := by
    rw [target_of_occupied hocc, hobj]
  have hun := h.typed c _ o hi ht (type_of_lookup hl (by decide))
  refine ⟨h.alive_of_slot hi ht, ?_⟩
  unfold untyped
  cases hp : s.payload o with
  | untyped ut => rfl
  | frame f =>
    rw [hp] at hun
    cases hun

theorem setCreator {b : Bool}
    (hmove : ∀ o', (if o' = o then (if b then 1 else 0) else 0) + hand'.count o' =
      (if o' = o then (if s.creator o then 1 else 0) else 0) + hand.count o') :
    Books { s with creator := update s.creator o b } hand' limbo := by
  refine h.rehold (fun o' => ?_) h.typed
  have hm := hmove o'
  change (if update s.creator o b o' then 1 else 0) + s.slotRefs o' + _ =
    (if s.creator o' then 1 else 0) + s.slotRefs o' + _
  split_ifs at hm ⊢ <;> simp_all <;> omega

end

theorem allocObject (h : Books s hand ((phys, size / pageSize) :: limbo))
    (hsize : size % pageSize = 0) (hphys : phys ≠ 0)
    (hu : s.allocObject phys size isUser target noBlock = some (u, o)) :
    Books u (o :: hand) limbo ∧ u.creator o = false ∧ o = s.next ∧
      u.payload = update s.payload o (.untyped ⟨phys, size, isUser, target, false⟩) := by
  unfold MemState.allocObject at hu
  split_ifs at hu
  cases hu
  have hnew := h.dead s.next (h.fresh s.next (le_refl _))
  have hb := h.newObject (x := .untyped ⟨phys, size, isUser, target, false⟩) ⟨hsize, hphys⟩
    fun _ => rfl
  refine ⟨{ hb with }, ?_, rfl, rfl⟩
  rw [held] at hnew
  by_contra hc
  rw [if_pos (by simpa using hc)] at hnew
  omega

theorem createUntyped (h : Books s [] [])
    (hfree : phys = 0 ∨ ∀ i < size / pageSize, s.free (phys + i * pageSize) = true) :
    Books (s.createUntyped size isUser target phys noBlock).1 [] [] ∧ ∀ p, s.free p = false →
      (s.createUntyped size isUser target phys noBlock).1.carved p = s.carved p := by
  unfold MemState.createUntyped
  split_ifs with hsize htarget hlive hphys
  · exact ⟨h, fun _ _ => rfl⟩
  · exact ⟨h, fun _ _ => rfl⟩
  · exact ⟨h, fun _ _ => rfl⟩
  · exact ⟨h, fun _ _ => rfl⟩
  have hpages := hfree.resolve_left hphys
  have ha := h.allocPages hpages
  have hmod : size % pageSize = 0 := by
    by_contra hne
    exact hsize (.inr hne)
  have hcar : ∀ p, s.free p = false →
      (s.allocPages phys (size / pageSize)).carved p = s.carved p := by
    intro p hp
    have hout : pageIn phys p (size / pageSize) = 0 := by
      by_contra hin
      obtain ⟨i, hi, rfl⟩ := exists_of_pageIn (pos_of_ne_zero hin)
      rw [hpages i hi] at hp
      cases hp
    obtain ⟨free, carved, heq, hcar, -⟩ := s.allocPages_spec phys (size / pageSize)
    rw [heq]
    exact (hcar p).trans (by rw [hout, add_zero])
  simp only
  split
  · exact ⟨ha.freePages, (freePages_same _ _ _).2.symm ▸ hcar⟩
  rename_i s₁ o hs₁
  obtain ⟨hb, hcr, -, -⟩ := ha.allocObject hmod hphys hs₁
  refine ⟨hb.setCreator fun o' => ?_, (allocObject_same hs₁).2.symm ▸ hcar⟩
  simp only [count_nil, count_cons]
  split_ifs <;> simp_all

theorem claim (h : Books s hand limbo) (halive : s.alive o)
    (hp : s.payload o = .untyped ut) (hfresh : ut.retyped = false) :
    Books (s.setPayload o (.untyped { ut with retyped := true })) hand
      ((ut.phys, ut.size / pageSize) :: limbo) := by
  have hsane := h.sane o halive
  rw [hp] at hsane
  refine h.setPayload halive hsane (fun _ => rfl) ?_
  intro p
  rw [hp]
  simp [Payload.owns, hfresh]

theorem unclaim
    (h : Books s hand ((ut.phys, ut.size / pageSize) :: limbo)) (halive : s.alive o)
    (hp : s.payload o = .untyped ut) (hspent : ut.retyped) :
    Books (s.setPayload o (.untyped { ut with retyped := false })) hand limbo := by
  have hsane := h.sane o halive
  rw [hp] at hsane
  refine h.setPayload halive hsane (fun _ => rfl) ?_
  rw [hp]
  simp [Payload.owns, hspent]

theorem createFrame {k : ℕ} (h : Books s hand ((phys, k) :: limbo))
    (hu : s.createFrame phys k isUser noBlock = some (u, fc)) :
    Books u (fc :: hand) limbo ∧ fc = s.next ∧
      u.payload = update s.payload fc (.frame ⟨phys, k, isUser⟩) := by
  unfold MemState.createFrame at hu
  split_ifs at hu
  cases hu
  exact ⟨h.newObject (x := .frame ⟨phys, k, isUser⟩) trivial fun _ => rfl, rfl, rfl⟩

theorem stretch {k j : ℕ} (h : Books s hand ((phys + k * pageSize, j) :: limbo)) {isUser : Bool}
    (halive : s.alive fc) (hp : s.payload fc = .frame ⟨phys, k, isUser⟩) :
    Books (s.stretch fc (k + j)) hand limbo := by
  simp only [MemState.stretch, hp]
  refine h.setPayload halive trivial (fun hk => ?_) ?_
  · rw [hp] at hk
    cases hk
  · intro p
    rw [hp, limboPages_cons]
    simp only [Payload.owns, pageIn_add]
    omega

theorem carveChild {noBlock : Bool}
    (h : Books s hand ((ut.phys + size, (ut.size - size) / pageSize) :: limbo))
    (hphys : ut.phys ≠ 0) (hut : ut.size % pageSize = 0) (hsize : size % pageSize = 0)
    (hu : s.carveChild ut size noBlock = some (u, child)) :
    Books u (child.toList ++ hand) limbo ∧ ∀ ch ∈ child, (u.payload ch).isUntyped = true := by
  unfold MemState.carveChild at hu
  split_ifs at hu with hexact
  · cases hu
    refine ⟨h.relist (fun _ => rfl) ?_, fun ch hch => by cases hch⟩
    intro p
    rw [limboPages_cons, hexact, Nat.sub_self, Nat.zero_div, pageIn, Nat.zero_add]
  · obtain ⟨⟨s₁, ch⟩, hc, he⟩ := map_eq_some_iff.mp hu
    cases he
    unfold createSubrange at hc
    split_ifs at hc
    have hmod : (ut.size - size) % pageSize = 0 :=
      sub_mod_eq_zero_of_mod_eq (hut.trans hsize.symm)
    have hpos : 0 < ut.phys + size := Nat.add_pos_left (Nat.pos_of_ne_zero hphys) size
    obtain ⟨hb, -, -, hpay⟩ := h.allocObject hmod hpos.ne' hc
    refine ⟨hb, ?_⟩
    rintro ch' hch'
    cases hch'
    rw [hpay, update_self]
    rfl

theorem installCarved (hm : m ≤ 2 ^ 25) {o : ObjId} (h : Books s (child.toList ++ [fc, o]) [])
    (hchild : ∀ ch ∈ child, (s.payload ch).isUntyped = true) :
    Books (s.installCarved c o fc child rights x).1 [] [] ∧
      (s.installCarved c o fc child rights x).1.carved = s.carved := by
  have hlen : (child.toList ++ [fc, o]).length ≤ 3 := by
    cases child <;> simp
  have hfc : s.alive fc = true := h.alive_of_hand (by simp)
  unfold MemState.installCarved
  split
  · next s₁ hinst =>
    obtain ⟨h₁, hcar, -⟩ := h.install hm hfc hlen (fun ht => by cases ht) hinst
    exact ⟨h₁.release.release, by simpa using hcar⟩
  · next s₁ ch hinst =>
    obtain ⟨h₁, hcar, -⟩ := h.install hm hfc hlen (fun ht => by cases ht) hinst
    exact ⟨h₁.release.release.release, by simpa using hcar⟩
  · next s₁ idx hinst =>
    obtain ⟨h₁, hcar, -⟩ := h.install hm hfc hlen (fun ht => by cases ht) hinst
    exact ⟨h₁.release.release, by simpa using hcar⟩
  rename_i s₁ idx ch hinst
  obtain ⟨h₁, hcar, hpay⟩ := h.install hm hfc hlen (fun ht => by cases ht) hinst
  have hch : s₁.alive ch = true := h₁.alive_of_hand (by simp)
  have hun : (s₁.payload ch).isUntyped = true := by
    rw [hpay (by simp)]
    exact hchild ch rfl
  split
  · next s₂ hinst₂ =>
    obtain ⟨h₂, hcar₂, -⟩ := h₁.install hm hch hlen (fun _ => hun) hinst₂
    obtain ⟨h₃, hcar₃⟩ := h₂.remove c idx
    have hswap : Books _ [fc, ch, o] _ := h₃.relist
      ((List.Perm.swap ch fc [o]).count_eq) (fun _ => rfl)
    exact ⟨hswap.release.release.release, by simp [hcar₃, hcar₂, hcar]⟩
  · next s₂ j hinst₂ =>
    obtain ⟨h₂, hcar₂, -⟩ := h₁.install hm hch hlen (fun _ => hun) hinst₂
    have hswap : Books _ [fc, ch, o] _ := h₂.relist
      ((List.Perm.swap ch fc [o]).count_eq) (fun _ => rfl)
    exact ⟨hswap.release.release.release, by simp [hcar₂, hcar]⟩

theorem carve (hm : m ≤ 2 ^ 25) (ut : UntypedMem) (h : Books s [o] [(ut.phys, ut.size / pageSize)])
    (hp : s.payload o = .untyped ut) (hspent : ut.retyped) (hsize : size % pageSize = 0)
    (hle : size ≤ ut.size) : Books (s.carve c o size rights x).1 [] [] ∧
      (s.carve c o size rights x).1.carved = s.carved := by
  have halive := h.alive_of_hand mem_cons_self
  have hsane : ut.size % pageSize = 0 ∧ ut.phys ≠ 0 := by
    have hs := h.sane o halive
    rwa [hp] at hs
  have hut : s.untyped o = ut := by rw [untyped, hp]
  have hk : ut.size / pageSize = size / pageSize + (ut.size - size) / pageSize := by
    rw [pageSize] at *
    omega
  have haddr : ut.phys + size / pageSize * pageSize = ut.phys + size := by
    rw [Nat.div_mul_cancel (Nat.dvd_of_mod_eq_zero hsize)]
  unfold MemState.carve
  simp only [hut]
  split
  · have hr := h.unclaim halive hp hspent
    rw [← hut] at hr
    exact ⟨hr.release, release_carved ..⟩
  rename_i s₁ fc hfc
  have hsplit : Books s [o] [(ut.phys, size / pageSize),
      (ut.phys + size, (ut.size - size) / pageSize)] := by
    refine h.relist (fun _ => rfl) ?_
    simp only [limboPages_cons, hk, pageIn_add, haddr]
    omega
  obtain ⟨h₁, -, hpay⟩ := hsplit.createFrame hfc
  obtain ⟨-, hcar⟩ := createFrame_same hfc
  split
  · have hstretch := Books.stretch (k := size / pageSize) (haddr ▸ h₁)
      (h₁.alive_of_hand mem_cons_self) (by rw [hpay, update_self])
    rw [← hk] at hstretch
    refine ⟨hstretch.release.release, ?_⟩
    rw [MemState.release_carved, MemState.release_carved, ← hcar, MemState.stretch]
    split <;> rfl
  · next s₂ child hchild =>
    obtain ⟨h₂, hch⟩ := h₁.carveChild hsane.2 hsane.1 hsize hchild
    obtain ⟨-, hcar₂⟩ := carveChild_same hchild
    exact (installCarved hm h₂ hch).imp_right (·.trans (hcar₂.trans hcar))

theorem retype (h : Books s [] []) (hm : m ≤ 2 ^ 25) (c : Fin m) (handle : BitVec 64)
    (target : CapType) (size : ℕ) (rights : CapRights) (x : Exhaustion) :
    Books (s.retype c handle target size rights x).1 [] [] ∧
      (s.retype c handle target size rights x).1.carved = s.carved := by
  unfold MemState.retype
  split_ifs with hpol
  · exact ⟨h, rfl⟩
  split
  · exact ⟨h, rfl⟩
  rename_i s₁ o hlook
  obtain ⟨hl, hacq⟩ := lookup_eq_some hlook
  obtain ⟨halive, hp⟩ := h.lookup_untyped hl
  obtain ⟨hpay, -, halv⟩ := acquire_frame hacq
  have h₁ := h.acquire hm halive (by simp) hacq
  obtain ⟨-, hcar⟩ := acquire_same hacq
  split_ifs with hok
  · obtain ⟨-, -, hsize, hle, -⟩ := hok
    split
    · exact ⟨h₁.release, by simpa using hcar⟩
    rename_i s₂ hclaim
    unfold claimOnce at hclaim
    split_ifs at hclaim with hfresh
    cases hclaim
    have hp₁ : s₁.payload o = .untyped (s₁.untyped o) := by
      unfold untyped at hp ⊢
      rw [hpay]
      exact hp
    have h₂ := h₁.claim (h₁.alive_of_hand mem_cons_self) hp₁ (by simpa using hfresh)
    exact (carve hm { s₁.untyped o with retyped := true } h₂ (by simp) rfl hsize hle).imp_right
      (·.trans hcar)
  · exact ⟨h₁.release, by simpa using hcar⟩

theorem step (h : Books s [] []) (hm : m ≤ 2 ^ 25) {a : MemAction m} (hs : s.step a = some u) :
    Books u [] [] ∧ ∀ p, s.free p = false → u.carved p = s.carved p := by
  have hsame : ∀ {v : MemState m}, Books v [] [] ∧ v.carved = s.carved →
      Books v [] [] ∧ ∀ p, s.free p = false → v.carved p = s.carved p :=
    fun hv => hv.imp_right fun hcar p _ => congrFun hcar p
  cases a with try obtain ⟨hguard, rfl⟩ := ite_some_none_eq_some.mp hs
  | createUntyped size isUser target phys noBlock => exact h.createUntyped hguard
  | install c o rights full =>
    have halive : s.alive o = true := by
      by_contra hno
      have hd := h.dead o (by simpa using hno)
      rw [held, if_pos hguard] at hd
      omega
    refine hsame ((h.install hm halive (by simp) ?_ rfl).imp_right And.left)
    intro ht
    cases hp : s.payload o with
    | untyped ut => rfl
    | frame f =>
      rw [hp] at ht
      cases ht
  | retype c handle target size rights x =>
    cases hs
    exact hsame (h.retype hm c handle target size rights x)
  | remove c idx =>
    cases hs
    exact hsame (h.remove c idx)
  | revoke c handle =>
    cases hs
    exact hsame (h.revoke c handle)
  | releaseCreator o =>
    refine hsame ⟨.release (h.setCreator ?_), release_carved ..⟩
    intro o'
    simp only [count_cons]
    split_ifs <;> simp_all

end Books

end Nexios.Cap
