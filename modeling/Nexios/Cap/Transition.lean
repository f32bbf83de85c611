import Nexios.Cap.Machine

/-!
# What one step of the capability machine can do

`Transition s a t` lists the outcomes of a step, one constructor for each, with the facts that the
code checked on the way. Every invariant of the machine is proved by one case analysis over it.
-/

open Function Option List

namespace Nexios.Cap

variable {n : ℕ} {a : Action n} {handle : BitVec 64} {s u : State n} {f : Frame} {rest : List Frame}
  {t t' : Fin n} {c : ObjId} {P : Prop} {want : CapType} {need : CapRights} {g : Frame}

open State

/-- Thread, source, handle, destination and kind of a call of `copy`, `mint` or `grant`. -/
def Action.derives : Action n → Option (Fin n × ObjId × BitVec 64 × ObjId × Derive)
  | .copy t src handle dst => some (t, src, handle, dst, .copy
      (CapRights.read ||| CapRights.write ||| CapRights.copy ||| CapRights.grant)
      kCapBrokerAllowCopy)
  | .mint t src handle dst mask => some (t, src, handle, dst, .copy mask kCapBrokerAllowMint)
  | .grant t src handle dst => some (t, src, handle, dst, .grant)
  | _ => none

inductive Transition (s : State n) : Action n → State n → Prop
  | idle (a : Action n) : Transition s a s
  | create (a : Action n) (t : Fin n) (isNode : Bool) (id : BitVec 32) :
      s.stack t = [] → Transition s a (s.create t { isNode := isNode } { cspaceId := id })
  | callInstall (t : Fin n) (c o : ObjId) (type : CapType) (rights : CapRights) :
      s.stack t = [] → Transition s (.install t c o type rights)
        (s.setStack t [.acquire ⟨c, o, type, rights, .kernel⟩])
  | remove (t : Fin n) (c : ObjId) (i : ℕ) : s.stack t = [] → s.liveNode c → i < cslotCount →
      ((s.node c).slots i).occupied → Transition s (.remove t c i)
        (s.vacate t c i ((s.node c).setSlot i (CNode.freed ((s.node c).slots i)))
          (((s.node c).slots i).obj.toList.map .release))
  | revoke (t : Fin n) (c : ObjId) (handle : BitVec 64) (i : ℕ) : s.stack t = [] →
      s.liveNode c → i < cslotCount → ((s.node c).slots i).occupied →
      i = (handleSlot handle).toNat → Transition s (.revoke t c handle)
        (s.vacate t c i ((s.node c).setSlot i (CNode.freed ((s.node c).slots i)))
          (((s.node c).slots i).obj.toList.flatMap fun o => [.revokeMark o, .release o]))
  | lookup (t : Fin n) (c o : ObjId) (handle : BitVec 64) (want : CapType) (need : CapRights)
      (k : KernelObject) : s.stack t = [] → s.liveNode c →
      (s.node c).lookup handle want need = some o → s.live o → (s.obj o).acquire = some k →
      Transition s (.lookup t c handle want need) ((s.setObj o k).addPin t o)
  | derive (a : Action n) (t : Fin n) (src dst o : ObjId) (handle : BitVec 64) (kind : Derive)
      (k : KernelObject) : a.derives = some (t, src, handle, dst, kind) → s.stack t = [] →
      s.liveNode src → (s.node src).lookup handle .null kind.needRights = some o → s.live o →
      (s.obj o).acquire = some k →
      Transition s a ((s.setObj o k).setStack t [.reread
        ⟨src, handle, dst, o, kind, s.current src (handleSlot handle).toNat⟩, .release o])
  | releaseCreator (t : Fin n) (o : ObjId) : s.stack t = [] → 0 < s.creators t o →
      Transition s (.releaseCreator t o) { s.setStack t [.release o] with
        creators := update s.creators t
          (update (s.creators t) o (s.creators t o - 1)) }
  | releasePin (t : Fin n) (o : ObjId) : s.stack t = [] → 0 < s.pins t o →
      Transition s (.releasePin t o) { s.setStack t [.release o] with
        pins := update s.pins t (update (s.pins t) o (s.pins t o - 1)) }
  | clearGrant (t : Fin n) (c : ObjId) (i : ℕ) : s.liveNode c →
      Transition s (.clearGrant t c i) (s.setNode c ((s.node c).clearGrant i))
  | setPolicyWord (t : Fin n) (c : ObjId) (word : BitVec 32) : s.liveNode c →
      Transition s (.setPolicyWord t c word) (s.setNode c ((s.node c).setPolicyWord word))
  | markRevoked (o : ObjId) : s.live o →
      Transition s (.markRevoked o) (s.setObj o (s.obj o).revoke)
  | reread (t : Fin n) (q : Request) (rest : List Frame) (type : CapType) (rights : CapRights) :
      s.stack t = .reread q :: rest → s.liveNode q.src →
      (s.node q.src).reread q.handle q.kind.opMask = some (type, rights) →
      Transition s (.resume t) (s.setStack t
        (.acquire ⟨q.dst, q.target, type, q.kind.effective rights, .derived q⟩ :: rest))
  | acquire (t : Fin n) (r : Install) (rest : List Frame) (k : KernelObject) :
      s.stack t = .acquire r :: rest → s.live r.obj → (s.obj r.obj).acquire = some k →
      Transition s (.resume t) ((s.setObj r.obj k).setStack t (.fill r :: rest))
  | abandon (t : Fin n) (f : Frame) (rest : List Frame) : s.stack t = f :: rest →
      (∀ o, f ≠ .release o) → (∀ r, f ≠ .fill r) → (∀ o, f ≠ .clearGrant o) →
      Transition s (.resume t) (s.setStack t rest)
  | fill (t : Fin n) (r : Install) (rest : List Frame) (i : ℕ) :
      s.stack t = .fill r :: rest → s.liveNode r.dst → (s.node r.dst).freeSlot = some i →
      Transition s (.resume t) (((s.recordFill r i ((s.node r.dst).slots i).gen).setNode r.dst
        ((s.node r.dst).setSlot i { (s.node r.dst).slots i with
          obj := some r.obj, type := r.type, rights := r.rights, occupied := true })).setStack t
        (afterFill r ++ rest))
  | full (t : Fin n) (r : Install) (rest : List Frame) : s.stack t = .fill r :: rest →
      Transition s (.resume t) (s.setStack t (.release r.obj :: rest))
  | strip (t : Fin n) (o : Occupancy) (rest : List Frame) : s.stack t = .clearGrant o :: rest →
      s.liveNode o.node → Transition s (.resume t)
        { (s.setNode o.node ((s.node o.node).clearGrant o.idx)).setStack t rest with
          strips := ((s.stripped o.node o.idx).map fun p => (o, p)).toList ++ s.strips }
  | mark (t : Fin n) (o : ObjId) (rest : List Frame) : s.stack t = .revokeMark o :: rest →
      s.live o → Transition s (.resume t) ((s.setObj o (s.obj o).revoke).setStack t rest)
  | release (t : Fin n) (o : ObjId) (rest : List Frame) : s.stack t = .release o :: rest →
      s.live o → (s.obj o).refCount ≠ 1#32 →
      Transition s (.resume t) ((s.setObj o (s.obj o).release.1).setStack t rest)
  | lastRelease (t : Fin n) (o : ObjId) (rest : List Frame) : s.stack t = .release o :: rest →
      s.live o → (s.obj o).refCount = 1#32 → Transition s (.resume t)
        { (s.setObj o (s.obj o).release.1).setStack t
            (if (s.obj o).isNode then .dispose o 0 :: rest else rest) with
          disposed := update s.disposed o (s.disposed o + 1) }
  | disposeSlot (t : Fin n) (c : ObjId) (i : ℕ) (rest : List Frame) (o : ObjId) :
      s.stack t = .dispose c i :: rest → i < cslotCount →
      ((s.node c).slots i).target = some o → Transition s (.resume t)
        ((s.setNode c ((s.node c).setSlot i
          { (s.node c).slots i with obj := none, occupied := false })).setStack t
          (.release o :: .dispose c (i + 1) :: rest))
  | disposeSkip (t : Fin n) (c : ObjId) (i : ℕ) (rest : List Frame) :
      s.stack t = .dispose c i :: rest → ((s.node c).slots i).target = none →
      Transition s (.resume t) (s.setStack t (.dispose c (i + 1) :: rest))

theorem pinned_eq_some {o : ObjId} {k : KernelObject}
    (h : s.pinned c handle want need = some (o, k)) :
    (s.node c).lookup handle want need = some o ∧ (s.obj o).acquire = some k := by
  obtain ⟨o', ho, hk⟩ := bind_eq_some_iff.mp h
  obtain ⟨k', hk', he⟩ := map_eq_some_iff.mp hk
  obtain ⟨rfl, rfl⟩ := he
  exact ⟨ho, hk'⟩

theorem mayLookup_iff : s.mayLookup c handle want need = true ↔
      s.liveNode c = true ∧ ∀ o, (s.node c).lookup handle want need = some o → s.live o := by
  rw [mayLookup]
  cases (s.node c).lookup handle want need <;> simp

theorem derive_transition {src dst : ObjId} {kind : Derive}
    (ha : a.derives = some (t, src, handle, dst, kind))
    (h : s.derive t src handle dst kind = some u) : Transition s a u := by
  unfold derive at h
  split_ifs at h with hc
  obtain ⟨hlive, htarget⟩ := mayLookup_iff.mp hc.2
  split at h
  · cases h
    exact .idle a
  · next o k hp =>
    cases h
    obtain ⟨hl, hk⟩ := pinned_eq_some hp
    exact .derive a t src dst o handle kind k ha hc.1 hlive hl (htarget o hl) hk

theorem stepFrame_transition (hf : s.stack t = f :: rest) (h : s.stepFrame t rest f = some u) :
    Transition s (.resume t) u := by
  cases f with simp only [stepFrame] at h
  | reread q =>
    split_ifs at h with hl
    split at h <;> cases h
    · next type rights hr => exact .reread t q rest type rights hf hl hr
    · exact .abandon t _ rest hf (by simp) (by simp) (by simp)
  | acquire r =>
    split_ifs at h with hl hn
    · cases h
      exact .abandon t _ rest hf (by simp) (by simp) (by simp)
    · split at h <;> cases h
      · next k hk => exact .acquire t r rest k hf hl hk
      · exact .abandon t _ rest hf (by simp) (by simp) (by simp)
  | fill r =>
    split_ifs at h with hl
    split at h <;> cases h
    · next m i gen hi =>
      obtain ⟨j, hj, he⟩ := map_eq_some_iff.mp hi
      simp only [Prod.mk.injEq] at he
      obtain ⟨rfl, rfl, rfl⟩ := he
      exact .fill t r rest j hf hl hj
    · exact .full t r rest hf
  | clearGrant o =>
    split_ifs at h with hl
    cases h
    exact .strip t o rest hf hl
  | revokeMark o =>
    split_ifs at h with hl
    cases h
    exact .mark t o rest hf hl
  | release o =>
    split at h
    · next hl =>
      by_cases hlast : (s.obj o).refCount = 1#32
      · simp only [KernelObject.release, hlast] at h
        cases h
        have ht := Transition.lastRelease t o rest hf hl hlast
        simpa only [KernelObject.release, hlast] using ht
      · simp only [KernelObject.release, beq_eq_false_iff_ne.mpr hlast] at h
        cases h
        exact .release t o rest hf hl hlast
    · cases h
  | dispose c i =>
    split_ifs at h with hi
    · split at h <;> cases h
      · next o ho => exact .disposeSlot t c i rest o hf hi ho
      · next ho => exact .disposeSkip t c i rest hf ho
    · cases h
      exact .abandon t _ rest hf (by simp) (by simp) (by simp)

theorem step_transition (h : s.step a = some u) : Transition s a u := by
  cases a with try obtain ⟨hc, rfl⟩ := ite_some_none_eq_some.mp h
  | createObject t => exact .create _ t false 0#32 hc
  | createNode t id => exact .create _ t true id hc
  | install t c o type rights => exact .callInstall t c o type rights hc
  | remove t c idx =>
    simp only [step] at h
    split_ifs at h with hc
    split at h <;> cases h
    · next m o hm =>
      obtain ⟨hi, hocc, rfl, rfl⟩ := CNode.remove_eq_some hm
      exact .remove t c idx hc.1 hc.2 hi hocc
    · exact .idle _
  | lookup t c handle want need =>
    simp only [step] at h
    split_ifs at h with hc
    obtain ⟨hlive, htarget⟩ := mayLookup_iff.mp hc.2
    split at h <;> cases h
    · next o k hp =>
      obtain ⟨hl, hk⟩ := pinned_eq_some hp
      exact .lookup t c o handle want need k hc.1 hlive hl (htarget o hl) hk
    · exact .idle _
  | copy t src handle dst | mint t src handle dst mask =>
    simp only [step] at h
    split_ifs at h with hc
    · cases h
      exact .idle _
    · exact derive_transition rfl h
  | grant t src handle dst => exact derive_transition rfl h
  | revoke t c handle =>
    simp only [step] at h
    split_ifs at h with hc
    split at h <;> cases h
    · next m o hm =>
      obtain ⟨hi, hocc, -, rfl, rfl⟩ := CNode.revokeSlot_eq_some hm
      exact .revoke t c handle _ hc.1 hc.2 hi hocc rfl
    · exact .idle _
  | releaseCreator t o => exact .releaseCreator t o hc.1 hc.2
  | releasePin t o => exact .releasePin t o hc.1 hc.2
  | clearGrant t c idx => exact .clearGrant t c idx hc.2
  | setPolicyWord t c word => exact .setPolicyWord t c word hc.2
  | markRevoked o => exact .markRevoked o hc
  | resume t =>
    simp only [step] at h
    split at h
    · cases h
    · next f rest hf => exact stepFrame_transition hf h

inductive NewFrame (s : State n) (a : Action n) (u : State n) : Frame → Prop
  | install (r : Install) : r.origin = .kernel → NewFrame s a u (.acquire r)
  | lookup (src dst o : ObjId) (handle : BitVec 64) (kind : Derive) : s.liveNode src →
      (s.node src).lookup handle .null kind.needRights = some o → NewFrame s a u
        (.reread ⟨src, handle, dst, o, kind, s.current src (handleSlot handle).toNat⟩)
  | reread (t : Fin n) (q : Request) (rest : List Frame) (type : CapType) (rights : CapRights) :
      a = .resume t → s.stack t = .reread q :: rest → s.liveNode q.src →
      (s.node q.src).reread q.handle q.kind.opMask = some (type, rights) →
      NewFrame s a u (.acquire ⟨q.dst, q.target, type, q.kind.effective rights, .derived q⟩)
  | acquire (t : Fin n) (r : Install) : .acquire r ∈ s.stack t → NewFrame s a u (.fill r)
  | strip (o : Occupancy) : NewFrame s a u (.clearGrant o)
  | revokeMark (o : ObjId) : NewFrame s a u (.revokeMark o)
  | release (o : ObjId) : NewFrame s a u (.release o)
  | dispose (c : ObjId) (i : ℕ) : (∃ t j, .dispose c j ∈ s.stack t) ∨ u.disposed c ≠ 0 →
      NewFrame s a u (.dispose c i)

theorem mem_stack_of_update {fs : List Frame} (hf : f ∈ update s.stack t fs t')
    (hnew : f ∈ fs → f ∈ s.stack t ∨ P) : f ∈ s.stack t' ∨ P := by
  by_cases ht : t' = t
  · subst t'
    rw [update_self] at hf
    exact hnew hf
  · rw [update_of_ne ht] at hf
    exact .inl hf

theorem mem_stack_of_rest {f : Frame} (hst : s.stack t = g :: rest)
    (hf : f ∈ update s.stack t rest t') : f ∈ s.stack t' ∨ P := by
  refine mem_stack_of_update hf fun hm => .inl ?_
  rw [hst]
  exact mem_cons_of_mem g hm

theorem mem_stack_of_push {g' f : Frame} (hst : s.stack t = g :: rest)
    (hf : f ∈ update s.stack t (g' :: rest) t') (hnew : f = g' → P) : f ∈ s.stack t' ∨ P := by
  refine mem_stack_of_update hf fun hm => ?_
  rcases mem_cons.mp hm with he | hold
  · exact .inr (hnew he)
  · rw [hst]
    exact .inl (mem_cons_of_mem g hold)

theorem mem_afterFill {r : Install} (hf : f ∈ afterFill r) :
    ∃ q, r.origin = .derived q ∧ q.kind = .grant ∧ f = .clearGrant q.source := by
  unfold afterFill at hf
  split at hf
  · next q ho =>
    split_ifs at hf with hk
    · exact ⟨q, ho, hk, mem_singleton.mp hf⟩
    · cases hf
  · cases hf

theorem Transition.mem_stack (htr : Transition s a u) (hf : f ∈ u.stack t) :
    f ∈ s.stack t ∨ NewFrame s a u f := by
  cases htr with
  | callInstall t' c o type rights =>
    refine mem_stack_of_update hf fun hm => .inr ?_
    obtain rfl := mem_singleton.mp hm
    exact .install _ rfl
  | remove t' c i =>
    refine mem_stack_of_update hf fun hm => .inr ?_
    obtain ⟨o, -, rfl⟩ := mem_map.mp hm
    exact .release o
  | revoke t' c handle i =>
    refine mem_stack_of_update hf fun hm => .inr ?_
    obtain ⟨o, -, hm⟩ := mem_flatMap.mp hm
    rcases mem_pair.mp hm with rfl | rfl
    · exact .revokeMark o
    · exact .release o
  | derive _ t' src dst o handle kind k _ _ hlive hl =>
    refine mem_stack_of_update hf fun hm => .inr ?_
    rcases mem_pair.mp hm with rfl | rfl
    · exact .lookup src dst o handle kind hlive hl
    · exact .release o
  | releaseCreator t' o | releasePin t' o =>
    refine mem_stack_of_update hf fun hm => .inr ?_
    obtain rfl := mem_singleton.mp hm
    exact .release o
  | reread t' q rest type rights hst hlive hr =>
    refine mem_stack_of_push hst hf ?_
    rintro rfl
    exact .reread t' q rest type rights rfl hst hlive hr
  | acquire t' r rest k hst =>
    refine mem_stack_of_push hst hf ?_
    rintro rfl
    refine .acquire t' r ?_
    rw [hst]
    exact mem_cons_self
  | abandon t' g rest hst | strip t' o rest hst | mark t' o rest hst | release t' o rest hst =>
    exact mem_stack_of_rest hst hf
  | fill t' r rest i hst =>
    refine mem_stack_of_update hf fun hm => ?_
    rcases mem_append.mp hm with hnew | hold
    · obtain ⟨q, -, -, rfl⟩ := mem_afterFill hnew
      exact .inr (.strip q.source)
    · rw [hst]
      exact .inl (mem_cons_of_mem _ hold)
  | full t' r rest hst =>
    refine mem_stack_of_push hst hf ?_
    rintro rfl
    exact .release r.obj
  | lastRelease t' o rest hst =>
    split_ifs at hf
    · refine mem_stack_of_push hst hf ?_
      rintro rfl
      exact .dispose o 0 (.inr (by simp))
    · exact mem_stack_of_rest hst hf
  | disposeSlot t' c i rest o hst =>
    refine mem_stack_of_update hf fun hm => ?_
    rcases mem_cons.mp hm with rfl | hm
    · exact .inr (.release o)
    · rcases mem_cons.mp hm with rfl | hold
      · exact .inr (.dispose c (i + 1) (.inl ⟨t', i, hst ▸ mem_cons_self⟩))
      · rw [hst]
        exact .inl (mem_cons_of_mem _ hold)
  | disposeSkip t' c i rest hst =>
    refine mem_stack_of_push hst hf ?_
    rintro rfl
    exact .dispose c (i + 1) (.inl ⟨t', i, hst ▸ mem_cons_self⟩)
  | _ => exact .inl hf

theorem Transition.disposed_ne_zero (htr : Transition s a u) (hc : s.disposed c ≠ 0) :
    u.disposed c ≠ 0 := by
  cases htr with
  | lastRelease t o =>
    refine (forall_update_iff s.disposed fun c k => s.disposed c ≠ 0 → k ≠ 0).mpr ?_ c hc
    exact ⟨fun _ => Nat.succ_ne_zero _, fun _ _ => id⟩
  | _ => exact hc

theorem Transition.disposing (htr : Transition s a u)
    (h : ∀ t c i, .dispose c i ∈ s.stack t → s.disposed c ≠ 0) (t : Fin n) (c : ObjId) (i : ℕ)
    (hm : .dispose c i ∈ u.stack t) : u.disposed c ≠ 0 := by
  rcases htr.mem_stack hm with hold | hnew
  · exact htr.disposed_ne_zero (h t c i hold)
  · cases hnew with
    | dispose _ _ hc =>
      obtain ⟨t', j, hold⟩ | hd := hc
      · exact htr.disposed_ne_zero (h t' c j hold)
      · exact hd

end Nexios.Cap
