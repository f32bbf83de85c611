import Nexios.Cap.SlotHistory

/-!
# Mint-once

A successful `grant` is meant to consume the GRANT right of its source slot. The call takes four
critical sections: the lookup that demands GRANT, the second look that does not, the install, and a
`clear_grant` that names its slot by index only. Two grants of one occupancy can therefore both pass
the lookup, and the clear can hit a capability that was installed in the slot meanwhile.

Mint-once holds in the runs that keep the calls apart: while a grant is under way on a slot, no
other grant starts on the slot and no install fills it.
-/

open Function Option List

namespace Nexios.Cap

open State CNode

variable {n i : ℕ} {o : Occupancy} {c : ObjId}

open State

/-- At most one grant succeeds for each occupancy, and what a grant strips is what it granted. -/
def MintOnce (s : State n) : Prop := s.grants.Nodup ∧ ∀ p ∈ s.strips, p.1 = p.2

def Install.grantSource (r : Install) : Option Occupancy :=
  match r.origin with
  | .derived q => if q.kind = .grant then some q.source else none
  | .kernel => none

/-- Source of a grant that has made its lookup and has not filled a slot yet. -/
def Frame.granting : Frame → Option Occupancy
  | .reread q => if q.kind = .grant then some q.source else none
  | .acquire r => r.grantSource
  | .fill r => r.grantSource
  | _ => none

def Frame.clearing : Frame → Option Occupancy
  | .clearGrant o => some o
  | _ => none

namespace State

def granting (s : State n) (t : Fin n) : Option Occupancy := (s.stack t).head?.bind Frame.granting

def clearing (s : State n) (t : Fin n) : Option Occupancy := (s.stack t).head?.bind Frame.clearing

/-- Task `t` is granting from `o`, or has still to strip it. -/
abbrev OnWay (s : State n) (t : Fin n) (o : Occupancy) : Prop :=
  s.granting t = some o ∨ s.clearing t = some o

/-- A grant is under way on the slot `i` of `c`. -/
def busy (s : State n) (c : ObjId) (i : ℕ) : Prop :=
  ∃ t, ∃ o ∈ (s.granting t).toList ++ (s.clearing t).toList, o.node = c ∧ o.idx = i
  deriving Decidable

theorem busy_of_way {s : State n} {t : Fin n}
    (ho : s.OnWay t o) (hnode : o.node = c) (hidx : o.idx = i) : s.busy c i := by
  refine ⟨t, o, ?_, hnode, hidx⟩
  rw [mem_append, mem_toList, mem_toList]
  exact ho

end State

def State.takes (s : State n) : Action n → Option (ObjId × ℕ)
  | .grant _ src handle _ => some (src, (handleSlot handle).toNat)
  | .resume t => match (s.stack t).head? with
    | some (.fill r) => (s.node r.dst).freeSlot.map fun i => (r.dst, i)
    | _ => none
  | _ => none

/-- No grant starts on a slot, and no install fills it, while a grant is under way there. -/
def GrantsApart (s : State n) (a : Action n) : Prop := ∀ p ∈ s.takes a, ¬ s.busy p.1 p.2
  deriving Decidable

def Grantable (x : CSlot) : Prop :=
  x.occupied = true ∧ CapRights.Within CapRights.grant x.rights

theorem Grantable.of_narrows {x y : CSlot} (hn : x.Narrows y) (h : Grantable x) : Grantable y :=
  ⟨hn.occupied ▸ h.1, h.2.trans hn.rights⟩

theorem not_grantable_clearGrant (s : State n) (hi : i < cslotCount) :
    ¬ Grantable ((s.setNode c ((s.node c).clearGrant i)).slot c i) := by
  rintro ⟨hocc, hg⟩
  simp only [slot, setNode_node, update_self, clearGrant] at hocc hg
  split_ifs at hocc hg with hc
  · rw [setSlot_same] at hg
    have hno := hg.trans (CapRights.and_within_right _ (~~~CapRights.grant))
    revert hno
    decide
  · exact hc ⟨hi, hocc⟩

structure GrantLedger (s : State n) : Prop where
  tail : ∀ t, ∀ f ∈ (s.stack t).tail, f.granting = none ∧ f.clearing = none
  apart : ∀ t t' o o', (s.granting t = some o ∨ s.clearing t = some o) →
    (s.granting t' = some o' ∨ s.clearing t' = some o') → o.node = o'.node → o.idx = o'.idx → t = t'
  current : ∀ t o, s.granting t = some o ∨ s.clearing t = some o →
    s.current o.node o.idx = o ∧ 0 < s.fills o.node o.idx ∧ o.idx < cslotCount
  ungranted : ∀ t o, s.granting t = some o → o ∉ s.grants
  consumed : ∀ o ∈ s.grants, o.fill < s.fills o.node o.idx ∧ ((∃ t, s.clearing t = some o) ∨
    (s.current o.node o.idx = o → ¬ Grantable (s.slot o.node o.idx)))
  once : MintOnce s

theorem grantLedger_init (n : ℕ) : GrantLedger (init n) where
  tail _ _ h := by cases h
  apart _ _ _ _ h := by rcases h with h | h <;> cases h
  current _ _ h := by rcases h with h | h <;> cases h
  ungranted _ _ h := by cases h
  consumed _ h := by cases h
  once := ⟨nodup_nil, by simp [init]⟩

namespace GrantLedger

variable {s u : State n} {t : Fin n} {fs : List Frame} {f : Frame} {rest : List Frame} {x : CSlot}
  {r : Install}

section

variable (hstack : u.stack = update s.stack t fs)
include hstack

theorem granting_update (t' : Fin n) :
    u.granting t' = if t' = t then fs.head?.bind Frame.granting else s.granting t' := by
  rw [granting, hstack, update_apply]
  split_ifs <;> rfl

theorem clearing_update (t' : Fin n) :
    u.clearing t' = if t' = t then fs.head?.bind Frame.clearing else s.clearing t' := by
  rw [clearing, hstack, update_apply]
  split_ifs <;> rfl

theorem onWay_update {t' : Fin n}
    (ho : u.OnWay t' o) : t' = t ∧ (fs.head?.bind Frame.granting = some o ∨
      fs.head?.bind Frame.clearing = some o) ∨ t' ≠ t ∧ s.OnWay t' o := by
  rw [OnWay, granting_update hstack, clearing_update hstack] at ho
  split_ifs at ho with ht
  · exact .inl ⟨ht, ho⟩
  · exact .inr ⟨ht, ho⟩

theorem clearing_elsewhere (hnone : s.clearing t = none) :
    (∃ t', s.clearing t' = some o) → ∃ t', u.clearing t' = some o := by
  rintro ⟨t', ht'⟩
  refine ⟨t', ?_⟩
  rw [clearing_update hstack, if_neg]
  · exact ht'
  · rintro rfl
    rw [hnone] at ht'
    cases ht'

end

theorem tail_update (h : GrantLedger s) (hstack : u.stack = update s.stack t fs)
    (hfs : ∀ f ∈ fs.tail, f.granting = none ∧ f.clearing = none) (t' : Fin n) :
    ∀ f ∈ (u.stack t').tail, f.granting = none ∧ f.clearing = none := by
  rw [hstack, update_apply]
  split_ifs
  · exact hfs
  · exact h.tail t'

theorem rest_plain (h : GrantLedger s)
    (hst : s.stack t = f :: rest) : ∀ g ∈ rest, g.granting = none ∧ g.clearing = none := by
  have ht := h.tail t
  rw [hst] at ht
  exact ht

theorem head_of_plain (h : ∀ g ∈ fs, g.granting = none ∧ g.clearing = none) :
    fs.head?.bind Frame.granting = none ∧ fs.head?.bind Frame.clearing = none := by
  cases fs with
  | nil => exact ⟨rfl, rfl⟩
  | cons f rest => exact h f mem_cons_self

section

variable (h : GrantLedger s)
include h

theorem renode (node : ObjId → CNode)
    (hslot : ∀ c i, Grantable ((node c).slots i) → Grantable (s.slot c i)) :
    GrantLedger { s with node := node } := by
  refine { h with consumed := fun o ho => ?_ }
  obtain ⟨hlt, hc⟩ := h.consumed o ho
  exact ⟨hlt, hc.imp_right fun hno hcur hg => hno hcur (hslot _ _ hg)⟩

theorem restack (fs : List Frame) (htail : ∀ f ∈ fs.tail, f.granting = none ∧ f.clearing = none)
    (hgranting : ∀ o, fs.head?.bind Frame.granting = some o → s.granting t = some o)
    (hclearing : fs.head?.bind Frame.clearing = s.clearing t) : GrantLedger (s.setStack t fs) := by
  have hgr : ∀ t' o, (s.setStack t fs).granting t' = some o → s.granting t' = some o := by
    intro t' o ho
    rw [granting_update rfl] at ho
    split_ifs at ho with ht
    · rw [ht]
      exact hgranting o ho
    · exact ho
  have hcl : ∀ t', (s.setStack t fs).clearing t' = s.clearing t' := by
    intro t'
    rw [clearing_update rfl]
    split_ifs with ht
    · rw [ht, hclearing]
    · rfl
  have hway : ∀ t' o, (s.setStack t fs).OnWay t' o → s.OnWay t' o :=
    fun t' o ho => ho.imp (hgr t' o) ((hcl t').symm.trans)
  refine { h with
    tail := h.tail_update rfl htail
    apart := fun t₁ t₂ o₁ o₂ h₁ h₂ => h.apart t₁ t₂ o₁ o₂ (hway t₁ o₁ h₁) (hway t₂ o₂ h₂)
    current := fun t' o ho => h.current t' o (hway t' o ho)
    ungranted := fun t' o ho => h.ungranted t' o (hgr t' o ho)
    consumed := fun o ho => ?_ }
  obtain ⟨hlt, hc⟩ := h.consumed o ho
  exact ⟨hlt, hc.imp_left (.imp fun t' => (hcl t').trans)⟩

theorem plain (hplain : ∀ g ∈ fs, g.granting = none ∧ g.clearing = none)
    (hclearing : s.clearing t = none) : GrantLedger (s.setStack t fs) := by
  obtain ⟨hg, hc⟩ := head_of_plain hplain
  refine h.restack fs (fun f hf => hplain f (mem_of_mem_tail hf)) (fun o ho => ?_)
    (hc.trans hclearing.symm)
  rw [hg] at ho
  cases ho

end

theorem afterFill_heads (r : Install) (hplain : ∀ g ∈ rest, g.granting = none ∧ g.clearing = none) :
    (afterFill r ++ rest).head?.bind Frame.granting = none ∧
      (afterFill r ++ rest).head?.bind Frame.clearing = r.grantSource := by
  unfold afterFill Install.grantSource
  cases r.origin with
  | kernel => exact head_of_plain hplain
  | derived q =>
    by_cases hq : q.kind = .grant <;> simp only [hq]
    · exact ⟨rfl, rfl⟩
    · exact head_of_plain hplain

theorem mem_of_mem_tail_afterFill (hf : f ∈ (afterFill r ++ rest).tail) : f ∈ rest := by
  unfold afterFill at hf
  split at hf
  · split_ifs at hf
    · exact hf
    · exact mem_of_mem_tail hf
  · exact mem_of_mem_tail hf

theorem not_grantable_of_free (hx : x.occupied = false) : ¬ Grantable x := by
  rintro ⟨hocc, -⟩
  rw [hx] at hocc
  cases hocc

section

variable (h : GrantLedger s)
include h

/-- A grant that passes its lookup while no other is under way on the slot has not been preceded by
a successful one: that would have stripped GRANT. -/
theorem startGrant {src : ObjId} (hgrant : fs.head?.bind Frame.granting = some (s.current src i))
    (hclear : fs.head?.bind Frame.clearing = none)
    (htail : ∀ f ∈ fs.tail, f.granting = none ∧ f.clearing = none) (hst : s.stack t = [])
    (hfills : 0 < s.fills src i) (hidx : i < cslotCount) (hg : Grantable (s.slot src i))
    (hbusy : ¬ s.busy src i) : GrantLedger (s.setStack t fs) := by
  have hnone : s.clearing t = none := by rw [clearing, hst]; rfl
  have hway : ∀ t' o', (s.setStack t fs).OnWay t' o' →
      (t' = t ∧ o' = s.current src i) ∨ t' ≠ t ∧ s.OnWay t' o' := by
    intro t' o' ho
    refine (onWay_update rfl ho).imp_left (.imp_right fun hhead => ?_)
    rw [hgrant, hclear] at hhead
    exact (some.inj (hhead.resolve_right nofun)).symm
  have hnew : ∀ t' o', s.OnWay t' o' → ¬ (o'.node = src ∧ o'.idx = i) :=
    fun t' o' ho hat => hbusy (busy_of_way ho hat.1 hat.2)
  constructor
  case tail => exact h.tail_update rfl htail
  case apart =>
    intro t₁ t₂ o₁ o₂ h₁ h₂ hnode hidx
    rcases hway t₁ o₁ h₁ with ⟨ht₁, rfl⟩ | ⟨-, hold₁⟩ <;>
      rcases hway t₂ o₂ h₂ with ⟨ht₂, rfl⟩ | ⟨-, hold₂⟩
    · rw [ht₁, ht₂]
    · exact absurd ⟨hnode.symm, hidx.symm⟩ (hnew t₂ o₂ hold₂)
    · exact absurd ⟨hnode, hidx⟩ (hnew t₁ o₁ hold₁)
    · exact h.apart t₁ t₂ o₁ o₂ hold₁ hold₂ hnode hidx
  case current =>
    intro t' o' ho
    rcases hway t' o' ho with ⟨rfl, rfl⟩ | ⟨-, ho⟩
    · exact ⟨rfl, hfills, hidx⟩
    · exact h.current t' o' ho
  case ungranted =>
    intro t' o' ho hmem
    rcases hway t' o' (.inl ho) with ⟨rfl, rfl⟩ | ⟨ht, -⟩
    · rcases (h.consumed _ hmem).2 with ⟨t₂, ht₂⟩ | hno
      · exact hnew t₂ _ (.inr ht₂) ⟨rfl, rfl⟩
      · exact hno rfl hg
    · rw [granting_update rfl, if_neg ht] at ho
      exact h.ungranted t' o' ho hmem
  case consumed =>
    intro o' ho'
    obtain ⟨hlt, hc⟩ := h.consumed o' ho'
    exact ⟨hlt, hc.imp_left (clearing_elsewhere rfl hnone)⟩
  case once => exact h.once

theorem strip (hst : s.stack t = .clearGrant o :: rest)
    (hu : u = { (s.setNode o.node ((s.node o.node).clearGrant o.idx)).setStack t rest with
      strips := ((s.stripped o.node o.idx).map fun p => (o, p)).toList ++ s.strips }) :
    GrantLedger u := by
  have hclr : s.clearing t = some o := by rw [clearing, hst]; rfl
  obtain ⟨hcur, -, hidx⟩ := h.current t o (.inr hclr)
  have hstack : u.stack = update s.stack t rest := congrArg State.stack hu
  have hplain := h.rest_plain hst
  obtain ⟨hg, hc⟩ := head_of_plain hplain
  have hgr := granting_update hstack
  have hcl := clearing_update hstack
  rw [hg] at hgr
  have hway : ∀ t' o', u.OnWay t' o' → s.OnWay t' o' := by
    intro t' o' ho
    obtain ⟨-, hhead⟩ | ⟨-, hold⟩ := onWay_update hstack ho
    · rw [hg, hc] at hhead
      rcases hhead with hhead | hhead <;> cases hhead
    · exact hold
  have hnarrow := narrows_update s (narrows_clearGrant (s.node o.node) o.idx)
  subst hu
  constructor
  case tail => exact h.tail_update hstack fun f hf => hplain f (mem_of_mem_tail hf)
  case apart =>
    intro t₁ t₂ o₁ o₂ h₁ h₂
    exact h.apart t₁ t₂ o₁ o₂ (hway t₁ o₁ h₁) (hway t₂ o₂ h₂)
  case current => exact fun t' o' ho => h.current t' o' (hway t' o' ho)
  case ungranted =>
    intro t' o' ho
    rw [hgr] at ho
    split_ifs at ho
    exact h.ungranted t' o' ho
  case consumed =>
    intro o' ho'
    obtain ⟨hlt, hcons⟩ := h.consumed o' ho'
    refine ⟨hlt, ?_⟩
    rcases hcons with ⟨t', ht'⟩ | hno
    · by_cases ht : t' = t
      · rw [ht, hclr] at ht'
        cases ht'
        exact .inr fun _ => not_grantable_clearGrant s hidx
      · refine .inl ⟨t', ?_⟩
        rw [hcl, if_neg ht]
        exact ht'
    · exact .inr fun he hgu => hno he (hgu.of_narrows (hnarrow _ _))
  case once =>
    refine ⟨h.once.1, ?_⟩
    intro p hp
    rcases mem_append.mp hp with hnew | hold
    · simp only [mem_toList, map_eq_some_iff] at hnew
      obtain ⟨p', hp', rfl⟩ := hnew
      unfold stripped at hp'
      simp only at hp'
      split_ifs at hp'
      exact hcur.symm.trans (some.inj hp')
    · exact h.once.2 p hold

theorem fill {gen : BitVec 32} (hst : s.stack t = .fill r :: rest) (hbusy : ¬ s.busy r.dst i)
    (hu : u = ((s.recordFill r i gen).setNode r.dst ((s.node r.dst).setSlot i x)).setStack t
      (afterFill r ++ rest)) : GrantLedger u := by
  have hstack : u.stack = update s.stack t (afterFill r ++ rest) := congrArg State.stack hu
  have hslot : ∀ c j, u.slot c j = if c = r.dst ∧ j = i then x else s.slot c j :=
    hu ▸ slot_update s r.dst i x
  have hfills : ∀ c j, u.fills c j = if c = r.dst ∧ j = i then s.fills r.dst i + 1 else s.fills c j :=
    hu ▸ fills_recordFill s r i gen
  have hgrants : u.grants = r.grantSource.toList ++ s.grants := by
    rw [hu, setStack_grants, setNode_grants, recordFill_grants, Install.grantSource]
    cases r.origin with
    | kernel => rfl
    | derived q => by_cases hq : q.kind = .grant <;> simp [hq]
  have hplain := h.rest_plain hst
  obtain ⟨hghead, hchead⟩ := afterFill_heads r hplain
  have hsource : s.granting t = r.grantSource := by rw [State.granting, hst]; rfl
  have hnone : s.clearing t = none := by rw [State.clearing, hst]; rfl
  have hgr := granting_update hstack
  have hcl := clearing_update hstack
  rw [hghead] at hgr
  rw [hchead] at hcl
  have hway : ∀ t' o, u.OnWay t' o → s.OnWay t' o := by
    intro t' o ho
    obtain ⟨rfl, hhead⟩ | ⟨-, hold⟩ := onWay_update hstack ho
    · rw [hghead, hchead, ← hsource] at hhead
      exact .inl (hhead.resolve_left nofun)
    · exact hold
  have hkeep : ∀ t' o, s.OnWay t' o → u.fills o.node o.idx = s.fills o.node o.idx := by
    intro t' o ho
    rw [hfills, if_neg]
    rintro ⟨hnode, hidx⟩
    exact hbusy (busy_of_way ho hnode hidx)
  constructor
  case tail =>
    refine h.tail_update hstack ?_
    intro f hf
    exact hplain f (mem_of_mem_tail_afterFill hf)
  case apart =>
    intro t₁ t₂ o₁ o₂ h₁ h₂
    exact h.apart t₁ t₂ o₁ o₂ (hway t₁ o₁ h₁) (hway t₂ o₂ h₂)
  case current =>
    intro t' o ho
    have hold := hway t' o ho
    rw [State.current, hkeep t' o hold]
    exact h.current t' o hold
  case ungranted =>
    intro t' o ho hmem
    rw [hgr] at ho
    split_ifs at ho with ht
    rw [hgrants] at hmem
    rcases mem_append.mp hmem with hnew | hold
    · rw [mem_toList, ← hsource] at hnew
      exact ht (h.apart t' t o o (.inl ho) (.inl hnew) rfl rfl)
    · exact h.ungranted t' o ho hold
  case consumed =>
    intro o ho
    rw [hgrants] at ho
    rcases mem_append.mp ho with hnew | hold
    · rw [mem_toList] at hnew
      obtain ⟨hcur, hpos, -⟩ := h.current t o (.inl (hsource.trans hnew))
      have hfill : o.fill = s.fills o.node o.idx - 1 := congrArg Occupancy.fill hcur.symm
      refine ⟨?_, .inl ⟨t, ?_⟩⟩
      · rw [hkeep t o (.inl (hsource.trans hnew))]
        omega
      · rw [hcl, if_pos rfl, hnew]
    · obtain ⟨hlt, hcons⟩ := h.consumed o hold
      by_cases hat : o.node = r.dst ∧ o.idx = i
      · have hup : u.fills o.node o.idx = s.fills o.node o.idx + 1 := by
          rw [hfills, if_pos hat, hat.1, hat.2]
        rw [State.current, hup]
        refine ⟨by omega, .inr ?_⟩
        intro hcur
        have hfill : s.fills o.node o.idx + 1 - 1 = o.fill := congrArg Occupancy.fill hcur
        omega
      · have hsame : u.fills o.node o.idx = s.fills o.node o.idx := by rw [hfills, if_neg hat]
        rw [State.current, hsame, hslot, if_neg hat]
        exact ⟨hlt, hcons.imp_left (clearing_elsewhere hstack hnone)⟩
  case once =>
    refine ⟨?_, ?_⟩
    · rw [hgrants]
      cases hr : r.grantSource with
      | none => exact h.once.1
      | some o => exact nodup_cons.mpr ⟨h.ungranted t o (hsource.trans hr), h.once.1⟩
    · rw [hu]
      exact h.once.2

theorem vacated (hx : x.occupied = false) (hplain : ∀ g ∈ fs, g.granting = none ∧ g.clearing = none)
    (hclearing : s.clearing t = none) :
    GrantLedger ((s.setNode c ((s.node c).setSlot i x)).setStack t fs) := by
  refine (h.plain hplain hclearing).renode _ fun c' j hg => ?_
  rw [setNode_node, slot_update] at hg
  split_ifs at hg
  · exact absurd hg (not_grantable_of_free hx)
  · exact hg

theorem plain_cons {f g : Frame} (hst : s.stack t = f :: rest)
    (hg : g.granting = none ∧ g.clearing = none) :
    ∀ f' ∈ g :: rest, f'.granting = none ∧ f'.clearing = none := by
  intro f' hf'
  rcases mem_cons.mp hf' with rfl | hold
  · exact hg
  · exact h.rest_plain hst f' hold

end

theorem clearing_of_idle (hst : s.stack t = []) : s.clearing t = none := by
  rw [clearing, hst]
  rfl

theorem clearing_of_head (hst : s.stack t = f :: rest)
    (hf : f.clearing = none) : s.clearing t = none := by
  rw [clearing, hst]
  exact hf

theorem transition {a : Action n} (hok : GrantsApart s a) (htr : Transition s a u)
    (hh : SlotHistory s) (h : GrantLedger s) : GrantLedger u := by
  cases htr with
  | idle => exact h
  | create _ t isNode id =>
    refine { h.renode (update s.node s.next { cspaceId := id }) fun c i hg => ?_ with }
    rw [update_apply] at hg
    split_ifs at hg
    · exact absurd hg (not_grantable_of_free rfl)
    · exact hg
  | callInstall t c o type rights hst =>
    refine h.plain ?_ (clearing_of_idle hst)
    simp [Frame.granting, Frame.clearing, Install.grantSource]
  | remove t c i hst =>
    exact { h.vacated rfl (by simp [Frame.granting, Frame.clearing]) (clearing_of_idle hst) with }
  | revoke t c handle i hst =>
    refine { h.vacated rfl ?_ (clearing_of_idle hst) with }
    intro f hf
    obtain ⟨o, -, hf⟩ := mem_flatMap.mp hf
    rcases mem_pair.mp hf with rfl | rfl <;> exact ⟨rfl, rfl⟩
  | lookup => exact { h with }
  | derive _ t src dst o handle kind k ha hst hlive hl =>
    cases kind with
    | copy mask op =>
      refine { h.plain ?_ (clearing_of_idle hst) with }
      simp [Frame.granting, Frame.clearing]
    | grant =>
      obtain ⟨hidx, hocc, -, hneed, -⟩ := lookup_eq_some hl
      obtain rfl : a = .grant t src handle dst := by cases a <;> simp_all [Action.derives]
      exact { h.startGrant rfl rfl (by simp [Frame.granting, Frame.clearing]) hst
        (hh.filled src _ hocc) hidx ⟨hocc, hneed⟩ (hok _ rfl) with }
  | releaseCreator t o hst | releasePin t o hst =>
    refine { h.plain ?_ (clearing_of_idle hst) with }
    simp [Frame.granting, Frame.clearing]
  | clearGrant t c i =>
    exact h.renode _ fun c' j => .of_narrows (narrows_update s (narrows_clearGrant _ i) c' j)
  | setPolicyWord t c word =>
    have hn : ∀ j, (((s.node c).setPolicyWord word).slots j).Narrows (s.slot c j) := fun _ => .refl _
    exact h.renode _ fun c' j => .of_narrows (narrows_update s hn c' j)
  | markRevoked => exact { h with }
  | reread t q rest type rights hst =>
    refine h.restack _ (h.rest_plain hst) (fun o ho => ?_) (clearing_of_head hst rfl).symm
    rw [granting, hst]
    exact ho
  | acquire t r rest k hst =>
    refine { h.restack (.fill r :: rest) (h.rest_plain hst) (fun o ho => ?_)
      (clearing_of_head hst rfl).symm with }
    rw [granting, hst]
    exact ho
  | abandon t f rest hst _ _ hf =>
    refine h.plain (h.rest_plain hst) (clearing_of_head hst ?_)
    cases f with
    | clearGrant o => exact absurd rfl (hf o)
    | _ => rfl
  | fill t r rest i hst hlive hfree =>
    have htakes : s.takes (.resume t) = some (r.dst, i) := by
      simp only [takes, hst, List.head?_cons, hfree, map_some]
    exact h.fill hst (hok _ htakes) rfl
  | full t r rest hst | disposeSkip t c i rest hst =>
    exact h.plain (h.plain_cons hst ⟨rfl, rfl⟩) (clearing_of_head hst rfl)
  | strip t o rest hst => exact h.strip hst rfl
  | mark t o rest hst | release t o rest hst =>
    exact { h.plain (h.rest_plain hst) (clearing_of_head hst rfl) with }
  | lastRelease t o rest hst =>
    refine { h.plain ?_ (clearing_of_head hst rfl) with }
    split_ifs
    · exact h.plain_cons hst ⟨rfl, rfl⟩
    · exact h.rest_plain hst
  | disposeSlot t c i rest o hst =>
    refine h.vacated rfl (fun f hf => ?_) (clearing_of_head hst rfl)
    rcases mem_cons.mp hf with rfl | hf
    · exact ⟨rfl, rfl⟩
    · exact h.plain_cons hst ⟨rfl, rfl⟩ f hf

end GrantLedger

/-- Mint-once in every state of every run that keeps grants and installs of a slot apart. -/
theorem mint_once_of_grantsApart {s : State n} {as : List (Action n)}
    (hr : Run step GrantsApart (init n) as s) : MintOnce s := by
  have hinv : SlotHistory s ∧ GrantLedger s := by
    refine hr.invariant (I := fun s => SlotHistory s ∧ GrantLedger s) ?_
      ⟨slotHistory_init n, grantLedger_init n⟩
    rintro s a u ⟨hh, hl⟩ hok hs
    have htr := step_transition hs
    exact ⟨hh.transition htr, hl.transition hok htr hh⟩
  exact hinv.2.once

/-- A capability with GRANT in node `0`, and a second node to grant to. -/
def grantSetup : List (Action 2) :=
  [.createNode 0 0#32, .createNode 0 1#32, .createObject 0,
    .install 0 0 2 .frame (CapRights.read ||| CapRights.grant), .resume 0, .resume 0]

def grantTwice : List (Action 2) :=
  grantSetup ++ [.grant 0 0 0#64 1, .resume 0, .resume 0, .resume 0, .resume 0, .resume 0,
    .grant 1 0 0#64 1]

theorem mint_once_grantTwice :
    ∃ s, Run step GrantsApart (init 2) grantTwice s ∧
      s.grants = [⟨0, 0, 0⟩] ∧ s.strips = [(⟨0, 0, 0⟩, ⟨0, 0, 0⟩)] ∧ MintOnce s := by
  let s := (exec step GrantsApart (init 2) grantTwice).getD (init 2)
  have hr : Run step GrantsApart (init 2) grantTwice s := .of_exec rfl
  exact ⟨s, hr, rfl, rfl, mint_once_of_grantsApart hr⟩

def grantRace : List (Action 2) :=
  grantSetup ++ [.grant 0 0 0#64 1, .grant 1 0 0#64 1, .resume 0, .resume 0, .resume 0,
    .resume 1, .resume 1, .resume 1]

/-- The granted capability is removed and another one installed in its slot before the clear. -/
def grantRecycled : List (Action 2) :=
  grantSetup ++ [.grant 0 0 0#64 1, .resume 0, .resume 0, .resume 0,
    .remove 1 0 0, .resume 1, .install 1 0 2 .frame CapRights.grant, .resume 1, .resume 1,
    .resume 0]

theorem mint_once_fails :
    (∃ s, Run step anyStep (init 2) grantRace s ∧
      s.grants = [⟨0, 0, 0⟩, ⟨0, 0, 0⟩] ∧ ¬ MintOnce s) ∧
    ∃ s, Run step anyStep (init 2) grantRecycled s ∧
      s.strips = [(⟨0, 0, 0⟩, ⟨0, 0, 1⟩)] ∧ ¬ MintOnce s := by
  constructor
  · let s := (exec step anyStep (init 2) grantRace).getD (init 2)
    have hg : s.grants = [⟨0, 0, 0⟩, ⟨0, 0, 0⟩] := rfl
    refine ⟨s, .of_exec rfl, hg, ?_⟩
    rintro ⟨hnodup, -⟩
    revert hnodup
    decide
  · let s := (exec step anyStep (init 2) grantRecycled).getD (init 2)
    have hs : s.strips = [(⟨0, 0, 0⟩, ⟨0, 0, 1⟩)] := rfl
    refine ⟨s, .of_exec rfl, hs, ?_⟩
    rintro ⟨-, hstrips⟩
    revert hstrips
    decide

end Nexios.Cap
